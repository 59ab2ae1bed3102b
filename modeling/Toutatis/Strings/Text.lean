import Toutatis.Console.Vsprintf
import Toutatis.Strings.Move

/-!
# Strings with a terminator

A shallow embedding of `strcpy`, `strncpy` and `strcat` of `kernel/string.c` over the flat
memory, with the `strlen` that `vsprintf` uses. A string lies inside the address space, so an
index into it does not wrap. `written` is not in the source: it lists the addresses that
`strncpy` stores to.

`strlen` counts the terminator, and `strcat` takes it for the place where the first string
ends: the second string lands behind the terminator of the first.

## Key results

- `strlen_text`: `strlen` is one more than the index of the terminator
- `strcat_text`: after `strcat` the string at `dst` is the one that was there before
- `strncpy_written`: the bytes that `strncpy` stores to
- `strncpy_within_iff`: when `strncpy` stays in its `n` bytes
-/

namespace Toutatis.Strings

open ByteMem

/-! ## The functions -/

/-- `for (i = 0; src[i]; ++i) dst[i] = src[i]`: the memory, and `i`. -/
def strcpyLoop (dst src : Nat) : (fuel i : Nat) → Mem → Option (Mem × Nat)
  | 0, _, _ => none
  | fuel + 1, i, m =>
    if m (src + i) ≠ 0 then strcpyLoop dst src fuel (i + 1) (store8 m (dst + i) (m (src + i)))
    else some (m, i)

/-- `strcpy`: the memory it leaves, and `dst`. -/
def strcpy (m : Mem) (dst src : Nat) : Option (Mem × Nat) :=
  (strcpyLoop dst src (2 ^ 32) 0 m).map fun (m, i) => (store8 m (dst + i) 0, dst)

/-- `strcat`: the memory it leaves, and `dst`. -/
def strcat (m : Mem) (dst src : Nat) : Option (Mem × Nat) :=
  (strlen m dst).bind fun offset =>
    (strcpy m (dst + offset) src).map fun (m, _) => (m, dst)

/-- The memory, and the addresses stored to. -/
structure Copy where
  mem : Mem
  written : List Nat

/-- `*p = b` -/
def Copy.put (c : Copy) (p : Nat) (b : UInt8) : Copy := ⟨store8 c.mem p b, c.written ++ [p]⟩

/-- `for (i = 0; src[i] && n > 0; ++i, --n) dst[i] = src[i]`: the copy, and `i`. -/
def strncpyLoop (dst src : Nat) : (n i : Nat) → Copy → Copy × Nat
  | 0, i, c => (c, i)
  | n + 1, i, c =>
    if c.mem (src + i) ≠ 0 then
      strncpyLoop dst src n (i + 1) (c.put (dst + i) (c.mem (src + i)))
    else (c, i)

/-- `strncpy`, which returns `dst`. The loop that would fill the rest of the `n` bytes is a
    comment in the source, and its body is run once. -/
def strncpy (m : Mem) (dst src n : Nat) : Copy :=
  let (c, i) := strncpyLoop dst src n 0 ⟨m, []⟩
  c.put (dst + i) 0

/-! ## Texts -/

/-- Memory holds the text `l` and a terminator at `a`, inside the address space. -/
structure Text (m : Mem) (a : Nat) (l : List UInt8) : Prop where
  bytes : Holds m a (l ++ [0])
  nonzero : ∀ c ∈ l, c ≠ 0
  room : a + l.length < 2 ^ 32

section

variable {m m' : Mem} {a dst src n i : Nat} {c : UInt8} {l d s : List UInt8}

theorem Text.head (h : Text m a (c :: l)) : m a = c := Holds.head h.bytes

theorem Text.tail (h : Text m a (c :: l)) : Text m (a + 1) l where
  bytes := Holds.tail h.bytes
  nonzero := fun c hc => h.nonzero c (List.mem_cons_of_mem _ hc)
  room := by
    have := h.room
    rw [List.length_cons] at this
    omega

theorem Text.nil (h : Text m a []) : m a = 0 := Holds.head h.bytes

/-- A text in another memory that has the same bytes there. -/
theorem Text.congr (h : Text m a l) (hm : ∀ x, a ≤ x → x ≤ a + l.length → m' x = m x) :
    Text m' a l where
  bytes := by
    apply h.bytes.congr
    intro x h1 h2
    rw [List.length_append, List.length_singleton] at h2
    exact hm x h1 (by omega)
  nonzero := h.nonzero
  room := h.room

theorem Text.getElem (h : Text m a l) (hi : i < l.length) : m (a + i) = l[i] := by
  apply h.bytes
  rw [List.getElem?_append_left hi, List.getElem?_eq_getElem hi]

theorem Text.ne_zero (h : Text m a l) (hi : i < l.length) : m (a + i) ≠ 0 := by
  rw [h.getElem hi]
  exact h.nonzero _ (List.getElem_mem hi)

theorem Text.terminator (h : Text m a l) : m (a + l.length) = 0 := by
  apply h.bytes
  rw [List.getElem?_append_right (Nat.le_refl _), Nat.sub_self]
  rfl

/-- The text at an address is determined by the memory. -/
theorem Text.length_unique (h : Text m a l) (h' : Text m a d) : l.length = d.length := by
  rcases Nat.lt_trichotomy l.length d.length with hlt | heq | hgt
  · exact absurd h.terminator (h'.ne_zero hlt)
  · exact heq
  · exact absurd h'.terminator (h.ne_zero hgt)

theorem Text.endsAt (h : Text m a l) : EndsAt m a l.length :=
  ⟨h.terminator, fun _ hk => h.ne_zero hk⟩

/-- `strlen` returns, with one more than the index of the terminator. -/
theorem strlen_text (h : Text m a l) : strlen m a = some (l.length + 1) := by
  -- the loop from any index of the text on, with fuel for the rest of it
  have hloop : ∀ fuel ret, ret ≤ l.length → l.length < fuel + ret →
      ∃ len, strlenLoop m a fuel ret = some len := by
    intro fuel
    induction fuel with
    | zero =>
      intro ret hle hlt
      omega
    | succ fuel ih =>
      intro ret hle hlt
      unfold strlenLoop
      by_cases hz : m (a + ret) ≠ 0
      · rw [if_pos hz]
        have hne : ret ≠ l.length := by
          intro heq
          rw [heq, h.terminator] at hz
          exact hz rfl
        exact ih (ret + 1) (by omega) (by omega)
      · rw [if_neg hz]
        exact ⟨_, rfl⟩
  have hroom := h.room
  obtain ⟨len, hlen⟩ := hloop (2 ^ 32) 0 (Nat.zero_le _) (by omega)
  have heq : strlen m a = some len := hlen
  rw [heq, strlen_eq h.endsAt heq]

/-! ## Copies -/

/-- The copy loop of `strcpy` from the index `i` on, where what it writes is not read later. -/
theorem strcpyLoop_text (fuel dst i : Nat) (h : Text m (src + i) l) (hfuel : l.length < fuel)
    (hoff : ∀ k j, k < l.length → j ≤ l.length → k < j → dst + i + k ≠ src + i + j) :
    ∃ m', strcpyLoop dst src fuel i m = some (m', i + l.length) ∧
      (∀ k, k < l.length → m' (dst + i + k) = m (src + i + k)) ∧
      (∀ x, x < dst + i ∨ dst + i + l.length ≤ x → m' x = m x) := by
  induction l generalizing m i fuel with
  | nil =>
    obtain ⟨fuel, rfl⟩ := Nat.exists_eq_succ_of_ne_zero (Nat.ne_of_gt hfuel)
    refine ⟨m, ?_, ?_, ?_⟩
    · unfold strcpyLoop
      rw [if_neg (not_not.mpr h.nil)]
      rfl
    · intro k hk
      exact absurd hk (Nat.not_lt_zero _)
    · intro x _
      rfl
  | cons c l ih =>
    obtain ⟨fuel, rfl⟩ := Nat.exists_eq_succ_of_ne_zero
      (Nat.ne_of_gt (Nat.lt_of_le_of_lt (Nat.zero_le _) hfuel))
    rw [List.length_cons] at hfuel hoff ⊢
    have hne : m (src + i) ≠ 0 := by
      rw [h.head]
      exact h.nonzero c List.mem_cons_self
    have hnext : Text (store8 m (dst + i) (m (src + i))) (src + (i + 1)) l := by
      apply h.tail.congr
      intro x h1 h2
      apply store8_of_ne
      -- the byte written is not one of the rest of the source
      obtain ⟨j, rfl⟩ : ∃ j, x = src + i + 1 + j := ⟨x - (src + i + 1), by omega⟩
      have := hoff 0 (j + 1) (by omega) (by omega) (by omega)
      omega
    obtain ⟨m', hm', hcopied, hframe⟩ := ih fuel (i + 1) hnext (by omega) (by
      intro k j hk hj hkj
      have := hoff (k + 1) (j + 1) (by omega) (by omega) (by omega)
      omega)
    refine ⟨m', ?_, ?_, ?_⟩
    · unfold strcpyLoop
      rw [if_pos hne, hm']
      congr 2
      omega
    · intro k hk
      cases k with
      | zero =>
        rw [Nat.add_zero, Nat.add_zero, hframe _ (Or.inl (by omega)), store8_self]
      | succ k =>
        have := hcopied k (by omega)
        rw [show dst + i + (k + 1) = dst + (i + 1) + k by omega, this,
          show src + i + (k + 1) = src + (i + 1) + k by omega]
        apply store8_of_ne
        have := hoff 0 (k + 1) (by omega) (by omega) (by omega)
        omega
    · intro x hx
      rw [hframe x (by omega), store8_of_ne _ (by omega)]

/-- `strcpy` into a place that the source does not overlap, but for its terminator. -/
theorem strcpy_text (dst : Nat) (h : Text m src s) (hdst : dst + s.length < 2 ^ 32)
    (hoff : src + s.length < dst ∨ dst + s.length ≤ src) :
    ∃ m', strcpy m dst src = some (m', dst) ∧ Text m' dst s ∧
      (∀ x, x < dst ∨ dst + s.length < x → m' x = m x) := by
  have hroom := h.room
  -- the loop stops at the terminator, which is stored behind it
  obtain ⟨m₁, hm₁, hcopied, hframe⟩ := strcpyLoop_text (2 ^ 32) dst 0 h (by omega) (by
      intro k j hk hj hkj
      omega)
  rw [Nat.zero_add, Nat.add_zero, Nat.add_zero] at *
  refine ⟨store8 m₁ (dst + s.length) 0, ?_, ?_, ?_⟩
  · unfold strcpy
    rw [hm₁]
    rfl
  · refine ⟨?_, h.nonzero, hdst⟩
    rw [holds_append]
    refine ⟨?_, ?_⟩
    · intro k b hk
      obtain ⟨hlt, rfl⟩ := List.getElem?_eq_some_iff.mp hk
      rw [store8_of_ne _ (by omega), hcopied k hlt, h.getElem hlt]
    · exact holds_singleton.mpr (store8_self _)
  · intro x hx
    rw [store8_of_ne _ (by omega), hframe x (by omega)]

/-- After `strcat` the string at `dst` is what it was: the copy starts behind its terminator. -/
theorem strcat_text (hd : Text m dst d) (hs : Text m src s)
    (hroom : dst + (d.length + s.length + 1) < 2 ^ 32)
    (hoff : src + s.length < dst ∨ dst + (d.length + s.length + 1) ≤ src) :
    ∃ m', strcat m dst src = some (m', dst) ∧ Text m' dst d ∧ Text m' (dst + (d.length + 1)) s := by
  obtain ⟨m', hm', htext, hframe⟩ := strcpy_text (dst + (d.length + 1)) hs (by omega) (by omega)
  refine ⟨m', ?_, ?_, htext⟩
  · unfold strcat
    rw [strlen_text hd, Option.bind_some, hm']
    rfl
  · apply hd.congr
    intro x h1 h2
    exact hframe x (Or.inl (by omega))

end

/-- What `strlen` and `strcat` are for: the length is the index of the terminator, and the
    strings `d` at `dst` and `s` at `src` are joined. -/
def Joins (m : Mem) (dst src : Nat) (d s : List UInt8) : Prop :=
  strlen m dst = some d.length ∧ strlen m src = some s.length ∧
    ∃ m', strcat m dst src = some (m', dst) ∧ Text m' dst (d ++ s) ∧
      strlen m' dst = some (d.length + s.length)

/-- **`strlen` and `strcat` on every pair of strings.** A length is always one too large, and
    with room for both at `dst` the string there is kept by `strcat`: the two are joined only
    when the second is empty, and the length of the result is never the sum. -/
theorem strlen_strcat_never (m : Mem) (dst src : Nat) (d s : List UInt8) (hd : Text m dst d)
    (hs : Text m src s) :
    strlen m dst ≠ some d.length ∧ ¬ Joins m dst src d s ∧
    (dst + (d.length + s.length + 1) < 2 ^ 32 →
      (src + s.length < dst ∨ dst + (d.length + s.length + 1) ≤ src) →
      ∃ m', strcat m dst src = some (m', dst) ∧ (Text m' dst (d ++ s) ↔ s = []) ∧
        ∀ len₁ len₂ len, strlen m dst = some len₁ → strlen m src = some len₂ →
          strlen m' dst = some len → len ≠ len₁ + len₂) := by
  have hne : strlen m dst ≠ some d.length := by
    rw [strlen_text hd]
    intro h
    have := Option.some.inj h
    omega
  refine ⟨hne, fun h => hne h.1, ?_⟩
  intro hroom hoff
  -- strcat keeps the first string with its terminator, so only an empty second one is joined
  obtain ⟨m', hm', hkept, -⟩ := strcat_text hd hs hroom hoff
  refine ⟨m', hm', ?_, ?_⟩
  · constructor
    · intro hjoined
      have hlen := hkept.length_unique hjoined
      rw [List.length_append] at hlen
      exact List.eq_nil_of_length_eq_zero (by omega)
    · rintro rfl
      rwa [List.append_nil]
  · intro len₁ len₂ len h₁ h₂ h
    rw [strlen_text hd] at h₁
    rw [strlen_text hs] at h₂
    rw [strlen_text hkept] at h
    have e₁ := Option.some.inj h₁
    have e₂ := Option.some.inj h₂
    have e := Option.some.inj h
    omega

/-- The strings `"a"` at `0x100` and `"b"` at `0x200`. -/
def catMem : Mem := fun x => if x = 0x100 then 97 else if x = 0x200 then 98 else 0

/-- A text of one character. -/
private theorem text_singleton {m : Mem} {a : Nat} {c : UInt8} (h : m a = c) (h0 : m (a + 1) = 0)
    (hc : c ≠ 0) (ha : a + 1 < 2 ^ 32) : Text m a [c] where
  bytes := holds_append.mpr ⟨holds_singleton.mpr h, holds_singleton.mpr h0⟩
  nonzero := by
    intro b hb
    rw [List.mem_singleton.mp hb]
    exact hc
  room := ha

/-- Joining `"a"` and `"b"` leaves `"a"`, and `"b"` behind its terminator. -/
theorem strcat_misses :
    Text catMem 0x100 [97] ∧ Text catMem 0x200 [98] ∧ strlen catMem 0x100 = some 2 ∧
    ¬ Joins catMem 0x100 0x200 [97] [98] ∧
    ∃ m', strcat catMem 0x100 0x200 = some (m', 0x100) ∧ m' 0x101 = 0 ∧ m' 0x102 = 98 ∧
      strlen m' 0x100 = some 2 := by
  have ha : Text catMem 0x100 [97] := text_singleton (by decide) (by decide) (by decide) (by decide)
  have hb : Text catMem 0x200 [98] := text_singleton (by decide) (by decide) (by decide) (by decide)
  refine ⟨ha, hb, strlen_text ha, ?_, _, rfl, by decide, by decide, by decide⟩
  intro h
  exact absurd (h.1.symm.trans (strlen_text ha)) (by decide)

/-- The law at `"a"` and `"b"`. -/
theorem strlen_strcat_never_ab : ¬ Joins catMem 0x100 0x200 [97] [98] :=
  (strlen_strcat_never catMem 0x100 0x200 [97] [98]
    (text_singleton (by decide) (by decide) (by decide) (by decide))
    (text_singleton (by decide) (by decide) (by decide) (by decide))).2.1

/-! ## The bound of strncpy -/

section

variable {m : Mem} {dst src n i : Nat} {c : Copy} {l : List UInt8}

/-- The loop stores to the bytes from the index it starts at up to the one it ends at. -/
theorem strncpyLoop_written (dst src n i : Nat) (c : Copy) :
    ∃ k, (strncpyLoop dst src n i c).2 = i + k ∧ k ≤ n ∧
      (strncpyLoop dst src n i c).1.written = c.written ++ List.range' (dst + i) k := by
  induction n generalizing i c with
  | zero => exact ⟨0, rfl, Nat.le_refl _, (List.append_nil _).symm⟩
  | succ n ih =>
    unfold strncpyLoop
    by_cases hne : c.mem (src + i) ≠ 0
    · -- one more byte is copied
      rw [if_pos hne]
      obtain ⟨k, hk, hle, hwritten⟩ := ih (i + 1) (c.put (dst + i) (c.mem (src + i)))
      refine ⟨k + 1, by omega, by omega, ?_⟩
      rw [hwritten, List.range'_succ]
      show c.written ++ [dst + i] ++ _ = _
      rw [List.append_assoc, List.singleton_append, Nat.add_assoc]
    · -- the terminator of the source
      rw [if_neg hne]
      exact ⟨0, rfl, Nat.zero_le _, (List.append_nil _).symm⟩

/-- A copy that does not reach into the rest of the source ends at its terminator or after `n`
    bytes. -/
theorem strncpyLoop_apart {len : Nat} (hi : i ≤ len)
    (hne : ∀ j, i ≤ j → j < len → c.mem (src + j) ≠ 0) (hz : c.mem (src + len) = 0)
    (hoff : dst ≤ src ∨ src + len < dst) :
    (strncpyLoop dst src n i c).2 = min (i + n) len := by
  induction n generalizing i c with
  | zero =>
    show i = _
    omega
  | succ n ih =>
    unfold strncpyLoop
    by_cases hend : i = len
    · subst hend
      rw [if_neg (not_not.mpr hz)]
      show i = _
      omega
    · rw [if_pos (hne i (Nat.le_refl _) (by omega))]
      -- the byte just written is none of those still to be read
      have hread : ∀ j, i + 1 ≤ j → j ≤ len →
          (c.put (dst + i) (c.mem (src + i))).mem (src + j) = c.mem (src + j) := by
        intro j h1 h2
        exact store8_of_ne _ (by omega)
      rw [ih (by omega) ?_ ?_]
      · omega
      · intro j h1 h2
        rw [hread j h1 (by omega)]
        exact hne j (by omega) h2
      · rw [hread len (by omega) (Nat.le_refl _), hz]

/-- A copy into the rest of the source overwrites the terminator before it is read, and goes on
    for all `n` bytes. -/
theorem strncpyLoop_over (hlt : src < dst)
    (hne : ∀ x, src + i ≤ x → x < dst + i → c.mem x ≠ 0) :
    (strncpyLoop dst src n i c).2 = i + n := by
  induction n generalizing i c with
  | zero => rfl
  | succ n ih =>
    unfold strncpyLoop
    have hread : c.mem (src + i) ≠ 0 := hne _ (Nat.le_refl _) (by omega)
    rw [if_pos hread, ih]
    · omega
    · intro x h1 h2
      show store8 c.mem (dst + i) (c.mem (src + i)) x ≠ 0
      -- the byte that has just been written is one of those read later, and not null
      by_cases hx : x = dst + i
      · rw [hx, store8_self]
        exact hread
      · rw [store8_of_ne _ hx]
        exact hne x (by omega) (by omega)

/-- The bytes that `strncpy` stores to: as many as it copies, and one for the terminator. -/
theorem strncpy_written (m : Mem) (dst src n : Nat) :
    (strncpy m dst src n).written =
      List.range' dst ((strncpyLoop dst src n 0 ⟨m, []⟩).2 + 1) := by
  obtain ⟨k, hk, -, hwritten⟩ := strncpyLoop_written dst src n 0 ⟨m, []⟩
  show (strncpyLoop dst src n 0 ⟨m, []⟩).1.written ++ [dst + (strncpyLoop dst src n 0 ⟨m, []⟩).2] = _
  rw [hk, hwritten, List.nil_append, Nat.zero_add, Nat.add_zero, List.range'_concat, Nat.one_mul]

/-- Where the copy of a text ends. -/
theorem strncpyLoop_end (h : Text m src l) :
    (strncpyLoop dst src n 0 ⟨m, []⟩).2 < n ↔
      l.length < n ∧ (dst ≤ src ∨ src + l.length < dst) := by
  by_cases hoff : dst ≤ src ∨ src + l.length < dst
  · rw [strncpyLoop_apart (Nat.zero_le _) (fun j _ hj => h.ne_zero hj) h.terminator hoff]
    omega
  · rw [strncpyLoop_over (by omega)]
    · omega
    · intro x h1 h2
      obtain ⟨j, rfl⟩ : ∃ j, x = src + j := ⟨x - src, by omega⟩
      exact h.ne_zero (by omega)

/-- The bytes of a text that `vsprintf` copies to `tmp`. -/
theorem length_strncpy (h : Text m src l) : (Toutatis.strncpy m src n).length = min n l.length := by
  induction n generalizing src l with
  | zero =>
    show 0 = _
    omega
  | succ n ih =>
    unfold Toutatis.strncpy
    cases l with
    | nil =>
      rw [if_neg (not_not.mpr h.nil)]
      rfl
    | cons a l =>
      have hne : m src ≠ 0 := by
        rw [h.head]
        exact h.nonzero a List.mem_cons_self
      rw [if_pos hne, List.length_cons, ih h.tail, List.length_cons]
      omega

/-- The conversion `%s` has no room in `tmp` for a text of 1024 bytes. -/
theorem output_s_ne_none {flags : Flags} {width precision : Int} (h : Text m src l) :
    Conv.output m src flags width precision .s ≠ none ↔ l.length < 1024 := by
  have hlen := length_strncpy (n := 1024) h
  show (if (Toutatis.strncpy m src 1024).length < 1024 then _ else none) ≠ none ↔ _
  by_cases hlt : (Toutatis.strncpy m src 1024).length < 1024
  · -- the copy ends within the buffer
    rw [if_pos hlt]
    constructor
    · intro _
      omega
    · intro _
      exact Option.some_ne_none _
  · -- the copy fills the buffer
    rw [if_neg hlt]
    constructor
    · intro hne
      exact absurd rfl hne
    · intro hl
      omega

end

/-- `strncpy(dst, src, n)` stores only to the `n` bytes at `dst`. -/
def Within (m : Mem) (dst src n : Nat) : Prop :=
  ∀ p ∈ (strncpy m dst src n).written, dst ≤ p ∧ p < dst + n

theorem within_iff (m : Mem) (dst src n : Nat) :
    Within m dst src n ↔ (strncpyLoop dst src n 0 ⟨m, []⟩).2 < n := by
  unfold Within
  rw [strncpy_written]
  constructor
  · intro h
    have hlast := h (dst + (strncpyLoop dst src n 0 ⟨m, []⟩).2)
      (List.mem_range'_1.mpr ⟨by omega, by omega⟩)
    omega
  · intro h p hp
    have := List.mem_range'_1.mp hp
    omega

/-- **The bound of `strncpy`.** It stays in its `n` bytes if and only if the source is shorter
    than that and the copy does not start inside it. So the conversion `%s`, whose `tmp` has
    1024 bytes and is no part of the string, stays in `tmp` if and only if the string is shorter
    than 1024. -/
theorem strncpy_within_iff (m : Mem) (dst src n : Nat) (l : List UInt8) (h : Text m src l) :
    (Within m dst src n ↔ l.length < n ∧ (dst ≤ src ∨ src + l.length < dst)) ∧
    (∀ tmp, src + l.length < tmp ∨ tmp + 1024 ≤ src →
      (Within m tmp src 1024 ↔ l.length < 1024)) ∧
    (∀ flags width precision,
      Conv.output m src flags width precision .s ≠ none ↔ l.length < 1024) := by
  refine ⟨?_, ?_, ?_⟩
  · rw [within_iff, strncpyLoop_end h]
  · intro tmp htmp
    rw [within_iff, strncpyLoop_end h]
    constructor
    · intro hw
      -- the buffer lies apart, so that only the length matters
      exact hw.1
    · intro hlt
      exact ⟨hlt, by omega⟩
  · intro flags width precision
    exact output_s_ne_none h

/-- The string `"a"` and room for two bytes. -/
theorem strncpy_within_iff_a : Text catMem 0x100 [97] ∧ Within catMem 0x300 0x100 2 := by
  have h : Text catMem 0x100 [97] := text_singleton (by decide) (by decide) (by decide) (by decide)
  exact ⟨h, (strncpy_within_iff catMem 0x300 0x100 2 [97] h).1.mpr ⟨by decide, by decide⟩⟩

/-- The string `"a"` and room for one byte: the terminator is stored behind it. -/
theorem strncpy_overruns :
    Text catMem 0x100 [97] ∧ (strncpy catMem 0x300 0x100 1).written = [0x300, 0x301] ∧
      ¬ Within catMem 0x300 0x100 1 := by
  have h : Text catMem 0x100 [97] := text_singleton (by decide) (by decide) (by decide) (by decide)
  refine ⟨h, by decide, ?_⟩
  rw [within_iff, strncpyLoop_end h]
  decide

end Toutatis.Strings
