import Toutatis.Strings.Strtol

/-!
# Comparing strings

A shallow embedding of `strcmp`, `strncmp` and `strnlen` of `kernel/string.c` over strings in
memory. The loops of the two comparisons leave an index `i`, and the characters at `i` decide:
everything up to and including index `i` has been looked at.

Both bounded functions look at one character too many. `strncmp` tests `n > 0` last and then
compares the characters behind the first `n`; `strnlen` reads a character before it counts
`n` down, and returns the number of characters that it read.

## Key results

- `strcmp_text`: `strcmp` of equal texts is zero
- `strncmpLoop_spec`: where the loop of `strncmp` stops
- `strnlen_eq`: what `strnlen` returns
- `strncmp_bounded_iff`: when `strncmp` is bounded by `n`, and that `strnlen` never is
-/

namespace Toutatis.Strings

open ByteMem

/-! ## The functions -/

/-- The comparison that both loops end with; a `char` is signed. -/
def compareChars (a b : UInt8) : Int :=
  if signedChar a > signedChar b then 1
  else if a = b then 0
  else -1

/-- `for (i = 0; s1[i] != 0 && s1[i] == s2[i]; ++i)`: the `i` it leaves. -/
def strcmpLoop (m : Mem) (s1 s2 : Nat) : (fuel i : Nat) → Option Nat
  | 0, _ => none
  | fuel + 1, i =>
    if m (s1 + i) ≠ 0 ∧ m (s1 + i) = m (s2 + i) then strcmpLoop m s1 s2 fuel (i + 1)
    else some i

/-- `strcmp` -/
def strcmp (m : Mem) (s1 s2 : Nat) : Option Int :=
  (strcmpLoop m s1 s2 (2 ^ 32) 0).map fun i => compareChars (m (s1 + i)) (m (s2 + i))

/-- `for (i = 0; s1[i] != 0 && s1[i] == s2[i] && n > 0; ++i, --n)`: the `i` it leaves. -/
def strncmpLoop (m : Mem) (s1 s2 : Nat) : (n i : Nat) → Nat
  | 0, i => i
  | n + 1, i =>
    if m (s1 + i) ≠ 0 ∧ m (s1 + i) = m (s2 + i) then strncmpLoop m s1 s2 n (i + 1)
    else i

/-- `strncmp` -/
def strncmp (m : Mem) (s1 s2 n : Nat) : Int :=
  let i := strncmpLoop m s1 s2 n 0
  compareChars (m (s1 + i)) (m (s2 + i))

/-- `while (str[ret++] && n--)`: the `ret` it leaves, which is the number of characters read. -/
def strnlenLoop (m : Mem) (str : Nat) : (n ret : Nat) → Nat
  | 0, ret => ret + 1
  | n + 1, ret => if m (str + ret) ≠ 0 then strnlenLoop m str n (ret + 1) else ret + 1

/-- `strnlen` -/
def strnlen (m : Mem) (str n : Nat) : Nat := strnlenLoop m str n 0

section

variable {m : Mem} {s1 s2 str n i j k z fuel : Nat} {l d : List UInt8}

/-! ## Two characters -/

theorem signedChar_injective {a b : UInt8} (h : signedChar a = signedChar b) : a = b := by
  unfold signedChar at h
  have ha := a.toNat_lt
  have hb := b.toNat_lt
  apply UInt8.toNat_inj.mp
  rw [Int.bmod_def, Int.bmod_def] at h
  split at h <;> split at h <;> omega

theorem compareChars_eq_zero_iff {a b : UInt8} : compareChars a b = 0 ↔ a = b := by
  unfold compareChars
  by_cases hgt : signedChar a > signedChar b
  · -- the first character is the greater one
    rw [if_pos hgt]
    constructor
    · intro h
      omega
    · intro h
      subst h
      omega
  · rw [if_neg hgt]
    by_cases heq : a = b
    · rw [if_pos heq]
      exact ⟨fun _ => heq, fun _ => rfl⟩
    · rw [if_neg heq]
      exact ⟨fun h => by omega, fun h => absurd h heq⟩

/-- The comparison has the sign of the difference of the two characters. -/
theorem sign_compareChars (a b : UInt8) :
    (compareChars a b).sign = (signedChar a - signedChar b).sign := by
  unfold compareChars
  by_cases hgt : signedChar a > signedChar b
  · rw [if_pos hgt, Int.sign_eq_one_of_pos (show 0 < signedChar a - signedChar b by omega)]
    rfl
  · rw [if_neg hgt]
    by_cases heq : a = b
    · rw [if_pos heq, heq, Int.sub_self]
    · have hne : signedChar a ≠ signedChar b := fun h => heq (signedChar_injective h)
      rw [if_neg heq, Int.sign_eq_neg_one_of_neg (show signedChar a - signedChar b < 0 by omega)]
      rfl

/-! ## The loops -/

/-- The loop goes on at index `i`. -/
def Same (m : Mem) (s1 s2 i : Nat) : Prop := m (s1 + i) ≠ 0 ∧ m (s1 + i) = m (s2 + i)

/-- The loop stops at the first index where it cannot go on, or after `n` steps. -/
theorem strncmpLoop_spec (m : Mem) (s1 s2 n i : Nat) :
    i ≤ strncmpLoop m s1 s2 n i ∧ strncmpLoop m s1 s2 n i ≤ i + n ∧
      (∀ k, i ≤ k → k < strncmpLoop m s1 s2 n i → Same m s1 s2 k) ∧
      (strncmpLoop m s1 s2 n i < i + n → ¬ Same m s1 s2 (strncmpLoop m s1 s2 n i)) := by
  induction n generalizing i with
  | zero =>
    unfold strncmpLoop
    exact ⟨Nat.le_refl _, Nat.le_refl _, fun k h1 h2 => by omega, fun h => by omega⟩
  | succ n ih =>
    unfold strncmpLoop
    by_cases hs : m (s1 + i) ≠ 0 ∧ m (s1 + i) = m (s2 + i)
    · rw [if_pos hs]
      obtain ⟨hlo, hhi, hsame, hstop⟩ := ih (i + 1)
      refine ⟨by omega, by omega, ?_, fun h => hstop (by omega)⟩
      -- index `i` was just tested, the ones behind it are those of the tail
      intro k h1 h2
      by_cases hk : k = i
      · subst hk
        exact hs
      · exact hsame k (by omega) h2
    · rw [if_neg hs]
      exact ⟨Nat.le_refl _, by omega, fun k h1 h2 => by omega, fun _ => hs⟩

/-- An index at which the loop stops, with all before it the same, is the one that it leaves. -/
theorem strncmpLoop_eq (hk : k < n) (hsame : ∀ i < k, Same m s1 s2 i) (hstop : ¬ Same m s1 s2 k) :
    strncmpLoop m s1 s2 n 0 = k := by
  obtain ⟨-, hhi, hall, hend⟩ := strncmpLoop_spec m s1 s2 n 0
  -- it neither stops before `k` nor passes it
  rcases Nat.lt_trichotomy (strncmpLoop m s1 s2 n 0) k with hlt | heq | hgt
  · exact absurd (hsame _ hlt) (hend (by omega))
  · exact heq
  · exact absurd (hall k (Nat.zero_le _) hgt) hstop

/-- Strings that are the same for `n` characters: the loop makes all of its `n` steps. -/
theorem strncmpLoop_eq_length (hsame : ∀ i < n, Same m s1 s2 i) :
    strncmpLoop m s1 s2 n 0 = n := by
  obtain ⟨-, hhi, -, hend⟩ := strncmpLoop_spec m s1 s2 n 0
  by_contra hne
  exact hend (by omega) (hsame _ (by omega))

/-- The loop does not reach `n` exactly when it stops at one of the first `n` characters. -/
theorem strncmpLoop_lt_iff :
    strncmpLoop m s1 s2 n 0 < n ↔ ∃ i < n, m (s1 + i) = 0 ∨ m (s1 + i) ≠ m (s2 + i) := by
  obtain ⟨-, -, hall, hend⟩ := strncmpLoop_spec m s1 s2 n 0
  constructor
  · intro hlt
    refine ⟨_, hlt, ?_⟩
    have hstop := hend (by omega)
    unfold Same at hstop
    tauto
  · intro h
    obtain ⟨i, hi, hstop⟩ := h
    by_contra hge
    have := hall i (Nat.zero_le _) (by omega)
    unfold Same at this
    tauto

/-- `strnlen` reads up to the terminator or one character behind the first `n`. -/
theorem strnlenLoop_eq (hz : m (str + z) = 0) (hne : ∀ k < z, m (str + k) ≠ 0) (hi : i ≤ z) :
    strnlenLoop m str n i = min (i + n) z + 1 := by
  induction n generalizing i with
  | zero =>
    unfold strnlenLoop
    omega
  | succ n ih =>
    unfold strnlenLoop
    by_cases hend : i = z
    · subst hend
      rw [if_neg (by simp only [hz]; decide)]
      omega
    · rw [if_pos (hne i (by omega)), ih (by omega)]
      omega

/-- The value that `strnlen` returns: one more than the smaller one of `n` and the length. -/
theorem strnlen_eq (h : EndsAt m str z) : strnlen m str n = min n z + 1 := by
  unfold strnlen
  rw [strnlenLoop_eq h.1 h.2 (Nat.zero_le _), Nat.zero_add]

/-- Without a terminator in its first `n` characters the loop reads `n + 1` characters. -/
theorem strnlenLoop_of_ne_zero (h : ∀ k, i ≤ k → k < i + n → m (str + k) ≠ 0) :
    strnlenLoop m str n i = i + n + 1 := by
  induction n generalizing i with
  | zero =>
    unfold strnlenLoop
    rfl
  | succ n ih =>
    unfold strnlenLoop
    rw [if_pos (h i (Nat.le_refl _) (by omega)), ih fun k h1 h2 => h k (by omega) (by omega)]
    omega

/-! ## Whole texts -/

theorem strcmpLoop_eq (hsame : ∀ k, i ≤ k → k < j → Same m s1 s2 k) (hstop : ¬ Same m s1 s2 j)
    (hij : i ≤ j) (hfuel : j < fuel + i) : strcmpLoop m s1 s2 fuel i = some j := by
  induction fuel generalizing i with
  | zero => omega
  | succ fuel ih =>
    unfold strcmpLoop
    by_cases hend : i = j
    · subst hend
      exact if_neg hstop
    · have hs := hsame i (Nat.le_refl _) (by omega)
      unfold Same at hs
      rw [if_pos hs]
      exact ih (fun k h1 h2 => hsame k (by omega) h2) (by omega) (by omega)

/-- `strcmp` of a text with itself, at two places: the strings are equal. -/
theorem strcmp_text (h1 : Text m s1 l) (h2 : Text m s2 l) : strcmp m s1 s2 = some 0 := by
  have hsame : ∀ k, 0 ≤ k → k < l.length → Same m s1 s2 k := by
    intro k _ hk
    exact ⟨h1.ne_zero hk, by rw [h1.getElem hk, h2.getElem hk]⟩
  have hstop : ¬ Same m s1 s2 l.length := fun h => h.1 h1.terminator
  have hroom := h1.room
  have hloop := strcmpLoop_eq hsame hstop (Nat.zero_le _) (show l.length < 2 ^ 32 + 0 by omega)
  have hequal : compareChars (m (s1 + l.length)) (m (s2 + l.length)) = 0 := by
    rw [compareChars_eq_zero_iff, h1.terminator, h2.terminator]
  unfold strcmp
  rw [hloop, Option.map_some, hequal]

/-! ## The bound -/

/-- The strings agree on their first `n` characters, or up to a common terminator before. -/
def Agree (m : Mem) (s1 s2 n : Nat) : Prop :=
  (∀ i < n, m (s1 + i) = m (s2 + i)) ∨
    ∃ k < n, m (s1 + k) = 0 ∧ ∀ i ≤ k, m (s1 + i) = m (s2 + i)

/-- Index `k` is the first at which the strings differ, and none of them has ended before. -/
def FirstDifference (m : Mem) (s1 s2 k : Nat) : Prop :=
  m (s1 + k) ≠ m (s2 + k) ∧ ∀ i < k, Same m s1 s2 i

/-- The value that a comparison of at most `n` characters returns. -/
structure StrncmpValue (m : Mem) (s1 s2 n : Nat) : Prop where
  zero_iff : strncmp m s1 s2 n = 0 ↔ Agree m s1 s2 n
  sign_eq : ∀ k < n, FirstDifference m s1 s2 k →
    (strncmp m s1 s2 n).sign = (signedChar (m (s1 + k)) - signedChar (m (s2 + k))).sign

/-- `strncmp` is a comparison of the first `n` characters, and looks at no others. -/
structure StrncmpBounded (m : Mem) (s1 s2 n : Nat) : Prop where
  looked : strncmpLoop m s1 s2 n 0 + 1 ≤ n
  depends : ∀ m' : Mem, (∀ i < n, m' (s1 + i) = m (s1 + i) ∧ m' (s2 + i) = m (s2 + i)) →
    strncmp m' s1 s2 n = strncmp m s1 s2 n
  value : StrncmpValue m s1 s2 n

/-- `strnlen` is the smaller one of `n` and the length, and looks at `n` characters at most. -/
structure StrnlenBounded (m : Mem) (str n : Nat) : Prop where
  value : ∀ z, EndsAt m str z → strnlen m str n = min n z
  looked : strnlen m str n ≤ n

/-- Two strings that differ within their first `n` characters do not agree there. -/
theorem not_agree_of_firstDifference (hk : k < n) (h : FirstDifference m s1 s2 k) :
    ¬ Agree m s1 s2 n := by
  intro hagree
  cases hagree with
  | inl hall => exact h.1 (hall k hk)
  | inr hnul =>
    obtain ⟨j, -, hzero, hall⟩ := hnul
    -- the common terminator is behind the difference, or the loop has passed it
    by_cases hjk : j < k
    · exact (h.2 j hjk).1 hzero
    · exact h.1 (hall k (by omega))

/-- The value is right when the loop stops at one of the first `n` characters. -/
theorem strncmpValue_of_lt (hlt : strncmpLoop m s1 s2 n 0 < n) : StrncmpValue m s1 s2 n := by
  obtain ⟨-, -, hall, hend⟩ := strncmpLoop_spec m s1 s2 n 0
  have hstop := hend (by omega)
  generalize hj : strncmpLoop m s1 s2 n 0 = j at hlt hall hstop
  have hvalue : strncmp m s1 s2 n = compareChars (m (s1 + j)) (m (s2 + j)) := by
    show compareChars (m (s1 + strncmpLoop m s1 s2 n 0)) (m (s2 + strncmpLoop m s1 s2 n 0)) = _
    rw [hj]
  have hbefore : ∀ i < j, Same m s1 s2 i := fun i hi => hall i (Nat.zero_le _) hi
  constructor
  · rw [hvalue, compareChars_eq_zero_iff]
    constructor
    · -- the loop stopped at equal characters, which must be the two terminators
      intro heq
      right
      refine ⟨j, hlt, ?_, ?_⟩
      · by_contra hne
        exact hstop ⟨hne, heq⟩
      · intro i hi
        by_cases hij : i = j
        · rw [hij]
          exact heq
        · exact (hbefore i (by omega)).2
    · intro hagree
      by_contra hne
      exact not_agree_of_firstDifference hlt ⟨hne, hbefore⟩ hagree
  · -- the loop stops at the first difference
    intro k hk hdiff
    have hkj : j = k := by
      rw [← hj]
      exact strncmpLoop_eq hk hdiff.2 fun h => hdiff.1 h.2
    rw [hvalue, hkj]
    exact sign_compareChars _ _

/-- Strings that are the same for `n` characters: the value is right when they are equal at
    index `n` too. -/
theorem strncmpValue_iff_of_same (hsame : ∀ i < n, Same m s1 s2 i) :
    StrncmpValue m s1 s2 n ↔ m (s1 + n) = m (s2 + n) := by
  have hvalue : strncmp m s1 s2 n = compareChars (m (s1 + n)) (m (s2 + n)) := by
    show compareChars (m (s1 + strncmpLoop m s1 s2 n 0)) (m (s2 + strncmpLoop m s1 s2 n 0)) = _
    rw [strncmpLoop_eq_length hsame]
  have hagree : Agree m s1 s2 n := Or.inl fun i hi => (hsame i hi).2
  constructor
  · intro h
    have hzero := h.zero_iff.mpr hagree
    rw [hvalue] at hzero
    exact compareChars_eq_zero_iff.mp hzero
  · intro heq
    constructor
    · -- all characters are the same up to there
      rw [hvalue, compareChars_eq_zero_iff]
      exact ⟨fun _ => hagree, fun _ => heq⟩
    · -- no earlier character differs
      intro k hk hdiff
      exact absurd (hsame k hk).2 hdiff.1

/-- A memory with the same first `n` characters gives the same value when the loop stops there. -/
theorem strncmp_congr (hlt : strncmpLoop m s1 s2 n 0 < n) {m' : Mem}
    (hm : ∀ i < n, m' (s1 + i) = m (s1 + i) ∧ m' (s2 + i) = m (s2 + i)) :
    strncmp m' s1 s2 n = strncmp m s1 s2 n := by
  obtain ⟨-, -, hall, hend⟩ := strncmpLoop_spec m s1 s2 n 0
  have hsame : ∀ i < n, Same m' s1 s2 i ↔ Same m s1 s2 i := by
    intro i hi
    unfold Same
    rw [(hm i hi).1, (hm i hi).2]
  -- so the loop stops at the same index, which is one of the first `n`
  have hloop : strncmpLoop m' s1 s2 n 0 = strncmpLoop m s1 s2 n 0 := by
    apply strncmpLoop_eq hlt
    · intro i hi
      exact (hsame i (by omega)).mpr (hall i (Nat.zero_le _) hi)
    · intro h
      exact hend (by omega) ((hsame _ hlt).mp h)
  show compareChars (m' (s1 + strncmpLoop m' s1 s2 n 0)) (m' (s2 + strncmpLoop m' s1 s2 n 0)) =
    compareChars (m (s1 + strncmpLoop m s1 s2 n 0)) (m (s2 + strncmpLoop m s1 s2 n 0))
  rw [hloop, (hm _ hlt).1, (hm _ hlt).2]

theorem not_strnlenBounded (m : Mem) (str n : Nat) : ¬ StrnlenBounded m str n := by
  intro h
  by_cases hnul : ∃ z, z < n ∧ m (str + z) = 0
  · -- the terminator is found in time, and counted
    have hfirst : EndsAt m str (Nat.find hnul) := by
      refine ⟨(Nat.find_spec hnul).2, fun k hk hzero => ?_⟩
      exact Nat.find_min hnul hk ⟨Nat.lt_trans hk (Nat.find_spec hnul).1, hzero⟩
    have hvalue := h.value _ hfirst
    rw [strnlen_eq hfirst] at hvalue
    omega
  · -- no terminator in the first `n` characters: the next one is read as well
    have hread : strnlen m str n = 0 + n + 1 := by
      apply strnlenLoop_of_ne_zero
      intro k _ hk hzero
      exact hnul ⟨k, by omega, hzero⟩
    have := h.looked
    omega

/-- `strncmp` is bounded by `n` exactly when one of the strings ends, or they differ, within the
    first `n` characters; its value is right also when they are equal at index `n`. `strnlen`
    is never the bounded length. -/
theorem strncmp_bounded_iff (m : Mem) (s1 s2 str n : Nat) :
    (StrncmpBounded m s1 s2 n ↔ ∃ i < n, m (s1 + i) = 0 ∨ m (s1 + i) ≠ m (s2 + i)) ∧
      (StrncmpValue m s1 s2 n ↔
        (∃ i < n, m (s1 + i) = 0 ∨ m (s1 + i) ≠ m (s2 + i)) ∨ m (s1 + n) = m (s2 + n)) ∧
      ¬ StrnlenBounded m str n := by
  rw [← strncmpLoop_lt_iff]
  refine ⟨⟨fun h => h.looked, fun hlt => ?_⟩, ?_, not_strnlenBounded m str n⟩
  · exact ⟨hlt, fun m' hm => strncmp_congr hlt hm, strncmpValue_of_lt hlt⟩
  · by_cases hlt : strncmpLoop m s1 s2 n 0 < n
    · exact ⟨fun _ => Or.inl hlt, fun _ => strncmpValue_of_lt hlt⟩
    · -- all `n` steps are made, and the characters behind them decide
      have hsame : ∀ i < n, Same m s1 s2 i := by
        intro i hi
        exact (strncmpLoop_spec m s1 s2 n 0).2.2.1 i (Nat.zero_le _) (by omega)
      rw [strncmpValue_iff_of_same hsame]
      exact ⟨Or.inr, fun h => h.resolve_left hlt⟩

/-- The strings `ab` at 0 and `ac` at 3. -/
def pairMem : Mem := fun x => [97, 98, 0, 97, 99, 0].getD x 0

/-- `strncmp("ab", "ac", 1)` is not zero although the first characters agree, and
    `strnlen("ab", 1)` is 2. -/
theorem strncmp_looks_behind :
    ¬ StrncmpBounded pairMem 0 3 1 ∧ strncmp pairMem 0 3 1 = -1 ∧ Agree pairMem 0 3 1 ∧
      ¬ StrnlenBounded pairMem 0 1 ∧ strnlen pairMem 0 1 = 2 := by
  have hagree : Agree pairMem 0 3 1 := by
    left
    decide
  have hcmp : strncmp pairMem 0 3 1 = -1 := by decide
  have hlen : strnlen pairMem 0 1 = 2 := by decide
  refine ⟨fun h => ?_, hcmp, hagree, fun h => ?_, hlen⟩
  · have := h.value.zero_iff.mpr hagree
    omega
  · have := h.looked
    omega

end

end Toutatis.Strings
