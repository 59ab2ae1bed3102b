import Toutatis.Console.Render

/-!
# A string inside of a format

What `sprintf` of `kernel/vsprintf.c` leaves in its buffer for a format with one `%s`, with plain
characters around it. The byte behind the terminator of the format is stored too.

## Key results

- `vsprintfLoop_chars`: passes over plain characters
- `vsprintfPass_string`: the pass over `%s`
- `vsprintf_splice`: the whole format
-/

namespace Toutatis

open ByteMem

section

variable {m : Mem} {fmt n : Nat} {args : Nat → BitVec 32} {s : Printer}

/-- Stores one behind the other. -/
theorem storeAll_append (out : Nat → Option UInt8) {loc : Nat} (str str' : List UInt8)
    (h : loc + str.length < 2 ^ 32) :
    storeAll out loc (str ++ str') = storeAll (storeAll out loc str) (loc + str.length) str' := by
  induction str generalizing out loc with
  | nil => rfl
  | cons c str ih =>
    rw [List.length_cons] at h
    rw [List.cons_append, storeAll, storeAll, add32_of_lt (by omega), ih _ (by omega),
      List.length_cons, Nat.add_right_comm, Nat.add_assoc]

/-- Passes over plain characters store them. -/
theorem vsprintfLoop_chars (hlen : strlen m fmt = some (n + 1)) {l : List UInt8}
    (h : Holds m (fmt + s.i) l) (hl : ∀ c ∈ l, c ≠ 37) (hi : s.i + l.length ≤ n + 2)
    (hloc : s.loc + l.length < 2 ^ 32) (fuel : Nat) :
    ∃ s', vsprintfLoop m fmt args (fuel + l.length) s = vsprintfLoop m fmt args fuel s' ∧
      s'.i = s.i + l.length ∧ s'.loc = s.loc + l.length ∧ s'.consumed = s.consumed ∧
      s'.out = storeAll s.out s.loc l := by
  induction l generalizing s with
  | nil => exact ⟨s, rfl, rfl, rfl, rfl, rfl⟩
  | cons c l ih =>
    rw [List.length_cons] at hi hloc
    rw [List.forall_mem_cons] at hl
    have hc : m (fmt + s.i) = c := h.head
    let s₁ : Printer :=
      { s with
        i := s.i + 1
        loc := s.loc + 1
        out := storeAll s.out s.loc [c]
        stored := s.stored + 1
        far := max (max s.far (n + 1)) (s.i + 1) }
    have hstep : vsprintfLoop m fmt args (fuel + (c :: l).length) s =
        vsprintfLoop m fmt args (fuel + l.length) s₁ := by
      rw [List.length_cons, ← Nat.add_assoc, vsprintfLoop, hlen, Option.bind_some]
      simp only
      rw [if_pos (by omega), vsprintfPass]
      simp only [hc, if_neg hl.1, Option.map_some, Option.bind_some, add32_of_lt
        (show s.loc + 1 < 2 ^ 32 by omega)]
      rfl
    have htail : Holds m (fmt + s₁.i) l := by
      intro k b hk
      have := h (k + 1) b hk
      rwa [show fmt + s.i + (k + 1) = fmt + s₁.i + k by simp only [s₁]; omega] at this
    obtain ⟨s', hs', hi', hloc', hconsumed, hout⟩ := ih htail hl.2 (by simp only [s₁]; omega)
      (by simp only [s₁]; omega)
    refine ⟨s', hstep.trans hs', ?_, ?_, hconsumed, ?_⟩
    · rw [hi', List.length_cons]
      simp only [s₁]
      omega
    · rw [hloc', List.length_cons]
      simp only [s₁]
      omega
    · rw [hout]
      exact (storeAll_append s.out [c] l (by rw [List.length_singleton]; omega)).symm

/-- A pass over `%s` stores the string with its terminator, and leaves `loc` at the latter. -/
theorem vsprintfPass_string (hpercent : m (fmt + s.i) = 37) (hletter : m (fmt + (s.i + 1)) = 115)
    {str : List UInt8} (hstr : strncpy m (args s.consumed).toNat 1024 = str)
    (hlen : str.length < 1024) (hloc : s.loc + str.length < 2 ^ 32) :
    ∃ s', vsprintfPass m fmt args s = some s' ∧ s'.i = s.i + 2 ∧ s'.loc = s.loc + str.length ∧
      s'.out = storeAll s.out s.loc (str ++ [0]) := by
  have hflags : flagLoop m fmt (2 ^ 32) s.i noFlags = some (s.i, noFlags) := by
    rw [show 2 ^ 32 = 2 ^ 32 - 1 + 1 from rfl, flagLoop, hletter]
    rfl
  have hwidth : ∀ consumed flags, getWidth m fmt args s.i consumed flags =
      some (s.i, -1, consumed, flags) := by
    intro consumed flags
    rw [getWidth, hletter]
    rfl
  have hprecision : ∀ consumed, getPrecision m fmt args s.i consumed = some (s.i, -1, consumed) := by
    intro consumed
    rw [getPrecision, hletter]
    rfl
  rw [vsprintfPass]
  simp only [hpercent, if_true, directive, hflags, hwidth, hprecision, Option.bind_some, convert,
    hletter]
  rw [show convOf 115 = some .s by decide]
  simp only [Conv.output, hstr, if_pos hlen, Option.map_some]
  refine ⟨_, rfl, rfl, ?_, rfl⟩
  show add32 (add32 s.loc (sub32 (str.length + 1) 2)) 1 = _
  simp only [add32, sub32]
  omega

end

/-- A string that fits is copied up to its terminator. -/
theorem strncpy_of_holds {m : Mem} {src n : Nat} {str : List UInt8} (h : Holds m src (str ++ [0]))
    (hstr : ∀ c ∈ str, c ≠ 0) (hn : str.length < n) : strncpy m src n = str := by
  induction str generalizing src n with
  | nil =>
    obtain ⟨n, rfl⟩ : ∃ k, n = k + 1 := ⟨n - 1, by rw [List.length_nil] at hn; omega⟩
    rw [strncpy, if_neg (not_not_intro h.head)]
  | cons c str ih =>
    rw [List.length_cons] at hn
    rw [List.forall_mem_cons] at hstr
    obtain ⟨n, rfl⟩ : ∃ k, n = k + 1 := ⟨n - 1, by omega⟩
    have hc : m src = c := h.head
    have htail : Holds m (src + 1) (str ++ [0]) := by
      intro k b hk
      have hb := h (k + 1) b hk
      rwa [show src + (k + 1) = src + 1 + k by omega] at hb
    rw [strncpy, hc, if_pos hstr.1, ih htail hstr.2 (by omega)]

/-- Stores over the end of what has been stored. -/
theorem storeAll_over {out : Nat → Option UInt8} {str a b : List UInt8}
    (hout : ∀ j, out j = (str ++ a)[j]?) (hab : a.length ≤ b.length)
    (hlt : str.length + b.length ≤ 2 ^ 32) (j : Nat) :
    storeAll out str.length b j = (str ++ b)[j]? := by
  obtain ⟨hoff, hat⟩ := @storeAll_apply out str.length b hlt
  by_cases hj : j < str.length
  · rw [hoff j (Or.inl hj), hout, List.getElem?_append_left hj, List.getElem?_append_left hj]
  · by_cases hjb : j < str.length + b.length
    · obtain ⟨k, rfl⟩ : ∃ k, j = str.length + k := ⟨j - str.length, by omega⟩
      have hk : b[k]? = some b[k] := List.getElem?_eq_getElem (by omega)
      rw [hat k _ hk, List.getElem?_append_right (by omega), Nat.add_sub_cancel_left, hk]
    · rw [hoff j (Or.inr (by omega)), hout, List.getElem?_eq_none, List.getElem?_eq_none]
      · rw [List.length_append]; omega
      · rw [List.length_append]; omega

section

variable {m : Mem} {fmt : Nat} {pre post : List UInt8}

/-- The length of a format that holds one `%s`. -/
theorem strlen_splice (hfmt : Holds m fmt (pre ++ ([37, 115] ++ (post ++ [0]))))
    (hpre : ∀ c ∈ pre, c ≠ 37 ∧ c ≠ 0) (hpost : ∀ c ∈ post, c ≠ 37 ∧ c ≠ 0)
    (hsize : pre.length + post.length < 2 ^ 16) :
    strlen m fmt = some (pre.length + post.length + 2 + 1) := by
  rw [holds_append, holds_append, holds_append] at hfmt
  obtain ⟨hpre', hper, hpost', hzero⟩ := hfmt
  rw [List.length_cons, List.length_singleton] at hpost' hzero
  apply strlen_of_endsAt _ (by omega)
  refine ⟨?_, fun k hk => ?_⟩
  · rw [show fmt + (pre.length + post.length + 2) = fmt + pre.length + (1 + 1) + post.length by omega]
    exact hzero.head
  · -- a byte in front of `%s`, one of its two, or one behind it
    by_cases hk₁ : k < pre.length
    · rw [hpre' k _ (List.getElem?_eq_getElem hk₁)]
      exact (hpre _ (List.getElem_mem _)).2
    · by_cases hk₂ : k < pre.length + 2
      · obtain rfl | rfl : k = pre.length ∨ k = pre.length + 1 := by omega
        · rw [hper.head]
          decide
        · rw [← Nat.add_assoc, hper.tail.head]
          decide
      · obtain ⟨i, rfl⟩ : ∃ i, k = pre.length + (1 + 1) + i := ⟨k - pre.length - 2, by omega⟩
        have hi : i < post.length := by omega
        rw [show fmt + (pre.length + (1 + 1) + i) = fmt + pre.length + (1 + 1) + i by omega,
          hpost' i _ (List.getElem?_eq_getElem hi)]
        exact (hpost _ (List.getElem_mem _)).2

/-- **A string inside of a format**: it replaces `%s`, and behind the terminator lies the byte that
    is found behind the format. -/
theorem vsprintf_splice {args : Nat → BitVec 32} {buf : Nat} {str : List UInt8}
    (hfmt : Holds m fmt (pre ++ ([37, 115] ++ (post ++ [0]))))
    (hpre : ∀ c ∈ pre, c ≠ 37 ∧ c ≠ 0) (hpost : ∀ c ∈ post, c ≠ 37 ∧ c ≠ 0)
    (hbehind : m (fmt + (pre.length + post.length + 3)) ≠ 37)
    (hsize : pre.length + post.length < 2 ^ 16) (hnull : fmt ≠ 0) (hbuf : buf ≠ 0)
    (hstr : strncpy m (args 0).toNat 1024 = str) (hlen : str.length < 1024) :
    ∃ r, vsprintf m fmt args buf = some r ∧ ∀ j, r.out j =
      (pre ++ (str ++ (post ++ [0, m (fmt + (pre.length + post.length + 3))])))[j]? := by
  have hstrlen := strlen_splice hfmt hpre hpost hsize
  rw [holds_append, holds_append] at hfmt
  obtain ⟨hpre', hper, hrest⟩ := hfmt
  rw [List.length_cons, List.length_singleton] at hrest
  -- the plain bytes behind `%s`, with the one behind the terminator
  generalize hx : m (fmt + (pre.length + post.length + 3)) = x at *
  have hbytes : Holds m (fmt + (pre.length + 2)) (post ++ [0, x]) := by
    rw [holds_append] at hrest ⊢
    refine ⟨?_, (holds_append (l := [0])).mpr ⟨?_, holds_singleton.mpr ?_⟩⟩
    · rw [← Nat.add_assoc]
      exact hrest.1
    · rw [← Nat.add_assoc]
      exact hrest.2
    · rw [← hx]
      congr 1
      rw [List.length_singleton]
      omega
  have hbytes37 : ∀ c ∈ post ++ [0, x], c ≠ 37 := by
    intro c hc
    rw [List.mem_append, List.mem_cons, List.mem_singleton] at hc
    rcases hc with hc | rfl | rfl
    · exact (hpost c hc).1
    · decide
    · exact hbehind
  obtain ⟨fuel, hfuel⟩ : ∃ fuel, 2 ^ 33 = fuel + 1 + (post ++ [0, x]).length + 1 + pre.length := by
    refine ⟨2 ^ 33 - (pre.length + post.length + 4), ?_⟩
    rw [List.length_append, List.length_cons, List.length_singleton]
    omega
  -- the characters in front of `%s`, the string, and the bytes behind it
  obtain ⟨s₁, hs₁, hi₁, hloc₁, hconsumed₁, hout₁⟩ := @vsprintfLoop_chars m fmt
    (pre.length + post.length + 2) args startPrinter hstrlen pre hpre'
    (fun c hc => (hpre c hc).1) (by simp only [startPrinter]; omega)
    (by simp only [startPrinter]; omega) (fuel + 1 + (post ++ [0, x]).length + 1)
  have hat : s₁.i = pre.length ∧ s₁.loc = pre.length := by
    rw [hi₁, hloc₁]
    exact ⟨Nat.zero_add _, Nat.zero_add _⟩
  obtain ⟨s₂, hs₂, hi₂, hloc₂, hout₂⟩ := @vsprintfPass_string m fmt args
    { s₁ with far := max s₁.far (pre.length + post.length + 2 + 1) }
    (by simp only [hat.1]; exact hper.head)
    (by simp only [hat.1]; exact hper.tail.head)
    str (by rw [hconsumed₁]; exact hstr) hlen (by simp only [hat.2]; omega)
  simp only [hat.1, hat.2] at hi₂ hloc₂ hout₂
  obtain ⟨s₃, hs₃, hi₃, hloc₃, -, hout₃⟩ := @vsprintfLoop_chars m fmt
    (pre.length + post.length + 2) args s₂ hstrlen _ (by rw [hi₂]; exact hbytes) hbytes37
    (by rw [hi₂, List.length_append, List.length_cons, List.length_singleton]; omega)
    (by rw [hloc₂, List.length_append, List.length_cons, List.length_singleton]; omega) (fuel + 1)
  have hend : ∀ s : Printer, s.i = pre.length + post.length + 4 → ∃ far,
      vsprintfLoop m fmt args (fuel + 1) s = some { s with far := far } := by
    intro s hi
    rw [vsprintfLoop, hstrlen, Option.bind_some]
    simp only
    rw [if_neg (by omega)]
    exact ⟨_, rfl⟩
  obtain ⟨far, hend⟩ := hend s₃ (by
    rw [hi₃, hi₂, List.length_append, List.length_cons, List.length_singleton]
    omega)
  have hloop : vsprintfLoop m fmt args (2 ^ 33) startPrinter = some { s₃ with far := far } := by
    rw [hfuel, hs₁, vsprintfLoop, hstrlen, Option.bind_some]
    simp only
    rw [if_pos (by omega), hs₂, Option.bind_some, ← hend, ← hs₃]
  refine ⟨{ s₃ with far := far }, by rw [vsprintf, if_neg (by simp [hbuf, hnull]), hloop], ?_⟩
  -- each piece is stored over the terminator of the one before
  have hput₁ : ∀ j, s₁.out j = ([] ++ pre)[j]? := by
    rw [hout₁]
    exact @storeAll_over _ [] [] _ (fun j => rfl) (Nat.zero_le _) (by rw [List.length_nil]; omega)
  have hput₂ : ∀ j, s₂.out j = (pre ++ (str ++ [0]))[j]? := by
    rw [hout₂]
    apply storeAll_over (a := [])
    · intro j
      rw [hput₁, List.nil_append, List.append_nil]
    · exact Nat.zero_le _
    · rw [List.length_append, List.length_singleton]
      omega
  intro j
  show s₃.out j = _
  rw [hout₃, hloc₂, ← List.length_append, ← List.append_assoc]
  apply storeAll_over (a := [0])
  · intro j
    rw [hput₂, List.append_assoc]
  · simp
  · rw [List.length_append, List.length_append, List.length_cons, List.length_singleton]
    omega

end

end Toutatis
