import Toutatis.Console.Render
import Toutatis.Strings.Text

/-!
# Bytes that are never stored

`vsprintf` moves `loc` forward once for each pass of its loop. A directive without a conversion
letter that the `switch` knows stores nothing, so that pass leaves a hole in the buffer: the byte
there keeps what the stack held before. `loc` does not go back, and the hole is never filled.
There is one way out of it: `%s` stores the terminator of its string as well, at the byte of the
next pass.

`kprintf` of `kernel/logging.c` sends the buffer up to its first NUL to the drivers.

## Key results

- `vsprintfPass_cases`: what a pass over the format does to the buffer
- `noHole_of_covered` and `hole_of_not_covered`: over a whole run
- `vsprintf_written_iff`: the formats that leave no hole
-/

namespace Toutatis

open ByteMem Strings

/-! ## Complete formats -/

/-- The characters that the loop over the flags takes. -/
def isFlag (c : UInt8) : Bool := (applyFlag noFlags c).isSome

/-- The text behind a width, or behind the number of a precision. -/
def skipNumber : List UInt8 → List UInt8
  | [] => []
  | c :: rest =>
    if isDigit c then rest.dropWhile isDigit
    else if c = 42 then rest
    else c :: rest

/-- The text behind a precision. -/
def skipPrecision : List UInt8 → List UInt8
  | [] => []
  | c :: rest => if c = 46 then skipNumber rest else c :: rest

/-- The text behind the flags, the width and the precision of a directive. -/
def skipFields (rest : List UInt8) : List UInt8 :=
  skipPrecision (skipNumber (rest.dropWhile isFlag))

/-- Every directive of the text has a conversion letter, or comes right behind a `%s` that left its
    terminator there; the first argument says that the text itself does. -/
inductive FmtCovered : Bool → List UInt8 → Prop where
  | nil {b : Bool} : FmtCovered b []
  | char {b : Bool} {c : UInt8} {rest : List UInt8} : c ≠ 37 → FmtCovered false rest →
      FmtCovered b (c :: rest)
  | dir {b : Bool} {c : UInt8} {conv : Conv} {rest tail : List UInt8} :
      skipFields rest = c :: tail → convOf c = some conv → FmtCovered (decide (conv = .s)) tail →
      FmtCovered b (37 :: rest)
  | skip {rest : List UInt8} : (∀ c tail, skipFields rest = c :: tail → convOf c = none) →
      FmtCovered false (skipFields rest) → FmtCovered true (37 :: rest)

section

variable {b : Bool} {c : UInt8} {conv : Conv} {rest tail : List UInt8}

/-- A plain character stores its own byte. -/
theorem covered_char_iff (hc : c ≠ 37) : FmtCovered b (c :: rest) ↔ FmtCovered false rest := by
  constructor
  · intro h
    cases h with
    | char _ hrest => exact hrest
    | dir => exact absurd rfl hc
    | skip => exact absurd rfl hc
  · exact FmtCovered.char hc

/-- A conversion stores its text; only `%s` stores a terminator behind it. -/
theorem covered_dir_iff (hskip : skipFields rest = c :: tail) (hconv : convOf c = some conv) :
    FmtCovered b (37 :: rest) ↔ FmtCovered (decide (conv = .s)) tail := by
  constructor
  · intro h
    cases h with
    | char hne => exact absurd rfl hne
    -- the letter is found in one way only
    | dir hskip' hconv' htail =>
      rw [hskip] at hskip'
      obtain ⟨rfl, rfl⟩ := List.cons.inj hskip'
      rw [hconv] at hconv'
      obtain rfl := Option.some.inj hconv'
      exact htail
    | skip hnone =>
      rw [hnone c tail hskip] at hconv
      exact absurd hconv (by simp)
  · exact FmtCovered.dir hskip hconv

/-- A directive without a conversion moves over a byte, which must be stored already. -/
theorem covered_skip_iff (hnone : ∀ c tail, skipFields rest = c :: tail → convOf c = none) :
    FmtCovered b (37 :: rest) ↔ b = true ∧ FmtCovered false (skipFields rest) := by
  constructor
  · intro h
    cases h with
    | char hne => exact absurd rfl hne
    | dir hskip hconv =>
      rw [hnone _ _ hskip] at hconv
      exact absurd hconv (by simp)
    | skip _ hrest => exact ⟨rfl, hrest⟩
  · intro h
    rw [h.1]
    exact FmtCovered.skip hnone h.2

end

/-! ## What is left of the text -/

section

variable {m : Mem} {fmt i i' fuel consumed consumed' : Nat} {args : Nat → BitVec 32}
  {l : List UInt8} {flags flags' : Flags} {width precision : Int}

/-- The next character, or the terminator. -/
theorem text_next (h : Text m fmt l) (hi : i < l.length) :
    (l.drop (i + 1) = [] ∧ m (fmt + (i + 1)) = 0) ∨
      l.drop (i + 1) = m (fmt + (i + 1)) :: l.drop (i + 1 + 1) := by
  by_cases hlast : i + 1 = l.length
  · left
    rw [hlast, List.drop_length]
    exact ⟨rfl, h.terminator⟩
  · right
    have hlt : i + 1 < l.length := by omega
    rw [List.drop_eq_getElem_cons hlt, h.getElem hlt]

/-- The flags are the bytes that `apply_flag` knows. -/
theorem isFlag_of_applyFlag (flags : Flags) (c : UInt8) :
    isFlag c = (applyFlag flags c).isSome := by
  unfold isFlag applyFlag
  split_ifs <;> rfl

/-- The loop over the flags stops behind the last one. -/
theorem flagLoop_drop (h : Text m fmt l) (hi : i < l.length)
    (hloop : flagLoop m fmt fuel i flags = some (i', flags')) :
    l.drop (i' + 1) = (l.drop (i + 1)).dropWhile isFlag := by
  induction fuel generalizing i flags with
  | zero => exact absurd hloop (by simp [flagLoop])
  | succ fuel ih =>
    rw [flagLoop] at hloop
    have hflag := isFlag_of_applyFlag flags (m (fmt + (i + 1)))
    cases happly : applyFlag flags (m (fmt + (i + 1))) with
    | some next =>
      rw [happly] at hloop hflag
      -- a flag is not the terminator, so the loop is still inside the text
      have hlt : i + 1 < l.length := by
        apply h.endsAt.succ_lt hi
        intro h0
        rw [h0] at happly
        exact absurd happly (by simp [applyFlag])
      cases text_next h hi with
      | inl hend => exact absurd hlt (by have := List.drop_eq_nil_iff.mp hend.1; omega)
      | inr hcons =>
        rw [ih hlt hloop, hcons, List.dropWhile_cons, hflag]
        rfl
    | none =>
      rw [happly] at hloop hflag
      obtain ⟨rfl, -⟩ := Prod.mk.inj (Option.some.inj hloop)
      cases text_next h hi with
      | inl hend => rw [hend.1, List.dropWhile_nil]
      | inr hcons =>
        rw [hcons, List.dropWhile_cons, hflag]
        rfl

/-- The loop over digits stops behind the last one. -/
theorem digitRun_drop (h : Text m fmt l) (hi : i < l.length) {res : Nat × List UInt8}
    (hrun : digitRun m fmt fuel i = some res) :
    l.drop (res.1 + 1) = (l.drop (i + 1)).dropWhile isDigit := by
  induction fuel generalizing i res with
  | zero => exact absurd hrun (by simp [digitRun])
  | succ fuel ih =>
    rw [digitRun] at hrun
    by_cases hdigit : isDigit (m (fmt + (i + 1))) = true
    · rw [if_pos hdigit, Option.map_eq_some_iff] at hrun
      obtain ⟨rest, hrest, rfl⟩ := hrun
      -- a digit is not the terminator
      have hlt : i + 1 < l.length := by
        apply h.endsAt.succ_lt hi
        intro h0
        rw [h0] at hdigit
        exact absurd hdigit (by decide)
      cases text_next h hi with
      | inl hend => exact absurd hlt (by have := List.drop_eq_nil_iff.mp hend.1; omega)
      | inr hcons => rw [ih hlt hrest, hcons, List.dropWhile_cons, if_pos hdigit]
    · rw [if_neg hdigit] at hrun
      rw [← Option.some.inj hrun]
      cases text_next h hi with
      | inl hend => rw [hend.1, List.dropWhile_nil]
      | inr hcons => rw [hcons, List.dropWhile_cons, if_neg hdigit]

/-- `get_number` stops behind the last digit. -/
theorem getNumber_drop (h : Text m fmt l) (hi : i < l.length) {res : Nat × Int}
    (hnum : getNumber m fmt i = some res) :
    l.drop (res.1 + 1) = (l.drop (i + 1)).dropWhile isDigit := by
  rw [getNumber, Option.bind_eq_some_iff] at hnum
  obtain ⟨run, hrun, hnum⟩ := hnum
  split at hnum
  · rw [← Option.some.inj hnum]
    exact digitRun_drop h hi hrun
  · exact absurd hnum (by simp)

/-- A number of digits takes what `skipNumber` skips. -/
theorem skipNumber_digits (h : Text m fmt l) (hi : i < l.length) {res : Nat × Int}
    (hdigit : isDigit (m (fmt + (i + 1))) = true) (hnum : getNumber m fmt i = some res) :
    l.drop (res.1 + 1) = skipNumber (l.drop (i + 1)) := by
  rw [getNumber_drop h hi hnum]
  cases text_next h hi with
  | inl hend => rw [hend.1]; rfl
  | inr hcons => rw [hcons, List.dropWhile_cons, if_pos hdigit, skipNumber, if_pos hdigit]

/-- A `*` counts as a number of one byte. -/
theorem skipNumber_star (h : Text m fmt l) (hi : i < l.length)
    (hdigit : ¬ isDigit (m (fmt + (i + 1))) = true) (hstar : m (fmt + (i + 1)) = 42) :
    l.drop (i + 1 + 1) = skipNumber (l.drop (i + 1)) := by
  cases text_next h hi with
  | inl hend => exact absurd (hend.2.symm.trans hstar) (by decide)
  | inr hcons => rw [hcons, skipNumber, if_neg hdigit, if_pos hstar]

/-- Without digits and `*` there is no number to skip. -/
theorem skipNumber_absent (h : Text m fmt l) (hi : i < l.length)
    (hdigit : ¬ isDigit (m (fmt + (i + 1))) = true) (hstar : ¬ m (fmt + (i + 1)) = 42) :
    l.drop (i + 1) = skipNumber (l.drop (i + 1)) := by
  cases text_next h hi with
  | inl hend => rw [hend.1]; rfl
  | inr hcons => rw [hcons, skipNumber, if_neg hdigit, if_neg hstar]

/-- `get_width` stops behind the width. -/
theorem getWidth_drop (h : Text m fmt l) (hi : i < l.length) {res : Nat × Int × Nat × Flags}
    (hwidth : getWidth m fmt args i consumed flags = some res) :
    l.drop (res.1 + 1) = skipNumber (l.drop (i + 1)) := by
  rw [getWidth] at hwidth
  split at hwidth
  · -- digits
    rename_i hdigit
    rw [Option.map_eq_some_iff] at hwidth
    obtain ⟨num, hnum, rfl⟩ := hwidth
    exact skipNumber_digits h hi hdigit hnum
  · rename_i hdigit
    split at hwidth
    · -- a star, whose number is an argument; a negative one turns to the left
      rename_i hstar
      have hskip := skipNumber_star h hi hdigit hstar
      simp only at hwidth
      split at hwidth <;> rw [← Option.some.inj hwidth] <;> exact hskip
    · -- neither
      rename_i hstar
      rw [← Option.some.inj hwidth]
      exact skipNumber_absent h hi hdigit hstar

/-- `get_precision` stops behind the precision. -/
theorem getPrecision_drop (h : Text m fmt l) (hi : i < l.length) {res : Nat × Int × Nat}
    (hprec : getPrecision m fmt args i consumed = some res) :
    l.drop (res.1 + 1) = skipPrecision (l.drop (i + 1)) := by
  rw [getPrecision] at hprec
  split at hprec
  · rename_i hpoint
    -- the character is a point and not the terminator, so the text goes on behind it
    have hlt : i + 1 < l.length := by
      apply h.endsAt.succ_lt hi
      rw [hpoint]
      decide
    have hskip : skipPrecision (l.drop (i + 1)) = skipNumber (l.drop (i + 1 + 1)) := by
      cases text_next h hi with
      | inl hend => exact absurd (hend.2.symm.trans hpoint) (by decide)
      | inr hcons => rw [hcons, skipPrecision, if_pos hpoint]
    rw [hskip]
    simp only [Option.map_eq_some_iff] at hprec
    obtain ⟨res', hres', rfl⟩ := hprec
    split at hres'
    · rename_i hdigit
      rw [Option.map_eq_some_iff] at hres'
      obtain ⟨num, hnum, rfl⟩ := hres'
      exact skipNumber_digits h hlt hdigit hnum
    · rename_i hdigit
      split at hres'
      · rename_i hstar
        rw [← Option.some.inj hres']
        exact skipNumber_star h hlt hdigit hstar
      · rename_i hstar
        rw [← Option.some.inj hres']
        exact skipNumber_absent h hlt hdigit hstar
  · rename_i hpoint
    rw [← Option.some.inj hprec]
    cases text_next h hi with
    | inl hend => rw [hend.1]; rfl
    | inr hcons => rw [hcons, skipPrecision, if_neg hpoint]

end

/-! ## A pass -/

/-- A pass that stores `str`. `loc` moves over all of it, or all but the terminator of a `%s`. -/
structure Stores (l : List UInt8) (s s' : Printer) (str : List UInt8) (last : Bool) : Prop where
  pos : 0 < str.length
  loc : s'.loc = add32 s.loc (str.length - last.toNat)
  out : s'.out = storeAll s.out s.loc str
  stored : s'.stored = s.stored + str.length
  covered : ∀ b, FmtCovered b (l.drop s.i) ↔ FmtCovered last (l.drop s'.i)

/-- A pass that stores nothing, and moves `loc` all the same. -/
structure Skips (l : List UInt8) (s s' : Printer) : Prop where
  loc : s'.loc = add32 s.loc 1
  out : s'.out = s.out
  stored : s'.stored = s.stored
  covered : ∀ b, FmtCovered b (l.drop s.i) ↔ b = true ∧ FmtCovered false (l.drop s'.i)

/-- A number has at least one digit. -/
theorem number_pos {num base : Nat} {width precision : Int} {flags : Flags} (h2 : 2 ≤ base)
    (h36 : base ≤ 36) : 0 < (number num base width precision flags).1.length := by
  -- zero has one digit as well
  have hdigits : ∀ num large,
      0 < (if num = 0 then [48] else digitLoop base large 32 num).length := by
    intro num large
    split
    · exact Nat.one_pos
    · rename_i hnum
      rw [digitLoop, if_pos hnum]
      exact Nat.succ_pos _
  rw [number]
  simp only
  rw [if_neg (by omega)]
  simp only [List.length_append, List.length_reverse]
  apply Nat.add_pos_left
  apply Nat.add_pos_right
  exact hdigits _ _

/-- Where a conversion leaves `loc` for the next pass. -/
theorem Conv.output_advance {m : Mem} {val n : Nat} {flags : Flags} {width precision : Int}
    {conv : Conv} {str : List UInt8}
    (h : conv.output m val flags width precision = some (str, n)) :
    0 < str.length ∧
      ∀ loc, add32 (add32 loc n) 1 = add32 loc (str.length - (decide (conv = .s)).toNat) := by
  -- `number` steps back from behind its last character, and the loop steps forward again
  have hnumber : ∀ base flags, 2 ≤ base → base ≤ 36 →
      some (number val base width precision flags) = some (str, n) →
      0 < str.length ∧ ∀ loc, add32 (add32 loc n) 1 = add32 loc (str.length - 0) := by
    intro base flags h2 h36 heq
    have hsnd := @number_snd val base width precision flags h2 h36
    have hpos := @number_pos val base width precision flags h2 h36
    rw [Option.some.inj heq] at hsnd hpos
    refine ⟨hpos, fun loc => ?_⟩
    rw [show n = sub32 str.length 1 from hsnd]
    unfold add32 sub32
    omega
  cases conv with
  | c =>
    obtain ⟨rfl, rfl⟩ := Prod.mk.inj (Option.some.inj h)
    refine ⟨Nat.one_pos, fun loc => ?_⟩
    show add32 (add32 loc 0) 1 = add32 loc 1
    unfold add32
    omega
  | s =>
    unfold Conv.output at h
    by_cases hfit : (strncpy m val 1024).length < 1024
    · rw [if_pos hfit] at h
      obtain ⟨rfl, rfl⟩ := Prod.mk.inj (Option.some.inj h)
      rw [List.length_append, List.length_singleton]
      -- `strlen` counts the terminator, and `loc` comes back onto it
      refine ⟨Nat.succ_pos _, fun loc => ?_⟩
      show _ = add32 loc ((strncpy m val 1024).length + 1 - 1)
      unfold add32 sub32
      omega
    · rw [if_neg hfit] at h
      exact absurd h (by simp)
  | d => exact hnumber 10 _ (by decide) (by decide) h
  | u => exact hnumber 10 _ (by decide) (by decide) h
  | o => exact hnumber 8 _ (by decide) (by decide) h
  | X => exact hnumber 16 _ (by decide) (by decide) h
  | x => exact hnumber 16 _ (by decide) (by decide) h
  | b => exact hnumber 2 _ (by decide) (by decide) h

section

variable {m : Mem} {fmt buf k t : Nat} {args : Nat → BitVec 32} {l : List UInt8}
  {s s' r : Printer}

/-- A directive stores a text and goes on behind it, or it stores nothing. -/
theorem directive_cases (h : Text m fmt l) (hi : s.i < l.length) (hpercent : m (fmt + s.i) = 37)
    (hs' : directive m fmt args s = some s') :
    (∃ str last, Stores l s { s' with i := s'.i + 1, loc := add32 s'.loc 1 } str last) ∨
      Skips l s { s' with i := s'.i + 1, loc := add32 s'.loc 1 } := by
  rw [directive] at hs'
  simp only [Option.bind_eq_some_iff] at hs'
  obtain ⟨⟨i, flags⟩, hflags, ⟨i', width, consumed, flags'⟩, hwidth,
    ⟨i'', precision, consumed'⟩, hprec, hconv⟩ := hs'
  have hlt := flagLoop_lt h.endsAt hflags hi
  have hlt' := getWidth_lt h.endsAt hwidth hlt
  have hlt'' := getPrecision_lt h.endsAt hprec hlt'
  have htext : l.drop s.i = 37 :: l.drop (s.i + 1) := by
    rw [List.drop_eq_getElem_cons hi, ← h.getElem hi, hpercent]
  -- the three loops leave the index in front of what `skipFields` leaves of the text
  have hskip : skipFields (l.drop (s.i + 1)) = l.drop (i'' + 1) := by
    unfold skipFields
    rw [← flagLoop_drop h hi hflags, ← getWidth_drop h hlt hwidth,
      ← getPrecision_drop h hlt' hprec]
  rw [convert] at hconv
  simp only at hconv
  cases hletter : convOf (m (fmt + (i'' + 1))) with
  | none =>
    -- no letter: nothing is stored, and the text goes on at this character
    right
    rw [hletter] at hconv
    obtain rfl := (Option.some.inj hconv).symm
    refine ⟨rfl, rfl, rfl, fun b => ?_⟩
    show _ ↔ b = true ∧ FmtCovered false (l.drop (i'' + 1))
    rw [htext, ← hskip]
    apply covered_skip_iff
    intro c tail hc
    rw [hskip] at hc
    cases text_next h hlt'' with
    | inl hend =>
      rw [hend.1] at hc
      exact absurd hc (by simp)
    | inr hcons =>
      rw [hcons] at hc
      rw [← (List.cons.inj hc).1]
      exact hletter
  | some conv =>
    left
    rw [hletter] at hconv
    simp only [Option.map_eq_some_iff] at hconv
    obtain ⟨⟨str, n⟩, hout, rfl⟩ := hconv
    obtain ⟨hpos, hloc⟩ := Conv.output_advance hout
    refine ⟨str, decide (conv = .s), hpos, hloc s.loc, rfl, rfl, fun b => ?_⟩
    -- the letter is not the terminator
    have hcons : l.drop (i'' + 1) = m (fmt + (i'' + 1)) :: l.drop (i'' + 1 + 1) := by
      apply (text_next h hlt'').resolve_left
      intro hend
      rw [hend.2] at hletter
      exact absurd hletter (by simp [convOf])
    rw [htext]
    exact covered_dir_iff (hskip.trans hcons) hletter

/-- A pass over the format stores what `loc` moves over, or is a directive without a letter. -/
theorem vsprintfPass_cases (h : Text m fmt l) (hi : s.i < l.length)
    (hs' : vsprintfPass m fmt args s = some s') :
    (∃ str last, Stores l s s' str last) ∨ Skips l s s' := by
  rw [vsprintfPass] at hs'
  simp only [Option.map_eq_some_iff] at hs'
  obtain ⟨s₁, hs₁, rfl⟩ := hs'
  split at hs₁
  · rename_i hpercent
    cases directive_cases (s := { s with far := max s.far (s.i + 1) }) h hi hpercent hs₁ with
    | inl hstores =>
      obtain ⟨str, last, hstores⟩ := hstores
      exact Or.inl ⟨str, last, hstores.pos, hstores.loc, hstores.out, hstores.stored,
        hstores.covered⟩
    | inr hskips => exact Or.inr ⟨hskips.loc, hskips.out, hskips.stored, hskips.covered⟩
  · rename_i hchar
    left
    rw [← Option.some.inj hs₁]
    -- a character is stored as it is, the terminator included
    refine ⟨[m (fmt + s.i)], false, Nat.one_pos, rfl, rfl, rfl, fun b => ?_⟩
    rw [List.drop_eq_getElem_cons hi]
    apply covered_char_iff
    rw [← h.getElem hi]
    exact hchar

/-! ## Runs -/

/-- Stores leave no byte unwritten that was written before. -/
theorem storeAll_isSome {out : Nat → Option UInt8} {loc j : Nat} {str : List UInt8}
    (h : (out j).isSome) : (storeAll out loc str j).isSome := by
  induction str generalizing out loc with
  | nil => exact h
  | cons c str ih =>
    rw [storeAll]
    apply ih
    by_cases hj : j = loc
    · rw [hj, Function.update_self]
      rfl
    · rw [Function.update_of_ne hj]
      exact h

/-- The bytes from `loc` on are stored, also when the index wraps around. -/
theorem storeAll_covers {out : Nat → Option UInt8} {loc k : Nat} {str : List UInt8}
    (hk : k < str.length) (hloc : loc < 2 ^ 32) : (storeAll out loc str (add32 loc k)).isSome := by
  induction str generalizing out loc k with
  | nil => exact absurd hk (Nat.not_lt_zero _)
  | cons c str ih =>
    rw [storeAll]
    cases k with
    | zero =>
      -- the first byte is stored, and no later store takes it away
      apply storeAll_isSome
      have hzero : add32 loc 0 = loc := Nat.mod_eq_of_lt hloc
      rw [hzero, Function.update_self]
      rfl
    | succ k =>
      -- the others are those of the rest
      have hshift : add32 loc (k + 1) = add32 (add32 loc 1) k := by
        unfold add32
        omega
      rw [hshift]
      exact ih (Nat.lt_of_succ_lt_succ hk) (Nat.mod_lt _ (by decide))

/-- Every byte in front of `loc` is stored, and the one at `loc` when `b` says so. -/
structure NoHole (s : Printer) (b : Bool) : Prop where
  loc : s.loc < 2 ^ 32
  below : ∀ j < s.loc, (s.out j).isSome
  next : b = true → (s.out s.loc).isSome

/-- A directive that stores leaves no hole. -/
theorem Stores.noHole {str : List UInt8} {b last : Bool} (h : Stores l s s' str last)
    (hs : NoHole s b) : NoHole s' last := by
  have hpos := h.pos
  have hlast : last.toNat ≤ 1 := Bool.toNat_le last
  refine ⟨?_, ?_, ?_⟩
  · rw [h.loc]
    exact Nat.mod_lt _ (by decide)
  · intro j hj
    rw [h.out]
    rw [h.loc] at hj
    by_cases hlt : j < s.loc
    · exact storeAll_isSome (hs.below j hlt)
    · -- the byte is one of those that `loc` has moved over
      have hwrap : add32 s.loc (str.length - last.toNat) ≤ s.loc + (str.length - last.toNat) :=
        Nat.mod_le _ _
      have hbound : add32 s.loc (str.length - last.toNat) < 2 ^ 32 := Nat.mod_lt _ (by decide)
      have hindex : add32 s.loc (j - s.loc) = j := by
        rw [add32_of_lt (by omega)]
        omega
      rw [← hindex]
      exact storeAll_covers (by omega) hs.loc
  · intro htrue
    rw [htrue] at h hlast
    rw [h.out, h.loc]
    apply storeAll_covers _ hs.loc
    show str.length - 1 < str.length
    omega

/-- A directive that is skipped leaves none when the byte that it moves over is stored. -/
theorem Skips.noHole (h : Skips l s s') (hs : NoHole s true) : NoHole s' false := by
  refine ⟨?_, ?_, fun hfalse => absurd hfalse (by decide)⟩
  · rw [h.loc]
    exact Nat.mod_lt _ (by decide)
  · intro j hj
    rw [h.out]
    rw [h.loc] at hj
    have hwrap : add32 s.loc 1 ≤ s.loc + 1 := Nat.mod_le _ _
    by_cases hlt : j < s.loc
    · exact hs.below j hlt
    · rw [show j = s.loc by omega]
      exact hs.next rfl

/-- One pass of a run: its test, then the pass. -/
theorem vsprintfRun_succ (h : vsprintfRun m fmt args (k + 1) s = some s') :
    ∃ far s₁, vsprintfPass m fmt args { s with far := far } = some s₁ ∧
      vsprintfRun m fmt args k s₁ = some s' := by
  rw [vsprintfRun, Option.bind_eq_some_iff] at h
  obtain ⟨len, -, h⟩ := h
  simp only at h
  split at h
  · rw [Option.bind_eq_some_iff] at h
    obtain ⟨s₁, hs₁, h⟩ := h
    exact ⟨_, s₁, hs₁, h⟩
  · exact absurd h (by simp)

/-- The position goes on with every pass, and the number of stored bytes does not sink. -/
theorem le_vsprintfRun (h : vsprintfRun m fmt args k s = some s') :
    s.i + k ≤ s'.i ∧ s.stored ≤ s'.stored := by
  induction k generalizing s with
  | zero =>
    rw [← Option.some.inj h]
    exact ⟨Nat.le_refl _, Nat.le_refl _⟩
  | succ k ih =>
    obtain ⟨far, s₁, hs₁, hrest⟩ := vsprintfRun_succ h
    obtain ⟨hi, str, -, hstored⟩ := vsprintfPass_out hs₁
    have hi' : s.i + 1 ≤ s₁.i := hi
    have hstored' : s₁.stored = s.stored + str.length := hstored
    have := ih hrest
    omega

/-- **A covered format leaves no hole** in front of its terminator. -/
theorem noHole_of_covered (h : Text m fmt l) (hrun : vsprintfRun m fmt args k s = some s')
    (hend : s'.i = l.length) {b : Bool} (hcovered : FmtCovered b (l.drop s.i)) (hs : NoHole s b) :
    ∃ b', NoHole s' b' := by
  induction k generalizing s b with
  | zero =>
    rw [← Option.some.inj hrun]
    exact ⟨b, hs⟩
  | succ k ih =>
    have hle := (le_vsprintfRun hrun).1
    have hi : s.i < l.length := by omega
    obtain ⟨far, s₁, hs₁, hrest⟩ := vsprintfRun_succ hrun
    have hs' : NoHole { s with far := far } b := ⟨hs.loc, hs.below, hs.next⟩
    cases vsprintfPass_cases (s := { s with far := far }) h hi hs₁ with
    | inl hstores =>
      -- what is stored covers the bytes that `loc` moves over
      obtain ⟨str, last, hstores⟩ := hstores
      exact ih hrest ((hstores.covered b).mp hcovered) (hstores.noHole hs')
    | inr hskips =>
      -- the byte that is moved over is stored already
      obtain ⟨hb, hrest'⟩ := (hskips.covered b).mp hcovered
      rw [hb] at hs'
      exact ih hrest hrest' (hskips.noHole hs')

/-- A hole in front of `loc`, or a text that is not covered and nothing stored behind `loc`. -/
structure Bare (l : List UInt8) (s : Printer) (b : Bool) : Prop where
  notCovered : ¬ FmtCovered b (l.drop s.i)
  next : b = false → s.out s.loc = none
  above : ∀ j, s.loc < j → s.out j = none

/-- **A text that is not covered leaves a hole** in front of its terminator. -/
theorem hole_of_not_covered (h : Text m fmt l) (hrun : vsprintfRun m fmt args k s = some s')
    (hend : s'.i = l.length) (hfit : s'.stored + s'.i < 2 ^ 32) (hloc : s.loc ≤ s.stored + s.i)
    (hs : (∃ j < s.loc, s.out j = none) ∨ ∃ b, Bare l s b) :
    ∃ j < s'.loc, s'.out j = none := by
  induction k generalizing s with
  | zero =>
    obtain rfl := Option.some.inj hrun
    cases hs with
    | inl hhole => exact hhole
    | inr hbare =>
      obtain ⟨b, hbare⟩ := hbare
      apply absurd _ hbare.notCovered
      rw [hend, List.drop_length]
      exact FmtCovered.nil
  | succ k ih =>
    have hle := (le_vsprintfRun hrun).1
    have hi : s.i < l.length := by omega
    obtain ⟨far, s₁, hs₁, hrest⟩ := vsprintfRun_succ hrun
    have hle₁ := le_vsprintfRun hrest
    have hi₁ : s.i + 1 ≤ s₁.i := (vsprintfPass_out hs₁).1
    cases vsprintfPass_cases (s := { s with far := far }) h hi hs₁ with
    | inl hstores =>
      obtain ⟨str, last, hpos, hloc₁, hout₁, hstored₁, hcovered₁⟩ := hstores
      simp only at hloc₁ hout₁ hstored₁ hcovered₁
      have hlast : last.toNat ≤ 1 := Bool.toNat_le last
      rw [add32_of_lt (by omega)] at hloc₁
      have hoff := (@storeAll_apply s.out s.loc str (by omega)).1
      rw [← hout₁] at hoff
      -- what is stored lies behind every hole, and nothing goes behind the new `loc`
      apply ih hrest (by omega)
      cases hs with
      | inl hhole =>
        obtain ⟨j, hj, hnone⟩ := hhole
        exact Or.inl ⟨j, by omega, by rw [hoff j (Or.inl hj), hnone]⟩
      | inr hbare =>
        obtain ⟨b, hbare⟩ := hbare
        refine Or.inr ⟨last, fun hc => hbare.notCovered ((hcovered₁ b).mpr hc), ?_, ?_⟩
        · intro hfalse
          rw [hfalse] at hloc₁
          have hloc₂ : s₁.loc = s.loc + str.length := hloc₁
          rw [hoff _ (Or.inr (by omega)), hbare.above _ (by omega)]
        · intro j hj
          rw [hoff j (Or.inr (by omega)), hbare.above j (by omega)]
    | inr hskips =>
      obtain ⟨hloc₁, hout₁, hstored₁, hcovered₁⟩ := hskips
      simp only at hloc₁ hout₁ hstored₁ hcovered₁
      rw [add32_of_lt (by omega)] at hloc₁
      apply ih hrest (by omega)
      rw [hout₁]
      cases hs with
      | inl hhole =>
        obtain ⟨j, hj, hnone⟩ := hhole
        exact Or.inl ⟨j, by omega, hnone⟩
      | inr hbare =>
        obtain ⟨b, hbare⟩ := hbare
        cases b with
        | false =>
          -- the pass leaves the hole
          exact Or.inl ⟨s.loc, by omega, hbare.next rfl⟩
        | true =>
          -- the terminator of a `%s` is there, and the rest is not covered
          refine Or.inr ⟨false, fun hc => ?_, fun _ => ?_, fun j hj => ?_⟩
          · exact hbare.notCovered ((hcovered₁ true).mpr ⟨rfl, hc⟩)
          · rw [hout₁]
            exact hbare.above _ (by omega)
          · rw [hout₁]
            exact hbare.above j (by omega)

/-! ## The whole call -/

/-- A pass that starts within the text does not leave it. -/
theorem vsprintfPass_lt (h : Text m fmt l) (hi : s.i < l.length)
    (hs' : vsprintfPass m fmt args s = some s') : s'.i ≤ l.length := by
  rw [vsprintfPass] at hs'
  simp only [Option.map_eq_some_iff] at hs'
  obtain ⟨s₁, hs₁, rfl⟩ := hs'
  split at hs₁
  · exact directive_lt h.endsAt hs₁ hi
  · rw [← Option.some.inj hs₁]
    exact hi

/-- `strlen` counts the terminator. -/
theorem strlen_length (h : Text m fmt l) : strlen m fmt = some (l.length + 1) := by
  have hroom := h.room
  exact strlen_of_endsAt h.endsAt (by omega)

/-- A loop that returns has come to the terminator of the format. -/
theorem vsprintfLoop_reaches (h : Text m fmt l) {fuel : Nat}
    (hr : vsprintfLoop m fmt args fuel s = some r) (hi : s.i ≤ l.length) :
    ∃ k s' fuel', vsprintfRun m fmt args k s = some s' ∧ s'.i = l.length ∧
      vsprintfLoop m fmt args fuel' s' = some r := by
  induction fuel generalizing s with
  | zero => exact absurd hr (by simp [vsprintfLoop])
  | succ fuel ih =>
    by_cases hend : s.i = l.length
    · -- the end of the text is reached
      exact ⟨0, s, fuel + 1, rfl, hend, hr⟩
    · rw [vsprintfLoop, strlen_length h, Option.bind_some] at hr
      simp only at hr
      rw [if_pos (by omega), Option.bind_eq_some_iff] at hr
      obtain ⟨s₁, hs₁, hr⟩ := hr
      -- a pass that starts in front of the end does not leap over it
      have hlt : s.i < l.length := by omega
      have hnext := vsprintfPass_lt (s := { s with far := max s.far (l.length + 1) }) h hlt hs₁
      obtain ⟨k, s', fuel', hrun, hs', hr'⟩ := ih hr hnext
      refine ⟨k + 1, s', fuel', ?_, hs', hr'⟩
      rw [vsprintfRun, strlen_length h, Option.bind_some]
      simp only
      rw [if_pos (by omega), hs₁]
      exact hrun

/-- The rest of the loop leaves no byte unwritten that was written before. -/
theorem vsprintfLoop_isSome {fuel j : Nat} (hr : vsprintfLoop m fmt args fuel s = some r)
    (hj : (s.out j).isSome) : (r.out j).isSome := by
  apply vsprintfLoop_inv (P := fun t => (t.out j).isSome) hr hj
  · intro t len ht
    exact ht
  · intro t t' ht ht'
    obtain ⟨-, str, hout, -⟩ := vsprintfPass_out ht'
    rw [hout]
    exact storeAll_isSome ht

/-- The loop does not go back. -/
theorem vsprintfLoop_le {fuel : Nat} (hr : vsprintfLoop m fmt args fuel s = some r) :
    s.i ≤ r.i ∧ s.stored ≤ r.stored := by
  apply vsprintfLoop_inv (P := fun t => s.i ≤ t.i ∧ s.stored ≤ t.stored) hr
    ⟨Nat.le_refl _, Nat.le_refl _⟩
  · intro t len ht
    exact ht
  · intro t t' ht ht'
    obtain ⟨hi, str, -, hstored⟩ := vsprintfPass_out ht'
    omega

/-- From the terminator of the format on nothing in front of `loc` is stored, and the terminator
    goes to `loc`. -/
theorem vsprintfLoop_terminator (h : Text m fmt l) {fuel : Nat}
    (hr : vsprintfLoop m fmt args fuel s = some r) (hi : s.i = l.length)
    (hloc : s.loc ≤ s.stored + s.i) (hfit : r.stored + r.i < 2 ^ 32) :
    r.out s.loc = some 0 ∧ ∀ j < s.loc, r.out j = s.out j := by
  cases fuel with
  | zero => exact absurd hr (by simp [vsprintfLoop])
  | succ fuel =>
    have hle := vsprintfLoop_le hr
    rw [vsprintfLoop, strlen_length h, Option.bind_some] at hr
    simp only at hr
    rw [if_pos (by omega), Option.bind_eq_some_iff] at hr
    obtain ⟨s₁, hs₁, hr⟩ := hr
    -- `strlen` counts the terminator, so there is one more pass, which copies it
    have hzero : m (fmt + s.i) = 0 := by
      rw [hi]
      exact h.terminator
    rw [vsprintfPass] at hs₁
    simp only [hzero] at hs₁
    rw [if_neg (by decide)] at hs₁
    have hi₁ : s₁.i = s.i + 1 := by rw [← Option.some.inj hs₁]
    have hloc₁ : s₁.loc = add32 s.loc 1 := by rw [← Option.some.inj hs₁]
    have hstored₁ : s₁.stored = s.stored + 1 := by rw [← Option.some.inj hs₁]
    have hout₁ : s₁.out = storeAll s.out s.loc [0] := by rw [← Option.some.inj hs₁]
    have hle₁ := vsprintfLoop_le hr
    rw [add32_of_lt (by omega)] at hloc₁
    have htail := vsprintfLoop_tail (strlen_length h) hr (by omega) (by omega)
    rw [hout₁] at htail
    obtain ⟨hoff, hat⟩ := @storeAll_apply s.out s.loc [0] (by rw [List.length_singleton]; omega)
    constructor
    · rw [htail _ (by omega)]
      exact hat 0 0 rfl
    · intro j hj
      rw [htail j (by omega)]
      exact hoff j (Or.inl hj)

/-- Every byte in front of the terminator is stored: the one that the pass over the terminator of
    the format, which has `n` characters, stores at its `loc`. -/
def Written (m : Mem) (fmt : Nat) (args : Nat → BitVec 32) (n : Nat) (r : Printer) : Prop :=
  ∃ k s, vsprintfRun m fmt args k startPrinter = some s ∧ s.i = n ∧
    ∀ j < s.loc, (r.out j).isSome

/-- `log_level_t` -/
inductive LogLevel where
  | DEBUG | INFO | NOTICE | WARNING | ERROR | CRITICAL
deriving DecidableEq

/-- What `kprintf` sends to the serial line and to the screen, and what it returns. -/
structure Logged where
  com : List UInt8
  vga : List UInt8
  n : Nat

/-- `kprintf`. Its buffer at `buf` is on the stack and starts with the bytes `junk`. -/
def kprintf (m : Mem) (level : LogLevel) (fmt : Nat) (args : Nat → BitVec 32) (buf : Nat)
    (junk : Nat → UInt8) : Option Logged :=
  (vsprintf m fmt args buf).bind fun r =>
    let bytes : Mem := fun j => (r.out j).getD (junk j)
    (strlen bytes 0).map fun len =>
      let sent := (List.range len).map bytes
      ⟨sent, if level = .DEBUG then [] else sent, r.i⟩

/-- A call that returns has come to the end of the text. -/
theorem vsprintf_reaches (h : Text m fmt l) (hnull : buf ≠ 0 ∧ fmt ≠ 0)
    (hr : vsprintf m fmt args buf = some r) :
    ∃ k s fuel, vsprintfRun m fmt args k startPrinter = some s ∧ s.i = l.length ∧
      vsprintfLoop m fmt args fuel s = some r := by
  rw [vsprintf, if_neg (by simp [hnull])] at hr
  exact vsprintfLoop_reaches h hr (Nat.zero_le _)

/-- The holes of a run are holes of the call. -/
theorem vsprintf_out (h : Text m fmt l) (hnull : buf ≠ 0 ∧ fmt ≠ 0)
    (hr : vsprintf m fmt args buf = some r) (hrun : vsprintfRun m fmt args k startPrinter = some s)
    (hi : s.i = l.length) :
    ∃ fuel, vsprintfLoop m fmt args fuel s = some r := by
  have hk := (le_vsprintfRun hrun).1
  have hroom := h.room
  have hk' : k ≤ 2 ^ 33 := by
    have : startPrinter.i = 0 := rfl
    omega
  rw [vsprintf, if_neg (by simp [hnull]), show 2 ^ 33 = 2 ^ 33 - k + k by omega,
    vsprintfLoop_run hrun] at hr
  exact ⟨_, hr⟩

/-- Stores and skipped bytes together are at least `loc`. -/
theorem vsprintfRun_loc (h : Text m fmt l) (hrun : vsprintfRun m fmt args k s = some s')
    (hend : s'.i = l.length) (hloc : s.loc ≤ s.stored + s.i) : s'.loc ≤ s'.stored + s'.i := by
  induction k generalizing s with
  | zero =>
    rw [← Option.some.inj hrun]
    exact hloc
  | succ k ih =>
    have hle := (le_vsprintfRun hrun).1
    have hi : s.i < l.length := by omega
    obtain ⟨far, s₁, hs₁, hrest⟩ := vsprintfRun_succ hrun
    have hi₁ : s.i + 1 ≤ s₁.i := (vsprintfPass_out hs₁).1
    apply ih hrest
    -- a pass moves loc by what it stores, or by one for a hole; wrapping around only makes it
    -- smaller
    cases vsprintfPass_cases (s := { s with far := far }) h hi hs₁ with
    | inl hstores =>
      obtain ⟨str, last, -, hloc₁, -, hstored₁, -⟩ := hstores
      have hwrap : add32 s.loc (str.length - last.toNat) ≤ s.loc + (str.length - last.toNat) :=
        Nat.mod_le _ _
      simp only at hloc₁ hstored₁
      omega
    | inr hskips =>
      obtain ⟨hloc₁, -, hstored₁, -⟩ := hskips
      have hwrap : add32 s.loc 1 ≤ s.loc + 1 := Nat.mod_le _ _
      simp only at hloc₁ hstored₁
      omega

/-- At the start nothing has been skipped. -/
theorem noHole_start : NoHole startPrinter false :=
  ⟨by decide, fun j hj => absurd hj (Nat.not_lt_zero j), fun h => absurd h (by decide)⟩

/-- A covered format writes every byte. -/
theorem written_of_covered (h : Text m fmt l) (hnull : buf ≠ 0 ∧ fmt ≠ 0)
    (hr : vsprintf m fmt args buf = some r) (hcovered : FmtCovered false l) :
    Written m fmt args l.length r := by
  obtain ⟨k, s, fuel, hrun, hi, hloop⟩ := vsprintf_reaches h hnull hr
  obtain ⟨b, hnohole⟩ := noHole_of_covered h hrun hi hcovered noHole_start
  exact ⟨k, s, hrun, hi, fun j hj => vsprintfLoop_isSome hloop (hnohole.below j hj)⟩

/-- When every byte is written, the format is covered. -/
theorem covered_of_written (h : Text m fmt l) (hnull : buf ≠ 0 ∧ fmt ≠ 0)
    (hr : vsprintf m fmt args buf = some r) (hfit : r.stored + r.i < 2 ^ 32)
    (hwritten : Written m fmt args l.length r) : FmtCovered false l := by
  obtain ⟨k, s, hrun, hi, hall⟩ := hwritten
  obtain ⟨fuel, hloop⟩ := vsprintf_out h hnull hr hrun hi
  have hle := vsprintfLoop_le hloop
  have hstart : startPrinter.loc ≤ startPrinter.stored + startPrinter.i := Nat.zero_le _
  have hloc := vsprintfRun_loc h hrun hi hstart
  by_contra hnot
  obtain ⟨j, hj, hnone⟩ := hole_of_not_covered h hrun hi (by omega) hstart
    (Or.inr ⟨false, hnot, fun _ => rfl, fun _ _ => rfl⟩)
  have hsome := hall j hj
  rw [(vsprintfLoop_terminator h hloop hi hloc hfit).2 j hj, hnone] at hsome
  exact absurd hsome (by decide)

/-- Two buffers with the same bytes up to a NUL are sent alike. -/
theorem sent_congr {b b' : Mem} (hzero : b t = 0) (ht : t < 2 ^ 32)
    (hsame : ∀ j ≤ t, b' j = b j) :
    (strlen b 0).map (fun len => (List.range len).map b) =
      (strlen b' 0).map fun len => (List.range len).map b' := by
  -- the first NUL of one buffer is the first of the other
  have hex : ∃ z, b z = 0 := ⟨t, hzero⟩
  have hz : Nat.find hex ≤ t := Nat.find_min' hex hzero
  have hends : EndsAt b 0 (Nat.find hex) := by
    unfold EndsAt
    simp only [Nat.zero_add]
    exact ⟨Nat.find_spec hex, fun k hk => Nat.find_min hex hk⟩
  have hends' : EndsAt b' 0 (Nat.find hex) := by
    unfold EndsAt at hends ⊢
    simp only [Nat.zero_add] at hends ⊢
    refine ⟨?_, fun k hk => ?_⟩
    · rw [hsame _ hz]
      exact hends.1
    · rw [hsame k (by omega)]
      exact hends.2 k hk
  rw [strlen_of_endsAt hends (by omega), strlen_of_endsAt hends' (by omega), Option.map_some,
    Option.map_some]
  apply congrArg
  apply List.map_congr_left
  intro j hj
  have := List.mem_range.mp hj
  exact (hsame j (by omega)).symm

/-- What a covered format sends does not depend on what was in the buffer. -/
theorem kprintf_junk (h : Text m fmt l) (hnull : buf ≠ 0 ∧ fmt ≠ 0)
    (hr : vsprintf m fmt args buf = some r) (hfit : r.stored + r.i < 2 ^ 32)
    (hcovered : FmtCovered false l) (level : LogLevel) (junk junk' : Nat → UInt8) :
    kprintf m level fmt args buf junk = kprintf m level fmt args buf junk' := by
  obtain ⟨k, s, fuel, hrun, hi, hloop⟩ := vsprintf_reaches h hnull hr
  obtain ⟨b, hnohole⟩ := noHole_of_covered h hrun hi hcovered noHole_start
  have hstart : startPrinter.loc ≤ startPrinter.stored + startPrinter.i := Nat.zero_le _
  have hloc := vsprintfRun_loc h hrun hi hstart
  obtain ⟨hzero, hbelow⟩ := vsprintfLoop_terminator h hloop hi hloc hfit
  -- the terminator is stored at loc, so nothing behind it is sent
  have hsent := @sent_congr s.loc (fun j => (r.out j).getD (junk j))
    (fun j => (r.out j).getD (junk' j)) (by simp only [hzero, Option.getD_some]) hnohole.loc
  -- and in front of it every byte was stored
  have hsame : ∀ j ≤ s.loc, (r.out j).getD (junk' j) = (r.out j).getD (junk j) := by
    intro j hj
    by_cases hlast : j = s.loc
    · rw [hlast, hzero]
      rfl
    · obtain ⟨c, hc⟩ := Option.isSome_iff_exists.mp (hnohole.below j (by omega))
      rw [hbelow j (by omega), hc]
      rfl
  have hbytes := congrArg (Option.map fun sent : List UInt8 =>
    Logged.mk sent (if level = .DEBUG then [] else sent) r.i) (hsent hsame)
  simp only [Option.map_map] at hbytes
  unfold kprintf
  rw [hr]
  exact hbytes

/-- **Formats without holes.** Every byte in front of the terminator is stored when the format is
    covered, and, for an output inside the address space, only then; `kprintf` then sends nothing
    of what was on the stack. -/
theorem vsprintf_written_iff (h : Text m fmt l) (hnull : buf ≠ 0 ∧ fmt ≠ 0)
    (hr : vsprintf m fmt args buf = some r) :
    (FmtCovered false l → Written m fmt args l.length r) ∧
      (r.stored + r.i < 2 ^ 32 → (Written m fmt args l.length r ↔ FmtCovered false l) ∧
        (FmtCovered false l → ∀ level junk junk',
          kprintf m level fmt args buf junk = kprintf m level fmt args buf junk')) := by
  refine ⟨written_of_covered h hnull hr, fun hfit => ⟨⟨?_, ?_⟩, ?_⟩⟩
  · exact covered_of_written h hnull hr hfit
  · exact written_of_covered h hnull hr
  · exact kprintf_junk h hnull hr hfit

end

/-- The memory of the tests holds the text that it is made from. -/
theorem text_textMem {a : Nat} {l : List UInt8} (hl : ∀ c ∈ l, c ≠ 0)
    (ha : a + l.length < 2 ^ 32) : Text (textMem a (l ++ [0])) a l :=
  ⟨holds_textMem _ _, hl, ha⟩

/-- `"a%d"` leaves no hole. -/
theorem vsprintf_written_iff_number :
    ∃ r, vsprintf (textMem 0x100 ([97, 37, 100] ++ [0])) 0x100 (fun _ => 7) 0x200 = some r ∧
      Written (textMem 0x100 ([97, 37, 100] ++ [0])) 0x100 (fun _ => 7) 3 r := by
  have htext := @text_textMem 0x100 [97, 37, 100] (by simp) (show 0x100 + 3 < 2 ^ 32 by omega)
  have hnull : 0x200 ≠ 0 ∧ 0x100 ≠ 0 := by decide
  cases hr : vsprintf (textMem 0x100 ([97, 37, 100] ++ [0])) 0x100 (fun _ => 7) 0x200 with
  | none =>
    have hsome : (vsprintf (textMem 0x100 ([97, 37, 100] ++ [0])) 0x100 (fun _ => 7) 0x200).isSome =
      true := by decide +kernel
    rw [hr] at hsome
    exact absurd hsome (by decide)
  | some r =>
    refine ⟨r, rfl, (vsprintf_written_iff htext hnull hr).1 ?_⟩
    apply FmtCovered.char (by decide)
    have hletter : convOf 100 = some .d := rfl
    exact FmtCovered.dir (show skipFields [100] = 100 :: [] from rfl) hletter FmtCovered.nil

/-- `"%%"` stores nothing in front of its terminator, and `kprintf` sends the two bytes that were
    on the stack. -/
theorem vsprintf_percent_holes :
    (∃ r, vsprintf (textMem 0x100 ([37, 37] ++ [0])) 0x100 (fun _ => 0) 0x200 = some r ∧
      ¬ Written (textMem 0x100 ([37, 37] ++ [0])) 0x100 (fun _ => 0) 2 r) ∧
    (kprintf (textMem 0x100 ([37, 37] ++ [0])) .DEBUG 0x100 (fun _ => 0) 0x200 fun _ => 65).map
      (fun sent => sent.com) = some [65, 65, 0] := by
  have htext := @text_textMem 0x100 [37, 37] (by simp) (show 0x100 + 2 < 2 ^ 32 by omega)
  have hnull : 0x200 ≠ 0 ∧ 0x100 ≠ 0 := by decide
  have hcall : (vsprintf (textMem 0x100 ([37, 37] ++ [0])) 0x100 (fun _ => 0) 0x200).map
      (fun r => (r.i, r.stored)) = some (4, 2) := by decide +kernel
  obtain ⟨r, hr, hcounts⟩ := Option.map_eq_some_iff.mp hcall
  obtain ⟨hi, hstored⟩ := Prod.mk.inj hcounts
  refine ⟨⟨r, hr, fun hwritten => ?_⟩, by decide +kernel⟩
  have hcovered := covered_of_written htext hnull hr (by omega) hwritten
  -- the first directive goes on at the second `%`, which is no letter
  have hnone : ∀ c tail, skipFields [37] = c :: tail → convOf c = none := by
    intro c tail h
    obtain ⟨rfl, -⟩ := List.cons.inj h
    rfl
  have := (covered_skip_iff hnone).mp hcovered
  exact absurd this.1 (by decide)

end Toutatis
