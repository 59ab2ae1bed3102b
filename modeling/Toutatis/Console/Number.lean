import Toutatis.Strings.Itoa

/-!
# The layout of a number

What `number` of `kernel/vsprintf.c` stores for every number, base, width and precision and for
every set of flags. `width` and `precision` are counted down by several loops with a
post-decrement; the loop that is not meant to run finds the width already below zero.

## Key results

- `digitLoop_eq` / `length_digitLoop_le`: the digit buffer holds the digits of the number
- `number_eq`: `number` stores the fields of the layout in their order
- `number_spec`: the layout has the width that was asked for and reads back as the number
-/

namespace Toutatis

open ByteMem Strings

/-! ## The digit buffer -/

section

variable {base num : Nat}

theorem digitLoop_eq (large : Bool) (hb : 2 ≤ base) {fuel : Nat} (h : num < 2 ^ fuel) :
    digitLoop base large fuel num = (Nat.digits base num).map (digitCode large) := by
  induction fuel generalizing num with
  | zero =>
    obtain rfl : num = 0 := Nat.lt_one_iff.mp h
    rw [Nat.digits_zero]
    rfl
  | succ fuel ih =>
    unfold digitLoop
    by_cases hnum : num = 0
    · rw [if_neg (not_not.mpr hnum), hnum, Nat.digits_zero]
      rfl
    · rw [if_pos hnum, ih (div_lt_two_pow hb h),
        Nat.digits_def' (by omega) (Nat.pos_of_ne_zero hnum), List.map_cons]

/-- However long the loop is allowed to run, a number of `n` bits takes at most `n` digits. -/
theorem length_digitLoop_le (large : Bool) (hb : 2 ≤ base) {n : Nat} (h : num < 2 ^ n) (fuel : Nat) :
    (digitLoop base large fuel num).length ≤ n := by
  induction n generalizing num fuel with
  | zero =>
    obtain rfl : num = 0 := Nat.lt_one_iff.mp h
    cases fuel with
    | zero => exact Nat.le_refl _
    | succ fuel =>
      unfold digitLoop
      rw [if_neg (not_not.mpr rfl)]
      exact Nat.le_refl _
  | succ n ih =>
    cases fuel with
    | zero => exact Nat.zero_le _
    | succ fuel =>
      unfold digitLoop
      by_cases hnum : num = 0
      · rw [if_neg (not_not.mpr hnum)]
        exact Nat.zero_le _
      · rw [if_pos hnum, List.length_cons]
        exact Nat.succ_le_succ (ih (div_lt_two_pow hb h) fuel)

theorem numeral_zero (large : Bool) : numeral large base 0 = [48] := by
  unfold numeral lowDigits
  rw [if_pos rfl]
  cases large with
  | false => decide
  | true => decide

/-- The buffer, read backwards, is the numeral. -/
theorem buffer_reverse (large : Bool) (hb : 2 ≤ base) (h : num < 2 ^ 32) :
    (if num = 0 then [48] else digitLoop base large 32 num).reverse = numeral large base num := by
  by_cases hnum : num = 0
  · rw [if_pos hnum, hnum, numeral_zero]
    rfl
  · unfold numeral lowDigits
    rw [if_neg hnum, if_neg hnum, digitLoop_eq large hb h, List.map_reverse]

end

/-! ## The layout -/

/-- The sign of a number. -/
def signText (flags : Flags) (num : Nat) : List UInt8 :=
  if flags.signed then
    if 2 ^ 31 ≤ num then [45] else if flags.plus then [43] else if flags.space then [32] else []
  else []

/-- The number that the digits stand for. -/
def magnitude (flags : Flags) (num : Nat) : Nat :=
  if flags.signed ∧ 2 ^ 31 ≤ num then 2 ^ 32 - num else num

/-- The prefix of a number. -/
def markText (flags : Flags) (base : Nat) : List UInt8 :=
  if flags.prefixed then
    if base = 8 then [48] else if base = 16 then [48, if flags.large then 88 else 120] else []
  else []

/-- The digits of a number. -/
def digitText (flags : Flags) (num base : Nat) : List UInt8 :=
  numeral flags.large base (magnitude flags num)

/-- The size of a number without any padding. -/
def bareSize (num base : Nat) (precision : Int) (flags : Flags) : Int :=
  (signText flags num).length + (markText flags base).length +
    max precision (digitText flags num base).length

/-- The fields of a number in their order: spaces, sign, prefix, padding, the zeros of the
    precision, digits and spaces. Padding goes to one place only. -/
def numberLayout (num base : Nat) (width precision : Int) (flags : Flags) : List UInt8 :=
  let padding := (width - bareSize num base precision flags).toNat
  let zeros := (precision - (digitText flags num base).length).toNat
  (if flags.left then [] else if flags.zeros then [] else List.replicate padding 32) ++
    signText flags num ++ markText flags base ++
    (if flags.left then [] else if flags.zeros then List.replicate padding 48 else []) ++
    List.replicate zeros 48 ++ digitText flags num base ++
    (if flags.left then List.replicate padding 32 else [])

section

variable {num base : Nat} {width precision : Int} {flags : Flags}

theorem magnitude_lt (flags : Flags) (hnum : num < 2 ^ 32) : magnitude flags num < 2 ^ 32 := by
  unfold magnitude
  by_cases hneg : flags.signed ∧ 2 ^ 31 ≤ num
  · rw [if_pos hneg]
    omega
  · rw [if_neg hneg]
    exact hnum

theorem length_signText (flags : Flags) (num : Nat) : (signText flags num).length ≤ 1 := by
  unfold signText
  split_ifs <;> decide

theorem length_markText (flags : Flags) (base : Nat) : (markText flags base).length ≤ 2 := by
  unfold markText
  split_ifs <;> decide

/-- A number has digits. -/
theorem digitText_pos (hb : 2 ≤ base) (h : num < 2 ^ 32) :
    0 < (digitText flags num base).length ∧ (digitText flags num base).length ≤ 32 := by
  unfold digitText numeral
  rw [List.length_map, List.length_reverse]
  exact length_lowDigits hb (by omega) (magnitude_lt flags h)

/-- The layout is as wide as asked for. -/
theorem length_numberLayout :
    ((numberLayout num base width precision flags).length : Int) =
      max width (bareSize num base precision flags) := by
  have hzeros : (((precision - (digitText flags num base).length).toNat : Int)) +
      (digitText flags num base).length = max precision (digitText flags num base).length := by
    omega
  have hpadding : ((width - bareSize num base precision flags).toNat : Int) +
      bareSize num base precision flags = max width (bareSize num base precision flags) := by
    omega
  have hbare : bareSize num base precision flags = (signText flags num).length +
      (markText flags base).length + max precision (digitText flags num base).length := rfl
  simp only [numberLayout]
  -- the padding stands behind, between sign and digits, or in front
  by_cases hleft : flags.left
  · rw [if_pos hleft, if_pos hleft, if_pos hleft]
    simp only [List.length_append, List.length_replicate, List.length_nil]
    omega
  · rw [if_neg hleft, if_neg hleft, if_neg hleft]
    by_cases hz : flags.zeros
    · rw [if_pos hz, if_pos hz]
      simp only [List.length_append, List.length_replicate, List.length_nil]
      omega
    · rw [if_neg hz, if_neg hz]
      simp only [List.length_append, List.length_replicate, List.length_nil]
      omega

/-- The sign takes its place from the width. -/
private theorem sign_eq (num : Nat) (width : Int) (flags : Flags) :
    (if flags.signed then
        if 2 ^ 31 ≤ num then (2 ^ 32 - num, [45], width - 1)
        else if flags.plus then (num, [43], width - 1)
        else if flags.space then (num, [32], width - 1)
        else (num, ([] : List UInt8), width)
      else (num, [], width)) =
      (magnitude flags num, signText flags num, width - (signText flags num).length) := by
  -- the cases of the source: negative, plus, space, none of them
  unfold magnitude signText
  by_cases hsigned : flags.signed
  · simp only [if_pos hsigned]
    by_cases hneg : 2 ^ 31 ≤ num
    · simp only [if_pos hneg, if_pos (show flags.signed ∧ 2 ^ 31 ≤ num from ⟨hsigned, hneg⟩)]
      rfl
    · have hnot : ¬ (flags.signed ∧ 2 ^ 31 ≤ num) := fun h => hneg h.2
      simp only [if_neg hneg, if_neg hnot]
      by_cases hplus : flags.plus
      · simp only [if_pos hplus]
        rfl
      · simp only [if_neg hplus]
        by_cases hspace : flags.space
        · simp only [if_pos hspace]
          rfl
        · simp only [if_neg hspace, List.length_nil, Nat.cast_zero, Int.sub_zero]
  · have hnot : ¬ (flags.signed ∧ 2 ^ 31 ≤ num) := fun h => hsigned h.1
    simp only [if_neg hsigned, if_neg hnot, List.length_nil, Nat.cast_zero, Int.sub_zero]

/-- So does the prefix. -/
private theorem mark_eq (base : Nat) (flags : Flags) (w : Int) :
    (if flags.prefixed then if base = 16 then w - 2 else if base = 8 then w - 1 else w else w) =
      w - (markText flags base).length := by
  unfold markText
  by_cases hpre : flags.prefixed
  · rw [if_pos hpre, if_pos hpre]
    by_cases h8 : base = 8
    · rw [if_neg (by omega), if_pos h8, if_pos h8]
      rfl
    · rw [if_neg h8, if_neg h8]
      by_cases h16 : base = 16
      · rw [if_pos h16, if_pos h16]
        rfl
      · rw [if_neg h16, if_neg h16, List.length_nil, Nat.cast_zero, Int.sub_zero]
  · rw [if_neg hpre, if_neg hpre, List.length_nil, Nat.cast_zero, Int.sub_zero]

/-- A loop over a width that was counted down runs no more. -/
private theorem pastLoop_toNat (w : Int) :
    (pastLoop w).toNat = 0 ∧ (pastLoop (pastLoop w)).toNat = 0 := by
  unfold pastLoop
  by_cases hw : w > 0
  · rw [if_pos hw]
    decide
  · rw [if_neg hw, if_neg (by omega)]
    omega

/-- `number` stores the fields of the layout, and returns one less than their size. -/
theorem number_eq (hnum : num < 2 ^ 32) (hb : 2 ≤ base) (hbase : base ≤ 36) :
    number num base width precision flags =
      (numberLayout num base width precision flags,
        sub32 (numberLayout num base width precision flags).length 1) := by
  have hflags : (if flags.left then { flags with zeros := false } else flags) =
      { flags with zeros := flags.zeros && !flags.left } := by
    by_cases hleft : flags.left
    · rw [if_pos hleft, hleft, Bool.not_true, Bool.and_false]
    · have hright : flags.left = false := Bool.eq_false_iff.mpr hleft
      rw [if_neg hleft, hright, Bool.not_false, Bool.and_true, ← hright]
  have hbuffer := buffer_reverse flags.large hb (magnitude_lt flags hnum)
  have hlen : ((if magnitude flags num = 0 then [48] else
      digitLoop base flags.large 32 (magnitude flags num)).length : Int) =
      (digitText flags num base).length := by
    rw [← List.length_reverse, hbuffer]
    rfl
  have hmax : (if ((digitText flags num base).length : Int) > precision then
      ((digitText flags num base).length : Int) else precision) =
      max precision (digitText flags num base).length := by
    by_cases hgt : ((digitText flags num base).length : Int) > precision
    · rw [if_pos hgt]
      omega
    · rw [if_neg hgt]
      omega
  have hwidth : width - (signText flags num).length - (markText flags base).length -
      max precision (digitText flags num base).length =
      width - bareSize num base precision flags := by
    unfold bareSize
    omega
  have hzeros : (max precision (digitText flags num base).length -
      (digitText flags num base).length).toNat =
      (precision - (digitText flags num base).length).toNat := by
    omega
  suffices hstr : (number num base width precision flags).1 =
      numberLayout num base width precision flags by
    have hpair : number num base width precision flags =
        ((number num base width precision flags).1,
          sub32 (number num base width precision flags).1.length 1) := by
      simp only [number, hflags]
      rw [if_neg (by omega)]
    rw [hpair, hstr]
  simp only [number, numberLayout, hflags, sign_eq, mark_eq, hlen, hbuffer, hmax, hwidth, hzeros]
  rw [if_neg (by omega)]
  obtain ⟨hpast, hpast'⟩ := pastLoop_toNat (width - bareSize num base precision flags)
  -- only one of the three loops finds a width that is left to fill
  cases hleft : flags.left with
  | true => simp [digitText, markText]
  | false =>
    cases hz : flags.zeros with
    | true => simp [digitText, markText, hpast]
    | false => simp [digitText, markText, hpast, hpast']

/-- A number as a signed one. -/
theorem bmod_eq (hnum : num < 2 ^ 32) :
    (num : Int).bmod (2 ^ 32) = if 2 ^ 31 ≤ num then (num - 2 ^ 32 : Int) else (num : Int) := by
  have hr : (num : Int) % ((2 ^ 32 : Nat) : Int) = num := by
    apply Int.emod_eq_of_lt
    · omega
    · omega
  simp only [Int.bmod, hr]
  by_cases hneg : 2 ^ 31 ≤ num
  · rw [if_pos hneg, if_neg (by omega)]
    rfl
  · rw [if_neg hneg, if_pos (by omega)]

/-- The digits stand for the absolute value of a signed number. -/
theorem magnitude_eq (hnum : num < 2 ^ 32) :
    (magnitude flags num : Int) = if flags.signed then |(num : Int).bmod (2 ^ 32)| else num := by
  unfold magnitude
  rw [bmod_eq hnum]
  by_cases hsigned : flags.signed
  · rw [if_pos hsigned]
    by_cases hneg : 2 ^ 31 ≤ num
    · rw [if_pos ⟨hsigned, hneg⟩, if_pos hneg, abs_of_neg (by omega)]
      omega
    · rw [if_neg (fun h => hneg h.2), if_neg hneg, abs_of_nonneg (by omega)]
  · rw [if_neg hsigned, if_neg (fun h => hsigned h.1)]

/-- The minus stands in front of the negative numbers. -/
theorem signText_minus (hnum : num < 2 ^ 32) :
    signText flags num = [45] ↔ flags.signed ∧ (num : Int).bmod (2 ^ 32) < 0 := by
  unfold signText
  rw [bmod_eq hnum]
  by_cases hsigned : flags.signed
  · by_cases hneg : 2 ^ 31 ≤ num
    · rw [if_pos hsigned, if_pos hneg, if_pos hneg]
      exact ⟨fun _ => ⟨hsigned, by omega⟩, fun _ => rfl⟩
    · rw [if_pos hsigned, if_neg hneg, if_neg hneg]
      have hnot : ¬ (flags.signed = true ∧ (num : Int) < 0) := by omega
      by_cases hplus : flags.plus
      · rw [if_pos hplus]
        exact iff_of_false (by decide) hnot
      · rw [if_neg hplus]
        by_cases hspace : flags.space
        · rw [if_pos hspace]
          exact iff_of_false (by decide) hnot
        · rw [if_neg hspace]
          exact iff_of_false (by decide) hnot
  · rw [if_neg hsigned]
    exact iff_of_false (by decide) (fun h => hsigned h.1)

end

/-- **The layout of `number`.** For every number of 32 bits, base, set of flags, width and
    precision the fields stand in the order of `numberLayout`, whose padding is at the left, at
    the right or made of zeros; their size is the width or what the fields need, if that is
    more, and what is returned is one less. The digits read back as the number or, when it is
    negative, as its absolute value behind a minus, and there is room for them in the buffer. -/
theorem number_spec (num base : Nat) (width precision : Int) (flags : Flags) (hnum : num < 2 ^ 32)
    (hb : 2 ≤ base) (hbase : base ≤ 36) (hw : |width| < 2 ^ 30) (hp : |precision| < 2 ^ 30) :
    (number num base width precision flags).1 = numberLayout num base width precision flags ∧
    ((number num base width precision flags).1.length : Int) =
      max width ((signText flags num).length + (markText flags base).length +
        max precision (digitText flags num base).length) ∧
    (number num base width precision flags).2 =
      (number num base width precision flags).1.length - 1 ∧
    (rowValue base (digitText flags num base) : Int) =
      (if flags.signed then |(num : Int).bmod (2 ^ 32)| else num) ∧
    (signText flags num = [45] ↔ flags.signed ∧ (num : Int).bmod (2 ^ 32) < 0) ∧
    (magnitude flags num = 0 → digitText flags num base = [48]) ∧
    (magnitude flags num ≠ 0 →
      ∀ c, (digitText flags num base).head? = some c → digitValue c ≠ 0) ∧
    (∀ fuel, (digitLoop base flags.large fuel (magnitude flags num)).length ≤ 64) := by
  have heq : number num base width precision flags =
      (numberLayout num base width precision flags,
        sub32 (numberLayout num base width precision flags).length 1) := number_eq hnum hb hbase
  have hsize : ((numberLayout num base width precision flags).length : Int) =
      max width (bareSize num base precision flags) := length_numberLayout
  obtain ⟨hpos, hle⟩ : 0 < (digitText flags num base).length ∧
      (digitText flags num base).length ≤ 32 := digitText_pos hb hnum
  have hbare : bareSize num base precision flags = (signText flags num).length +
      (markText flags base).length + max precision (digitText flags num base).length := rfl
  rw [heq]
  -- the layout, its length, the last index, the value, the sign, the digits of zero, the first
  -- digit and the size of the buffer
  refine ⟨rfl, hsize, ?_, ?_, signText_minus hnum, ?_, ?_, ?_⟩
  · show sub32 _ 1 = _
    have hsign : (signText flags num).length ≤ 1 := length_signText flags num
    have hmark : (markText flags base).length ≤ 2 := length_markText flags base
    rw [abs_lt] at hw hp
    exact sub32_of_le (by omega) (by omega)
  · rw [← magnitude_eq hnum]
    unfold digitText
    rw [rowValue_numeral flags.large hb hbase]
  · intro hzero
    unfold digitText
    rw [hzero, numeral_zero]
  · intro hne c hc
    unfold digitText at hc
    cases hl : numeral flags.large base (magnitude flags num) with
    | nil =>
      rw [hl] at hc
      exact absurd hc (by simp)
    | cons d l =>
      rw [hl] at hc
      obtain rfl : d = c := Option.some.inj hc
      exact head_numeral flags.large hb hbase hne hl
  · intro fuel
    have := length_digitLoop_le flags.large hb (magnitude_lt flags hnum) fuel
    omega

/-- `INT_MIN` in base 16 with a prefix, right-aligned in 14 columns. -/
theorem number_spec_min :
    (number (2 ^ 31) 16 14 (-1) ⟨false, false, true, false, true, false, false⟩).2 =
      (number (2 ^ 31) 16 14 (-1) ⟨false, false, true, false, true, false, false⟩).1.length - 1 ∧
    signText ⟨false, false, true, false, true, false, false⟩ (2 ^ 31) = [45] := by
  have h := number_spec (2 ^ 31) 16 14 (-1) ⟨false, false, true, false, true, false, false⟩
    (by decide) (by decide) (by decide) (by decide) (by decide)
  exact ⟨h.2.2.1, h.2.2.2.2.1.mpr ⟨rfl, by decide⟩⟩

end Toutatis
