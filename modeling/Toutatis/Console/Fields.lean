import Toutatis.Console.Render
import Toutatis.Strings.Itoa

/-!
# Widths and precisions in digits

The digits of a width or of a precision go to `tmp`, and `atoi` reads them back. `atoi` switches to
base 8 when its first character is a `0`. The loop over the flags has taken every `0` in front of a
width by then, as the flag `ZEROS`, so a width never starts with one. Nothing takes the zeros in
front of a precision.

## Key results

- `atoi_digits`: the value of `atoi` for a row of digits
- `rowValue_eight_iff`: when base 8 and base 10 read the same value
- `parseFields_decimal_iff`: when `vsprintf` uses the decimal values
-/

namespace Toutatis

open ByteMem Strings

/-! ## Rows of digits -/

section

variable {l : List UInt8}

/-- A decimal digit is below 10. -/
theorem digitValue_of_isDigit {c : UInt8} (h : isDigit c = true) : digitValue c < 10 :=
  (signedChar_digitValue h).2.1

/-- A row of digits read in base 8 and in base 10, the least significant digit first. -/
theorem ofDigits_eight_iff {ds : List Nat} (h : ∀ d ∈ ds, d < 10) :
    Nat.ofDigits 8 ds = Nat.ofDigits 10 ds ↔ Nat.ofDigits 10 ds < 10 := by
  cases ds with
  | nil => simp
  | cons d ds =>
    have hd := h d List.mem_cons_self
    -- with a digit in front of the last one, the two values are at least two apart
    have hle : Nat.ofDigits 8 ds ≤ Nat.ofDigits 10 ds := Nat.ofDigits_monotone ds (by omega)
    rw [Nat.ofDigits_cons, Nat.ofDigits_cons]
    omega

/-- Read to base 8 a row of digits is not more than to base 10. -/
theorem rowValue_eight_le (l : List UInt8) : rowValue 8 l ≤ rowValue 10 l :=
  Nat.ofDigits_monotone _ (by omega)

/-- Base 8 reads the decimal value of a row of digits only below ten. -/
theorem rowValue_eight_iff (h : ∀ c ∈ l, isDigit c = true) :
    rowValue 8 l = rowValue 10 l ↔ rowValue 10 l < 10 := by
  apply ofDigits_eight_iff
  intro d hd
  rw [List.mem_reverse, List.mem_map] at hd
  obtain ⟨c, hc, rfl⟩ := hd
  exact digitValue_of_isDigit (h c hc)

/-- A leading zero does not count. -/
theorem rowValue_zero_cons (base : Nat) (l : List UInt8) :
    rowValue base (48 :: l) = rowValue base l := by
  rw [rowValue_eq_foldl, rowValue_eq_foldl, List.foldl_cons]
  rw [show 0 * base + digitValue 48 = 0 by rw [Nat.zero_mul]; rfl]

/-- Leading zeros do not change the value of a row. -/
theorem rowValue_dropWhile_zero (base : Nat) (l : List UInt8) :
    rowValue base (l.dropWhile (· == 48)) = rowValue base l := by
  induction l with
  | nil => rfl
  | cons c l ih =>
    by_cases hc : c = 48
    · subst hc
      rw [List.dropWhile_cons_of_pos (by decide), ih, rowValue_zero_cons]
    · rw [List.dropWhile_cons_of_neg (by simpa using hc)]

/-- The last loop of `atoi` on a row of digits. -/
theorem atoiLoop_digits {base : Nat} (hbase : 2 ≤ base) (h : ∀ c ∈ l, isDigit c = true)
    (hsmall : rowValue base l < 2 ^ 31) : atoiLoop base l 0 = rowValue base l := by
  have hall : ∀ c ∈ l, digitValue c < 36 := by
    intro c hc
    exact Nat.lt_trans (digitValue_of_isDigit (h c hc)) (by omega)
  rw [rowValue_eq_foldl] at hsmall ⊢
  have hloop : atoiLoop base l 0 = longValue base l 0 := atoiLoop_eq l hall 0
  exact hloop.trans (longValue_eq hbase l 0 hsmall)

/-- **`atoi` of a row of digits**: in base 8 behind a `0`, and else in base 10. -/
theorem atoi_digits (h : ∀ c ∈ l, isDigit c = true) (hsmall : rowValue 10 l < 2 ^ 31) :
    atoi l = (if l.head? = some 48 then rowValue 8 l else rowValue 10 l : Nat) := by
  -- a row of digits has no blanks in front
  have hblank : l.dropWhile (· == 32) = l := by
    cases l with
    | nil => rfl
    | cons c l =>
      apply List.dropWhile_cons_of_neg
      intro heq
      have hdigit := h c List.mem_cons_self
      rw [beq_iff_eq.mp heq] at hdigit
      exact absurd hdigit (by decide)
  unfold atoi
  simp only [hblank]
  cases l with
  | nil => rfl
  | cons c l =>
    rw [List.head?_cons, List.tail_cons]
    have htail : ∀ b ∈ l, isDigit b = true := fun b hb => h b (List.mem_cons_of_mem _ hb)
    by_cases hc : c = 48
    · subst hc
      -- a digit follows, or nothing: the prefix `0x` does not occur
      have hx : ¬ l.head? = some 120 := by
        intro hx
        have hdigit := htail 120 (List.mem_of_mem_head? (Option.mem_def.mpr hx))
        exact absurd hdigit (by decide)
      have hoctal := rowValue_eight_le (48 :: l)
      rw [rowValue_zero_cons] at hoctal
      rw [if_pos rfl, if_pos rfl, if_neg hx, rowValue_zero_cons]
      exact @atoiLoop_digits l 8 (by omega) htail (by omega)
    · have hne : ¬ some c = some 48 := fun heq => hc (Option.some.inj heq)
      rw [if_neg hne, if_neg hne]
      exact @atoiLoop_digits (c :: l) 10 (by omega) h hsmall

end

/-! ## Directives with digits -/

/-- `%[flags][width][.precision]letter` where the width, which may be empty, and the precision are
    digits. -/
structure DigitFields where
  flags : List UInt8
  width : List UInt8
  precision : Option (List UInt8)
  letter : UInt8

namespace DigitFields

/-- The precision with its point. -/
def point (d : DigitFields) : List UInt8 :=
  match d.precision with
  | none => []
  | some ds => 46 :: ds

def text (d : DigitFields) : List UInt8 :=
  37 :: (d.flags ++ (d.width ++ (d.point ++ [d.letter])))

/-- The digits are digits, fit into `tmp` and stand for an `int`. -/
structure Ok (d : DigitFields) : Prop where
  flags : ∀ c ∈ d.flags, c ∈ [35, 48, 45, 43, 32]
  width : ∀ c ∈ d.width, isDigit c = true
  width_small : d.width.length < 1024 ∧ rowValue 10 d.width < 2 ^ 31
  precision : ∀ ds, d.precision = some ds → ds ≠ [] ∧ ∀ c ∈ ds, isDigit c = true
  precision_small : ∀ ds, d.precision = some ds → ds.length < 1024 ∧ rowValue 10 ds < 2 ^ 31
  letter : d.letter ∈ [99, 115, 100, 105, 117, 111, 88, 120, 98]

/-- The zeros in front of the width, as flags. -/
def zeros (d : DigitFields) : List UInt8 := d.width.takeWhile (· == 48)

/-- The flags, with `ZEROS` for the zeros in front of the width. -/
def flagSet (d : DigitFields) : Flags :=
  (d.flags ++ d.zeros).foldl (fun f c => (applyFlag f c).getD f) noFlags

/-- The decimal value of the width; there is none when nothing stands behind the zeros. -/
def decimalWidth (d : DigitFields) : Int :=
  if d.width.dropWhile (· == 48) = [] then -1 else rowValue 10 d.width

/-- The decimal value of the precision. -/
def decimalPrecision (d : DigitFields) : Int :=
  match d.precision with
  | none => -1
  | some ds => rowValue 10 ds

/-- The same directive, with the zeros in front of the width among the flags. -/
def toDirective (d : DigitFields) : Directive where
  flags := d.flags ++ d.zeros
  width :=
    if d.width.dropWhile (· == 48) = [] then .absent
    else .digits (d.width.dropWhile (· == 48))
  precision := d.precision.map .digits
  letter := d.letter

/-- The fields that `vsprintf` parses are the decimal ones. -/
def Decimal (m : Mem) (fmt : Nat) (args : Nat → BitVec 32) (s : Printer) (d : DigitFields) : Prop :=
  parseFields m fmt args s = some (s.i + d.flags.length + d.width.length + d.point.length, d.flagSet,
    d.decimalWidth, d.decimalPrecision, s.consumed)

section

variable {d : DigitFields}

/-- The width is written without its leading zeros. -/
theorem toDirective_width_text (d : DigitFields) :
    d.toDirective.width.text = d.width.dropWhile (· == 48) := by
  unfold toDirective
  simp only
  by_cases hnone : d.width.dropWhile (· == 48) = []
  · rw [if_pos hnone, hnone]
    rfl
  · rw [if_neg hnone]
    rfl

/-- The point stays in its place. -/
theorem toDirective_point (d : DigitFields) : d.toDirective.point = d.point := by
  unfold Directive.point point toDirective
  cases d.precision <;> rfl

/-- The text of the directive is the same. -/
theorem toDirective_text (d : DigitFields) : d.toDirective.text = d.text := by
  unfold Directive.text text
  rw [toDirective_width_text, toDirective_point]
  show 37 :: ((d.flags ++ d.zeros) ++ (d.width.dropWhile (· == 48) ++ (d.point ++ [d.letter]))) = _
  unfold zeros
  rw [List.append_assoc, ← List.append_assoc (d.width.takeWhile _), List.takeWhile_append_dropWhile]

/-- Behind the leading zeros there are only digits. -/
theorem dropWhile_digits (hd : d.Ok) : ∀ c ∈ d.width.dropWhile (· == 48), isDigit c = true :=
  fun c hc => hd.width c ((List.dropWhile_suffix _).subset hc)

/-- The directive has the form that `vsprintf` reads. -/
theorem toDirective_ok (hd : d.Ok) : d.toDirective.Ok where
  flags := by
    intro c hc
    cases List.mem_append.mp hc with
    | inl hflag => exact hd.flags c hflag
    | inr hzero =>
      unfold zeros at hzero
      have h48 : (c == 48) = true := List.mem_takeWhile_imp (p := fun x => x == 48) hzero
      rw [beq_iff_eq.mp h48]
      decide
  width := by
    unfold toDirective
    simp only
    by_cases hnone : d.width.dropWhile (· == 48) = []
    · rw [if_pos hnone]
      trivial
    · rw [if_neg hnone]
      exact ⟨hnone, dropWhile_digits hd⟩
  first := by
    -- `dropWhile` has taken the zeros
    rw [toDirective_width_text]
    intro hhead
    have hnot := List.head?_dropWhile_not (· == 48) d.width
    rw [hhead] at hnot
    exact absurd hnot (by decide)
  precision := by
    intro p hp
    obtain ⟨ds, hds, rfl⟩ := Option.map_eq_some_iff.mp hp
    exact hd.precision ds hds
  letter := hd.letter

/-- The directive fits into the format. -/
theorem toDirective_short (hd : d.Ok) : Piece.Short (.dir d.toDirective) := by
  constructor
  · unfold toDirective
    simp only
    by_cases hnone : d.width.dropWhile (· == 48) = []
    · rw [if_pos hnone]
      trivial
    · rw [if_neg hnone]
      show (d.width.dropWhile (· == 48)).length < 1024
      have hle := (List.dropWhile_suffix (l := d.width) (· == 48)).length_le
      have hsmall := hd.width_small.1
      omega
  · intro p hp
    obtain ⟨ds, hds, rfl⟩ := Option.map_eq_some_iff.mp hp
    exact (hd.precision_small ds hds).1

/-- The width is the decimal one: its digits do not start with a zero any more. -/
theorem asWidth_decimal (hd : d.Ok) (args : Nat → BitVec 32) (pos : Nat) (flags : Flags) :
    d.toDirective.width.asWidth args pos flags = (d.decimalWidth, pos, flags) := by
  unfold toDirective decimalWidth
  simp only
  by_cases hnone : d.width.dropWhile (· == 48) = []
  · rw [if_pos hnone, if_pos hnone]
    rfl
  · rw [if_neg hnone, if_neg hnone]
    show (atoi (d.width.dropWhile (· == 48)), pos, flags) = _
    have hfirst := (toDirective_ok hd).first
    rw [toDirective_width_text] at hfirst
    have hvalue := rowValue_dropWhile_zero 10 d.width
    rw [atoi_digits (dropWhile_digits hd) (by rw [hvalue]; exact hd.width_small.2), if_neg hfirst,
      hvalue]

/-- The precision that `vsprintf` uses is read in base 8 behind a zero. -/
theorem asPrecision_digits (hd : d.Ok) (args : Nat → BitVec 32) (pos : Nat) :
    asPrecision args pos d.toDirective.precision =
      (match d.precision with
        | none => -1
        | some ds => ((if ds.head? = some 48 then rowValue 8 ds else rowValue 10 ds : Nat) : Int),
      pos) := by
  unfold toDirective
  cases hprec : d.precision with
  | none => rfl
  | some ds =>
    have hvalue := atoi_digits (hd.precision ds hprec).2 (hd.precision_small ds hprec).2
    -- the sign test of `vsprintf` does nothing here
    show (if atoi ds < 0 then 0 else atoi ds, pos) = _
    rw [hvalue, if_neg (Int.not_lt.mpr (Int.natCast_nonneg _))]

/-- The zeros in front of a width count as flags. -/
theorem length_flags_width (d : DigitFields) :
    (d.flags ++ d.zeros).length + (d.width.dropWhile (· == 48)).length =
      d.flags.length + d.width.length := by
  have hsplit := congrArg List.length
    (List.takeWhile_append_dropWhile (p := (· == 48)) (l := d.width))
  rw [List.length_append] at hsplit
  unfold zeros
  rw [List.length_append]
  omega

end

end DigitFields

/-- **Fields in digits.** `vsprintf` uses the decimal values of the width and of the precision,
    with the zeros in front of the width as flags, if and only if the precision does not start with
    a zero or is below ten. -/
theorem parseFields_decimal_iff {m : Mem} {fmt : Nat} {args : Nat → BitVec 32} {s : Printer}
    {d : DigitFields} (hd : d.Ok) (h : Holds m (fmt + s.i) d.text) (hlen : d.text.length < 2 ^ 32) :
    d.Decimal m fmt args s ↔
      ∀ ds, d.precision = some ds → ds.head? ≠ some 48 ∨ rowValue 10 ds < 10 := by
  have hspec := (@parseFields_spec m fmt args d.toDirective (DigitFields.toDirective_ok hd) s
    (by rw [DigitFields.toDirective_text]; exact h)
    (by rw [DigitFields.toDirective_text]; exact hlen)).1 (DigitFields.toDirective_short hd)
  have hindex : s.i + d.toDirective.flags.length + d.toDirective.width.text.length +
      d.toDirective.point.length = s.i + d.flags.length + d.width.length + d.point.length := by
    have hsum := d.length_flags_width
    rw [DigitFields.toDirective_width_text, DigitFields.toDirective_point]
    show s.i + (d.flags ++ d.zeros).length + _ + _ = _
    omega
  -- what is parsed, with the width and the precision as `atoi` reads them
  unfold Directive.fields at hspec
  rw [hindex, DigitFields.asWidth_decimal hd] at hspec
  simp only [DigitFields.asPrecision_digits hd] at hspec
  unfold DigitFields.Decimal
  rw [hspec]
  cases hprec : d.precision with
  | none =>
    unfold DigitFields.decimalPrecision
    rw [hprec]
    exact ⟨fun _ ds hds => absurd hds (by simp), fun _ => rfl⟩
  | some ds =>
    -- only the precision can differ, and it does when base 8 reads another value
    have hiff := rowValue_eight_iff (hd.precision ds hprec).2
    have hdecimal : d.decimalPrecision = rowValue 10 ds := by
      unfold DigitFields.decimalPrecision
      rw [hprec]
    rw [hdecimal]
    simp only
    constructor
    · intro heq ds' hds'
      obtain rfl := Option.some.inj hds'
      by_cases hzero : ds.head? = some 48
      · right
        rw [if_pos hzero] at heq
        simp only [Option.some.injEq, Prod.mk.injEq, Nat.cast_inj] at heq
        exact hiff.mp heq.2.2.2.1
      · exact Or.inl hzero
    · intro hcond
      by_cases hzero : ds.head? = some 48
      · have hsmall := (hcond ds rfl).resolve_left (fun hne => hne hzero)
        rw [if_pos hzero, hiff.mpr hsmall]
        rfl
      · rw [if_neg hzero]
        rfl

/-- `"%005.3d"` -/
def plainFields : DigitFields := ⟨[], [48, 48, 53], some [51], 100⟩

/-- A directive without any field. -/
theorem plainFields_ok : plainFields.Ok where
  flags := fun c hc => absurd hc List.not_mem_nil
  width := List.all_eq_true.mp (show plainFields.width.all isDigit = true from rfl)
  width_small := by
    have hvalue : rowValue 10 plainFields.width = 5 := by decide
    rw [hvalue]
    exact ⟨by decide, by omega⟩
  precision := by
    intro ds hds
    obtain rfl := Option.some.inj hds
    exact ⟨by decide, List.all_eq_true.mp (show [51].all isDigit = true from rfl)⟩
  precision_small := by
    intro ds hds
    obtain rfl := Option.some.inj hds
    have hvalue : rowValue 10 [51] = 3 := by decide
    rw [hvalue]
    exact ⟨by decide, by omega⟩
  letter := by decide

/-- The width of `"%005.3d"` is 5, with the flag `ZEROS`, and its precision is 3. -/
theorem parseFields_decimal_iff_plain :
    plainFields.Decimal (textMem 0x100 plainFields.text) 0x100 (fun _ => 0) startPrinter ∧
      plainFields.decimalWidth = 5 ∧ plainFields.decimalPrecision = 3 ∧
      plainFields.flagSet = { noFlags with zeros := true } := by
  have hiff := @parseFields_decimal_iff (textMem 0x100 plainFields.text) 0x100 (fun _ => 0)
    startPrinter plainFields plainFields_ok (holds_textMem _ _) (by decide)
  refine ⟨hiff.mpr fun ds hds => ?_, by decide, by decide, by decide⟩
  obtain rfl := Option.some.inj hds
  left
  decide

/-- `"%.010d"` -/
def octalFields : DigitFields := ⟨[], [], some [48, 49, 48], 100⟩

/-- `vsprintf` reads the precision of `"%.010d"` as 8. -/
theorem parseFields_octal :
    ¬ octalFields.Decimal (textMem 0x100 octalFields.text) 0x100 (fun _ => 0) startPrinter ∧
      octalFields.decimalPrecision = 10 ∧
      parseFields (textMem 0x100 octalFields.text) 0x100 (fun _ => 0) startPrinter =
        some (4, noFlags, -1, 8, 0) := by
  have hparsed : parseFields (textMem 0x100 octalFields.text) 0x100 (fun _ => 0) startPrinter =
      some (4, noFlags, -1, 8, 0) := by decide +kernel
  refine ⟨fun h => ?_, by decide, hparsed⟩
  unfold DigitFields.Decimal at h
  rw [hparsed] at h
  exact absurd h (by decide)

end Toutatis
