import Toutatis.Strings.Text

/-!
# Reading numbers

A shallow embedding of `strtol` of `kernel/utils.c` over strings in memory, with the macros of
`kernel/utils.h` that it uses. A `char` is signed, and a `long` has 32 bits.

Three slips are kept: a letter whose value is the base itself is taken for a digit, a numeral is
taken in every base, and the prefix `0x` moves `str`, which is not used any more, and not `buf`.

## Key results

- `strtol_text`: what `strtol` returns for a string in memory
- `strtol_grammar_iff`: for which strings this is what the grammar says
-/

namespace Toutatis.Strings

open ByteMem

/-! ## The function -/

/-- A `char` as an `int`. -/
def signedChar (c : UInt8) : Int := (c.toNat : Int).bmod 256

/-- `to_lower` -/
def toLower (c : UInt8) : Int := if isUpper c then signedChar c - 65 + 97 else signedChar c

/-- `is_alnum` -/
def isAlnum (c : UInt8) : Bool := isAlpha c || isDigit c

/-- A result of `long` arithmetic. -/
def long (x : Int) : Int := x.bmod (2 ^ 32)

/-- `while (*buf == ' ' || *buf == '\t') ++buf` -/
def skipBlanks (m : Mem) : (fuel buf : Nat) → Option Nat
  | 0, _ => none
  | fuel + 1, buf => if m buf = 32 ∨ m buf = 9 then skipBlanks m fuel (buf + 1) else some buf

/-- `while (is_alnum(*buf))`: the value, and `buf`. -/
def strtolLoop (m : Mem) (base : Int) : (fuel buf : Nat) → (value : Int) → Option (Int × Nat)
  | 0, _, _ => none
  | fuel + 1, buf, value =>
    if isAlnum (m buf) then
      if isAlpha (m buf) then
        let k := toLower (m buf) - 97 + 10
        if k > base then some (value, buf)
        else strtolLoop m base fuel (buf + 1) (long (value * base + k))
      else
        let k := signedChar (m buf) - 48
        strtolLoop m base fuel (buf + 1) (long (value * base + k))
    else some (value, buf)

/-- `strtol`: the value, and what is stored to `*endptr` when `endptr` is not null. -/
def strtol (m : Mem) (str : Nat) (base : Int) : Option (Int × Option Nat) :=
  if base < 2 ∨ base > 36 then some (0, none)
  else
    (skipBlanks m (2 ^ 32) str).bind fun buf =>
      let (sign, buf) : Int × Nat :=
        if m buf = 45 then (-1, buf + 1) else if m buf = 43 then (1, buf + 1) else (1, buf)
      -- base 0 does not get here, and for a prefix in base 16 only `str` is moved
      (strtolLoop m base (2 ^ 32) buf 0).map fun (value, buf) => (long (sign * value), some buf)

/-! ## The grammar -/

/-- The value of a digit of base 36; 36 for a character that is no digit. -/
def digitValue (c : UInt8) : Nat :=
  if 48 ≤ c.toNat ∧ c.toNat ≤ 57 then c.toNat - 48
  else if 97 ≤ c.toNat ∧ c.toNat ≤ 122 then c.toNat - 97 + 10
  else if 65 ≤ c.toNat ∧ c.toNat ≤ 90 then c.toNat - 65 + 10
  else 36

/-- A digit of the base. -/
def isDigitOf (base : Nat) (c : UInt8) : Bool := decide (digitValue c < base)

/-- A blank. -/
def isBlank (c : UInt8) : Bool := c == 32 || c == 9

/-- The sign of a text and how many characters it takes. -/
def signOf : List UInt8 → Int × Nat
  | [] => (1, 0)
  | c :: _ => if c = 45 then (-1, 1) else if c = 43 then (1, 1) else (1, 0)

/-- How many characters of a text are blanks or the sign in front of the number. -/
def leading (l : List UInt8) : Nat :=
  (l.takeWhile isBlank).length + (signOf (l.dropWhile isBlank)).2

/-- A text that starts with `0x` or `0X` and a hexadecimal digit. -/
def hexPrefix : List UInt8 → Bool
  | z :: x :: d :: _ => z == 48 && (x == 120 || x == 88) && isDigitOf 16 d
  | _ => false

/-- How many characters of a prefix are skipped. -/
def prefixLength (base : Nat) (l : List UInt8) : Nat := if base = 16 ∧ hexPrefix l then 2 else 0

/-- The value of a row of digits, the first one being the most significant. -/
def rowValue (base : Nat) (l : List UInt8) : Nat := Nat.ofDigits base (l.map digitValue).reverse

/-- The digits of the number at the start of a text. -/
def numberRow (base : Nat) (l : List UInt8) : List UInt8 :=
  let l := l.drop (leading l)
  (l.drop (prefixLength base l)).takeWhile (isDigitOf base)

/-- The number at the start of a text, and how many characters it takes. -/
def numberAt (base : Nat) (l : List UInt8) : Int × Nat :=
  ((signOf (l.dropWhile isBlank)).1 * rowValue base (numberRow base l),
    leading l + prefixLength base (l.drop (leading l)) + (numberRow base l).length)

/-! ## Runs of characters -/

section

variable {α : Type} {p q : α → Bool}

/-- A longer run starts with the shorter one. -/
theorem takeWhile_of_imp (h : ∀ c, p c → q c) (l : List α) :
    l.takeWhile q = l.takeWhile p ++ (l.dropWhile p).takeWhile q := by
  induction l with
  | nil => rfl
  | cons c l ih =>
    by_cases hp : p c
    · rw [List.takeWhile_cons_of_pos (h c hp), List.takeWhile_cons_of_pos hp,
        List.dropWhile_cons_of_pos hp, ih, List.cons_append]
    · rw [List.takeWhile_cons_of_neg hp, List.dropWhile_cons_of_neg hp, List.nil_append]

/-- The two runs end at the same place when the next character ends both. -/
theorem length_takeWhile_eq_iff (h : ∀ c, p c → q c) (l : List α) :
    (l.takeWhile q).length = (l.takeWhile p).length ↔
      ∀ c, (l.dropWhile p).head? = some c → q c = false := by
  rw [takeWhile_of_imp h, List.length_append]
  cases hd : l.dropWhile p with
  | nil => simp
  | cons c r =>
    by_cases hq : q c
    · rw [List.takeWhile_cons_of_pos hq]
      simp [hq]
    · rw [List.takeWhile_cons_of_neg hq]
      simp [hq]

end

/-! ## What the code takes for a digit -/

/-- The characters that the loop of `strtol` takes. -/
def taken (base : Nat) (c : UInt8) : Bool :=
  isDigitOf base c || isDigit c || (isAlpha c && digitValue c == base)

theorem taken_of_isDigitOf {base : Nat} (c : UInt8) (h : isDigitOf base c) : taken base c := by
  unfold taken
  rw [h, Bool.true_or, Bool.true_or]

theorem signedChar_of_lt {c : UInt8} (h : c.toNat < 128) : signedChar c = c.toNat := by
  unfold signedChar
  rw [Int.bmod_eq_of_le (by omega) (by omega)]

theorem isAlpha_iff (c : UInt8) :
    isAlpha c ↔ (97 ≤ c.toNat ∧ c.toNat ≤ 122) ∨ (65 ≤ c.toNat ∧ c.toNat ≤ 90) := by
  simp [isAlpha, isUpper]

theorem isDigit_iff (c : UInt8) : isDigit c ↔ 48 ≤ c.toNat ∧ c.toNat ≤ 57 := by
  simp [isDigit]

/-- The value that the code computes for a letter. -/
theorem toLower_digitValue {c : UInt8} (h : isAlpha c) :
    toLower c - 97 + 10 = digitValue c ∧ 10 ≤ digitValue c ∧ digitValue c < 36 := by
  rw [isAlpha_iff] at h
  have hsigned := signedChar_of_lt (c := c) (by omega)
  unfold toLower digitValue
  rw [hsigned, if_neg (show ¬ (48 ≤ c.toNat ∧ c.toNat ≤ 57) by omega)]
  by_cases hup : 65 ≤ c.toNat ∧ c.toNat ≤ 90
  · rw [if_pos (by simpa [isUpper] using hup), if_neg (by omega), if_pos hup]
    omega
  · rw [if_neg (by simpa [isUpper] using hup), if_pos (by omega)]
    omega

/-- The value that the code computes for a numeral. -/
theorem signedChar_digitValue {c : UInt8} (h : isDigit c) :
    signedChar c - 48 = digitValue c ∧ digitValue c < 10 ∧ isAlpha c = false := by
  rw [isDigit_iff] at h
  have halpha : isAlpha c = false := by
    rw [← Bool.not_eq_true, isAlpha_iff]
    omega
  unfold digitValue
  rw [signedChar_of_lt (by omega), if_pos h]
  exact ⟨by omega, by omega, halpha⟩

/-- A character that is neither is no digit of any base. -/
theorem digitValue_of_not_alnum {c : UInt8} (h : isAlnum c = false) :
    digitValue c = 36 ∧ isAlpha c = false ∧ isDigit c = false := by
  unfold isAlnum at h
  rw [Bool.or_eq_false_iff] at h
  have halpha := (isAlpha_iff c).not.mp (by rw [h.1]; exact Bool.false_ne_true)
  have hdigit := (isDigit_iff c).not.mp (by rw [h.2]; exact Bool.false_ne_true)
  unfold digitValue
  rw [if_neg hdigit, if_neg (by omega), if_neg (by omega)]
  exact ⟨rfl, h⟩

section

variable {m : Mem} {a base : Nat} {c : UInt8} {l : List UInt8} {value : Int}

/-- One turn of the loop of `strtol`. -/
theorem strtolLoop_succ (fuel : Nat) (hbase : base ≤ 36) :
    strtolLoop m base (fuel + 1) a value =
      if taken base (m a) then
        strtolLoop m base fuel (a + 1) (long (value * base + digitValue (m a)))
      else some (value, a) := by
  rw [strtolLoop]
  unfold taken isDigitOf
  -- the loop ends at a character that is neither letter nor digit
  cases halnum : isAlnum (m a) with
  | false =>
    obtain ⟨hval, halpha, hdigit⟩ := digitValue_of_not_alnum halnum
    rw [hval, halpha, hdigit]
    simp [hbase]
  | true =>
    rw [if_pos rfl]
    cases halpha : isAlpha (m a) with
    | true =>
      obtain ⟨hval, hge, -⟩ := toLower_digitValue halpha
      have hdigit : isDigit (m a) = false := by
        by_contra hd
        have := signedChar_digitValue (Bool.not_eq_false _ ▸ hd)
        omega
      rw [if_pos rfl, hval, hdigit]
      -- the source tests k > base, so a letter of the value base is taken as well
      by_cases hgt : (digitValue (m a) : Int) > base
      · have hne : ¬ digitValue (m a) < base := by omega
        have hne' : ¬ digitValue (m a) = base := by omega
        simp [hgt, hne, hne']
      · have hle : digitValue (m a) < base ∨ digitValue (m a) = base := by omega
        simp [hgt, hle]
    | false =>
      have hdigit : isDigit (m a) = true := by
        unfold isAlnum at halnum
        rwa [halpha, Bool.false_or] at halnum
      rw [if_neg Bool.false_ne_true, (signedChar_digitValue hdigit).1, hdigit]
      simp

/-- The value of a run of characters in the arithmetic of `long`. -/
def longValue (base : Nat) (l : List UInt8) (value : Int) : Int :=
  l.foldl (fun v c => long (v * base + digitValue c)) value

theorem longValue_cons (base : Nat) (c : UInt8) (l : List UInt8) (value : Int) :
    longValue base (c :: l) value = longValue base l (long (value * base + digitValue c)) := by
  rw [longValue, List.foldl_cons, longValue]

/-- The loop of `strtol` takes the longest run of the characters it accepts. -/
theorem strtolLoop_text (fuel : Nat) (hbase : base ≤ 36) (h : Text m a l) (hfuel : l.length < fuel) :
    strtolLoop m base fuel a value =
      some (longValue base (l.takeWhile (taken base)) value,
        a + (l.takeWhile (taken base)).length) := by
  induction l generalizing a fuel value with
  | nil =>
    obtain ⟨fuel, rfl⟩ := Nat.exists_eq_succ_of_ne_zero (Nat.ne_of_gt hfuel)
    -- the terminator is not accepted in any base
    have hend : taken base (0 : UInt8) = false := by
      unfold taken isDigitOf
      rw [show digitValue 0 = 36 by decide, show isDigit 0 = false by decide,
        show isAlpha 0 = false by decide]
      simp [hbase]
    rw [strtolLoop_succ fuel hbase, h.nil, hend, if_neg Bool.false_ne_true]
    rfl
  | cons c l ih =>
    obtain ⟨fuel, rfl⟩ := Nat.exists_eq_succ_of_ne_zero
      (Nat.ne_of_gt (Nat.lt_of_le_of_lt (Nat.zero_le _) hfuel))
    rw [List.length_cons] at hfuel
    rw [strtolLoop_succ fuel hbase, h.head]
    by_cases ht : taken base c
    · rw [if_pos ht, ih fuel h.tail (by omega), List.takeWhile_cons_of_pos ht, List.length_cons]
      rw [longValue_cons]
      congr 2
      omega
    · rw [if_neg ht, List.takeWhile_cons_of_neg ht]
      rfl

theorem skipBlanks_text (fuel : Nat) (h : Text m a l) (hfuel : l.length < fuel) :
    skipBlanks m fuel a = some (a + (l.takeWhile isBlank).length) := by
  induction l generalizing a fuel with
  | nil =>
    obtain ⟨fuel, rfl⟩ := Nat.exists_eq_succ_of_ne_zero (Nat.ne_of_gt hfuel)
    unfold skipBlanks
    rw [h.nil, if_neg (by decide)]
    rfl
  | cons c l ih =>
    obtain ⟨fuel, rfl⟩ := Nat.exists_eq_succ_of_ne_zero
      (Nat.ne_of_gt (Nat.lt_of_le_of_lt (Nat.zero_le _) hfuel))
    rw [List.length_cons] at hfuel
    have hblank : isBlank c ↔ c = 32 ∨ c = 9 := by simp [isBlank]
    unfold skipBlanks
    rw [h.head]
    -- the terminator is no blank, so the loop ends inside of the text
    by_cases hc : isBlank c
    · rw [if_pos (hblank.mp hc), ih fuel h.tail (by omega), List.takeWhile_cons_of_pos hc,
        List.length_cons]
      congr 1
      omega
    · rw [if_neg (hblank.not.mp hc), List.takeWhile_cons_of_neg hc]
      rfl

/-- A text from one of its characters on. -/
theorem Text.drop (h : Text m a l) {k : Nat} (hk : k ≤ l.length) : Text m (a + k) (l.drop k) := by
  induction k generalizing a l with
  | zero => exact h
  | succ k ih =>
    cases l with
    | nil => exact absurd hk (Nat.not_succ_le_zero _)
    | cons c l =>
      have := ih h.tail (Nat.le_of_succ_le_succ hk)
      rwa [Nat.add_assoc, Nat.add_comm 1 k] at this

/-- The text behind the blanks. -/
theorem drop_blanks (l : List UInt8) : l.drop (l.takeWhile isBlank).length = l.dropWhile isBlank := by
  conv_lhs => rw [← List.takeWhile_append_dropWhile (p := isBlank) (l := l)]
  rw [List.drop_append_of_le_length (by rw [List.takeWhile_append_dropWhile]),
    List.takeWhile_append_dropWhile, List.drop_length, List.nil_append]

/-- The sign that the code reads. -/
theorem sign_text (h : Text m a l) :
    (if m a = 45 then ((-1 : Int), a + 1) else if m a = 43 then (1, a + 1) else (1, a)) =
      ((signOf l).1, a + (signOf l).2) ∧ (signOf l).2 ≤ l.length := by
  cases l with
  | nil =>
    rw [h.nil]
    exact ⟨rfl, Nat.zero_le _⟩
  | cons c l =>
    rw [h.head, signOf, List.length_cons]
    by_cases hminus : c = 45
    · -- a minus sign
      rw [if_pos hminus, if_pos hminus]
      exact ⟨rfl, by omega⟩
    · rw [if_neg hminus, if_neg hminus]
      by_cases hplus : c = 43
      · -- a plus sign
        rw [if_pos hplus, if_pos hplus]
        exact ⟨rfl, by omega⟩
      · -- no sign
        rw [if_neg hplus, if_neg hplus]
        exact ⟨rfl, by omega⟩

/-- **What `strtol` returns** for a text in memory. -/
theorem strtol_text (h : Text m a l) (hlow : 2 ≤ base) (hbase : base ≤ 36) :
    strtol m a base = some
      (long ((signOf (l.dropWhile isBlank)).1 *
        longValue base ((l.drop (leading l)).takeWhile (taken base)) 0),
      some (a + (leading l + ((l.drop (leading l)).takeWhile (taken base)).length))) := by
  have hroom := h.room
  have hk : (l.takeWhile isBlank).length ≤ l.length := (List.takeWhile_sublist isBlank).length_le
  have hrest := h.drop hk
  rw [drop_blanks] at hrest
  -- blanks, a sign, and the digits behind them
  obtain ⟨hsign, hle⟩ := sign_text hrest
  have hbody := hrest.drop hle
  have hdrop : (l.dropWhile isBlank).drop (signOf (l.dropWhile isBlank)).2 = l.drop (leading l) := by
    rw [leading, ← List.drop_drop, drop_blanks]
  rw [hdrop] at hbody
  have hlen : (l.drop (leading l)).length < 2 ^ 32 := by
    rw [List.length_drop]
    omega
  unfold strtol
  rw [if_neg (by omega), skipBlanks_text (2 ^ 32) h (by omega), Option.bind_some, hsign]
  show (strtolLoop m base (2 ^ 32) _ 0).map _ = _
  rw [strtolLoop_text (2 ^ 32) hbase hbody hlen, Option.map_some]
  simp only [leading, Nat.add_assoc]

/-! ## The value of a run -/

/-- A row of digits is worth at least what its start is. -/
theorem le_foldl (hlow : 2 ≤ base) (l : List UInt8) (v : Nat) :
    v ≤ l.foldl (fun v c => v * base + digitValue c) v := by
  induction l generalizing v with
  | nil => exact Nat.le_refl _
  | cons c l ih =>
    rw [List.foldl_cons]
    calc v ≤ v * base := Nat.le_mul_of_pos_right v (by omega)
      _ ≤ v * base + digitValue c := Nat.le_add_right _ _
      _ ≤ _ := ih _

/-- Without an overflow the arithmetic of `long` is that of the numbers. -/
theorem longValue_eq (hlow : 2 ≤ base) (l : List UInt8) (v : Nat)
    (h : l.foldl (fun v c => v * base + digitValue c) v < 2 ^ 31) :
    longValue base l v = (l.foldl (fun v c => v * base + digitValue c) v : Nat) := by
  induction l generalizing v with
  | nil => rfl
  | cons c l ih =>
    rw [List.foldl_cons] at h ⊢
    have hstep := le_foldl hlow l (v * base + digitValue c)
    have hlong : long ((v : Int) * base + digitValue c) = (v * base + digitValue c : Nat) := by
      unfold long
      rw [Int.bmod_eq_of_le (by omega) (by push_cast at *; omega)]
      push_cast
      rfl
    rw [longValue_cons, hlong, ih _ h]

theorem rowValue_eq_foldl (l : List UInt8) :
    rowValue base l = l.foldl (fun v c => v * base + digitValue c) 0 := by
  unfold rowValue
  rw [Nat.ofDigits_eq_foldr, List.foldr_reverse, List.foldl_map]
  congr 1
  funext v c
  rw [Nat.cast_id, Nat.mul_comm, Nat.add_comm]

/-- A run whose value fits is read as the grammar says, with either sign. -/
theorem long_sign_mul (hlow : 2 ≤ base) (h : rowValue base l < 2 ^ 31) (r : List UInt8) :
    long ((signOf r).1 * longValue base l 0) = (signOf r).1 * rowValue base l := by
  have hsign : (signOf r).1 = 1 ∨ (signOf r).1 = -1 := by
    cases r with
    | nil => exact Or.inl rfl
    | cons c r =>
      rw [signOf]
      by_cases hminus : c = 45
      · rw [if_pos hminus]
        exact Or.inr rfl
      · rw [if_neg hminus]
        by_cases hplus : c = 43
        · rw [if_pos hplus]
          exact Or.inl rfl
        · rw [if_neg hplus]
          exact Or.inl rfl
  -- below 2 ^ 31 no step of the sum wraps around
  have hvalue : longValue base l 0 = rowValue base l := by
    rw [rowValue_eq_foldl] at h ⊢
    exact longValue_eq hlow l 0 h
  rw [hvalue, long]
  rcases hsign with hs | hs
  · rw [hs, Int.bmod_eq_of_le (by omega) (by omega)]
  · rw [hs, Int.bmod_eq_of_le (by omega) (by omega)]

/-- In base 16 the code reads a prefixed number as `0` and stops at the `x`. -/
theorem takeWhile_hexPrefix (h : hexPrefix l) : (l.takeWhile (taken 16)).length = 1 := by
  match l, h with
  | z :: x :: d :: r, h =>
    simp only [hexPrefix, Bool.and_eq_true, Bool.or_eq_true, beq_iff_eq] at h
    obtain ⟨⟨rfl, hx⟩, -⟩ := h
    have hstop : ¬ taken 16 x := by
      rcases hx with rfl | rfl
      · decide
      · decide
    rw [List.takeWhile_cons_of_pos (by decide), List.takeWhile_cons_of_neg hstop]
    rfl

/-- Behind a prefix the grammar finds a digit at least. -/
theorem numberRow_hexPrefix (h : hexPrefix l) : 0 < ((l.drop 2).takeWhile (isDigitOf 16)).length := by
  match l, h with
  | z :: x :: d :: r, h =>
    simp only [hexPrefix, Bool.and_eq_true] at h
    show 0 < ((d :: r).takeWhile (isDigitOf 16)).length
    rw [List.takeWhile_cons_of_pos h.2, List.length_cons]
    omega

/-- Where the run of digits of the grammar ends, the code goes on at a numeral and at the letter
    that stands for the base. -/
theorem taken_eq_false_iff (h : isDigitOf base c = false) :
    taken base c = false ↔ isDigit c = false ∧ ¬ (isAlpha c ∧ digitValue c = base) := by
  unfold taken
  rw [h, Bool.false_or, Bool.or_eq_false_iff]
  simp

end

/-- `strtol` reads the number that the grammar finds in the text `l` at `str`, and leaves its end
    in `*endptr`. -/
def ReadsNumber (m : Mem) (str base : Nat) (l : List UInt8) : Prop :=
  strtol m str base = some ((numberAt base l).1, some (str + (numberAt base l).2))

/-- **The grammar of `strtol`.** Where the number of the grammar fits into a `long`, it is read
    if and only if there is no prefix in base 16 and the character behind its digits is neither
    a numeral nor the letter that stands for the base. -/
theorem strtol_grammar_iff (m : Mem) (str base : Nat) (l : List UInt8) (h : Text m str l)
    (hlow : 2 ≤ base) (hbase : base ≤ 36) (hfits : rowValue base (numberRow base l) < 2 ^ 31) :
    ReadsNumber m str base l ↔
      ¬ (base = 16 ∧ hexPrefix (l.drop (leading l))) ∧
      ∀ c, ((l.drop (leading l)).dropWhile (isDigitOf base)).head? = some c →
        isDigit c = false ∧ ¬ (isAlpha c ∧ digitValue c = base) := by
  unfold ReadsNumber
  rw [strtol_text h hlow hbase]
  by_cases hhex : base = 16 ∧ hexPrefix (l.drop (leading l))
  · -- the grammar goes on behind the prefix, the code stops inside it
    have hone := takeWhile_hexPrefix hhex.2
    have hmore := numberRow_hexPrefix hhex.2
    obtain ⟨rfl, hpre⟩ := hhex
    have htwo : prefixLength 16 (l.drop (leading l)) = 2 := if_pos ⟨rfl, hpre⟩
    constructor
    · intro heq
      have hend := Option.some.inj (congrArg Prod.snd (Option.some.inj heq))
      simp only [numberAt, numberRow, htwo] at hend
      omega
    · intro hcond
      exact absurd ⟨rfl, hpre⟩ hcond.1
  · have hzero : prefixLength base (l.drop (leading l)) = 0 := if_neg hhex
    have hrow : numberRow base l = (l.drop (leading l)).takeWhile (isDigitOf base) := by
      simp only [numberRow, hzero, List.drop_zero]
    -- the two runs of digits are the same when the code stops where the grammar does
    have hruns := length_takeWhile_eq_iff (p := isDigitOf base) (q := taken base)
      taken_of_isDigitOf (l.drop (leading l))
    have hnext : ∀ c, ((l.drop (leading l)).dropWhile (isDigitOf base)).head? = some c →
        (taken base c = false ↔ isDigit c = false ∧ ¬ (isAlpha c ∧ digitValue c = base)) := by
      intro c hc
      apply taken_eq_false_iff
      have := List.head?_dropWhile_not (isDigitOf base) (l.drop (leading l))
      rw [hc] at this
      exact this
    have hsame : (∀ c, ((l.drop (leading l)).dropWhile (isDigitOf base)).head? = some c →
          isDigit c = false ∧ ¬ (isAlpha c ∧ digitValue c = base)) ↔
        ((l.drop (leading l)).takeWhile (taken base)).length =
          ((l.drop (leading l)).takeWhile (isDigitOf base)).length := by
      rw [hruns]
      constructor
      · intro hall c hc
        exact (hnext c hc).mpr (hall c hc)
      · intro hall c hc
        exact (hnext c hc).mp (hall c hc)
    rw [hsame]
    constructor
    · intro heq
      refine ⟨hhex, ?_⟩
      have hend := Option.some.inj (congrArg Prod.snd (Option.some.inj heq))
      simp only [numberAt, hrow, hzero] at hend
      omega
    · intro hcond
      have hrun : (l.drop (leading l)).takeWhile (taken base) = numberRow base l := by
        have hsplit := takeWhile_of_imp (p := isDigitOf base) (q := taken base) taken_of_isDigitOf
          (l.drop (leading l))
        have hlen := hcond.2
        rw [hsplit, List.length_append] at hlen
        have hrest :
            ((l.drop (leading l)).dropWhile (isDigitOf base)).takeWhile (taken base) = [] :=
          List.eq_nil_of_length_eq_zero (by omega)
        rw [hsplit, hrest, List.append_nil, hrow]
      rw [hrun, long_sign_mul hlow hfits]
      simp only [numberAt, hzero, Nat.add_zero]

/-- A memory that holds a text and zeros around it. -/
def textMem (a : Nat) (l : List UInt8) : Mem := fun x => if x < a then 0 else l.getD (x - a) 0

theorem text_textMem {a : Nat} {l : List UInt8} (hne : ∀ c ∈ l, c ≠ 0)
    (hroom : a + l.length < 2 ^ 32) : Text (textMem a l) a l where
  bytes := by
    intro k b hk
    unfold textMem
    rw [if_neg (by omega), Nat.add_sub_cancel_left, List.getD_eq_getElem?_getD]
    by_cases hlt : k < l.length
    · -- a byte of the text
      rw [List.getElem?_append_left hlt] at hk
      rw [hk]
      rfl
    · -- the terminator
      rw [List.getElem?_append_right (by omega)] at hk
      have hzero : b = 0 := by simpa using List.mem_of_getElem? hk
      rw [List.getElem?_eq_none (by omega), hzero]
      rfl
  nonzero := hne
  room := hroom

/-- The text `" -1f;"` in base 16. -/
theorem strtol_grammar_iff_hex :
    ReadsNumber (textMem 0x100 [32, 45, 49, 102, 59]) 0x100 16 [32, 45, 49, 102, 59] := by
  have h : Text (textMem 0x100 [32, 45, 49, 102, 59]) 0x100 [32, 45, 49, 102, 59] :=
    text_textMem (by simp) (by simp)
  have hvalue : rowValue 16 (numberRow 16 [32, 45, 49, 102, 59]) = 31 := by decide
  apply (strtol_grammar_iff _ _ 16 _ h (by decide) (by decide) (by rw [hvalue]; decide)).mpr
  refine ⟨by decide, ?_⟩
  intro c hc
  obtain rfl : 59 = c := Option.some.inj hc
  decide

/-- The text `"9"` in base 8, where there is no number, `"g"` in base 16 and `"0x1"` in
    base 16. -/
theorem strtol_misreads :
    strtol (textMem 0x100 [57]) 0x100 8 = some (9, some 0x101) ∧ numberAt 8 [57] = (0, 0) ∧
    strtol (textMem 0x100 [103]) 0x100 16 = some (16, some 0x101) ∧ numberAt 16 [103] = (0, 0) ∧
    strtol (textMem 0x100 [48, 120, 49]) 0x100 16 = some (0, some 0x101) ∧
    numberAt 16 [48, 120, 49] = (1, 3) ∧
    Text (textMem 0x100 [57]) 0x100 [57] ∧ ¬ ReadsNumber (textMem 0x100 [57]) 0x100 8 [57] := by
  have h : strtol (textMem 0x100 [57]) 0x100 8 = some (9, some 0x101) := by decide
  refine ⟨h, by decide, by decide, by decide, by decide, by decide,
    text_textMem (by simp) (by simp), ?_⟩
  intro hreads
  have heq := h.symm.trans hreads
  exact absurd heq (by decide)

end Toutatis.Strings
