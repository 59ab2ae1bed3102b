import Toutatis.Strings.Strtol

/-!
# Writing numbers

A shallow embedding of `itoa` and `atoi` of `kernel/utils.c` over strings in memory. `itoa`
stores the digits from the last one on and turns them round afterwards.

## Key results

- `itoaSwap_apply`: the second loop of `itoa` reverses a stretch of memory
- `itoa_text`: `itoa` writes the numeral and its terminator, and nothing else
- `atoi_text`: on a string in memory `atoi` returns what the `atoi` of `vsprintf` does
- `itoa_roundtrip`: `strtol` and `atoi` read back what `itoa` writes
-/

namespace Toutatis.Strings

open ByteMem

/-! ## The functions -/

/-- The `do` loop of `itoa`: the memory, and `ptr`. A value of 32 bits has at most 32 digits. -/
def itoaDigits (base : Nat) : (fuel value : Nat) → Mem → (ptr : Nat) → Mem × Nat
  | 0, _, m, ptr => (m, ptr)
  | fuel + 1, value, m, ptr =>
    let m := store8 m ptr (digitCode false (value % base))
    let ptr := add32 ptr 1
    if value / base ≠ 0 then itoaDigits base fuel (value / base) m ptr else (m, ptr)

/-- `while (low < ptr)`: the characters are swapped from both ends on. -/
def itoaSwap : (fuel : Nat) → Mem → (low ptr : Nat) → Mem
  | 0, m, _, _ => m
  | fuel + 1, m, low, ptr =>
    if low < ptr then
      let tmp := m low
      let m := store8 m low (m ptr)
      itoaSwap fuel (store8 m ptr tmp) (low + 1) (ptr - 1)
    else m

/-- `itoa`: the memory it leaves, and `str`. -/
def itoa (m : Mem) (value str : Nat) (base : Int) : Mem × Nat :=
  if base < 2 ∨ base > 36 then (store8 m str 0, str)
  else
    let (m, ptr) := itoaDigits base.toNat 32 value m str
    let m := store8 m ptr 0
    (itoaSwap 32 m str (sub32 ptr 1), str)

/-- `while (*str == ' ') ++str` -/
def skipSpaces (m : Mem) : (fuel str : Nat) → Option Nat
  | 0, _ => none
  | fuel + 1, str => if m str = 32 then skipSpaces m fuel (str + 1) else some str

/-- `while (*str)`, in the arithmetic of `int`. -/
def atoiRun (m : Mem) (base : Int) : (fuel str : Nat) → (n : Int) → Option Int
  | 0, _, _ => none
  | fuel + 1, str, n =>
    if m str ≠ 0 then
      if m str = 32 then some n
      else atoiRun m base fuel (str + 1) ((n * base + atoiDigit (m str)).bmod (2 ^ 32))
    else some n

/-- `atoi` -/
def atoi (m : Mem) (str : Nat) : Option Int :=
  (skipSpaces m (2 ^ 32) str).bind fun str =>
    if m str = 48 then
      let str := str + 1
      if m str = 120 then atoiRun m 16 (2 ^ 32) (str + 1) 0 else atoiRun m 8 (2 ^ 32) str 0
    else atoiRun m 10 (2 ^ 32) str 0

/-! ## Numerals -/

/-- The digits of a number, the last one first; zero has one digit. -/
def lowDigits (base v : Nat) : List Nat := if v = 0 then [0] else Nat.digits base v

/-- The numeral of a number in a base. -/
def numeral (large : Bool) (base v : Nat) : List UInt8 :=
  (lowDigits base v).reverse.map (digitCode large)

section

variable {m : Mem} {base v str x : Nat}

/-- Every digit stands for its value. -/
theorem digitCode_spec (large : Bool) {n : Nat} (hn : n < 36) :
    digitValue (digitCode large n) = n ∧ digitCode large n ≠ 0 := by
  revert n
  revert large
  decide

/-- The lowest digit and then the others. -/
theorem lowDigits_cons (hb : 2 ≤ base) (v : Nat) :
    lowDigits base v = (v % base) :: (if v / base ≠ 0 then lowDigits base (v / base) else []) := by
  unfold lowDigits
  by_cases hv : v = 0
  · subst hv
    rw [if_pos rfl, Nat.zero_div, if_neg (not_not.mpr rfl), Nat.zero_mod]
  · rw [if_neg hv, Nat.digits_def' (by omega) (Nat.pos_of_ne_zero hv)]
    by_cases hq : v / base = 0
    · rw [if_neg (not_not.mpr hq), hq, Nat.digits_zero]
    · rw [if_pos hq, if_neg hq]

/-- Every digit is below the base. -/
theorem lowDigits_lt (hb : 2 ≤ base) {n : Nat} (h : n ∈ lowDigits base v) : n < base := by
  unfold lowDigits at h
  by_cases hv : v = 0
  · rw [if_pos hv, List.mem_singleton] at h
    omega
  · rw [if_neg hv] at h
    exact Nat.digits_lt_base (by omega) h

/-- The digits make the number. -/
theorem ofDigits_lowDigits (base v : Nat) : Nat.ofDigits base (lowDigits base v) = v := by
  unfold lowDigits
  by_cases hv : v = 0
  · rw [if_pos hv, Nat.ofDigits_singleton, hv]
  · rw [if_neg hv, Nat.ofDigits_digits]

/-- A division by the base takes at least one bit. -/
theorem div_lt_two_pow (hb : 2 ≤ base) {n : Nat} (hv : v < 2 ^ (n + 1)) : v / base < 2 ^ n := by
  apply Nat.div_lt_of_lt_mul
  calc v < 2 ^ (n + 1) := hv
    _ = 2 * 2 ^ n := by rw [Nat.pow_succ, Nat.mul_comm]
    _ ≤ base * 2 ^ n := Nat.mul_le_mul_right _ hb

/-- A number below `2 ^ n` has at most `n` digits, and at least one. -/
theorem length_lowDigits (hb : 2 ≤ base) {n : Nat} (hn : 0 < n) (hv : v < 2 ^ n) :
    0 < (lowDigits base v).length ∧ (lowDigits base v).length ≤ n := by
  induction n generalizing v with
  | zero => exact absurd hn (Nat.lt_irrefl 0)
  | succ n ih =>
    rw [lowDigits_cons hb]
    by_cases hq : v / base ≠ 0
    · -- the other digits have one bit less at least
      have hdiv : v / base < 2 ^ n := div_lt_two_pow hb hv
      have hpos : 0 < n := by
        apply Nat.pos_of_ne_zero
        rintro rfl
        exact hq (Nat.lt_one_iff.mp hdiv)
      have := ih hpos hdiv
      rw [if_pos hq, List.length_cons]
      omega
    · -- a single digit
      rw [if_neg hq]
      exact ⟨Nat.zero_lt_one, Nat.succ_le_succ (Nat.zero_le n)⟩

/-- A character of a numeral is a digit of its base. -/
theorem digitValue_numeral (large : Bool) (hb : 2 ≤ base) (hbase : base ≤ 36) {c : UInt8}
    (h : c ∈ numeral large base v) : digitValue c < base ∧ c ≠ 0 := by
  obtain ⟨n, hn, rfl⟩ := List.mem_map.mp h
  have hlt := lowDigits_lt hb (List.mem_reverse.mp hn)
  obtain ⟨hval, hne⟩ := digitCode_spec large (show n < 36 by omega)
  exact ⟨by omega, hne⟩

/-- A numeral reads back as its number. -/
theorem rowValue_numeral (large : Bool) (hb : 2 ≤ base) (hbase : base ≤ 36) :
    rowValue base (numeral large base v) = v := by
  have hmap : (numeral large base v).map digitValue = (lowDigits base v).reverse := by
    unfold numeral
    rw [List.map_map]
    rw [List.map_congr_left (g := id) ?_, List.map_id]
    intro n hn
    have hlt := lowDigits_lt hb (List.mem_reverse.mp hn)
    exact (digitCode_spec large (show n < 36 by omega)).1
  unfold rowValue
  rw [hmap, List.reverse_reverse, ofDigits_lowDigits]

/-- Only the numeral of zero starts with the digit 0. -/
theorem head_numeral (large : Bool) (hb : 2 ≤ base) (hbase : base ≤ 36) (hv : v ≠ 0) {c : UInt8}
    {l : List UInt8} (h : numeral large base v = c :: l) : digitValue c ≠ 0 := by
  have hne : Nat.digits base v ≠ [] := Nat.digits_ne_nil_iff_ne_zero.mpr hv
  have hlast := Nat.getLast_digit_ne_zero base hv
  have hlt : (Nat.digits base v).getLast hne < base :=
    Nat.digits_lt_base (by omega) (List.getLast_mem hne)
  unfold numeral lowDigits at h
  rw [if_neg hv] at h
  obtain ⟨n, r, hrev, hc, -⟩ := List.map_eq_cons_iff.mp h
  have hhead : n = (Nat.digits base v).getLast hne := by
    have : (Nat.digits base v).reverse.head? = some n := by rw [hrev]; rfl
    rw [List.head?_reverse, List.getLast?_eq_some_getLast hne] at this
    exact (Option.some.inj this).symm
  rw [← hc, (digitCode_spec large (show n < 36 by omega)).1, hhead]
  exact hlast

/-! ## The loops of itoa -/

/-- The first loop writes the digits, the last one first. -/
theorem itoaDigits_spec (m : Mem) (str : Nat) (hb : 2 ≤ base) {fuel : Nat} (hfuel : 0 < fuel)
    (hv : v < 2 ^ fuel) (hroom : str + (lowDigits base v).length < 2 ^ 32) :
    ∃ m', itoaDigits base fuel v m str = (m', str + (lowDigits base v).length) ∧
      Holds m' str ((lowDigits base v).map (digitCode false)) ∧
      ∀ x, x < str ∨ str + (lowDigits base v).length ≤ x → m' x = m x := by
  induction fuel generalizing v m str with
  | zero => exact absurd hfuel (Nat.lt_irrefl 0)
  | succ fuel ih =>
    have hcons := lowDigits_cons hb v
    unfold itoaDigits
    by_cases hq : v / base ≠ 0
    · rw [if_pos hq] at hcons
      rw [hcons, List.length_cons] at hroom
      rw [if_pos hq, add32_of_lt (by omega), hcons, List.length_cons, List.map_cons]
      have hdiv : v / base < 2 ^ fuel := div_lt_two_pow hb hv
      have hpos : 0 < fuel := by
        apply Nat.pos_of_ne_zero
        rintro rfl
        exact hq (Nat.lt_one_iff.mp hdiv)
      -- the lowest digit is stored at str, the others behind it
      obtain ⟨m', hm', hdigits, hframe⟩ := ih (store8 m str (digitCode false (v % base)))
        (str + 1) hpos hdiv (by omega)
      refine ⟨m', ?_, ?_, ?_⟩
      · rw [hm']
        congr 1
        omega
      · rw [← List.singleton_append, holds_append, holds_singleton]
        refine ⟨?_, hdigits⟩
        rw [hframe str (Or.inl (by omega)), store8_self]
      · intro x hx
        rw [hframe x (by omega), store8_of_ne _ (by omega)]
    · rw [if_neg hq] at hcons
      rw [hcons, List.length_singleton] at hroom
      rw [if_neg hq, hcons, List.length_singleton, add32_of_lt (by omega)]
      refine ⟨_, rfl, ?_, ?_⟩
      · exact holds_singleton.mpr (store8_self _)
      · intro x hx
        exact store8_of_ne _ (by omega)

/-- The second loop turns the stretch between its pointers round. -/
theorem itoaSwap_apply {fuel low ptr : Nat} (hfuel : ptr < low + 2 * fuel) :
    itoaSwap fuel m low ptr x = if low ≤ x ∧ x ≤ ptr then m (low + ptr - x) else m x := by
  induction fuel generalizing m low ptr with
  | zero =>
    rw [if_neg (by omega)]
    rfl
  | succ fuel ih =>
    unfold itoaSwap
    by_cases hlt : low < ptr
    · rw [if_pos hlt]
      show itoaSwap fuel (store8 (store8 m low (m ptr)) ptr (m low)) (low + 1) (ptr - 1) x = _
      rw [ih (by omega)]
      by_cases hin : low + 1 ≤ x ∧ x ≤ ptr - 1
      · rw [if_pos hin, if_pos (by omega), store8_of_ne _ (by omega), store8_of_ne _ (by omega)]
        congr 1
        omega
      · -- the two ends, and everything outside
        rw [if_neg hin]
        by_cases hlow : x = low
        · subst hlow
          rw [store8_of_ne _ (by omega), store8_self, if_pos (by omega), Nat.add_sub_cancel_left]
        · by_cases hptr : x = ptr
          · subst hptr
            rw [store8_self, if_pos (by omega), Nat.add_sub_cancel]
          · rw [store8_of_ne _ hptr, store8_of_ne _ hlow, if_neg (by omega)]
    · rw [if_neg hlt]
      by_cases hx : low ≤ x ∧ x ≤ ptr
      · rw [if_pos hx]
        congr 1
        omega
      · rw [if_neg hx]

/-- **What `itoa` writes**: the numeral, one terminator, and nothing else. -/
theorem itoa_text (hb : 2 ≤ base) (hbase : base ≤ 36) (hv : v < 2 ^ 32)
    (hroom : str + (numeral false base v).length < 2 ^ 32) :
    (itoa m v str base).2 = str ∧ Text (itoa m v str base).1 str (numeral false base v) ∧
    ∀ x, x < str ∨ str + (numeral false base v).length < x → (itoa m v str base).1 x = m x := by
  have hlen : (numeral false base v).length = (lowDigits base v).length := by
    unfold numeral
    rw [List.length_map, List.length_reverse]
  rw [hlen] at hroom ⊢
  obtain ⟨hpos, hle⟩ := length_lowDigits hb (n := 32) (by omega) hv
  obtain ⟨m₁, hm₁, hdigits, hframe⟩ := itoaDigits_spec m str hb (show 0 < 32 by omega) hv hroom
  have hitoa : itoa m v str base = (itoaSwap 32 (store8 m₁ (str + (lowDigits base v).length) 0) str
      (str + (lowDigits base v).length - 1), str) := by
    unfold itoa
    rw [if_neg (by omega), Int.toNat_natCast, hm₁]
    show (itoaSwap 32 _ str (sub32 (str + (lowDigits base v).length) 1), str) = _
    rw [sub32_of_le (by omega) hroom]
  have hat : ∀ x, (itoa m v str base).1 x =
      if str ≤ x ∧ x < str + (lowDigits base v).length then
        m₁ (str + (str + (lowDigits base v).length - 1) - x)
      else if x = str + (lowDigits base v).length then 0 else m x := by
    intro x
    rw [hitoa]
    show itoaSwap 32 _ str _ x = _
    rw [itoaSwap_apply (by omega)]
    by_cases hin : str ≤ x ∧ x < str + (lowDigits base v).length
    · rw [if_pos (by omega), if_pos hin, store8_of_ne _ (by omega)]
    · rw [if_neg (by omega), if_neg hin]
      by_cases hend : x = str + (lowDigits base v).length
      · rw [if_pos hend, hend, store8_self]
      · rw [if_neg hend, store8_of_ne _ hend, hframe x (by omega)]
  refine ⟨by rw [hitoa], ⟨?_, ?_, by rw [hlen]; exact hroom⟩, ?_⟩
  · rw [holds_append, hlen, holds_singleton]
    refine ⟨?_, ?_⟩
    · intro k b hk
      have hlt := (List.getElem?_eq_some_iff.mp hk).1
      rw [hlen] at hlt
      -- the digit `k` of the numeral is the digit `length - 1 - k` that was written
      have hidx : str + (str + (lowDigits base v).length - 1) - (str + k) =
          str + ((lowDigits base v).length - 1 - k) := by omega
      rw [hat, if_pos (by omega), hidx]
      apply hdigits
      unfold numeral at hk
      rw [List.getElem?_map, List.getElem?_reverse hlt] at hk
      rw [List.getElem?_map, hk]
    · rw [hat, if_neg (by omega), if_pos rfl]
  · intro c hc
    exact (digitValue_numeral false hb hbase hc).2
  · intro x hx
    rw [hat, if_neg (by omega), if_neg (by omega)]

/-! ## Reading back -/

/-- Numerals have neither blanks nor a sign in front. -/
theorem leading_numeral (large : Bool) (hb : 2 ≤ base) (hbase : base ≤ 36) :
    leading (numeral large base v) = 0 ∧
      (numeral large base v).dropWhile isBlank = numeral large base v ∧
      (signOf (numeral large base v)).1 = 1 := by
  -- blanks and signs have no digit value, whatever the base
  have hfirst : ∀ c, digitValue c < base → isBlank c = false ∧ c ≠ 45 ∧ c ≠ 43 := by
    intro c hc
    have hblank : isBlank c = false := by
      by_contra h
      rw [Bool.not_eq_false, isBlank, Bool.or_eq_true, beq_iff_eq, beq_iff_eq] at h
      rcases h with rfl | rfl
      · exact absurd hc (by rw [show digitValue 32 = 36 by decide]; omega)
      · exact absurd hc (by rw [show digitValue 9 = 36 by decide]; omega)
    refine ⟨hblank, ?_, ?_⟩
    · rintro rfl
      exact absurd hc (by rw [show digitValue 45 = 36 by decide]; omega)
    · rintro rfl
      exact absurd hc (by rw [show digitValue 43 = 36 by decide]; omega)
  cases hl : numeral large base v with
  | nil => exact ⟨rfl, rfl, rfl⟩
  | cons c l =>
    have hc := (digitValue_numeral large hb hbase (v := v) (c := c)
      (by rw [hl]; exact List.mem_cons_self)).1
    obtain ⟨hblank, hminus, hplus⟩ := hfirst c hc
    have hdrop : (c :: l).dropWhile isBlank = c :: l := by
      rw [List.dropWhile_cons_of_neg (by rw [hblank]; exact Bool.false_ne_true)]
    have hsign : signOf (c :: l) = (1, 0) := by
      rw [signOf, if_neg hminus, if_neg hplus]
    refine ⟨?_, hdrop, by rw [hsign]⟩
    rw [leading, hdrop, hsign,
      List.takeWhile_cons_of_neg (by rw [hblank]; exact Bool.false_ne_true)]
    rfl

/-- `strtol` reads a numeral up to its terminator. -/
theorem strtol_numeral (large : Bool) (h : Text m str (numeral large base v)) (hb : 2 ≤ base)
    (hbase : base ≤ 36) (hv : v < 2 ^ 31) :
    strtol m str base = some ((v : Int), some (str + (numeral large base v).length)) := by
  obtain ⟨hlead, hdrop, hsign⟩ := leading_numeral large hb hbase (v := v)
  have hrun : (numeral large base v).takeWhile (taken base) = numeral large base v := by
    rw [List.takeWhile_eq_self_iff]
    intro c hc
    apply taken_of_isDigitOf
    exact decide_eq_true (digitValue_numeral large hb hbase hc).1
  have hrow := rowValue_numeral large hb hbase (v := v)
  rw [strtol_text h hb hbase, hlead, List.drop_zero, hrun, long_sign_mul hb (by rw [hrow]; exact hv),
    hdrop, hsign, hrow, Int.one_mul, Nat.zero_add]

/-- The value that `atoi` takes for a digit. -/
theorem atoiDigit_eq {c : UInt8} (h : digitValue c < 36) : atoiDigit c = digitValue c := by
  cases halnum : isAlnum c with
  | false =>
    have := (digitValue_of_not_alnum halnum).1
    omega
  | true =>
    unfold atoiDigit
    cases halpha : isAlpha c with
    | true =>
      rw [if_pos rfl, ← (toLower_digitValue halpha).1, toLower]
      rw [isAlpha_iff] at halpha
      rw [signedChar_of_lt (by omega)]
      -- upper case letters are made lower case first, as to_lower does
      by_cases hup : isUpper c
      · have hge : 65 ≤ c.toNat := (of_decide_eq_true hup).1
        rw [if_pos hup, if_pos hup]
        omega
      · rw [if_neg hup, if_neg hup]
    | false =>
      have hdigit : isDigit c = true := by
        unfold isAlnum at halnum
        rwa [halpha, Bool.false_or] at halnum
      rw [if_neg Bool.false_ne_true]
      exact (signedChar_digitValue hdigit).1

/-- On digits the last loop of `atoi` is the loop of `strtol`. -/
theorem atoiLoop_eq (l : List UInt8) (h : ∀ c ∈ l, digitValue c < 36) (n : Int) :
    atoiLoop base l n = longValue base l n := by
  induction l generalizing n with
  | nil => rfl
  | cons c l ih =>
    have hc := h c List.mem_cons_self
    have hblank : c ≠ 32 := by
      rintro rfl
      exact absurd hc (by decide)
    rw [atoiLoop, if_neg hblank, longValue_cons, atoiDigit_eq hc,
      ih (fun c hc => h c (List.mem_cons_of_mem _ hc)), long]

/-- The `atoi` of `vsprintf` reads a decimal numeral; `"0"` is read in base 8. -/
theorem atoi_numeral (hv : v < 2 ^ 31) : Toutatis.atoi (numeral false 10 v) = v := by
  have hrow : rowValue 10 (numeral false 10 v) = v := rowValue_numeral false (by omega) (by omega)
  have hall : ∀ c ∈ numeral false 10 v, digitValue c < 10 :=
    fun c hc => (digitValue_numeral false (by omega) (by omega) hc).1
  by_cases hzero : v = 0
  · subst hzero
    decide
  · cases hl : numeral false 10 v with
    | nil =>
      have hnil : rowValue 10 [] = 0 := rfl
      rw [hl, hnil] at hrow
      omega
    | cons c l =>
      have hc : digitValue c < 10 := hall c (by rw [hl]; exact List.mem_cons_self)
      -- a numeral starts with a digit, so no blank is skipped
      have hblank : (c == 32) = false := by
        rw [beq_eq_false_iff_ne]
        rintro rfl
        exact absurd hc (by decide)
      -- and the digit is not 0, so the base is 10
      have hnot : c ≠ 48 := by
        rintro rfl
        exact head_numeral false (by omega) (by omega) hzero hl (by decide)
      have hvalue : v = (numeral false 10 v).foldl (fun v c => v * 10 + digitValue c) 0 :=
        hrow.symm.trans (rowValue_eq_foldl _)
      unfold Toutatis.atoi
      rw [List.dropWhile_cons_of_neg (by rw [hblank]; exact Bool.false_ne_true), ← hl]
      show (if _ then _ else atoiLoop 10 (numeral false 10 v) 0) = _
      rw [if_neg]
      · have hloop : atoiLoop (10 : Nat) (numeral false 10 v) 0 =
            longValue 10 (numeral false 10 v) 0 :=
          atoiLoop_eq _ (fun c hc => Nat.lt_trans (hall c hc) (by omega)) 0
        have hlong : longValue 10 (numeral false 10 v) (0 : Nat) = _ :=
          longValue_eq (by omega) _ 0 (by rw [← hvalue]; exact hv)
        rw [← hvalue] at hlong
        exact hloop.trans hlong
      · rw [hl, List.head?_cons]
        intro heq
        exact hnot (Option.some.inj heq)

/-! ## Decimal numbers in memory -/

/-- The spaces in front of a text are skipped. -/
theorem skipSpaces_text (fuel : Nat) {l : List UInt8} (h : Text m str l) (hfuel : l.length < fuel) :
    ∃ k, skipSpaces m fuel str = some (str + k) ∧ k ≤ l.length ∧
      l.drop k = l.dropWhile (· == 32) := by
  induction l generalizing str fuel with
  | nil =>
    obtain ⟨fuel, rfl⟩ := Nat.exists_eq_succ_of_ne_zero (Nat.ne_of_gt hfuel)
    refine ⟨0, ?_, Nat.le_refl _, rfl⟩
    unfold skipSpaces
    rw [h.nil, if_neg (by decide)]
    rfl
  | cons c l ih =>
    obtain ⟨fuel, rfl⟩ := Nat.exists_eq_succ_of_ne_zero
      (Nat.ne_of_gt (Nat.lt_of_le_of_lt (Nat.zero_le _) hfuel))
    rw [List.length_cons] at hfuel ⊢
    unfold skipSpaces
    rw [h.head]
    -- the terminator is no blank, so the loop stops there at the latest
    by_cases hc : c = 32
    · obtain ⟨k, hk, hle, hdrop⟩ := ih fuel h.tail (by omega)
      refine ⟨k + 1, ?_, by omega, ?_⟩
      · rw [if_pos hc, hk]
        congr 1
        omega
      · rw [List.drop_succ_cons, hdrop, List.dropWhile_cons_of_pos (by rw [hc]; rfl)]
    · refine ⟨0, ?_, Nat.zero_le _, ?_⟩
      · rw [if_neg hc]
        rfl
      · rw [List.drop_zero, List.dropWhile_cons_of_neg (by rw [beq_iff_eq]; exact hc)]

/-- The loop of `atoi` reads the text to its end. -/
theorem atoiRun_text (fuel : Nat) (b : Int) {l : List UInt8} (h : Text m str l)
    (hfuel : l.length < fuel) (n : Int) :
    atoiRun m b fuel str n = some (atoiLoop b l n) := by
  induction l generalizing str fuel n with
  | nil =>
    -- the terminator
    obtain ⟨fuel, rfl⟩ := Nat.exists_eq_succ_of_ne_zero (Nat.ne_of_gt hfuel)
    unfold atoiRun
    rw [h.nil, if_neg (not_not.mpr rfl)]
    rfl
  | cons c l ih =>
    obtain ⟨fuel, rfl⟩ := Nat.exists_eq_succ_of_ne_zero
      (Nat.ne_of_gt (Nat.lt_of_le_of_lt (Nat.zero_le _) hfuel))
    rw [List.length_cons] at hfuel
    rw [atoiRun, h.head, if_pos (h.nonzero c List.mem_cons_self), atoiLoop]
    by_cases hc : c = 32
    · -- `atoi` stops at a space
      rw [if_pos hc, if_pos hc]
    · -- a digit, or what it takes for one
      rw [if_neg hc, if_neg hc, ih fuel h.tail (by omega)]

/-- The first character of a text, as the code sees it. -/
theorem Text.head_iff {l : List UInt8} {c : UInt8} (h : Text m str l) (hc : c ≠ 0) :
    m str = c ↔ l.head? = some c := by
  cases l with
  | nil =>
    rw [h.nil]
    constructor
    · intro heq
      exact absurd heq.symm hc
    · intro heq
      exact absurd heq (by simp)
  | cons d l =>
    rw [h.head, List.head?_cons, Option.some_inj]

/-- The text behind a character that is not the terminator. -/
theorem Text.tail_of_ne {l : List UInt8} (h : Text m str l) (hne : m str ≠ 0) :
    Text m (str + 1) l.tail := by
  cases l with
  | nil => exact absurd h.nil hne
  | cons c l => exact h.tail

/-- `atoi` on a string in memory. -/
theorem atoi_text {l : List UInt8} (h : Text m str l) : atoi m str = some (Toutatis.atoi l) := by
  have hroom := h.room
  obtain ⟨k, hk, hle, hdrop⟩ := skipSpaces_text (2 ^ 32) h (by omega)
  have hrest := h.drop hle
  rw [hdrop] at hrest
  have hlen := hrest.room
  unfold atoi Toutatis.atoi
  rw [hk, Option.bind_some]
  generalize l.dropWhile (· == 32) = r at hrest hlen ⊢
  -- the base is chosen by the first two characters behind the blanks, on both sides
  by_cases hzero : m (str + k) = 48
  · have htail := hrest.tail_of_ne (by rw [hzero]; decide)
    have hlen' := htail.room
    rw [if_pos hzero, if_pos ((hrest.head_iff (by decide)).mp hzero)]
    by_cases hx : m (str + k + 1) = 120
    · have htail' := htail.tail_of_ne (by rw [hx]; decide)
      have hlen'' := htail'.room
      rw [if_pos hx, if_pos ((htail.head_iff (by decide)).mp hx)]
      exact atoiRun_text (2 ^ 32) 16 htail' (by omega) 0
    · rw [if_neg hx, if_neg ((htail.head_iff (by decide)).not.mp hx)]
      exact atoiRun_text (2 ^ 32) 8 htail (by omega) 0
  · rw [if_neg hzero, if_neg ((hrest.head_iff (by decide)).not.mp hzero)]
    exact atoiRun_text (2 ^ 32) 10 hrest (by omega) 0

end

/-- **Numbers and their texts.** For every value below `2 ^ 31` and every base, `itoa` writes the
    numeral of the value with one terminator and nothing else, `strtol` reads the value back and
    stops at the terminator, and in base 10 so does `atoi`. -/
theorem itoa_roundtrip (m : Mem) (v str base : Nat) (hv : v < 2 ^ 31) (hb : 2 ≤ base)
    (hbase : base ≤ 36) (hroom : str + (numeral false base v).length < 2 ^ 32) :
    (itoa m v str base).2 = str ∧
    Text (itoa m v str base).1 str (numeral false base v) ∧
    (∀ x, x < str ∨ str + (numeral false base v).length < x → (itoa m v str base).1 x = m x) ∧
    rowValue base (numeral false base v) = v ∧
    (v ≠ 0 → ∀ c, (numeral false base v).head? = some c → digitValue c ≠ 0) ∧
    strtol (itoa m v str base).1 (itoa m v str base).2 base =
      some ((v : Int), some (str + (numeral false base v).length)) ∧
    (base = 10 → atoi (itoa m v str base).1 (itoa m v str base).2 = some (v : Int)) := by
  obtain ⟨hstr, htext, hframe⟩ := itoa_text (m := m) hb hbase (by omega) hroom
  refine ⟨hstr, htext, hframe, rowValue_numeral false hb hbase, ?_, ?_, ?_⟩
  -- only the numeral of 0 starts with a 0
  · intro hne c hc
    cases hl : numeral false base v with
    | nil =>
      rw [hl] at hc
      exact absurd hc (by simp)
    | cons d l =>
      rw [hl] at hc
      obtain rfl : d = c := Option.some.inj hc
      exact head_numeral false hb hbase hne hl
  · rw [hstr]
    exact strtol_numeral false htext hb hbase hv
  · rintro rfl
    rw [hstr, atoi_text htext, atoi_numeral hv]

/-- The number 255 in base 16. -/
theorem itoa_roundtrip_ff :
    strtol (itoa (fun _ => 0) 255 0x100 16).1 (itoa (fun _ => 0) 255 0x100 16).2 16 =
      some (255, some (0x100 + (numeral false 16 255).length)) :=
  (itoa_roundtrip (fun _ => 0) 255 0x100 16 (by decide) (by decide) (by decide)
    (by rw [numeral, List.length_map, List.length_reverse]
        have := length_lowDigits (show 2 ≤ 16 by omega) (show 0 < 8 by omega)
          (show 255 < 2 ^ 8 by decide)
        omega)).2.2.2.2.2.1

end Toutatis.Strings
