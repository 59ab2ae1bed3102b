import Toutatis.Lib.Memory

/-!
# Formatted output

A shallow embedding of `kernel/vsprintf.c`, with `strlen`, `strncpy` and `atoi` of
`kernel/string.c` and `kernel/utils.c` as far as it uses them. The format and the strings are
read from memory, the arguments are the words of the stack from `args` on, and what is stored
to `buf` is kept apart, by offset; `none` there is a byte that was not stored. Widths and
precisions do not overflow as long as they stay below `2 ^ 30`.

`tmp` has 1024 bytes and is always read up to its terminator, so it is a list here; a store
behind its end gives `none`. Two fields are not in the source: the bytes of `fmt` that were
read lie below `far`, and `stored` counts the stores to `buf`.

The loop runs while `i <= strlen(fmt)`, and `strlen` counts the terminator: the byte behind the
terminator is taken for a part of the format.

## Key results

- `vsprintf_far`: every run that returns has read behind the terminator
- `format_read_iff`: only without a buffer or a format nothing is read there
-/

namespace Toutatis

open ByteMem

/-! ## Strings and numbers -/

/-- `while (str[ret++]); return ret` -/
def strlenLoop (m : Mem) (str : Nat) : (fuel ret : Nat) → Option Nat
  | 0, _ => none
  | fuel + 1, ret => if m (str + ret) ≠ 0 then strlenLoop m str fuel (ret + 1) else some (ret + 1)

/-- `strlen`, which counts the terminator. -/
def strlen (m : Mem) (str : Nat) : Option Nat := strlenLoop m str (2 ^ 32) 0

/-- The bytes that `strncpy(_, src, n)` copies, without the terminator it stores. -/
def strncpy (m : Mem) (src : Nat) : (n : Nat) → List UInt8
  | 0 => []
  | n + 1 => if m src ≠ 0 then m src :: strncpy m (src + 1) n else []

/-- `is_digit` -/
def isDigit (c : UInt8) : Bool := decide (48 ≤ c.toNat ∧ c.toNat ≤ 57)

/-- `is_upper` and `is_alpha` -/
def isUpper (c : UInt8) : Bool := decide (65 ≤ c.toNat ∧ c.toNat ≤ 90)

@[inherit_doc isUpper]
def isAlpha (c : UInt8) : Bool := decide (97 ≤ c.toNat ∧ c.toNat ≤ 122) || isUpper c

/-- The value of a digit in `atoi`; a `char` is signed. -/
def atoiDigit (c : UInt8) : Int :=
  if isAlpha c then (if isUpper c then c.toNat - 65 + 97 else c.toNat) - 97 + 10
  else (c.toNat : Int).bmod 256 - 48

/-- The last loop of `atoi`, in the arithmetic of `int`. -/
def atoiLoop (base : Int) : List UInt8 → Int → Int
  | [], n => n
  | c :: str, n => if c = 32 then n else atoiLoop base str ((n * base + atoiDigit c).bmod (2 ^ 32))

/-- `atoi`: a leading `0` stands for base 8, and `0x` for base 16. -/
def atoi (str : List UInt8) : Int :=
  let str := str.dropWhile (· == 32)
  if str.head? = some 48 then
    if str.tail.head? = some 120 then atoiLoop 16 str.tail.tail 0 else atoiLoop 8 str.tail 0
  else atoiLoop 10 str 0

/-- The flags of a directive: `LEFT`, `PLUS`, `SIGNED`, `SPACE`, `PREFIX`, `ZEROS` and
    `LARGE`. -/
structure Flags where
  left : Bool
  plus : Bool
  signed : Bool
  space : Bool
  prefixed : Bool
  zeros : Bool
  large : Bool
deriving DecidableEq

/-- `flags = 0` -/
def noFlags : Flags := ⟨false, false, false, false, false, false, false⟩

/-- `digits_lower` and `digits_upper` -/
def digitCode (large : Bool) (n : Nat) : UInt8 :=
  (charCodes (if large then "0123456789ABCDEFGHIJKLMNOPQRSTUVWXYZ"
    else "0123456789abcdefghijklmnopqrstuvwxyz")).getD n 0

/-- The digits of a number, the last one first; a number of 32 bits has at most 32. -/
def digitLoop (base : Nat) (large : Bool) : (fuel num : Nat) → List UInt8
  | 0, _ => []
  | fuel + 1, num =>
    if num ≠ 0 then digitCode large (num % base) :: digitLoop base large fuel (num / base) else []

/-- `width` after the loop `while (width-- > 0)`. -/
def pastLoop (width : Int) : Int := if width > 0 then -1 else width - 1

/-- `number`: the bytes it stores, and what it returns. `total` counts the stores. -/
def number (num base : Nat) (width precision : Int) (flags : Flags) : List UInt8 × Nat :=
  let flags := if flags.left then { flags with zeros := false } else flags
  if base < 2 ∨ base > 36 then ([], 0)
  else
    let pad : UInt8 := if flags.zeros then 48 else 32
    let (num, sign, width) : Nat × List UInt8 × Int :=
      if flags.signed then
        if 2 ^ 31 ≤ num then (2 ^ 32 - num, [45], width - 1)
        else if flags.plus then (num, [43], width - 1)
        else if flags.space then (num, [32], width - 1)
        else (num, [], width)
      else (num, [], width)
    let width :=
      if flags.prefixed then
        if base = 16 then width - 2 else if base = 8 then width - 1 else width
      else width
    let buffer := if num = 0 then [48] else digitLoop base flags.large 32 num
    let i : Int := buffer.length
    let precision := if i > precision then i else precision
    let width := width - precision
    let spaced := !(flags.zeros || flags.left)
    let spaces : List UInt8 := if spaced then List.replicate width.toNat 32 else []
    let width := if spaced then pastLoop width else width
    let mark : List UInt8 :=
      if flags.prefixed then
        if base = 8 then [48] else if base = 16 then [48, if flags.large then 88 else 120] else []
      else []
    let padding : List UInt8 := if flags.left then [] else List.replicate width.toNat pad
    let width := if flags.left then width else pastLoop width
    let zeros : List UInt8 := List.replicate (precision - i).toNat 48
    let rest : List UInt8 := List.replicate width.toNat 32
    let str := spaces ++ sign ++ mark ++ padding ++ zeros ++ buffer.reverse ++ rest
    (str, sub32 str.length 1)

/-! ## Conversions -/

/-- The conversions; `d` stands for `i` too. -/
inductive Conv where
  | c | s | d | u | o | X | x | b
deriving DecidableEq

/-- The `case` labels of the conversions. -/
def convOf (c : UInt8) : Option Conv :=
  if c = 99 then some .c
  else if c = 115 then some .s
  else if c = 100 ∨ c = 105 then some .d
  else if c = 117 then some .u
  else if c = 111 then some .o
  else if c = 88 then some .X
  else if c = 120 then some .x
  else if c = 98 then some .b
  else none

/-- What a conversion stores for the argument `val`, and what it adds to `loc`. -/
def Conv.output (m : Mem) (val : Nat) (flags : Flags) (width precision : Int) :
    Conv → Option (List UInt8 × Nat)
  | .c => some ([UInt8.ofNat val], 0)
  | .s =>
    let tmp := strncpy m val 1024
    if tmp.length < 1024 then some (tmp ++ [0], sub32 (tmp.length + 1) 2) else none
  | .d => some (number val 10 width precision { flags with signed := true })
  | .u => some (number val 10 width precision flags)
  | .o => some (number val 8 width precision flags)
  | .X => some (number val 16 width precision { flags with large := true })
  | .x => some (number val 16 width precision flags)
  | .b => some (number val 2 width precision flags)

/-! ## The format -/

/-- The variables of `vsprintf`; `consumed` counts the arguments taken. -/
structure Printer where
  i : Nat
  loc : Nat
  consumed : Nat
  out : Nat → Option UInt8
  far : Nat
  stored : Nat

/-- Stores to `buf` from the offset `loc` on. -/
def storeAll : (out : Nat → Option UInt8) → (loc : Nat) → List UInt8 → Nat → Option UInt8
  | out, _, [] => out
  | out, loc, c :: str => storeAll (Function.update out loc (some c)) (add32 loc 1) str

/-- What a flag does, `none` when the character is no flag. -/
def applyFlag (flags : Flags) (c : UInt8) : Option Flags :=
  if c = 35 then some { flags with prefixed := true }
  else if c = 48 then some (if flags.left then flags else { flags with zeros := true })
  else if c = 45 then some { flags with zeros := false, left := true }
  else if c = 43 then some { flags with plus := true }
  else if c = 32 then some { flags with plus := false, space := true }
  else none

section

variable (m : Mem) (fmt : Nat) (args : Nat → BitVec 32)

/-- The loop over the flags; `i` is the index of the last byte taken. -/
def flagLoop : (fuel i : Nat) → Flags → Option (Nat × Flags)
  | 0, _, _ => none
  | fuel + 1, i, flags =>
    match applyFlag flags (m (fmt + (i + 1))) with
    | some flags => flagLoop fuel (i + 1) flags
    | none => some (i, flags)

/-- `for (k = 0; is_digit(fmt[i+1]); ++k) tmp[k] = fmt[++i]`: the index and `tmp`. -/
def digitRun : (fuel i : Nat) → Option (Nat × List UInt8)
  | 0, _ => none
  | fuel + 1, i =>
    if isDigit (m (fmt + (i + 1))) then
      (digitRun fuel (i + 1)).map fun r => (r.1, m (fmt + (i + 1)) :: r.2)
    else some (i, [])

/-- A number of the format; `tmp` has room for 1023 digits. -/
def getNumber (i : Nat) : Option (Nat × Int) :=
  (digitRun m fmt (2 ^ 32) i).bind fun r =>
    if r.2.length < 1024 then some (r.1, atoi r.2) else none

/-- The field width: the index, the width, the arguments taken and the flags. -/
def getWidth (i consumed : Nat) (flags : Flags) : Option (Nat × Int × Nat × Flags) :=
  if isDigit (m (fmt + (i + 1))) then
    (getNumber m fmt i).map fun r => (r.1, r.2, consumed, flags)
  else if m (fmt + (i + 1)) = 42 then
    let width := (args consumed).toInt
    if width < 0 then some (i + 1, -width, consumed + 1, { flags with left := true })
    else some (i + 1, width, consumed + 1, flags)
  else some (i, -1, consumed, flags)

/-- The precision: the index, the precision and the arguments taken. -/
def getPrecision (i consumed : Nat) : Option (Nat × Int × Nat) :=
  if m (fmt + (i + 1)) = 46 then
    let i := i + 1
    (if isDigit (m (fmt + (i + 1))) then
        (getNumber m fmt i).map fun r => (r.1, r.2, consumed)
      else if m (fmt + (i + 1)) = 42 then some (i + 1, (args consumed).toInt, consumed + 1)
      else some (i, -1, consumed)).map fun r => (r.1, if r.2.1 < 0 then 0 else r.2.1, r.2.2)
  else some (i, -1, consumed)

/-- The `switch` over the conversion specifier; other characters do nothing. -/
def convert (s : Printer) (flags : Flags) (width precision : Int) : Option Printer :=
  match convOf (m (fmt + (s.i + 1))) with
  | none => some s
  | some conv =>
    (conv.output m (args s.consumed).toNat flags width precision).map fun (str, n) =>
      { s with
        i := s.i + 1
        loc := add32 s.loc n
        consumed := s.consumed + 1
        out := storeAll s.out s.loc str
        stored := s.stored + str.length }

/-- `case '%'` -/
def directive (s : Printer) : Option Printer :=
  (flagLoop m fmt (2 ^ 32) s.i noFlags).bind fun (i, flags) =>
    (getWidth m fmt args i s.consumed flags).bind fun (i, width, consumed, flags) =>
      (getPrecision m fmt args i consumed).bind fun (i, precision, consumed) =>
        -- the byte behind `i` is the last one that was looked at
        convert m fmt args { s with i := i, consumed := consumed, far := max s.far (i + 2) } flags
          width precision

/-- One pass of the loop, with `++i, ++loc`. -/
def vsprintfPass (s : Printer) : Option Printer :=
  let s := { s with far := max s.far (s.i + 1) }
  (if m (fmt + s.i) = 37 then directive m fmt args s
    else some { s with
      out := storeAll s.out s.loc [m (fmt + s.i)]
      stored := s.stored + 1 }).map fun s => { s with i := s.i + 1, loc := add32 s.loc 1 }

/-- `for (i = 0; i <= strlen(fmt); ++i, ++loc)` -/
def vsprintfLoop : (fuel : Nat) → Printer → Option Printer
  | 0, _ => none
  | fuel + 1, s =>
    (strlen m fmt).bind fun len =>
      let s := { s with far := max s.far len }
      if s.i ≤ len then (vsprintfPass m fmt args s).bind (vsprintfLoop fuel) else some s

/-- Before the loop. -/
def startPrinter : Printer := ⟨0, 0, 0, fun _ => none, 0, 0⟩

/-- `vsprintf`, which returns `i`. -/
def vsprintf (buf : Nat) : Option Printer :=
  if buf = 0 ∨ fmt = 0 then some startPrinter
  else vsprintfLoop m fmt args (2 ^ 33) startPrinter

end

/-! ## What is read of the format -/

section

variable {m : Mem} {fmt n : Nat} {args : Nat → BitVec 32} {s s' r : Printer} {flags : Flags}
  {width precision : Int}

/-- A conversion ends at its letter, or nothing has happened. -/
theorem convert_cases (h : convert m fmt args s flags width precision = some s') :
    s' = s ∨ m (fmt + (s.i + 1)) ≠ 0 ∧ s'.i = s.i + 1 ∧ s'.far = s.far := by
  rw [convert] at h
  split at h
  · exact Or.inl (Option.some.inj h).symm
  · rename_i conv hconv
    rw [Option.map_eq_some_iff] at h
    obtain ⟨shown, -, rfl⟩ := h
    refine Or.inr ⟨fun h0 => ?_, rfl, rfl⟩
    rw [h0] at hconv
    exact absurd hconv (by simp [convOf])

/-- A directive reads forward. -/
theorem directive_far (h : directive m fmt args s = some s') : s.far ≤ s'.far := by
  rw [directive] at h
  simp only [Option.bind_eq_some_iff] at h
  obtain ⟨⟨i, flags⟩, -, ⟨i', width, consumed, flags'⟩, -, ⟨i'', precision, consumed'⟩, -, h⟩ := h
  rcases convert_cases h with rfl | ⟨-, -, hfar⟩
  · exact Nat.le_max_left _ _
  · rw [hfar]
    exact Nat.le_max_left _ _

/-- A pass reads its byte. -/
theorem vsprintfPass_far (h : vsprintfPass m fmt args s = some s') :
    s.far ≤ s'.far ∧ s.i + 1 ≤ s'.far := by
  rw [vsprintfPass] at h
  simp only [Option.map_eq_some_iff] at h
  obtain ⟨s₁, hs₁, rfl⟩ := h
  have hfar : max s.far (s.i + 1) ≤ s₁.far := by
    split at hs₁
    · exact directive_far hs₁
    · rw [← Option.some.inj hs₁]
  exact ⟨(Nat.le_max_left _ _).trans hfar, (Nat.le_max_right _ _).trans hfar⟩

/-- What every pass keeps, and every look at the end of the format, holds behind the loop. -/
theorem vsprintfLoop_inv {P : Printer → Prop} {fuel : Nat}
    (h : vsprintfLoop m fmt args fuel s = some r) (hs : P s)
    (hfar : ∀ t len, P t → P { t with far := max t.far len })
    (hpass : ∀ t t', P t → vsprintfPass m fmt args t = some t' → P t') : P r := by
  induction fuel generalizing s with
  | zero => exact absurd h (by simp [vsprintfLoop])
  | succ fuel ih =>
    rw [vsprintfLoop, Option.bind_eq_some_iff] at h
    obtain ⟨len, -, h⟩ := h
    simp only at h
    split at h
    · obtain ⟨s', hs', h⟩ := Option.bind_eq_some_iff.mp h
      exact ih h (hpass _ _ (hfar s len hs) hs')
    · rw [← Option.some.inj h]
      exact hfar s len hs

/-- The loop reads forward. -/
theorem vsprintfLoop_far {fuel : Nat} (h : vsprintfLoop m fmt args fuel s = some r) :
    s.far ≤ r.far := by
  apply vsprintfLoop_inv (P := fun t => s.far ≤ t.far) h (Nat.le_refl _)
  · intro t len ht
    exact ht.trans (Nat.le_max_left _ _)
  · intro t t' ht ht'
    exact ht.trans (vsprintfPass_far ht').1

/-- The format ends at its byte `n`. -/
def EndsAt (m : Mem) (fmt n : Nat) : Prop := m (fmt + n) = 0 ∧ ∀ k < n, m (fmt + k) ≠ 0

/-- A byte that is taken is not the terminator, so the index stays in front of it. -/
theorem EndsAt.succ_lt (h : EndsAt m fmt n) {i : Nat} (hi : i < n) (hne : m (fmt + (i + 1)) ≠ 0) :
    i + 1 < n := by
  by_contra hge
  obtain rfl : n = i + 1 := by omega
  exact hne h.1

/-- `strlen` counts the terminator. -/
theorem strlen_eq (h : EndsAt m fmt n) {len : Nat} (hlen : strlen m fmt = some len) :
    len = n + 1 := by
  have hloop : ∀ fuel ret, ret ≤ n → strlenLoop m fmt fuel ret = some len → len = n + 1 := by
    intro fuel
    induction fuel with
    | zero => exact fun ret _ h => absurd h (by simp [strlenLoop])
    | succ fuel ih =>
      intro ret hret hrec
      rw [strlenLoop] at hrec
      split at hrec
      · -- a byte in front of the terminator
        rename_i hne
        have hlt : ret ≠ n := by
          rintro rfl
          exact hne h.1
        exact ih (ret + 1) (by omega) hrec
      · -- the terminator
        rename_i hz
        have hge : ¬ ret < n := fun hlt => hz (h.2 ret hlt)
        have := Option.some.inj hrec
        omega
  exact hloop _ 0 (Nat.zero_le _) hlen

/-- The flags end before the text does. -/
theorem flagLoop_lt (h : EndsAt m fmt n) {fuel i : Nat} {res : Nat × Flags}
    (hres : flagLoop m fmt fuel i flags = some res) (hi : i < n) : res.1 < n := by
  induction fuel generalizing i flags with
  | zero => exact absurd hres (by simp [flagLoop])
  | succ fuel ih =>
    rw [flagLoop] at hres
    split at hres
    · rename_i heq
      refine ih hres (h.succ_lt hi fun h0 => ?_)
      rw [h0] at heq
      exact absurd heq (by simp [applyFlag])
    · rw [← Option.some.inj hres]
      exact hi

/-- The digits end before the text does. -/
theorem digitRun_lt (h : EndsAt m fmt n) {fuel i : Nat} {res : Nat × List UInt8}
    (hres : digitRun m fmt fuel i = some res) (hi : i < n) : res.1 < n := by
  induction fuel generalizing i res with
  | zero => exact absurd hres (by simp [digitRun])
  | succ fuel ih =>
    rw [digitRun] at hres
    split at hres
    · rename_i hdigit
      rw [Option.map_eq_some_iff] at hres
      obtain ⟨res', hres', rfl⟩ := hres
      -- a digit is not the terminator, so that the text goes on behind it
      have hlt : i + 1 < n := by
        refine h.succ_lt hi fun h0 => ?_
        rw [h0] at hdigit
        exact absurd hdigit (by decide)
      have hrest := ih hres' hlt
      exact hrest
    · rw [← Option.some.inj hres]
      exact hi

/-- A number ends before the text does. -/
theorem getNumber_lt (h : EndsAt m fmt n) {i : Nat} {res : Nat × Int}
    (hres : getNumber m fmt i = some res) (hi : i < n) : res.1 < n := by
  rw [getNumber, Option.bind_eq_some_iff] at hres
  obtain ⟨run, hrun, hres⟩ := hres
  split at hres
  · rw [← Option.some.inj hres]
    exact digitRun_lt h hrun hi
  · exact absurd hres (by simp)

/-- The width ends before the text does. -/
theorem getWidth_lt (h : EndsAt m fmt n) {i consumed : Nat} {res : Nat × Int × Nat × Flags}
    (hres : getWidth m fmt args i consumed flags = some res) (hi : i < n) : res.1 < n := by
  rw [getWidth] at hres
  split at hres
  · rw [Option.map_eq_some_iff] at hres
    obtain ⟨num, hnum, rfl⟩ := hres
    exact getNumber_lt h hnum hi
  · split at hres
    · rename_i hstar
      have hlt := h.succ_lt hi (by rw [hstar]; decide)
      simp only at hres
      split at hres <;> rw [← Option.some.inj hres] <;> exact hlt
    · rw [← Option.some.inj hres]
      exact hi

/-- The precision ends before the text does. -/
theorem getPrecision_lt (h : EndsAt m fmt n) {i consumed : Nat} {res : Nat × Int × Nat}
    (hres : getPrecision m fmt args i consumed = some res) (hi : i < n) : res.1 < n := by
  rw [getPrecision] at hres
  split at hres
  · rename_i hdot
    have hlt := h.succ_lt hi (by rw [hdot]; decide)
    simp only [Option.map_eq_some_iff] at hres
    obtain ⟨res', hres', rfl⟩ := hres
    split at hres'
    · -- digits
      rw [Option.map_eq_some_iff] at hres'
      obtain ⟨num, hnum, rfl⟩ := hres'
      exact getNumber_lt h hnum hlt
    · split at hres'
      · -- a star
        rename_i hstar
        rw [← Option.some.inj hres']
        exact h.succ_lt hlt (by rw [hstar]; decide)
      · -- a point without a number
        rw [← Option.some.inj hres']
        exact hlt
  · rw [← Option.some.inj hres]
    exact hi

/-- A directive does not take the terminator. -/
theorem directive_lt (h : EndsAt m fmt n) (hs' : directive m fmt args s = some s')
    (hi : s.i < n) : s'.i < n := by
  rw [directive] at hs'
  simp only [Option.bind_eq_some_iff] at hs'
  obtain ⟨⟨i, flags⟩, hflags, ⟨i', width, consumed, flags'⟩, hwidth,
    ⟨i'', precision, consumed'⟩, hprec, hconv⟩ := hs'
  have hlt := getPrecision_lt h hprec (getWidth_lt h hwidth (flagLoop_lt h hflags hi))
  rcases convert_cases hconv with rfl | ⟨hne, hi', -⟩
  · exact hlt
  · rw [hi']
    exact h.succ_lt hlt hne

/-- No pass steps over the terminator. -/
theorem vsprintfPass_le (h : EndsAt m fmt n) (hs' : vsprintfPass m fmt args s = some s')
    (hi : s.i ≤ n) : s'.i ≤ n + 1 := by
  rw [vsprintfPass] at hs'
  simp only [Option.map_eq_some_iff] at hs'
  obtain ⟨s₁, hs₁, rfl⟩ := hs'
  split at hs₁
  · rename_i hpercent
    have hlt : s.i < n := by
      refine lt_of_le_of_ne hi fun heq => ?_
      rw [heq, h.1] at hpercent
      exact absurd hpercent (by decide)
    exact Nat.succ_le_succ (Nat.le_of_lt (directive_lt h hs₁ hlt))
  · rw [← Option.some.inj hs₁]
    exact Nat.succ_le_succ hi

/-- **The byte behind the terminator** is read by every run that returns. -/
theorem vsprintf_far (h : EndsAt m fmt n) {fuel : Nat} (hr : vsprintfLoop m fmt args fuel s = some r)
    (hi : s.i ≤ n + 1) : n + 2 ≤ r.far := by
  induction fuel generalizing s with
  | zero => exact absurd hr (by simp [vsprintfLoop])
  | succ fuel ih =>
    rw [vsprintfLoop, Option.bind_eq_some_iff] at hr
    obtain ⟨len, hlen, hr⟩ := hr
    rw [strlen_eq h hlen] at hr
    simp only [if_pos hi, Option.bind_eq_some_iff] at hr
    obtain ⟨s', hs', hr⟩ := hr
    by_cases hlast : s.i = n + 1
    · have hread := (vsprintfPass_far hs').2
      simp only [hlast] at hread
      exact hread.trans (vsprintfLoop_far hr)
    · exact ih hr (vsprintfPass_le h hs' (by simp only; omega))

end

/-- The memories `m` and `m'` hold the same format, up to its terminator at the byte `n`, and
    the same strings for the arguments. -/
structure SameInput (m m' : Mem) (fmt n : Nat) (args : Nat → BitVec 32) : Prop where
  format : ∀ k ≤ n, m' (fmt + k) = m (fmt + k)
  strings : ∀ j, strncpy m' (args j).toNat 1024 = strncpy m (args j).toNat 1024

/-- `vsprintf` depends only on its format up to the terminator: it reads nothing behind it, and
    in every memory with the same input it takes as many arguments and stores the same. -/
def FormatOnly (m : Mem) (fmt n : Nat) (args : Nat → BitVec 32) (buf : Nat) : Prop :=
  ∃ r, vsprintf m fmt args buf = some r ∧ r.far ≤ n + 1 ∧
    ∀ m', SameInput m m' fmt n args → ∃ r', vsprintf m' fmt args buf = some r' ∧
      r'.consumed = r.consumed ∧ r'.out = r.out

/-- **What `vsprintf` reads.** It depends only on its format up to the terminator if and only
    if it is called without a buffer or without a format. -/
theorem format_read_iff {m : Mem} {fmt n : Nat} (args : Nat → BitVec 32) (buf : Nat)
    (h : EndsAt m fmt n) : FormatOnly m fmt n args buf ↔ buf = 0 ∨ fmt = 0 := by
  constructor
  · rintro ⟨r, hr, hfar, -⟩
    by_contra hne
    rw [vsprintf, if_neg hne] at hr
    have := vsprintf_far h hr (Nat.zero_le _)
    omega
  · intro hnull
    have hr : ∀ m', vsprintf m' fmt args buf = some startPrinter := fun m' => if_pos hnull
    exact ⟨startPrinter, hr m, Nat.zero_le _, fun m' _ => ⟨startPrinter, hr m', rfl, rfl⟩⟩

/-- The formats `"a"` of two programs, with different bytes behind them. -/
def formatMem (c : UInt8) : Mem := fun x => if x = 0x100 then 97 else if x = 0x102 then c else 0

/-- Without a buffer nothing is read. -/
theorem format_read_iff_null : FormatOnly (formatMem 98) 0x100 1 (fun _ => 0) 0 :=
  (format_read_iff (fun _ => 0) 0 ⟨by decide, by decide⟩).mpr (Or.inl rfl)

/-- The byte behind the terminator is stored to the buffer. -/
theorem format_overread :
    EndsAt (formatMem 98) 0x100 1 ∧ SameInput (formatMem 98) (formatMem 99) 0x100 1 (fun _ => 0) ∧
      ∃ r r', vsprintf (formatMem 98) 0x100 (fun _ => 0) 0x200 = some r ∧
        vsprintf (formatMem 99) 0x100 (fun _ => 0) 0x200 = some r' ∧
        r.far = 3 ∧ r.out 2 = some 98 ∧ r'.out 2 = some 99 := by
  refine ⟨⟨by decide, by decide⟩, ⟨by decide, fun j => by decide⟩, _, _, rfl, rfl, ?_⟩
  decide

end Toutatis
