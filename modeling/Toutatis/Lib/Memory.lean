import Mathlib

/-!
# Byte memory and 32-bit words

A byte-addressed memory with little-endian 32-bit loads and stores, and the
wrap-around arithmetic of 32-bit unsigned integers over `Nat`.

## Key results

- `load32_store32_self` / `load32_store32_of_disjoint`: a load sees the last
  store to its word and no store to a disjoint one
- `load32_congr`: a load depends on its four bytes only
- `add32_of_lt` / `sub32_of_le`: machine arithmetic is plain arithmetic when
  nothing wraps
- `holds_append` / `Holds.bytesAt`: stretches of bytes
-/

namespace ByteMem

/-- Byte-addressed memory. -/
abbrev Mem := Nat → UInt8

/-- Unsigned 32-bit addition. -/
def add32 (a b : Nat) : Nat := (a + b) % 2 ^ 32

/-- Unsigned 32-bit subtraction. -/
def sub32 (a b : Nat) : Nat := (a + (2 ^ 32 - b % 2 ^ 32)) % 2 ^ 32

/-- The little-endian 32-bit word at address `a`. -/
def load32 (m : Mem) (a : Nat) : Nat :=
  (m a).toNat + (m (a + 1)).toNat * 256 + (m (a + 2)).toNat * 65536
    + (m (a + 3)).toNat * 16777216

/-- Store the low 32 bits of `v` at address `a`, little-endian. -/
def store32 (m : Mem) (a v : Nat) : Mem := fun x =>
  if x = a then UInt8.ofNat v
  else if x = a + 1 then UInt8.ofNat (v / 256)
  else if x = a + 2 then UInt8.ofNat (v / 65536)
  else if x = a + 3 then UInt8.ofNat (v / 16777216)
  else m x

/-! ## Arithmetic -/

/-- A sum of words is a word. -/
theorem add32_lt (a b : Nat) : add32 a b < 2 ^ 32 := by
  simp only [add32]; omega

/-- A difference of words is a word. -/
theorem sub32_lt (a b : Nat) : sub32 a b < 2 ^ 32 := by
  simp only [sub32]; omega

/-- A sum that fits does not wrap around. -/
theorem add32_of_lt {a b : Nat} (h : a + b < 2 ^ 32) : add32 a b = a + b := by
  simp only [add32]; omega

/-- A difference that is not negative does not wrap around. -/
theorem sub32_of_le {a b : Nat} (h : b ≤ a) (ha : a < 2 ^ 32) : sub32 a b = a - b := by
  simp only [sub32]; omega

/-- A subtraction that borrows. -/
theorem sub32_of_lt {a b : Nat} (h : a < b) (hb : b < 2 ^ 32) :
    sub32 a b = a + 2 ^ 32 - b := by
  simp only [sub32]; omega

/-! ## Loads and stores -/

/-- What is loaded is a word. -/
theorem load32_lt (m : Mem) (a : Nat) : load32 m a < 2 ^ 32 := by
  have h0 := (m a).toNat_lt
  have h1 := (m (a + 1)).toNat_lt
  have h2 := (m (a + 2)).toNat_lt
  have h3 := (m (a + 3)).toNat_lt
  simp only [load32]; omega

/-- A load depends on its four bytes only. -/
theorem load32_congr {m m' : Mem} {a : Nat} (h : ∀ x, a ≤ x → x < a + 4 → m x = m' x) :
    load32 m a = load32 m' a := by
  simp only [load32]
  rw [h a (by omega) (by omega), h (a + 1) (by omega) (by omega),
    h (a + 2) (by omega) (by omega), h (a + 3) (by omega) (by omega)]

/-- A store leaves every byte outside its word alone. -/
theorem store32_apply_of_disjoint (m : Mem) (v : Nat) {a x : Nat} (h : x < a ∨ a + 4 ≤ x) :
    store32 m a v x = m x := by
  simp only [store32]
  rw [if_neg (by omega), if_neg (by omega), if_neg (by omega), if_neg (by omega)]

/-- The word that was stored is loaded back. -/
theorem load32_store32_self (m : Mem) (a v : Nat) :
    load32 (store32 m a v) a = v % 2 ^ 32 := by
  simp only [load32, store32, Nat.add_eq_left, Nat.add_left_cancel_iff, if_true,
    OfNat.ofNat_ne_zero, one_ne_zero, if_false, OfNat.ofNat_ne_one, UInt8.toNat_ofNat']
  norm_num
  omega

/-- A word apart from the one that was stored is the old one. -/
theorem load32_store32_of_disjoint (m : Mem) (v : Nat) {a b : Nat}
    (h : a + 4 ≤ b ∨ b + 4 ≤ a) : load32 (store32 m a v) b = load32 m b := by
  apply load32_congr
  intro x h1 h2
  exact store32_apply_of_disjoint m v (by omega)

/-! ## Stretches of bytes -/

/-- The bytes of a 32-bit word, in the order of memory. -/
def le32 (v : Nat) : List UInt8 :=
  [UInt8.ofNat v, UInt8.ofNat (v / 256), UInt8.ofNat (v / 65536), UInt8.ofNat (v / 16777216)]

/-- The codes of the characters of a text. -/
def charCodes (text : String) : List UInt8 := text.toList.map fun c => UInt8.ofNat c.toNat

/-- Memory holds the bytes `l` from address `a` on. -/
def Holds (m : Mem) (a : Nat) (l : List UInt8) : Prop := ∀ k b, l[k]? = some b → m (a + k) = b

/-- `n` bytes from address `a` on, where addresses wrap around. -/
def bytesAt (m : Mem) (a n : Nat) : List UInt8 := (List.range n).map fun k => m ((a + k) % 2 ^ 32)

section

variable {m m' : Mem} {a n k : Nat} {l r : List UInt8}

/-- A concatenation lies in memory part by part. -/
theorem holds_append : Holds m a (l ++ r) ↔ Holds m a l ∧ Holds m (a + l.length) r := by
  constructor
  · refine fun h => ⟨fun k b hk => h k b ?_, fun k b hk => ?_⟩
    · rwa [List.getElem?_append_left (List.getElem?_eq_some_iff.mp hk).1]
    · rw [Nat.add_assoc]
      refine h (l.length + k) b ?_
      rwa [List.getElem?_append_right (by omega), Nat.add_sub_cancel_left]
  · rintro ⟨hl, hr⟩ k b hk
    by_cases hlt : k < l.length
    · rw [List.getElem?_append_left hlt] at hk
      exact hl k b hk
    · rw [List.getElem?_append_right (by omega)] at hk
      have := hr (k - l.length) b hk
      rwa [Nat.add_assoc, Nat.add_sub_cancel' (by omega)] at this

/-- One byte lies in memory. -/
theorem holds_singleton {b : UInt8} : Holds m a [b] ↔ m a = b := by
  constructor
  · intro h
    exact h 0 b rfl
  · intro h k c hk
    match k with
    | 0 => exact h.trans (Option.some.inj hk)
    | k + 1 => exact absurd hk (by simp)

/-- The first byte lies at the address. -/
theorem Holds.head {b : UInt8} (h : Holds m a (b :: l)) : m a = b := h 0 b rfl

/-- The bytes behind the first one lie behind it. -/
theorem Holds.tail {b : UInt8} (h : Holds m a (b :: l)) : Holds m (a + 1) l :=
  (holds_append (l := [b])).mp h |>.2

/-- Whether bytes lie in memory depends on these bytes only. -/
theorem Holds.congr (h : Holds m a l) (hm : ∀ x, a ≤ x → x < a + l.length → m' x = m x) :
    Holds m' a l := by
  intro k b hk
  have hlt := (List.getElem?_eq_some_iff.mp hk).1
  rw [hm _ (by omega) (by omega)]
  exact h k b hk

/-- Four bytes in little-endian order are their word. -/
theorem Holds.load32 {v : Nat} (h : Holds m a (le32 v)) : load32 m a = v % 2 ^ 32 := by
  have h0 := h 0 _ rfl
  have h1 := h 1 _ rfl
  have h2 := h 2 _ rfl
  have h3 := h 3 _ rfl
  rw [Nat.add_zero] at h0
  rw [ByteMem.load32, h0, h1, h2, h3]
  simp only [UInt8.toNat_ofNat']
  omega

/-- As many bytes are read as asked for. -/
@[simp] theorem length_bytesAt : (bytesAt m a n).length = n := by simp [bytesAt]

/-- Addresses are taken modulo `2 ^ 32`. -/
theorem bytesAt_mod : bytesAt m (a % 2 ^ 32) n = bytesAt m a n := by
  refine List.map_congr_left fun k _ => congrArg m ?_
  omega

/-- Reading goes on behind the first bytes. -/
theorem bytesAt_add : bytesAt m a (n + k) = bytesAt m a n ++ bytesAt m (a + n) k := by
  rw [bytesAt, List.range_add, List.map_append, List.map_map]
  exact congrArg _ (List.map_congr_left fun j _ => congrArg m (by simp only [Nat.add_assoc]))

/-- What lies in memory is read. -/
theorem Holds.bytesAt (h : Holds m a l) (ha : a + l.length ≤ 2 ^ 32) (hn : n ≤ l.length) :
    bytesAt m a n = l.take n := by
  refine List.ext_getElem? fun k => ?_
  rw [ByteMem.bytesAt, List.getElem?_map, List.getElem?_take]
  by_cases hk : k < n
  · have hkl : k < l.length := by omega
    rw [if_pos hk, List.getElem?_range hk, Option.map_some, Nat.mod_eq_of_lt (by omega),
      h k l[k] (List.getElem?_eq_getElem hkl), List.getElem?_eq_getElem hkl]
  · rw [if_neg hk, List.getElem?_eq_none (by simpa using hk)]
    rfl

end

/-! ## Bit 0 of a word -/

/-- Bit 0 as a remainder. -/
theorem and_one (v : Nat) : v &&& 1 = v % 2 := Nat.and_one_is_mod v

/-- Clearing bit 0 of a 32-bit word. -/
theorem and_not_one {v : Nat} (h : v < 2 ^ 32) : v &&& 0xfffffffe = v / 2 * 2 := by
  apply Nat.eq_of_testBit_eq
  intro i
  rw [Nat.testBit_and]
  cases i with
  | zero => simp
  | succ i =>
    rw [Nat.testBit_succ, Nat.testBit_succ, Nat.testBit_succ, ← Nat.testBit_and,
      show 0xfffffffe / 2 = 2 ^ 31 - 1 by norm_num,
      Nat.and_two_pow_sub_one_of_lt_two_pow (by omega), Nat.mul_div_cancel _ (by omega)]

/-- Combining an even number with a separate bit 0. -/
theorem or_bit {b y : Nat} (hb : b < 2) : b ||| y * 2 = y * 2 + b := by
  rw [Nat.or_comm, Nat.mul_comm, show 2 * y = 2 ^ 1 * y by omega]
  exact (Nat.two_pow_add_eq_or_of_lt (by omega) y).symm

/-- Setting bit 0. -/
theorem or_one (v : Nat) : v ||| 1 = v / 2 * 2 + 1 := by
  have hv : v = v / 2 * 2 + v % 2 := by omega
  rcases Nat.mod_two_eq_zero_or_one v with h | h
  · conv_lhs => rw [hv, h, Nat.add_zero, Nat.or_comm]
    exact or_bit (by omega)
  · conv_lhs => rw [hv, h, ← or_bit (by omega), Nat.or_comm, ← Nat.or_assoc, Nat.or_self]
    exact or_bit (by omega)

end ByteMem
