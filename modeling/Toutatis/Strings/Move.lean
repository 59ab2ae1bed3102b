import Toutatis.Lib.Memory

/-!
# Copying memory

A shallow embedding of `memcpy` and `memmove` of `kernel/string.c` over a flat memory of bytes.
`rep movsb` and `rep movsl` run with the direction flag clear, so they copy forwards; their
registers wrap around. A `long` has four bytes.

## Key results

- `movsl_eq_movsb` / `moveWords_eq_moveBytes`: between aligned addresses the copy by words is
  the copy by bytes, whatever the overlap
- `movsb_apply` / `moveBytes_apply`: what each direction leaves at every address
- `memmove_spec`: `memmove` moves the old bytes and changes nothing else
-/

namespace Toutatis.Strings

open ByteMem

/-! ## The functions -/

/-- `*p = b` for a byte. -/
def store8 (m : Mem) (p : Nat) (b : UInt8) : Mem := fun x => if x = p then b else m x

/-- `cld; rep movsb` -/
def movsb : (n : Nat) → Mem → (dst src : Nat) → Mem
  | 0, m, _, _ => m
  | n + 1, m, dst, src => movsb n (store8 m dst (m src)) (add32 dst 1) (add32 src 1)

/-- `cld; rep movsl` -/
def movsl : (n : Nat) → Mem → (dst src : Nat) → Mem
  | 0, m, _, _ => m
  | n + 1, m, dst, src => movsl n (store32 m dst (load32 m src)) (add32 dst 4) (add32 src 4)

/-- `memcpy`: the memory it leaves, and `dst`. -/
def memcpy (m : Mem) (dst src n : Nat) : Mem × Nat :=
  if (dst ||| src ||| n) &&& 3 ≠ 0 then (movsb n m dst src, dst)
  else (movsl (n / 4) m dst src, dst)

/-- `for (i = n / sizeof(long); i > 0; --i) d[i-1] = s[i-1]` over `long` -/
def moveWords (dst src : Nat) : (i : Nat) → Mem → Mem
  | 0, m => m
  | i + 1, m => moveWords dst src i (store32 m (add32 dst (4 * i)) (load32 m (add32 src (4 * i))))

/-- `for (i = n; i > 0; --i) d[i-1] = s[i-1]` over `char` -/
def moveBytes (dst src : Nat) : (i : Nat) → Mem → Mem
  | 0, m => m
  | i + 1, m => moveBytes dst src i (store8 m (add32 dst i) (m (add32 src i)))

/-- `memmove`: the memory it leaves, and `dst`. -/
def memmove (m : Mem) (dst src n : Nat) : Mem × Nat :=
  if dst < src then memcpy m dst src n
  else if dst % 4 = 0 ∧ src % 4 = 0 ∧ n % 4 = 0 then (moveWords dst src (n / 4) m, dst)
  else (moveBytes dst src n m, dst)

/-! ## One word is four bytes -/

section

variable {m : Mem} {dst src n x : Nat}

theorem store8_self (b : UInt8) : store8 m dst b dst = b := if_pos rfl

theorem store8_of_ne (b : UInt8) (h : x ≠ dst) : store8 m dst b x = m x := if_neg h

/-- The bytes of a word that was loaded. -/
theorem ofNat_load32 (m : Mem) (a : Nat) :
    UInt8.ofNat (load32 m a) = m a ∧ UInt8.ofNat (load32 m a / 256) = m (a + 1) ∧
      UInt8.ofNat (load32 m a / 65536) = m (a + 2) ∧
      UInt8.ofNat (load32 m a / 16777216) = m (a + 3) := by
  have h0 := (m a).toNat_lt
  have h1 := (m (a + 1)).toNat_lt
  have h2 := (m (a + 2)).toNat_lt
  have h3 := (m (a + 3)).toNat_lt
  refine ⟨?_, ?_, ?_, ?_⟩ <;>
  · apply UInt8.toNat_inj.mp
    simp only [load32, UInt8.toNat_ofNat']
    omega

/-- Copying a word at once. -/
theorem store32_load32_apply (m : Mem) (dst src x : Nat) :
    store32 m dst (load32 m src) x =
      if dst ≤ x ∧ x < dst + 4 then m (src + (x - dst)) else m x := by
  obtain ⟨h0, h1, h2, h3⟩ := ofNat_load32 m src
  unfold store32
  rw [h0, h1, h2, h3]
  by_cases hx : dst ≤ x ∧ x < dst + 4
  · rw [if_pos hx]
    have hcases : x = dst ∨ x = dst + 1 ∨ x = dst + 2 ∨ x = dst + 3 := by omega
    obtain rfl | rfl | rfl | rfl := hcases
    · simp
    · simp
    · simp
    · simp
  · rw [if_neg hx, if_neg (by omega), if_neg (by omega), if_neg (by omega), if_neg (by omega)]

/-! ## The forward copies -/

/-- A forward copy by bytes to a lower address: the source of each byte has not been written
    yet when it is read. -/
theorem movsb_apply (hle : dst ≤ src) (hsrc : src + n ≤ 2 ^ 32) :
    movsb n m dst src x = if dst ≤ x ∧ x < dst + n then m (src + (x - dst)) else m x := by
  induction n generalizing m dst src with
  | zero =>
    rw [if_neg (by omega)]
    rfl
  | succ n ih =>
    show movsb n (store8 m dst (m src)) (add32 dst 1) (add32 src 1) x = _
    -- the registers wrap only behind the last byte
    obtain rfl | hpos := Nat.eq_zero_or_pos n
    · show store8 m dst (m src) x = _
      by_cases hx : x = dst
      · subst hx
        rw [store8_self, if_pos (by omega), Nat.sub_self, Nat.add_zero]
      · rw [store8_of_ne _ hx, if_neg (by omega)]
    rw [add32_of_lt (show dst + 1 < 2 ^ 32 by omega), add32_of_lt (show src + 1 < 2 ^ 32 by omega),
      ih (by omega) (by omega)]
    by_cases hx : x = dst
    · subst hx
      rw [if_neg (by omega), store8_self, if_pos (by omega), Nat.sub_self, Nat.add_zero]
    · by_cases hin : dst ≤ x ∧ x < dst + (n + 1)
      · rw [if_pos (by omega), if_pos hin, store8_of_ne _ (by omega)]
        congr 1
        omega
      · rw [if_neg (by omega), if_neg hin, store8_of_ne _ hx]

/-- Four bytes, read before any of them is written, make a word. -/
private theorem four_bytes (m : Mem) (dst src : Nat) :
    store8 (store8 (store8 (store8 m dst (m src)) (dst + 1) (m (src + 1))) (dst + 2)
      (m (src + 2))) (dst + 3) (m (src + 3)) = store32 m dst (load32 m src) := by
  funext x
  rw [store32_load32_apply]
  by_cases hx : dst ≤ x ∧ x < dst + 4
  · rw [if_pos hx]
    have hcases : x = dst ∨ x = dst + 1 ∨ x = dst + 2 ∨ x = dst + 3 := by omega
    obtain rfl | rfl | rfl | rfl := hcases
    · simp [store8]
    · simp [store8]
    · simp [store8]
    · simp [store8]
  · rw [if_neg hx, store8_of_ne _ (by omega), store8_of_ne _ (by omega),
      store8_of_ne _ (by omega), store8_of_ne _ (by omega)]

/-- Four steps of `rep movsb` between aligned addresses: two different ones are at least a word
    apart, so no step reads what one of the other three writes. -/
private theorem movsb_four (hdst : dst % 4 = 0) (hsrc : src % 4 = 0) (hd : dst < 2 ^ 32)
    (hs : src < 2 ^ 32) :
    movsb (n + 4) m dst src =
      movsb n (store32 m dst (load32 m src)) (add32 dst 4) (add32 src 4) := by
  have hnext : ∀ a, a % 4 = 0 → a < 2 ^ 32 → add32 a 1 = a + 1 ∧ add32 (a + 1) 1 = a + 2 ∧
      add32 (a + 2) 1 = a + 3 ∧ add32 (a + 3) 1 = add32 a 4 := by
    intro a ha hlt
    have h4 : add32 (a + 3) 1 = add32 a 4 := rfl
    exact ⟨add32_of_lt (by omega), add32_of_lt (by omega), add32_of_lt (by omega), h4⟩
  obtain ⟨d1, d2, d3, d4⟩ := hnext dst hdst hd
  obtain ⟨s1, s2, s3, s4⟩ := hnext src hsrc hs
  show movsb n _ (add32 (add32 (add32 (add32 dst 1) 1) 1) 1)
    (add32 (add32 (add32 (add32 src 1) 1) 1) 1) = _
  rw [d1, d2, d3, d4, s1, s2, s3, s4, ← four_bytes]
  -- each of the bytes is read as it was at first
  rw [store8_of_ne (x := src + 1) (m src) (by omega : src + 1 ≠ dst)]
  rw [store8_of_ne _ (by omega : src + 2 ≠ dst + 1), store8_of_ne _ (by omega : src + 2 ≠ dst)]
  rw [store8_of_ne _ (by omega : src + 3 ≠ dst + 2), store8_of_ne _ (by omega : src + 3 ≠ dst + 1),
    store8_of_ne _ (by omega : src + 3 ≠ dst)]

/-- Between aligned addresses `rep movsl` leaves what `rep movsb` does. -/
theorem movsl_eq_movsb (hdst : dst % 4 = 0) (hsrc : src % 4 = 0) (hd : dst < 2 ^ 32)
    (hs : src < 2 ^ 32) : movsl n m dst src = movsb (4 * n) m dst src := by
  induction n generalizing m dst src with
  | zero => rfl
  | succ n ih =>
    show movsl n (store32 m dst (load32 m src)) (add32 dst 4) (add32 src 4) = _
    have hd4 : add32 dst 4 % 4 = 0 := by simp only [add32]; omega
    have hs4 : add32 src 4 % 4 = 0 := by simp only [add32]; omega
    rw [ih hd4 hs4 (add32_lt _ _) (add32_lt _ _), Nat.mul_succ, movsb_four hdst hsrc hd hs]

/-! ## The backward copies -/

/-- A backward copy by bytes to a higher address: the source of each byte has not been written
    yet when it is read. -/
theorem moveBytes_apply (hle : src ≤ dst) (hdst : dst + n ≤ 2 ^ 32) :
    moveBytes dst src n m x = if dst ≤ x ∧ x < dst + n then m (src + (x - dst)) else m x := by
  induction n generalizing m with
  | zero =>
    rw [if_neg (by omega)]
    rfl
  | succ n ih =>
    show moveBytes dst src n (store8 m (add32 dst n) (m (add32 src n))) x = _
    rw [ih (by omega), add32_of_lt (show dst + n < 2 ^ 32 by omega),
      add32_of_lt (show src + n < 2 ^ 32 by omega)]
    by_cases hx : x = dst + n
    · subst hx
      rw [if_neg (by omega), store8_self, if_pos (by omega), Nat.add_sub_cancel_left]
    · by_cases hin : dst ≤ x ∧ x < dst + n
      · rw [if_pos hin, if_pos (by omega), store8_of_ne _ (by omega)]
      · rw [if_neg hin, if_neg (by omega), store8_of_ne _ hx]

/-- Four steps of the backward copy between aligned addresses. -/
private theorem moveBytes_four (hdst : dst % 4 = 0) (hsrc : src % 4 = 0)
    (hd : dst + (4 * n + 4) ≤ 2 ^ 32) (hs : src + (4 * n + 4) ≤ 2 ^ 32) :
    moveBytes dst src (4 * n + 4) m =
      moveBytes dst src (4 * n) (store32 m (add32 dst (4 * n)) (load32 m (add32 src (4 * n)))) := by
  show moveBytes dst src (4 * n) (store8 (store8 (store8 (store8 m (add32 dst (4 * n + 3)) _)
    (add32 dst (4 * n + 2)) _) (add32 dst (4 * n + 1)) _) (add32 dst (4 * n)) _) = _
  have had : ∀ a k, a + (4 * n + 4) ≤ 2 ^ 32 → k < 4 → add32 a (4 * n + k) = a + (4 * n + k) := by
    intro a k ha hk
    exact add32_of_lt (by omega)
  have h0 : ∀ a, a + (4 * n + 4) ≤ 2 ^ 32 → add32 a (4 * n) = a + 4 * n := by
    intro a ha
    exact add32_of_lt (by omega)
  rw [had dst 3 hd (by omega), had dst 2 hd (by omega), had dst 1 hd (by omega), h0 dst hd,
    had src 3 hs (by omega), had src 2 hs (by omega), had src 1 hs (by omega), h0 src hs]
  congr 1
  funext x
  rw [store32_load32_apply]
  simp only [store8, ← Nat.add_assoc]
  by_cases hx : dst + 4 * n ≤ x ∧ x < dst + 4 * n + 4
  · rw [if_pos hx]
    have hcases : x = dst + 4 * n ∨ x = dst + 4 * n + 1 ∨ x = dst + 4 * n + 2 ∨
        x = dst + 4 * n + 3 := by omega
    obtain rfl | rfl | rfl | rfl := hcases
    -- the byte read last may be one of those written, but then it is written with itself
    · rw [if_pos rfl, if_neg (by omega), if_neg (by omega), if_neg (by omega), Nat.sub_self,
        Nat.add_zero]
    · rw [if_neg (by omega), if_pos rfl, if_neg (by omega), if_neg (by omega),
        Nat.add_sub_cancel_left]
    · rw [if_neg (by omega), if_neg (by omega), if_pos rfl, if_neg (by omega),
        Nat.add_sub_cancel_left]
    · rw [if_neg (by omega), if_neg (by omega), if_neg (by omega), if_pos rfl,
        Nat.add_sub_cancel_left]
  · rw [if_neg hx, if_neg (by omega), if_neg (by omega), if_neg (by omega), if_neg (by omega)]

/-- Between aligned addresses the backward copy by words is the one by bytes. -/
theorem moveWords_eq_moveBytes (hdst : dst % 4 = 0) (hsrc : src % 4 = 0)
    (hd : dst + 4 * n ≤ 2 ^ 32) (hs : src + 4 * n ≤ 2 ^ 32) :
    moveWords dst src n m = moveBytes dst src (4 * n) m := by
  induction n generalizing m with
  | zero => rfl
  | succ n ih =>
    show moveWords dst src n (store32 m (add32 dst (4 * n)) (load32 m (add32 src (4 * n)))) = _
    rw [ih (by omega) (by omega), Nat.mul_succ, moveBytes_four hdst hsrc (by omega) (by omega)]

/-! ## The whole move -/

/-- The test of `memcpy` for a word copy. -/
theorem unaligned_iff (a : Nat) : a &&& 3 ≠ 0 ↔ a % 4 ≠ 0 := by
  rw [show 3 = 2 ^ 2 - 1 from rfl, Nat.and_two_pow_sub_one_eq_mod]

/-- Alignment of all three arguments of `memcpy` at once. -/
theorem aligned_or_iff : (dst ||| src ||| n) % 4 = 0 ↔ dst % 4 = 0 ∧ src % 4 = 0 ∧ n % 4 = 0 := by
  have h : (dst ||| src ||| n) % 2 ^ 2 = dst % 2 ^ 2 ||| src % 2 ^ 2 ||| n % 2 ^ 2 := by
    rw [Nat.or_mod_two_pow, Nat.or_mod_two_pow]
  rw [show 4 = 2 ^ 2 from rfl, h, Nat.or_eq_zero_iff, Nat.or_eq_zero_iff, and_assoc]

/-- `memcpy` copies by bytes or leaves the same memory. -/
theorem memcpy_eq_movsb (hd : dst < 2 ^ 32) (hs : src < 2 ^ 32) :
    memcpy m dst src n = (movsb n m dst src, dst) := by
  unfold memcpy
  by_cases h : (dst ||| src ||| n) &&& 3 ≠ 0
  · rw [if_pos h]
  · rw [if_neg h]
    obtain ⟨hdst, hsrc, hn⟩ := aligned_or_iff.mp (not_not.mp ((unaligned_iff _).not.mp h))
    rw [movsl_eq_movsb hdst hsrc hd hs, Nat.mul_div_cancel' (Nat.dvd_of_mod_eq_zero hn)]

end

/-- `memmove` between any two ranges of the address space, however they overlap and whatever
    their alignment: the bytes at `dst` are those that were at `src`, every other byte is kept
    and `dst` is returned. On the way through `memcpy` the copy by words leaves the memory that
    the copy by bytes leaves. -/
theorem memmove_spec (m : Mem) (dst src n : Nat) (hd : dst < 2 ^ 32) (hs : src < 2 ^ 32)
    (hdst : dst + n ≤ 2 ^ 32) (hsrc : src + n ≤ 2 ^ 32) :
    (∀ k, k < n → (memmove m dst src n).1 (dst + k) = m (src + k)) ∧
    (∀ x, x < dst ∨ dst + n ≤ x → (memmove m dst src n).1 x = m x) ∧
    (memmove m dst src n).2 = dst ∧
    (dst % 4 = 0 → src % 4 = 0 → n % 4 = 0 →
      movsl (n / 4) m dst src = movsb n m dst src) := by
  -- whichever way it goes, the memory afterwards is given by one expression
  have hall : memmove m dst src n =
      (fun x => if dst ≤ x ∧ x < dst + n then m (src + (x - dst)) else m x, dst) := by
    unfold memmove
    -- forwards when the destination is in front, so no byte is overwritten before it is read
    by_cases hlt : dst < src
    · rw [if_pos hlt, memcpy_eq_movsb hd hs]
      congr 1
      funext x
      exact movsb_apply (by omega) hsrc
    -- and backwards otherwise, by words where all three are aligned
    · rw [if_neg hlt]
      by_cases hal : dst % 4 = 0 ∧ src % 4 = 0 ∧ n % 4 = 0
      · obtain ⟨h1, h2, h3⟩ := hal
        rw [if_pos ⟨h1, h2, h3⟩, moveWords_eq_moveBytes h1 h2 (by omega) (by omega),
          Nat.mul_div_cancel' (Nat.dvd_of_mod_eq_zero h3)]
        congr 1
        funext x
        exact moveBytes_apply (by omega) hdst
      · rw [if_neg hal]
        congr 1
        funext x
        exact moveBytes_apply (by omega) hdst
  rw [hall]
  refine ⟨?_, ?_, rfl, ?_⟩
  · intro k hk
    show (if _ then _ else _) = _
    rw [if_pos (by omega), Nat.add_sub_cancel_left]
  · intro x hx
    show (if _ then _ else _) = _
    rw [if_neg (by omega)]
  · intro h1 h2 h3
    rw [movsl_eq_movsb h1 h2 hd hs, Nat.mul_div_cancel' (Nat.dvd_of_mod_eq_zero h3)]

/-- Eight bytes moved up by one word over themselves. -/
theorem memmove_spec_overlap :
    (∀ k, k < 8 → (memmove (fun x => UInt8.ofNat x) 4 0 8).1 (4 + k) = UInt8.ofNat (0 + k)) ∧
    (memmove (fun x => UInt8.ofNat x) 4 0 8).1 3 = 3 := by
  have h := memmove_spec (fun x => UInt8.ofNat x) 4 0 8 (by decide) (by decide) (by decide)
    (by decide)
  exact ⟨h.1, h.2.1 3 (by decide)⟩

end Toutatis.Strings
