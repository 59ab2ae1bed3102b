import Toutatis.RbTree.Insert
import Toutatis.RbTree.Remove
import Toutatis.RbTree.Reach

/-!
# The comparison functions of the allocator

`compare` and `select_dup` of `kernel/mem_alloc.c`, which the tree of free
blocks is searched with. The keys are block sizes; with an alignment the search
looks for a block that is still big enough after the padding.
-/

namespace Toutatis

open ByteMem RedBlack RedBlack.ColorTree

/-- `MIN_BLOCK_SIZE`: a header of 20 bytes and a footer of 8. -/
def minBlockSize : Nat := 28

/-- `struct alloc_args`. -/
structure AllocArgs where
  alignment : Nat
  address : Nat
  deriving DecidableEq, Repr

/-- `args && args->alignment`: `0` stands for an exact search. -/
def alignmentOf : Option AllocArgs → Nat
  | none => 0
  | some args => args.alignment

/-- `while (offset && offset < MIN_BLOCK_SIZE) offset += alignment`. -/
def padLoop : (fuel alignment offset : Nat) → Nat
  | 0, _, offset => offset
  | fuel + 1, alignment, offset =>
    if offset ≠ 0 ∧ offset < minBlockSize then padLoop fuel alignment (add32 offset alignment)
    else offset

/-- The offset that `compare` computes: bytes in front of the aligned user pointer. -/
def pad (node alignment : Nat) : Nat :=
  padLoop minBlockSize alignment ((alignment - add32 node 4 % alignment) % alignment)

/-- `while (offset < MIN_BLOCK_SIZE) offset += alignment`, in `alloc`. -/
def alignLoop : (fuel alignment offset : Nat) → Nat
  | 0, _, offset => offset
  | fuel + 1, alignment, offset =>
    if offset < minBlockSize then alignLoop fuel alignment (add32 offset alignment) else offset

/-- The size of the block that `alloc` cuts off in front of an aligned one: `0` when
    the user pointer is aligned already. -/
def frontOffset (node alignment : Nat) : Nat :=
  if add32 node 4 % alignment ≠ 0 then
    alignLoop (minBlockSize + 1) alignment (alignment - add32 node 4 % alignment)
  else 0

/-- The body of `compare`, on a node whose `data` is `key`. -/
def compareKey (node key data : Nat) (args : Option AllocArgs) : Int :=
  if key < data then -1
  else if alignmentOf args ≠ 0 then
    if sub32 key (pad node (alignmentOf args)) < data then -1 else 0
  else if data < key then 1
  else 0

/-- `compare`. -/
def compare (m : Mem) (node data : Nat) (args : Option AllocArgs) : Int :=
  compareKey node (nodeData m node) data args

/-- `select_dup`. -/
def selectDup (_m : Mem) (node : Nat) (args : Option AllocArgs) : Bool :=
  if node = 0 then false
  else
    match args with
    | none => true
    | some args => !(args.address != 0 && node != args.address)

/-! ## The padding loop -/

theorem padLoop_of_stop {fuel alignment offset : Nat} (h : offset = 0 ∨ minBlockSize ≤ offset) :
    padLoop fuel alignment offset = offset := by
  cases fuel with
  | zero => rfl
  | succ fuel => rw [padLoop, if_neg (by omega)]

/-- The loop ends within its fuel: every pass adds `alignment`, and when that wraps
    it takes away the distance of `alignment` from `2 ^ 32`. -/
theorem padLoop_done {fuel alignment offset : Nat} (h0 : 0 < alignment) (h1 : alignment < 2 ^ 32)
    (hfuel : alignment + minBlockSize ≤ 2 ^ 32 ∧ minBlockSize ≤ fuel + offset ∨
      2 ^ 32 < alignment + minBlockSize ∧ (offset ≤ fuel ∨ minBlockSize ≤ offset)) :
    padLoop fuel alignment offset = 0 ∨ minBlockSize ≤ padLoop fuel alignment offset := by
  induction fuel generalizing offset with
  | zero =>
    rw [padLoop]
    omega
  | succ fuel ih =>
    rw [padLoop]
    split
    · -- the padding is raised by the alignment, in 32 bits
      rename_i hlt
      apply ih
      simp only [minBlockSize, add32] at *
      omega
    · -- it is 0, or large enough for a block
      omega

/-- The padding is nothing or leaves room for a block in front. -/
theorem pad_zero_or_le (node : Nat) {alignment : Nat} (h0 : 0 < alignment)
    (h1 : alignment < 2 ^ 32) : pad node alignment = 0 ∨ minBlockSize ≤ pad node alignment := by
  by_cases hbig : minBlockSize ≤ (alignment - add32 node 4 % alignment) % alignment
  · rw [pad, padLoop_of_stop (Or.inr hbig)]
    exact Or.inr hbig
  · refine padLoop_done h0 h1 ?_
    simp only [minBlockSize] at *
    omega

/-- Both loops agree, unless the one of `compare` wraps around to `0`. -/
theorem alignLoop_eq_padLoop {fuel alignment offset : Nat}
    (h : minBlockSize ≤ padLoop fuel alignment offset) :
    alignLoop (fuel + 1) alignment offset = padLoop fuel alignment offset := by
  have hmin : 0 < minBlockSize := by decide
  induction fuel generalizing offset with
  | zero =>
    rw [padLoop] at h ⊢
    rw [alignLoop, if_neg (by omega)]
  | succ fuel ih =>
    rw [padLoop] at h ⊢
    rw [alignLoop]
    by_cases hlt : offset < minBlockSize
    · -- no padding is needed
      by_cases h0 : offset = 0
      · rw [if_neg (by omega)] at h
        omega
      · -- both loops add the alignment
        have hgo : offset ≠ 0 ∧ offset < minBlockSize := ⟨h0, hlt⟩
        rw [if_pos hgo] at h
        rw [if_pos hlt, if_pos hgo]
        exact ih h
    · -- both loops stop
      rw [if_neg hlt, if_neg (by omega)]

theorem pad_eq_frontOffset (node : Nat) {alignment : Nat} (h0 : 0 < alignment)
    (h1 : alignment < 2 ^ 32) :
    pad node alignment = 0 ∨ pad node alignment = frontOffset node alignment := by
  rcases pad_zero_or_le node h0 h1 with h | h
  · exact Or.inl h
  · right
    have hmod := Nat.mod_lt (add32 node 4) h0
    rw [frontOffset, pad] at *
    by_cases hu : add32 node 4 % alignment = 0
    · rw [hu, Nat.sub_zero, Nat.mod_self, padLoop_of_stop (Or.inl rfl)] at h
      exact absurd h (by decide)
    · rw [Nat.mod_eq_of_lt (by omega)] at h ⊢
      rw [if_pos hu, alignLoop_eq_padLoop h]

/-! ## The fit test -/

/-- The padding in front of an aligned user pointer, without wrap-around: nothing when `user`
    is aligned, else the least number of bytes that holds a block and reaches an aligned
    address. -/
def padding (user alignment : Nat) : Nat :=
  if user % alignment = 0 then 0
  else minBlockSize + (alignment - (user + minBlockSize) % alignment) % alignment

/-- Where the padding loop of `compare` leaves 32 bits it goes down in steps of
    `2 ^ 32 - alignment`; this is what it ends with. -/
def wrappedPad (user alignment : Nat) : Nat :=
  let rest := (alignment - user % alignment) % (2 ^ 32 - alignment)
  if rest = 0 then 0 else alignment + rest

private theorem add_mod_zero {a b n : Nat} (h : (a + b) % n = 0) (hb : b % n = 0) : a % n = 0 := by
  rw [Nat.add_mod, hb, Nat.add_zero, Nat.mod_mod] at h
  exact h

/-- What `padding` stands for. -/
theorem padding_isLeast {user alignment : Nat} (h0 : 0 < alignment) (hu : user % alignment ≠ 0) :
    IsLeast {p | minBlockSize ≤ p ∧ (user + p) % alignment = 0} (padding user alignment) := by
  have hlt := Nat.mod_lt (user + minBlockSize) h0
  have hdm := Nat.div_add_mod (user + minBlockSize) alignment
  rw [padding, if_neg hu]
  refine ⟨⟨Nat.le_add_right _ _, ?_⟩, ?_⟩
  · rw [← Nat.add_assoc, Nat.add_mod, Nat.mod_mod, ← Nat.add_mod]
    by_cases hz : (user + minBlockSize) % alignment = 0
    · rw [hz, Nat.sub_zero, Nat.add_mod, hz, Nat.mod_self]
      simp
    · have : user + minBlockSize + (alignment - (user + minBlockSize) % alignment) =
          alignment * ((user + minBlockSize) / alignment + 1) := by
        rw [Nat.mul_add]
        omega
      rw [this, Nat.mul_mod_right]
  -- a smaller padding that is at least a block would leave a remainder
  · rintro q ⟨hq, hmod⟩
    obtain ⟨k, rfl⟩ : ∃ k, q = minBlockSize + k := ⟨q - minBlockSize, by omega⟩
    refine Nat.add_le_add_left ?_ _
    by_contra hlt'
    have hk : k < (alignment - (user + minBlockSize) % alignment) % alignment := by omega
    have hle := Nat.mod_le (alignment - (user + minBlockSize) % alignment) alignment
    have hsum : (user + minBlockSize) % alignment + k < alignment := by omega
    rw [← Nat.add_assoc, Nat.add_mod, Nat.mod_eq_of_lt (a := k) (by omega),
      Nat.mod_eq_of_lt hsum] at hmod
    have hz : (user + minBlockSize) % alignment = 0 := by omega
    rw [hz, Nat.sub_zero, Nat.mod_self] at hk
    omega

/-- The padding is the only one within one alignment of the least size. -/
theorem eq_padding {user alignment p : Nat} (h0 : 0 < alignment) (hu : user % alignment ≠ 0)
    (hlo : minBlockSize ≤ p) (hhi : p < minBlockSize + alignment)
    (hmod : (user + p) % alignment = 0) : p = padding user alignment := by
  obtain ⟨⟨hmin, hpad⟩, hleast⟩ := padding_isLeast h0 hu
  have hle := hleast ⟨hlo, hmod⟩
  obtain ⟨k, rfl⟩ : ∃ k, p = padding user alignment + k := ⟨_, (Nat.add_sub_cancel' hle).symm⟩
  have hk : k % alignment = 0 := by
    rw [← Nat.add_assoc, Nat.add_comm] at hmod
    exact add_mod_zero hmod hpad
  rw [Nat.mod_eq_of_lt (by omega)] at hk
  omega

/-- Inside 32 bits the loop stops in the first alignment above the least size. -/
private theorem padLoop_lt {fuel alignment offset : Nat} (h0 : 0 < alignment)
    (hbound : alignment + minBlockSize ≤ 2 ^ 32) (hne : offset ≠ 0)
    (hlt : offset < minBlockSize + alignment) (hfuel : minBlockSize ≤ fuel + offset) :
    minBlockSize ≤ padLoop fuel alignment offset ∧
      padLoop fuel alignment offset < minBlockSize + alignment ∧
      ∀ user, (user + offset) % alignment = 0 →
        (user + padLoop fuel alignment offset) % alignment = 0 := by
  induction fuel generalizing offset with
  | zero => exact ⟨by rw [padLoop]; omega, by rw [padLoop]; exact hlt, fun _ h => h⟩
  | succ fuel ih =>
    rw [padLoop]
    split
    · -- one alignment more, without a wrap-around
      rename_i hgo
      have hadd : add32 offset alignment = offset + alignment := by
        rw [add32, Nat.mod_eq_of_lt]
        omega
      obtain ⟨h1, h2, h3⟩ := ih (show add32 offset alignment ≠ 0 by omega) (by omega) (by omega)
      refine ⟨h1, h2, fun user h => h3 user ?_⟩
      rw [hadd, ← Nat.add_assoc, Nat.add_mod_right]
      exact h
    · -- large enough already, and so far it has not passed the bound
      exact ⟨by omega, hlt, fun _ h => h⟩

/-- Near `2 ^ 32` every pass takes off the distance of `alignment` from it. -/
private theorem padLoop_wrap {fuel alignment offset : Nat} (h1 : alignment < 2 ^ 32)
    (hbig : 2 ^ 32 < alignment + minBlockSize) (hlt : offset < minBlockSize)
    (hfuel : offset ≤ fuel) :
    padLoop fuel alignment offset =
      if offset % (2 ^ 32 - alignment) = 0 then 0
      else alignment + offset % (2 ^ 32 - alignment) := by
  induction fuel generalizing offset with
  | zero =>
    obtain rfl : offset = 0 := by omega
    rw [Nat.zero_mod, if_pos rfl, padLoop]
  | succ fuel ih =>
    rw [padLoop]
    by_cases hz : offset = 0
    · subst hz
      rw [Nat.zero_mod, if_pos rfl, if_neg (by simp)]
    · rw [if_pos ⟨hz, hlt⟩]
      -- the sum wraps around as long as offset is at least the distance
      by_cases hwrap : 2 ^ 32 ≤ offset + alignment
      · have hadd : add32 offset alignment = offset - (2 ^ 32 - alignment) := by
          simp only [add32, minBlockSize] at *
          omega
        rw [hadd, ih (by omega) (by omega), ← Nat.mod_eq_sub_mod (by omega)]
      · have hadd : add32 offset alignment = alignment + offset := by
          simp only [add32]
          omega
        rw [hadd, padLoop_of_stop (Or.inr (by simp only [minBlockSize] at *; omega)),
          Nat.mod_eq_of_lt (by omega), if_neg hz]

/-- The offset that `compare` computes. -/
theorem pad_eq (node : Nat) {alignment : Nat} (h0 : 0 < alignment) (h1 : alignment < 2 ^ 32) :
    pad node alignment = if padding (add32 node 4) alignment < 2 ^ 32 then
      padding (add32 node 4) alignment else wrappedPad (add32 node 4) alignment := by
  rw [pad]
  generalize add32 node 4 = user
  have hr := Nat.mod_lt user h0
  by_cases hu : user % alignment = 0
  · have hz : padding user alignment = 0 := by rw [padding, if_pos hu]
    rw [hz, if_pos (by decide), hu, Nat.sub_zero, Nat.mod_self, padLoop_of_stop (Or.inl rfl)]
  · have hoff : (alignment - user % alignment) % alignment = alignment - user % alignment :=
      Nat.mod_eq_of_lt (by omega)
    have hal : (user + (alignment - user % alignment)) % alignment = 0 := by
      have hdm := Nat.div_add_mod user alignment
      have : user + (alignment - user % alignment) = alignment * (user / alignment + 1) := by
        rw [Nat.mul_add]
        omega
      rw [this, Nat.mul_mod_right]
    rw [hoff]
    generalize hoffset : alignment - user % alignment = offset at *
    by_cases hsmall : alignment + minBlockSize ≤ 2 ^ 32
    · -- no wrap-around
      obtain ⟨hlo, hhi, hmod⟩ := padLoop_lt h0 hsmall
        (show offset ≠ 0 by omega) (by omega) (show minBlockSize ≤ minBlockSize + offset by omega)
      rw [eq_padding h0 hu hlo hhi (hmod user hal), if_pos]
      rw [← eq_padding h0 hu hlo hhi (hmod user hal)]
      omega
    · by_cases hbig : minBlockSize ≤ offset
      · have hp := eq_padding h0 hu hbig (by omega) hal
        rw [padLoop_of_stop (Or.inr hbig), ← hp, if_pos (by omega)]
      · -- one more alignment is needed, and it is a large one
        have hp := eq_padding (p := offset + alignment) h0 hu
          (by simp only [minBlockSize] at *; omega) (by omega)
          (by rw [← Nat.add_assoc, Nat.add_mod_right]; exact hal)
        rw [padLoop_wrap h1 (by omega) (by omega) (by omega), wrappedPad, hoffset, ← hp]
        by_cases hlt : offset + alignment < 2 ^ 32
        · rw [if_pos hlt, Nat.mod_eq_of_lt (by omega), if_neg (by omega), Nat.add_comm]
        · rw [if_neg hlt]

/-- Where the fit test gives the right answer: the block is smaller than the request, or not
    smaller than its padding, or the difference that wraps around is smaller than the request.
    The last line is about paddings of more than 32 bits. -/
def FitTestRight (user key data alignment : Nat) : Prop :=
  key < data ∨ padding user alignment ≤ key ∨
    padding user alignment < 2 ^ 32 ∧ 2 ^ 32 + key < padding user alignment + data ∨
    2 ^ 32 ≤ padding user alignment ∧ wrappedPad user alignment ≤ key ∧
      key < wrappedPad user alignment + data

theorem wrappedPad_lt {user alignment : Nat} (h1 : alignment < 2 ^ 32) :
    wrappedPad user alignment < 2 ^ 32 := by
  have hlt := Nat.mod_lt (alignment - user % alignment) (show 0 < 2 ^ 32 - alignment by omega)
  simp only [wrappedPad]
  split
  · decide
  · omega

/-- A padding within the block is the one that `alloc` inserts. -/
theorem frontOffset_eq_padding {node alignment : Nat} (h0 : 0 < alignment) (h1 : alignment < 2 ^ 32)
    (hlt : padding (add32 node 4) alignment < 2 ^ 32) :
    frontOffset node alignment = padding (add32 node 4) alignment := by
  have hpad := pad_eq node h0 h1
  rw [if_pos hlt] at hpad
  by_cases hu : add32 node 4 % alignment = 0
  · rw [frontOffset, if_neg (by simp [hu]), padding, if_pos hu]
  · have hmin := (padding_isLeast h0 hu).1.1
    rcases pad_eq_frontOffset node h0 h1 with h | h
    · simp only [minBlockSize] at hmin
      omega
    · omega

/-- **The fit test.** For every block and every aligned request, `compare` answers by whether
    the block holds the padding and the request, with the padding that `alloc` then inserts,
    if and only if `FitTestRight` holds. -/
theorem compare_fits_iff (m : Mem) (node data : Nat) {alignment : Nat} (h0 : 0 < alignment)
    (h1 : alignment < 2 ^ 32) :
    (compare m node data (some ⟨alignment, 0⟩) =
        (if padding (add32 node 4) alignment + data ≤ nodeData m node then 0 else -1) ∧
      (padding (add32 node 4) alignment + data ≤ nodeData m node →
        frontOffset node alignment = padding (add32 node 4) alignment)) ↔
    FitTestRight (add32 node 4) (nodeData m node) data alignment := by
  have hkey : nodeData m node < 2 ^ 32 := load32_lt m _
  have hal : alignmentOf (some ⟨alignment, 0⟩) = alignment := rfl
  have hfront : padding (add32 node 4) alignment + data ≤ nodeData m node →
      frontOffset node alignment = padding (add32 node 4) alignment := fun h =>
    frontOffset_eq_padding h0 h1 (by omega)
  rw [and_iff_left hfront, compare, compareKey, hal, if_pos (show alignment ≠ 0 by omega),
    pad_eq node h0 h1, FitTestRight]
  generalize nodeData m node = key at *
  have hw : wrappedPad (add32 node 4) alignment < 2 ^ 32 := wrappedPad_lt h1
  generalize padding (add32 node 4) alignment = p
  generalize wrappedPad (add32 node 4) alignment = w at *
  by_cases hsmall : key < data
  · rw [if_pos hsmall, if_neg (by omega)]
    exact iff_of_true rfl (Or.inl hsmall)
  rw [if_neg hsmall]
  -- what is subtracted, and whether the difference wraps around
  have hdec : ∀ q, q < 2 ^ 32 → (((if sub32 key q < data then (-1 : Int) else 0) =
      if p + data ≤ key then 0 else -1) ↔
      ((q ≤ key ∧ key < q + data ∨ key < q ∧ 2 ^ 32 + key < q + data) ↔ key < p + data)) := by
    intro q hq
    have hs : sub32 key q < data ↔
        (q ≤ key ∧ key < q + data ∨ key < q ∧ 2 ^ 32 + key < q + data) := by
      simp only [sub32]
      omega
    have hfits : key < p + data ↔ ¬p + data ≤ key := Nat.not_le.symm
    rw [← hs, hfits]
    by_cases hlt : sub32 key q < data
    · by_cases hfit : p + data ≤ key
      · simp [hlt, hfit]
      · simp [hlt, hfit]
    · by_cases hfit : p + data ≤ key
      · simp [hlt, hfit]
      · simp [hlt, hfit]
  by_cases hp : p < 2 ^ 32
  · rw [if_pos hp, hdec p hp]
    omega
  · rw [if_neg hp, hdec w hw]
    omega

/-- A block of 64 bytes whose user pointer is 4 bytes behind a multiple of 64. -/
theorem compare_fits_iff_block :
    (compare (store32 (fun _ => 0) 0x2000 64) 0x2000 20 (some ⟨64, 0⟩) =
        (if padding (add32 0x2000 4) 64 + 20 ≤ nodeData (store32 (fun _ => 0) 0x2000 64) 0x2000
          then 0 else -1) ∧
      (padding (add32 0x2000 4) 64 + 20 ≤ nodeData (store32 (fun _ => 0) 0x2000 64) 0x2000 →
        frontOffset 0x2000 64 = padding (add32 0x2000 4) 64)) ↔
    FitTestRight (add32 0x2000 4) (nodeData (store32 (fun _ => 0) 0x2000 64) 0x2000) 20 64 :=
  compare_fits_iff _ _ _ (by decide) (by decide)

/-- With 40 bytes the block is smaller than its padding of 60, and still a match for 20 bytes. -/
theorem compare_accepts_unfit :
    compare (store32 (fun _ => 0) 0x2000 40) 0x2000 20 (some ⟨64, 0⟩) = 0 ∧
      nodeData (store32 (fun _ => 0) 0x2000 40) 0x2000 = 40 ∧
      padding (add32 0x2000 4) 64 = 60 ∧ ¬60 + 20 ≤ 40 := by
  decide

/-! ## Exact search and best fit -/

theorem compareKey_exact (node key data : Nat) {args : Option AllocArgs}
    (h : alignmentOf args = 0) : compareKey node key data args = exactCmp key data := by
  simp only [compareKey, exactCmp, h, ne_eq, not_true, if_false]

/-- A best-fit search never meets a node that is too big. -/
theorem compareKey_fit_le (node key data : Nat) {args : Option AllocArgs}
    (h : alignmentOf args ≠ 0) : compareKey node key data args ≤ 0 := by
  simp only [compareKey, if_pos h]
  split <;> [skip; split] <;> omega

/-- A node with room for the padding and the request is a match. -/
theorem compareKey_of_fits {node key data alignment : Nat} (address : Nat) (h0 : 0 < alignment)
    (h1 : alignment < 2 ^ 32) (hk : key < 2 ^ 32)
    (hfit : frontOffset node alignment + data ≤ key) :
    compareKey node key data (some ⟨alignment, address⟩) = 0 := by
  have hpad : pad node alignment + data ≤ key := by
    rcases pad_eq_frontOffset node h0 h1 with h | h <;> omega
  have hne : alignmentOf (some ⟨alignment, address⟩) ≠ 0 := Nat.ne_of_gt h0
  have hal : alignmentOf (some ⟨alignment, address⟩) = alignment := rfl
  rw [compareKey, if_neg (by omega), if_pos hne, hal, sub32_of_le (by omega) hk, if_neg (by omega)]

/-- In a valid tree a match has matches and smaller nodes before it only. -/
theorem matchesDown_compare {L : List Entry} (h : Sorted L) (data : Nat)
    (args : Option AllocArgs) : MatchesDown (fun e => compareKey e.addr e.key data args) L := by
  by_cases h0 : alignmentOf args = 0
  · refine h.imp fun {a b} hlt hmatch => ?_
    dsimp only at hmatch ⊢
    rw [compareKey_exact _ _ _ h0, exactCmp_eq_zero] at hmatch
    rw [compareKey_exact _ _ _ h0, exactCmp, if_pos (by omega)]
    omega
  · exact List.pairwise_of_forall fun a b _ => compareKey_fit_le _ _ _ h0

end Toutatis
