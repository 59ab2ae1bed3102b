import Toutatis.MemAlloc.Free
import Toutatis.MemAlloc.Grow

/-!
# Calls of the allocator

What clients see of `alloc` and `free`: blocks of a tiling that are taken and given back, while
all other blocks keep what they hold.

## Key results

- `HeapInv.alloc_served`: `alloc` keeps the invariant and serves the request
- `free_undoes_alloc`: giving a block back at once restores the blocks
-/

namespace Toutatis

open ByteMem RedBlack Tiling

section

variable {h : Heap} {m : Mem} {B pre post : List Tile} {b c : Tile} {T : ColorTree Entry}

/-! ## Taking a block -/

/-- What a successful call of `alloc` does: there is one more used block, and the others are as
    they were. -/
structure Served (h : Heap) (B : List Tile) (size p : Nat) (h' : Heap) (B' : List Tile) : Prop where
  block : ∃ c ∈ B', c.free = false ∧ p = c.addr + 8 ∧ getBlockSize size ≤ c.size ∧
    (∀ b ∈ B, b.free = false → b ≠ c) ∧ h'.memUsed = h.memUsed + c.size
  kept : ∀ b ∈ B, b.free = false → b ∈ B'
  same : SameUsed h' B h.mem h'.mem

/-- The fields that no call changes. -/
structure SameLimits (h h' : Heap) : Prop where
  base : h'.base = h.base
  start : h'.startAddress = h.startAddress
  minSize : h'.minSize = h.minSize
  maxSize : h'.maxSize = h.maxSize

/-- The block that a cut takes. -/
theorem cut_eq (k n : Nat) (c : Tile) :
    ∃ rest, cut k c n = ⟨c.addr, taken k c n, false⟩ :: rest := by
  rw [cut, taken]
  split
  · exact ⟨_, rfl⟩
  · exact ⟨_, rfl⟩

/-- A block that is cut has the size that was asked for. -/
theorem le_taken {k n : Nat} (h : n ≤ c.size) : n ≤ taken k c n := by
  rw [taken]
  split
  · exact le_refl n
  · exact h

/-- It has at most the size of the block it was cut from. -/
theorem taken_le {k n : Nat} (h : n ≤ c.size) : taken k c n ≤ c.size := by
  rw [taken]
  split
  · exact h
  · exact le_refl _

/-- A block is cut from a free one. -/
theorem HeapInv.served_of_cut (hi : HeapInv h (pre ++ c :: post) T) (hfree : c.free = true)
    {size : Nat} (hle : getBlockSize size ≤ c.size) {h' : Heap}
    (hused : h'.memUsed = usedSize (pre ++ cut minBlockSize c (getBlockSize size) ++ post))
    (hsame : SameUsed h' (pre ++ post) h.mem h'.mem) :
    Served h (pre ++ c :: post) size (c.addr + 8) h'
      (pre ++ cut minBlockSize c (getBlockSize size) ++ post) := by
  -- a used block is not the one that is taken
  have hne : ∀ b ∈ pre ++ c :: post, b.free = false → b ∈ pre ++ post := by
    intro b hb hbused
    simp only [List.mem_append, List.mem_cons] at hb ⊢
    rcases hb with hb | rfl | hb
    · exact Or.inl hb
    · rw [hfree] at hbused
      exact absurd hbused (by decide)
    · exact Or.inr hb
  obtain ⟨rest, hcut⟩ := cut_eq minBlockSize (getBlockSize size) c
  refine ⟨⟨⟨c.addr, taken minBlockSize c (getBlockSize size), false⟩, ?_, rfl, rfl, le_taken hle,
    fun b hb hbused => ?_, ?_⟩, fun b hb hbused => ?_, hsame.mono hne⟩
  · rw [hcut]
    simp
  · rintro rfl
    have heq := hi.tiles.eq_of_addr hb (by simp : c ∈ pre ++ c :: post) rfl
    rw [← heq] at hfree
    exact Bool.false_ne_true hfree
  · rw [hused, hi.used]
    simp only [usedSize_append, usedSize_cons, usedSize_cut, hfree, if_true]
    omega
  · have := hne b hb hbused
    simp only [List.mem_append] at this ⊢
    rcases this with hmem | hmem
    · exact Or.inl (Or.inl hmem)
    · exact Or.inr hmem

/-- A request with a fit is served. -/
theorem HeapInv.served_fit (hi : HeapInv h B T) {size alignment : Nat} (halign : alignment ≤ 1)
    (hfit : ∃ b ∈ B, b.free = true ∧ getBlockSize size ≤ b.size) (fresh : NewPages) (fuel : Nat) :
    ∃ p h' B' T', h.allocLoop fresh size (fuel + 1) alignment = some (p, h') ∧ HeapInv h' B' T' ∧
      Served h B size p h' B' ∧ SameLimits h h' ∧ h'.endAddress = h.endAddress ∧
      h'.present = h.present := by
  obtain ⟨b, hb, hbfree, hble⟩ := hfit
  obtain ⟨pre, c, post, m', tree', T', rfl, hfree, hle, hcall, hinv, hsame⟩ :=
    hi.alloc_fit halign hb hbfree hble fresh fuel
  exact ⟨_, _, _, _, hcall, hinv, hi.served_of_cut hfree hle rfl hsame, ⟨rfl, rfl, rfl, rfl⟩, rfl,
    rfl⟩

/-- **`alloc`** serves a request for which there is a free block or room to grow, and keeps the
    invariant. -/
theorem HeapInv.alloc_served (hi : HeapInv h B T) {size : Nat}
    (hroom : (∃ b ∈ B, b.free = true ∧ getBlockSize size ≤ b.size) ∨ CanGrow h (getBlockSize size))
    (fresh : NewPages) :
    ∃ p h' B' T', h.alloc fresh size 0 = some (p, h') ∧ HeapInv h' B' T' ∧
      Served h B size p h' B' ∧ SameLimits h h' ∧
      (h'.endAddress = h.endAddress ∧ h'.present = h.present ∨
        CanGrow h (getBlockSize size) ∧
          h'.endAddress = pageUp (h.endAddress + getBlockSize size) ∧
          ∀ x, h'.endAddress / frameSize ≤ x → h'.present x = h.present x) := by
  have hbound : loopBound = loopBound - 2 + 1 + 1 := by decide
  rw [Heap.alloc, hbound]
  by_cases hfit : ∃ b ∈ B, b.free = true ∧ getBlockSize size ≤ b.size
  · obtain ⟨p, h', B', T', hcall, hinv, hserved, hlimits, hstop, hpresent⟩ :=
      hi.served_fit (Nat.zero_le 1) hfit fresh (loopBound - 2 + 1)
    exact ⟨p, h', B', T', hcall, hinv, hserved, hlimits, Or.inl ⟨hstop, hpresent⟩⟩
  · -- the call is made again on the bigger heap
    have hgrow := hroom.resolve_left hfit
    obtain ⟨m₁, tree₁, present₁, frames₁, B₁, u, T₁, hcall₁, hi₁, hufree, hule, hkept, hsame₁,
        hpages⟩ :=
      hi.alloc_grow (Nat.zero_le 1)
        (fun b hb hbfree => Nat.lt_of_not_le fun hle => hfit ⟨b, hb, hbfree, hle⟩) hgrow fresh
        (loopBound - 2 + 1)
    obtain ⟨p, h', B', T', hcall, hinv, hserved, hlimits, hstop, hpresent⟩ :=
      hi₁.served_fit (le_refl 1) ⟨u, by simp, hufree, hule⟩ fresh (loopBound - 2)
    have hkept' : ∀ b ∈ B, b.free = false → b ∈ B₁ ++ [u] := fun b hb hbused =>
      List.mem_append_left _ (hkept b hb hbused)
    refine ⟨p, h', B', T', hcall₁.trans hcall, hinv, ⟨?_, ?_, ?_⟩,
      ⟨hlimits.base, hlimits.start, hlimits.minSize, hlimits.maxSize⟩,
      Or.inr ⟨hgrow, hstop, fun x hx => ?_⟩⟩
    · obtain ⟨d, hd, hdused, hp, hdle, hdne, hsum⟩ := hserved.block
      exact ⟨d, hd, hdused, hp, hdle, fun b hb hbused => hdne b (hkept' b hb hbused) hbused, hsum⟩
    · exact fun b hb hbused => hserved.kept b (hkept' b hb hbused) hbused
    · have hfirst := hsame₁.grow hlimits.start (le_of_eq hstop.symm)
      exact hfirst.trans (hserved.same.mono hkept')
    · rw [hpresent]
      exact hpages x (by rwa [hstop] at hx)

/-! ## What clients write -/

/-- `m'` differs from `m` in the user areas of used blocks only. -/
def ClientWrites (B : List Tile) (m m' : Mem) : Prop :=
  ∀ x, (∀ b ∈ B, b.free = false → x < b.addr + 8 ∨ b.stop - 8 ≤ x) → m' x = m x

/-- User areas are no part of the layout. -/
theorem HeapInv.clientWrites (hi : HeapInv h B T) (hm : ClientWrites B h.mem m) :
    HeapInv (h.withMem m) B T := by
  have hbase := hi.base_le
  -- all bytes of a block but its user area
  have hoff : ∀ b ∈ B, ∀ x, b.addr ≤ x → x < b.stop →
      (b.free = true ∨ x < b.addr + 8 ∨ b.stop - 8 ≤ x) → m x = h.mem x := by
    intro b hb x h1 h2 hplace
    refine hm x fun c hc hcused => ?_
    by_cases hbc : c = b
    · subst hbc
      rw [hcused] at hplace
      simpa using hplace
    · have hapart := hi.tiles.apart hc hb hbc
      have hclen := (hi.inside hc).stop_eq
      omega
  refine ⟨⟨hi.base_aligned, hi.base_le, hi.start_aligned, hi.end_aligned, hi.end_lt, hi.pages, ?_⟩,
    hi.tiles, hi.sizes, fun b hb => ?_, hi.tree.congr fun a ha x h1 h2 => ?_, hi.nodes,
    hi.noFreePair, hi.used⟩
  · have hword : load32 m (h.startAddress - 8) = load32 h.mem (h.startAddress - 8) := by
      refine load32_congr fun x h1 h2 => hm x fun c hc _ => ?_
      have := (hi.tiles.bounds hc).1
      simp only [allocatorSize] at hbase
      omega
    exact (congrArg checkMagic hword).trans hi.below
  · have htags := hi.tagged b hb
    have hlen := (hi.inside hb).stop_eq
    exact ⟨htags.head.congr fun x h1 h2 => hoff b hb x h1 (by omega) (Or.inr (Or.inl h2)),
      htags.foot.congr (hi.inside hb).eight_le fun x h1 h2 =>
        hoff b hb x (by omega) h2 (Or.inr (Or.inr h1))⟩
  · obtain ⟨b, hb, hfree, rfl⟩ := (hi.nodes a).mp ha
    have hlen := (hi.inside hb).stop_eq
    exact hoff b hb x (by omega) (by omega) (Or.inl hfree)

/-! ## A small heap -/

/-- One mapped page at `0x10000`, all zero, and some frames to grow. -/
def pageHeap : Heap :=
  ⟨fun _ => 0, fun x => x == 16, ⟨8, fun x => x⟩, 0, ⟨0, 0, 0, compare, selectDup⟩, 0, 0, 0, 0, 0⟩

/-- New pages full of zeros. -/
def zeroPages : NewPages := ⟨fun _ => 0, fun x => x⟩

/-- An allocator can be made in one page. -/
theorem pageHeap_canCreate : CanCreate pageHeap 0x10000 0x11000 := by
  refine ⟨by decide, by decide, by decide, by decide, by decide, fun x h1 h2 => ?_, by decide⟩
  simp only [frameSize] at h1 h2
  simp only [pageHeap, beq_iff_eq]
  omega

/-- Only one block of the list is free. -/
theorem eq_of_free_mid {C : List Tile} (h : B ++ b :: C = pre ++ c :: post) (hc : c.free = true)
    (hB : ∀ x ∈ B, x.free = false) (hC : ∀ x ∈ C, x.free = false) :
    pre = B ∧ c = b ∧ post = C := by
  -- both lists are taken apart together; a tile that is on one side only is used
  induction B generalizing pre with
  | nil =>
    cases pre with
    | nil =>
      obtain ⟨rfl, rfl⟩ := List.cons.inj h
      exact ⟨rfl, rfl, rfl⟩
    | cons x pre =>
      obtain ⟨-, rfl⟩ := List.cons.inj h
      rw [hC c (by simp)] at hc
      exact absurd hc (by decide)
  | cons y B ih =>
    cases pre with
    | nil =>
      obtain ⟨rfl, -⟩ := List.cons.inj h
      rw [hB y (by simp)] at hc
      exact absurd hc (by decide)
    | cons x pre =>
      obtain ⟨rfl, htail⟩ := List.cons.inj h
      obtain ⟨rfl, rfl, rfl⟩ := ih htail fun z hz => hB z (by simp [hz])
      exact ⟨rfl, rfl, rfl⟩

/-- A request is served from the last block, the only free one. -/
theorem HeapInv.alloc_last (hi : HeapInv h (B ++ [b]) T) (hB : ∀ x ∈ B, x.free = false)
    (hfree : b.free = true) {size : Nat} (hle : getBlockSize size ≤ b.size) :
    ∃ h' T', HeapInv h' (B ++ cut minBlockSize b (getBlockSize size)) T' ∧
      h'.endAddress = h.endAddress ∧ h'.startAddress = h.startAddress ∧ h'.minSize = h.minSize ∧
      h.alloc zeroPages size 0 = some (b.addr + 8, h') := by
  obtain ⟨pre, c, post, m', tree', T', hlist, hcfree, -, hcall, hi', -⟩ :=
    hi.alloc_fit (Nat.zero_le 1) (by simp : b ∈ B ++ [b]) hfree hle zeroPages (loopBound - 1)
  obtain ⟨rfl, rfl, rfl⟩ := eq_of_free_mid hlist hcfree hB (by simp)
  rw [List.append_nil] at hcall hi'
  exact ⟨_, T', hi', rfl, rfl, rfl, hcall⟩

/-- The blocks of a small heap; the first one is free or used. -/
def threeBlocks (free : Bool) : List Tile :=
  [⟨65604, 28, free⟩, ⟨65632, 28, false⟩, ⟨65660, 3972, false⟩]

/-- A heap with three blocks in use. -/
theorem exists_used : ∃ h T, HeapInv h (threeBlocks false) T ∧
    h.endAddress = 69632 ∧ h.startAddress = 65604 ∧ h.minSize = 4096 := by
  obtain ⟨m₀, tree₀, T₀, -, hi₀⟩ := HeapInv.create pageHeap_canCreate 4096 0x100000
  obtain ⟨h₁, T₁, hi₁, hend₁, hstart₁, hmin₁, -⟩ := HeapInv.alloc_last (B := []) hi₀ (by simp) rfl
    (by decide : getBlockSize 12 ≤ 0x11000 - firstBlock 0x10000)
  obtain ⟨h₂, T₂, hi₂, hend₂, hstart₂, hmin₂, -⟩ := HeapInv.alloc_last (B := [⟨65604, 28, false⟩])
    (b := ⟨65632, 4000, true⟩) hi₁ (by simp) rfl (by decide : getBlockSize 12 ≤ 4000)
  obtain ⟨h₃, T₃, hi₃, hend₃, hstart₃, hmin₃, -⟩ :=
    HeapInv.alloc_last (B := [⟨65604, 28, false⟩, ⟨65632, 28, false⟩])
      (b := ⟨65660, 3972, true⟩) hi₂ (by simp) rfl (by decide : getBlockSize 3956 ≤ 3972)
  refine ⟨h₃, T₃, hi₃, ?_, ?_, ?_⟩
  · rw [hend₃, hend₂, hend₁]
    rfl
  · rw [hstart₃, hstart₂, hstart₁]
    rfl
  · rw [hmin₃, hmin₂, hmin₁]
    rfl

/-- A heap whose first block is free. -/
theorem exists_hole : ∃ h T, HeapInv h (threeBlocks true) T ∧ h.endAddress = 69632 := by
  obtain ⟨h, T, hi, hend, hstart, hmin⟩ := exists_used
  obtain ⟨m₁, tree₁, T₁, B₁, u, -, hco, hi₁, -⟩ :=
    HeapInv.free_spec (b := ⟨65604, 28, false⟩) (show HeapInv h ([] ++ _ :: _) T from hi) rfl
      (by simp) fun hno => by
        have := hno.1
        omega
  have hB₁ : B₁ = threeBlocks true := by
    rw [hco.eq_merge hi.noFreePair hi.tiles.nodup_addr]
    decide
  subst hB₁
  exact ⟨_, T₁, hi₁, hend⟩

/-! ## The invariant -/

/-- `mem_free` is the size of the free blocks. -/
theorem HeapInv.memFree_eq (hi : HeapInv h B T) : h.memFree = freeSize B := by
  have hsum := hi.tiles.usedSize_add_freeSize
  have hend := hi.end_lt
  rw [Heap.memFree, sub32_of_le hi.tiles.le hend, hi.used, sub32_of_le (by omega) (by omega)]
  omega

/-- **The heap invariant.** `create_mem_allocator` establishes it, and `alloc` without an alignment
    keeps it and returns a block when there is a free one or the heap may grow. -/
theorem heap_established_and_served :
    (∀ (h : Heap) (start stop minSize maxSize : Nat), CanCreate h start stop →
      ∃ h' B' T', h.create start stop minSize maxSize = some (some h') ∧ HeapInv h' B' T' ∧
        h'.memFree = freeSize B') ∧
    ∀ (h : Heap) (B : List Tile) (T : ColorTree Entry) (fresh : NewPages) (size : Nat), HeapInv h B T →
      (∃ b ∈ B, b.free = true ∧ getBlockSize size ≤ b.size) ∨ CanGrow h (getBlockSize size) →
      ∃ p h' B' T', h.alloc fresh size 0 = some (p, h') ∧ p ≠ 0 ∧ HeapInv h' B' T' ∧
        h'.memFree = freeSize B' ∧ Served h B size p h' B' := by
  constructor
  · intro h start stop minSize maxSize hc
    obtain ⟨m', tree', T', hcall, hinv⟩ := HeapInv.create hc minSize maxSize
    exact ⟨_, _, T', hcall, hinv, hinv.memFree_eq⟩
  · intro h B T fresh size hi hroom
    obtain ⟨p, h', B', T', hcall, hinv, hserved, -⟩ := hi.alloc_served hroom fresh
    obtain ⟨c, -, -, hp, -⟩ := hserved.block
    exact ⟨p, h', B', T', hcall, by omega, hinv, hinv.memFree_eq, hserved⟩

/-- A new heap serves a request that fits, and one that makes it grow. -/
theorem heap_established_and_served_page : ∃ h B T, pageHeap.create 0x10000 0x11000 4096 0x100000 =
      some (some h) ∧ HeapInv h B T ∧
    (∃ p h', h.alloc zeroPages 100 0 = some (p, h') ∧ p ≠ 0) ∧
    ∃ p h', h.alloc zeroPages 5000 0 = some (p, h') ∧ p ≠ 0 := by
  obtain ⟨m₀, tree₀, T₀, hcreate, hi₀⟩ := HeapInv.create pageHeap_canCreate 4096 0x100000
  obtain ⟨h, B, T, hcall, hi, -⟩ :=
    heap_established_and_served.1 _ _ _ 4096 0x100000 pageHeap_canCreate
  obtain rfl := Option.some.inj (Option.some.inj (hcreate.symm.trans hcall))
  have hgrow : CanGrow (pageHeap.created 0x10000 0x11000 4096 0x100000) (getBlockSize 5000) :=
    ⟨by decide, by decide⟩
  obtain ⟨p₁, h₁, -, -, hcall₁, hp₁, -⟩ := heap_established_and_served.2 _ _ _ zeroPages 100 hi₀
    (Or.inl ⟨_, List.mem_singleton.mpr rfl, rfl, by decide⟩)
  obtain ⟨p₂, h₂, -, -, hcall₂, hp₂, -⟩ := heap_established_and_served.2 _ _ _ zeroPages 5000 hi₀
    (Or.inr ⟨hgrow.end_le, hgrow.frames⟩)
  exact ⟨_, _, T₀, hcreate, hi₀, ⟨p₁, h₁, hcall₁, hp₁⟩, p₂, h₂, hcall₂, hp₂⟩

/-! ## Sizes of requests -/

/-- The sum in `get_block_size`, with the last three bytes of the rounding. -/
theorem getBlockSize_sum (size : Nat) :
    add32 (add32 (add32 size 8) 8) 3 = (size + 19) % 2 ^ 32 := by
  simp only [add32]
  omega

/-- A block has room for its header and its footer. -/
theorem le_getBlockSize {size : Nat} (h : size + 19 < 2 ^ 32) : size + 16 ≤ getBlockSize size := by
  simp only [getBlockSize, getBlockSize_sum, Nat.mod_eq_of_lt h]
  split
  · simp only [minBlockSize] at *
    omega
  · omega

/-- A sum that wraps around makes the least block. -/
theorem getBlockSize_of_wrap {size : Nat} (hlt : size < 2 ^ 32) (h : 2 ^ 32 ≤ size + 19) :
    getBlockSize size = minBlockSize := by
  have hsum : (size + 19) % 2 ^ 32 = size + 19 - 2 ^ 32 := by omega
  simp only [getBlockSize, getBlockSize_sum, hsum]
  rw [if_pos]
  simp only [minBlockSize]
  omega

/-! ## Giving a block back at once -/

/-- `m` differs from the memory in the user area of the block of `p` only. -/
def UserWrites (h : Heap) (p : Nat) (m : Mem) : Prop :=
  ∀ size, h.getSize (sub32 p 8) = some size →
    ∀ x, x < p ∨ p + size - 16 ≤ x → m x = h.mem x

/-- A block that was cut from a free one does not make the heap contract when it is given back,
    unless the free one is the last. -/
theorem HeapInv.not_contracts_cut (hi : HeapInv h (pre ++ c :: post) T) (hfree : c.free = true)
    {n : Nat} (hle : n ≤ c.size) (hlast : c.stop ≠ h.endAddress) {h₁ : Heap} {T₁ : ColorTree Entry}
    (hi₁ : HeapInv h₁ B T₁) (hB : pre ++ cut minBlockSize c n ++ post = B)
    (hend : h₁.endAddress = h.endAddress) (haddr : b.addr = c.addr) : ¬ h₁.FreeContracts B b := by
  rintro ⟨-, B', u, hco, hstop⟩
  subst hB
  have heq := hco.eq_merge hi₁.noFreePair hi₁.tiles.nodup_addr
  rw [haddr, merge_mark_cut hi.noFreePair hfree hle hi₁.tiles.nodup_addr] at heq
  obtain ⟨hu, hleft, hpos, hright⟩ := hco.covers
  rw [heq] at hu
  -- the coalesced block is the free one that was cut
  have huc : u = c := by
    by_contra hne
    have hapart := hi.tiles.apart hu (by simp) hne
    have hcpos := (hi.tiles.bounds (by simp : c ∈ pre ++ c :: post)).2.1
    simp only [Tile.stop] at *
    omega
  rw [huc, hend] at hstop
  exact hlast hstop

/-- **Free undoes alloc.** When the block comes from a free block that is not the last one, giving
    it back restores the blocks, the nodes of the tree and the count of used bytes, whatever is
    written to the user area in between. -/
theorem free_undoes_alloc (hi : HeapInv h B T) {fresh : NewPages} {size p : Nat} {h₁ : Heap}
    (hcall : h.alloc fresh size 0 = some (p, h₁)) (hc : c ∈ B) (hfree : c.free = true)
    (hle : getBlockSize size ≤ c.size) (hp : p = c.addr + 8) (hlast : c.stop ≠ h.endAddress)
    (hm : UserWrites h₁ p m) :
    ∃ h₂ T₂, (h₁.withMem m).free p = some (none, h₂) ∧ HeapInv h₂ B T₂ ∧
      (∀ a, a ∈ treeNodes T₂ ↔ a ∈ treeNodes T) ∧ h₂.memUsed = h.memUsed := by
  have hbound : loopBound = loopBound - 1 + 1 := by decide
  rw [Heap.alloc, hbound] at hcall
  obtain ⟨pre, d, post, m₁, tree₁, T₁, rfl, hdfree, hdle, hd, hi₁, -⟩ :=
    hi.alloc_fit (Nat.zero_le 1) hc hfree hle fresh (loopBound - 1)
  obtain ⟨rfl, rfl⟩ := Prod.mk.inj (Option.some.inj (hcall.symm.trans hd))
  -- the block that was taken is the one of the pointer
  obtain rfl : d = c := hi.tiles.eq_of_addr (by simp) hc (by omega)
  obtain ⟨rest, hcut⟩ := cut_eq minBlockSize (getBlockSize size) d
  have hpost : post ≠ [] := by
    rintro rfl
    exact hlast hi.tiles.split.2.2
  obtain ⟨t, ht⟩ : ∃ t, taken minBlockSize d (getBlockSize size) = t := ⟨_, rfl⟩
  rw [ht] at hcut
  have hlist : pre ++ cut minBlockSize d (getBlockSize size) ++ post =
      pre ++ ⟨d.addr, t, false⟩ :: (rest ++ post) := by
    rw [hcut]
    simp
  have hblock : (⟨d.addr, t, false⟩ : Tile) ∈ pre ++ ⟨d.addr, t, false⟩ :: (rest ++ post) := by simp
  have hi₁' := hi₁
  rw [hlist] at hi₁
  have hin := hi₁.inside hblock
  have hend := hi₁.end_lt
  have hstop := hin.stop_le
  have h28 := hin.stop_eq
  -- what is written in between
  have hsize := Heap.getSize_eq hi₁.toGrounds hin (hi₁.tagged _ hblock).head
  have hsub : sub32 (d.addr + 8) 8 = d.addr := by
    rw [sub32_of_le (by omega) (by simp only [Tile.stop] at *; omega), Nat.add_sub_cancel]
  have hwrite := hm t (by rw [hsub, hlist]; exact hsize)
  rw [hlist] at hwrite ⊢
  have hi₂ := hi₁.clientWrites fun x hx => hwrite x (by
    have := hx _ hblock rfl
    simp only [Tile.stop] at *
    omega)
  obtain ⟨m₃, tree₃, T₃, B₃, u, hcall₃, hco, hi₃, -⟩ := hi₂.free_spec rfl (by simp [hpost])
    (hi.not_contracts_cut hdfree hdle hlast hi₂ hlist rfl rfl)
  have hB : B₃ = pre ++ d :: post := by
    rw [hco.eq_merge hi₂.noFreePair hi₂.tiles.nodup_addr, ← hlist]
    exact merge_mark_cut hi.noFreePair hdfree hdle hi₁'.tiles.nodup_addr
  subst hB
  exact ⟨_, T₃, hcall₃, hi₃, fun a => (hi₃.nodes a).trans (hi.nodes a).symm,
    hi₃.used.trans hi.used.symm⟩

/-- A hole of 28 bytes is taken, a byte is stored in the object, and the hole is there again. -/
theorem free_undoes_alloc_hole :
    ∃ h T p h₁ h₂ T₂, HeapInv h (threeBlocks true) T ∧
      h.alloc zeroPages 12 0 = some (p, h₁) ∧
      UserWrites h₁ p (Function.update h₁.mem p 7) ∧
      (h₁.withMem (Function.update h₁.mem p 7)).free p = some (none, h₂) ∧
      HeapInv h₂ (threeBlocks true) T₂ ∧ h₂.memUsed = h.memUsed := by
  obtain ⟨h, T, hi, hend⟩ := exists_hole
  have hfree : (⟨65604, 28, true⟩ : Tile).free = true := rfl
  obtain ⟨pre, c, post, m₁, tree₁, T₁, hlist, hcfree, -, hcall, hi₁, -⟩ :=
    hi.alloc_fit (Nat.zero_le 1) List.mem_cons_self hfree (by decide : getBlockSize 12 ≤ 28)
      zeroPages (loopBound - 1)
  obtain ⟨rfl, rfl, rfl⟩ := eq_of_free_mid (B := []) hlist hcfree (by simp) (by simp)
  -- the whole hole is taken, so that the byte at its user pointer is a byte of the object
  have hblock : (⟨65604, 28, false⟩ : Tile) ∈ [] ++ cut minBlockSize ⟨65604, 28, true⟩
      (getBlockSize 12) ++ [⟨65632, 28, false⟩, ⟨65660, 3972, false⟩] := by decide
  have hsize := Heap.getSize_eq hi₁.toGrounds (hi₁.inside hblock) (hi₁.tagged _ hblock).head
  have hsub : sub32 (65604 + 8) 8 = 65604 := by decide
  have hwrites : ∀ h₁ : Heap, h₁.getSize 65604 = some 28 →
      UserWrites h₁ (65604 + 8) (Function.update h₁.mem (65604 + 8) 7) := by
    intro h₁ hget size hsize' x hx
    rw [hsub, hget, Option.some.injEq] at hsize'
    exact Function.update_of_ne (by omega) _ _
  obtain ⟨h₂, T₂, hfree₂, hi₂, -, hused⟩ := free_undoes_alloc hi hcall List.mem_cons_self rfl
    (by decide) rfl (by rw [hend]; decide) (hwrites _ hsize)
  exact ⟨h, T, _, _, h₂, T₂, hi, hcall, hwrites _ hsize, hfree₂, hi₂, hused⟩

/-! ## Giving blocks back -/

/-- **`free` coalesces.** Whatever the clients wrote, a live block that is not the last one and
    does not make the heap contract becomes a part of one free block, which is its union with its
    free neighbours. -/
theorem free_coalesces (hi : HeapInv h B T) (hm : ClientWrites B h.mem m) (hb : b ∈ B)
    (hused : b.free = false) (hlast : b.stop ≠ h.endAddress) (hno : ¬ h.FreeContracts B b) :
    ∃ h' B' T' u, (h.withMem m).free (b.addr + 8) = some (none, h') ∧ HeapInv h' B' T' ∧
      Coalesced b B B' u ∧ h'.memUsed + b.size = h.memUsed := by
  obtain ⟨pre, post, rfl⟩ := List.append_of_mem hb
  have hpost : post ≠ [] := by
    rintro rfl
    exact hlast hi.tiles.split.2.2
  obtain ⟨m', tree', T', B', u, hcall, hco, hinv, -⟩ :=
    (hi.clientWrites hm).free_spec hused hpost hno
  refine ⟨_, B', T', u, hcall, hinv, hco, ?_⟩
  have hdrop := hco.usedSize_eq hused
  rw [hinv.used, hi.used, hdrop]

/-- The first block is given back. -/
theorem free_coalesces_first : ∃ h T h' B' T' u,
    HeapInv h (threeBlocks false) T ∧ h.free 65612 = some (none, h') ∧ HeapInv h' B' T' ∧
      Coalesced ⟨65604, 28, false⟩ (threeBlocks false) B' u := by
  obtain ⟨h, T, hi, hend, hstart, hmin⟩ := exists_used
  obtain ⟨h', B', T', u, hcall, hi', hco, -⟩ := free_coalesces (b := ⟨65604, 28, false⟩)
    (m := h.mem) hi (fun _ _ => rfl) List.mem_cons_self rfl (by rw [hend]; decide) fun hno => by
      have := hno.1
      omega
  exact ⟨h, T, h', B', T', u, hi, hcall, hi', hco⟩

/-- **A second `free` is harmless.** The header of the block still tells that it is free, also when
    it is no more than a part of a bigger block, and the call changes nothing. -/
theorem double_free_harmless (hi : HeapInv h B T) (hm : ClientWrites B h.mem m) (hb : b ∈ B)
    (hused : b.free = false) (hlast : b.stop ≠ h.endAddress) (hno : ¬ h.FreeContracts B b) :
    ∃ h', (h.withMem m).free (b.addr + 8) = some (none, h') ∧
      h'.free (b.addr + 8) = some (some .alreadyFree, h') := by
  have hin := hi.inside hb
  have hlen := hin.stop_eq
  have hstop := hin.stop_le
  have hend := hi.end_lt
  obtain ⟨pre, post, rfl⟩ := List.append_of_mem hb
  have hpost : post ≠ [] := by
    rintro rfl
    exact hlast hi.tiles.split.2.2
  obtain ⟨m', tree', T', B', u, hcall, -, hinv, -, hmarked⟩ :=
    (hi.clientWrites hm).free_spec hused hpost hno
  refine ⟨_, hcall, Heap.free_marked (by omega) (by omega) ?_ ?_⟩
  · rw [Nat.add_sub_cancel]
    exact hinv.toGrounds.mapped (by exact hin.base_le) (by show b.addr + 4 ≤ h.endAddress; omega)
  · rw [Nat.add_sub_cancel]
    exact hmarked

/-- The first block is given back twice. -/
theorem double_free_harmless_first : ∃ h T h', HeapInv h (threeBlocks false) T ∧
    h.free 65612 = some (none, h') ∧ h'.free 65612 = some (some .alreadyFree, h') := by
  obtain ⟨h, T, hi, hend, hstart, hmin⟩ := exists_used
  obtain ⟨h', hfirst, hsecond⟩ := double_free_harmless (b := ⟨65604, 28, false⟩)
    (m := h.mem) hi (fun _ _ => rfl) List.mem_cons_self rfl (by rw [hend]; decide) fun hno => by
      have := hno.1
      omega
  exact ⟨h, T, h', hi, hfirst, hsecond⟩

/-! ## What the calls write -/

/-- What is not the same lies in a block that is not among the used ones. -/
theorem SameUsed.changed {h' : Heap} {C : List Tile} {m' : Mem} (hs : SameUsed h' C m m')
    (hi : HeapInv h B T) (hstart : h'.startAddress = h.startAddress) {x : Nat} (hx : x < 2 ^ 32)
    (hne : m' x ≠ m x) :
    (∃ b ∈ B, b.Has x ∧ (b ∈ C → b.free = true)) ∨ h.endAddress ≤ x ∧ x < h'.endAddress := by
  have hlow : h.startAddress ≤ x := by
    by_contra hlow
    exact hne (hs x hx (Or.inl (by omega)))
  have hhigh : x < h'.endAddress := by
    by_contra hhigh
    exact hne (hs x hx (Or.inr (Or.inl (by omega))))
  by_cases hend : h.endAddress ≤ x
  · -- the byte lies in memory that was added
    exact Or.inr ⟨hend, hhigh⟩
  · -- it lies in a block, which was free unless it is gone
    obtain ⟨b, hb, hplace⟩ := hi.tiles.exists_mem hlow (by omega)
    refine Or.inl ⟨b, hb, hplace, fun hbC => ?_⟩
    rw [← Bool.not_eq_false]
    exact fun hbused => hne (hs x hx (Or.inr (Or.inr ⟨b, hbC, hbused, hplace⟩)))

/-- **The frame of the calls.** `alloc` writes to free blocks and to pages that it adds, `free` to
    free blocks and to the block that is given back; all other live blocks keep every byte. -/
theorem heap_frame (hi : HeapInv h B T) :
    (∀ (fresh : NewPages) (size : Nat),
      (∃ b ∈ B, b.free = true ∧ getBlockSize size ≤ b.size) ∨ CanGrow h (getBlockSize size) →
      ∃ p h', h.alloc fresh size 0 = some (p, h') ∧ p ≠ 0 ∧
        (∀ c ∈ B, c.free = false → ∀ x, c.Has x → h'.mem x = h.mem x) ∧
        ∀ x < 2 ^ 32, h'.mem x ≠ h.mem x →
          (∃ c ∈ B, c.free = true ∧ c.Has x) ∨ h.endAddress ≤ x ∧ x < h'.endAddress) ∧
    ∀ b ∈ B, b.free = false → b.stop ≠ h.endAddress → ¬ h.FreeContracts B b →
      ∃ h', h.free (b.addr + 8) = some (none, h') ∧
        (∀ c ∈ B, c.free = false → c ≠ b → ∀ x, c.Has x → h'.mem x = h.mem x) ∧
        ∀ x < 2 ^ 32, h'.mem x ≠ h.mem x → ∃ c ∈ B, (c.free = true ∨ c = b) ∧ c.Has x := by
  have hlt : ∀ c ∈ B, ∀ x, c.Has x → x < 2 ^ 32 := fun c hc x hx =>
    lt_of_lt_of_le hx.2 (le_trans (hi.inside hc).stop_le (le_of_lt hi.end_lt))
  constructor
  · -- `alloc` writes to the block that it takes, and behind the old end
    intro fresh size hroom
    obtain ⟨p, h', B', T', hcall, hinv, hserved, hlimits, -⟩ := hi.alloc_served hroom fresh
    obtain ⟨d, -, -, hp, -⟩ := hserved.block
    refine ⟨p, h', hcall, by omega, fun c hc hcused x hx => ?_, fun x hx hne => ?_⟩
    · exact hserved.same x (hlt c hc x hx) (Or.inr (Or.inr ⟨c, hc, hcused, hx⟩))
    · rcases hserved.same.changed hi hlimits.start hx hne with ⟨c, hc, hplace, hfree⟩ | hnew
      · exact Or.inl ⟨c, hc, hfree hc, hplace⟩
      · exact Or.inr hnew
  · -- `free` writes to the block and to free ones
    intro b hb hused hlast hno
    obtain ⟨pre, post, rfl⟩ := List.append_of_mem hb
    have hpost : post ≠ [] := by
      rintro rfl
      exact hlast hi.tiles.split.2.2
    obtain ⟨m', tree', T', B', u, hcall, -, -, hsame, -⟩ := hi.free_spec hused hpost hno
    have hother : ∀ c ∈ pre ++ b :: post, c ≠ b → c ∈ pre ++ post := by
      intro c hc hne
      simp only [List.mem_append, List.mem_cons] at hc ⊢
      rcases hc with hc | hc | hc
      · exact Or.inl hc
      · exact absurd hc hne
      · exact Or.inr hc
    refine ⟨_, hcall, fun c hc hcused hne x hx => ?_, fun x hx hne => ?_⟩
    · exact hsame x (hlt c hc x hx) (Or.inr (Or.inr ⟨c, hother c hc hne, hcused, hx⟩))
    · rcases hsame.changed hi rfl hx hne with ⟨c, hc, hplace, hfree⟩ | hnew
      · by_cases hcb : c = b
        · exact ⟨c, hc, Or.inr hcb, hplace⟩
        · exact ⟨c, hc, Or.inl (hfree (hother c hc hcb)), hplace⟩
      · omega

/-- A request served from the hole leaves the blocks behind it alone. -/
theorem heap_frame_hole : ∃ h T, HeapInv h (threeBlocks true) T ∧
    ∃ p h', h.alloc zeroPages 12 0 = some (p, h') ∧ p ≠ 0 ∧
      ∀ x, 65660 ≤ x → x < 69632 → h'.mem x = h.mem x := by
  obtain ⟨h, T, hi, -⟩ := exists_hole
  obtain ⟨p, h', hcall, hp, hsame, -⟩ := (heap_frame hi).1 zeroPages 12
    (Or.inl ⟨⟨65604, 28, true⟩, List.mem_cons_self, rfl, by decide⟩)
  exact ⟨h, T, hi, p, h', hcall, hp, fun x h1 h2 =>
    hsame ⟨65660, 3972, false⟩ (by simp [threeBlocks]) rfl x ⟨h1, h2⟩⟩

/-! ## The order of the calls -/

/-- Calls of `free`, one after the other. -/
def Heap.freeAll (h : Heap) : List Nat → Option Heap
  | [] => some h
  | p :: ps => (h.free p).bind fun (_, h') => h'.freeAll ps

/-- The user pointers of the blocks. -/
def userPtrs (bs : List Tile) : List Nat := bs.map fun b => b.addr + 8

/-- No call of the sequence contracts the heap. -/
def NoneContracts (h : Heap) : List Nat → Prop
  | [] => True
  | p :: ps => (∀ B T, HeapInv h B T → ∀ b ∈ B, p = b.addr + 8 → ¬ h.FreeContracts B b) ∧
      ∀ e h', h.free p = some (e, h') → NoneContracts h' ps

/-- The blocks are live, none of them is the last, and no two of them are the same. -/
structure LiveBlocks (h : Heap) (B bs : List Tile) : Prop where
  mem : ∀ b ∈ bs, b ∈ B ∧ b.free = false ∧ b.stop ≠ h.endAddress
  nodup : bs.Nodup

/-- One call of the sequence: the other blocks are still there. -/
theorem HeapInv.free_step {bs : List Tile} (hi : HeapInv h B T) (hbs : LiveBlocks h B (b :: bs))
    (hno : ¬ h.FreeContracts B b) :
    ∃ m' tree' used' T', h.free (b.addr + 8) =
        some (none, (h.withTree m' tree').withUsed used') ∧
      HeapInv ((h.withTree m' tree').withUsed used') (merge (mark b.addr B)) T' ∧
      LiveBlocks ((h.withTree m' tree').withUsed used') (merge (mark b.addr B)) bs := by
  obtain ⟨hb, hused, hlast⟩ := hbs.mem b (by simp)
  obtain ⟨hnot, hnodup⟩ := List.nodup_cons.mp hbs.nodup
  obtain ⟨pre, post, rfl⟩ := List.append_of_mem hb
  have hpost : post ≠ [] := by
    rintro rfl
    exact hlast hi.tiles.split.2.2
  obtain ⟨m', tree', T', B', u, hcall, hco, hi', -⟩ := hi.free_spec hused hpost hno
  rw [← hco.eq_merge hi.noFreePair hi.tiles.nodup_addr]
  refine ⟨m', tree', _, T', hcall, hi', fun c hc => ?_, hnodup⟩
  obtain ⟨hcB, hcused, hclast⟩ := hbs.mem c (by simp [hc])
  have hne : c ≠ b := by
    rintro rfl
    exact hnot hc
  exact ⟨(hco.mem_iff hcused hne).mpr hcB, hcused, hclast⟩

/-- **A sequence of frees**: every block is given back, and the free ones are merged. -/
theorem HeapInv.freeAll_spec {bs : List Tile} (hi : HeapInv h B T) (hbs : LiveBlocks h B bs)
    (hno : NoneContracts h (userPtrs bs)) :
    ∃ h' T', h.freeAll (userPtrs bs) = some h' ∧ HeapInv h' (giveAll B (bs.map Tile.addr)) T' := by
  induction bs generalizing h B T with
  | nil => exact ⟨h, T, rfl, hi⟩
  | cons b bs ih =>
    have hb := (hbs.mem b (by simp)).1
    obtain ⟨m', tree', used', T', hcall, hi', hbs'⟩ := hi.free_step hbs (hno.1 _ T hi b hb rfl)
    obtain ⟨h'', T'', hrest, hi''⟩ := ih hi' hbs' (hno.2 _ _ hcall)
    refine ⟨h'', T'', ?_, hi''⟩
    have hfirst : h.freeAll (userPtrs (b :: bs)) =
        (h.free (b.addr + 8)).bind fun (_, h') => h'.freeAll (userPtrs bs) := rfl
    rw [hfirst, hcall, Option.bind_some]
    exact hrest

/-- **The order of frees does not matter.** Two orders in which no call contracts the heap end with
    the same blocks, the same nodes in the tree and the same count of used bytes. -/
theorem free_order_independent {bs bs' : List Tile} (hi : HeapInv h B T) (hbs : LiveBlocks h B bs)
    (hperm : bs.Perm bs') (hno : NoneContracts h (userPtrs bs))
    (hno' : NoneContracts h (userPtrs bs')) :
    ∃ h₁ h₂ B' T₁ T₂, h.freeAll (userPtrs bs) = some h₁ ∧ h.freeAll (userPtrs bs') = some h₂ ∧
      HeapInv h₁ B' T₁ ∧ HeapInv h₂ B' T₂ ∧ (∀ a, a ∈ treeNodes T₁ ↔ a ∈ treeNodes T₂) ∧
      h₁.memUsed = h₂.memUsed := by
  have hbs' : LiveBlocks h B bs' :=
    ⟨fun b hb => hbs.mem b (hperm.mem_iff.mpr hb), hperm.nodup_iff.mp hbs.nodup⟩
  obtain ⟨h₁, T₁, hcall₁, hi₁⟩ := hi.freeAll_spec hbs hno
  obtain ⟨h₂, T₂, hcall₂, hi₂⟩ := hi.freeAll_spec hbs' hno'
  -- blocks with one address are the same
  have hnodup : (bs.map Tile.addr).Nodup := by
    refine List.Nodup.map_on (fun b hb c hc haddr => ?_) hbs.nodup
    exact hi.tiles.eq_of_addr (hbs.mem b hb).1 (hbs.mem c hc).1 haddr
  have hsame : giveAll B (bs.map Tile.addr) = giveAll B (bs'.map Tile.addr) := by
    refine giveAll_perm hi.noFreePair (hperm.map _) hnodup hi.tiles.nodup_addr ?_
    intro a ha b hb haddr
    obtain ⟨c, hc, rfl⟩ := List.mem_map.mp ha
    obtain ⟨hcB, hcused, -⟩ := hbs.mem c hc
    rw [hi.tiles.eq_of_addr hb hcB haddr]
    exact hcused
  rw [← hsame] at hi₂
  exact ⟨h₁, h₂, _, T₁, T₂, hcall₁, hcall₂, hi₁, hi₂,
    fun a => (hi₁.nodes a).trans (hi₂.nodes a).symm, hi₁.used.trans hi₂.used.symm⟩

/-- A heap of the least size does not contract. -/
theorem HeapInv.noneContracts {bs : List Tile} (hi : HeapInv h B T) (hbs : LiveBlocks h B bs)
    (hmin : h.endAddress - h.startAddress ≤ h.minSize) : NoneContracts h (userPtrs bs) := by
  induction bs generalizing h B T with
  | nil => exact trivial
  | cons b bs ih =>
    have hstay : ∀ B c, ¬ h.FreeContracts B c := fun B c hno => absurd hno.1 (by omega)
    refine ⟨fun B' T' _ c _ _ => hstay B' c, fun e h' hcall => ?_⟩
    obtain ⟨m', tree', used', T', hcall', hi', hbs'⟩ := hi.free_step hbs (hstay _ _)
    obtain ⟨-, rfl⟩ := Prod.mk.inj (Option.some.inj (hcall.symm.trans hcall'))
    exact ih hi' hbs' hmin

/-- Two blocks of a small heap, in both orders. -/
theorem free_order_independent_two : ∃ h T h₁ h₂ B' T₁ T₂, HeapInv h (threeBlocks false) T ∧
    h.freeAll [65612, 65640] = some h₁ ∧ h.freeAll [65640, 65612] = some h₂ ∧
      HeapInv h₁ B' T₁ ∧ HeapInv h₂ B' T₂ ∧ h₁.memUsed = h₂.memUsed := by
  obtain ⟨h, T, hi, hend, hstart, hmin⟩ := exists_used
  have hlive : ∀ bs : List Tile, bs.Nodup →
      (∀ b ∈ bs, b = ⟨65604, 28, false⟩ ∨ b = ⟨65632, 28, false⟩) →
        LiveBlocks h (threeBlocks false) bs := by
    refine fun bs hnodup hbs => ⟨fun b hb => ?_, hnodup⟩
    rw [hend]
    -- both blocks are in use, and neither is the last one
    rcases hbs b hb with rfl | rfl
    · decide
    · decide
  have hbs := hlive [⟨65604, 28, false⟩, ⟨65632, 28, false⟩] (by decide) (by simp)
  have hbs' := hlive [⟨65632, 28, false⟩, ⟨65604, 28, false⟩] (by decide) (by simp)
  obtain ⟨h₁, h₂, B', T₁, T₂, hcall₁, hcall₂, hi₁, hi₂, -, hused⟩ :=
    free_order_independent hi hbs (by decide) (hi.noneContracts hbs (by omega))
      (hi.noneContracts hbs' (by omega))
  exact ⟨h, T, h₁, h₂, B', T₁, T₂, hi, hcall₁, hcall₂, hi₁, hi₂, hused⟩

end

end Toutatis
