import Toutatis.MemAlloc.Heap
import Toutatis.Lib.Tiling

/-!
# The layout of the heap

The heap as a tiling by blocks with their tags, of which the free ones are in the tree. Between
two calls this is `HeapInv`. Inside a call there is a gap: `HeapGap` says nothing about the bytes
from `lo` to `hi`, which the call is free to write to. A call opens a gap at a block, takes free
neighbours out of the tree to widen it, writes the tags of the new blocks, and puts these back
at its ends.

## Key results

- `HeapGap.write`: stores to the gap
- `HeapGap.take`: a free block next to the gap becomes a part of it
- `HeapGap.put_front` / `HeapGap.put_back`: a free block at an end of the gap goes into the tree
- `HeapInv.open_gap` / `HeapGap.close`: the gap at a block, and its end
-/

namespace Toutatis

open ByteMem RedBlack Tiling

/-! ## Magic numbers -/

/-- The magic number without its lowest bit. -/
theorem checkMagic_iff {w : Nat} (hw : w < 2 ^ 32) :
    checkMagic w = true ↔ w / 2 * 2 = magicNumber := by
  rw [checkMagic, beq_iff_eq, and_not_one hw]

/-- The lowest bit marks a free block. -/
theorem isFree_iff (w : Nat) : isFree w = true ↔ w % 2 = 1 := by
  rw [isFree, and_one, bne_iff_ne]
  omega

/-- Without it the block is in use. -/
theorem isFree_eq_false (w : Nat) : isFree w = false ↔ w % 2 = 0 := by
  rw [← Bool.not_eq_true, isFree_iff]
  omega

/-- What `set_magic` stores. -/
theorem setMagic_word (w : Nat) : magicNumber ||| (w &&& 1) = magicNumber + w % 2 := by
  have hbit : w % 2 < 2 := Nat.mod_lt w (by decide)
  rw [and_one, Nat.or_comm, show magicNumber = 0x50d961ea * 2 from rfl, or_bit hbit]

/-- `set_magic` keeps the lowest bit. -/
theorem magic_setMagic (w : Nat) : (magicNumber ||| (w &&& 1)) < 2 ^ 32 ∧
    checkMagic (magicNumber ||| (w &&& 1)) = true ∧
    isFree (magicNumber ||| (w &&& 1)) = isFree w := by
  have hlt : magicNumber + w % 2 < 2 ^ 32 := by
    simp only [magicNumber]
    omega
  rw [setMagic_word]
  refine ⟨hlt, (checkMagic_iff hlt).mpr ?_, ?_⟩
  · simp only [magicNumber]
    omega
  · rw [Bool.eq_iff_iff, isFree_iff, isFree_iff]
    simp only [magicNumber]
    omega

/-- `mark_free` keeps the magic number. -/
theorem magic_markFree {w : Nat} (hw : w < 2 ^ 32) : (w ||| 1) < 2 ^ 32 ∧
    checkMagic (w ||| 1) = checkMagic w ∧ isFree (w ||| 1) = true := by
  have hlt : (w ||| 1) < 2 ^ 32 := by
    rw [or_one]
    omega
  refine ⟨hlt, ?_, ?_⟩
  · rw [Bool.eq_iff_iff, checkMagic_iff hlt, checkMagic_iff hw, or_one]
    omega
  · rw [isFree_iff, or_one]
    omega

/-- `mark_used` keeps the magic number. -/
theorem magic_markUsed {w : Nat} (hw : w < 2 ^ 32) : (w &&& 0xfffffffe) < 2 ^ 32 ∧
    checkMagic (w &&& 0xfffffffe) = checkMagic w ∧ isFree (w &&& 0xfffffffe) = false := by
  have hlt : (w &&& 0xfffffffe) < 2 ^ 32 := by
    rw [and_not_one hw]
    omega
  refine ⟨hlt, ?_, ?_⟩
  · rw [Bool.eq_iff_iff, checkMagic_iff hlt, checkMagic_iff hw, and_not_one hw]
    omega
  · rw [isFree_eq_false, and_not_one hw]
    omega

/-! ## Tags -/

/-- The header of a block: its magic number, its mark and its size. -/
structure Headed (m : Mem) (b : Tile) : Prop where
  magic : checkMagic (load32 m b.addr) = true
  mark : isFree (load32 m b.addr) = b.free
  size : load32 m (b.addr + 4) = b.size

/-- The footer of a block: its magic number and the address of the block. -/
structure Footed (m : Mem) (b : Tile) : Prop where
  magic : checkMagic (load32 m (b.stop - 8)) = true
  header : load32 m (b.stop - 4) = b.addr

/-- The tags of a block. -/
structure Tagged (m : Mem) (b : Tile) : Prop where
  head : Headed m b
  foot : Footed m b

/-- The word at `a` is the magic number with the mark of a free block. -/
structure Marked (m : Mem) (a : Nat) : Prop where
  magic : checkMagic (load32 m a) = true
  mark : isFree (load32 m a) = true

variable {m m' : Mem} {b : Tile}

/-- A mark depends on its four bytes only. -/
theorem Marked.congr {a : Nat} (h : Marked m a) (hm : ∀ x, a ≤ x → x < a + 4 → m' x = m x) :
    Marked m' a := by
  have hw : load32 m' a = load32 m a := load32_congr hm
  exact ⟨by rw [hw, h.magic], by rw [hw, h.mark]⟩

/-- The header of a free block is marked. -/
theorem Headed.marked (h : Headed m b) (hfree : b.free = true) : Marked m b.addr :=
  ⟨h.magic, h.mark.trans hfree⟩

/-- A header depends on its eight bytes only. -/
theorem Headed.congr (h : Headed m b) (hm : ∀ x, b.addr ≤ x → x < b.addr + 8 → m' x = m x) :
    Headed m' b := by
  have h0 : load32 m' b.addr = load32 m b.addr :=
    load32_congr fun x h1 h2 => hm x h1 (by omega)
  have h4 : load32 m' (b.addr + 4) = load32 m (b.addr + 4) :=
    load32_congr fun x h1 h2 => hm x (by omega) (by omega)
  exact ⟨by rw [h0, h.magic], by rw [h0, h.mark], by rw [h4, h.size]⟩

/-- A footer depends on its eight bytes only. -/
theorem Footed.congr (h : Footed m b) (hsize : 8 ≤ b.size)
    (hm : ∀ x, b.stop - 8 ≤ x → x < b.stop → m' x = m x) : Footed m' b := by
  have hstop : 8 ≤ b.stop := by
    simp only [Tile.stop]
    omega
  have h8 : load32 m' (b.stop - 8) = load32 m (b.stop - 8) :=
    load32_congr fun x h1 h2 => hm x h1 (by omega)
  have h4 : load32 m' (b.stop - 4) = load32 m (b.stop - 4) :=
    load32_congr fun x h1 h2 => hm x (by omega) (by omega)
  exact ⟨by rw [h8, h.magic], by rw [h4, h.header]⟩

/-- The mark is no part of the footer. -/
theorem Footed.of_eq (h : Footed m b) {c : Tile} (haddr : c.addr = b.addr)
    (hstop : c.stop = b.stop) : Footed m c :=
  ⟨by rw [hstop, h.magic], by rw [hstop, haddr, h.header]⟩

/-! ## The layout -/

/-- The bounds of the heap: its pages are mapped, and the word in front of the footer place
    below the first block is no magic number. -/
structure Grounds (h : Heap) : Prop where
  base_aligned : h.base % frameSize = 0
  base_le : h.base + allocatorSize ≤ h.startAddress
  start_aligned : h.startAddress % 4 = 0
  end_aligned : h.endAddress % frameSize = 0
  end_lt : h.endAddress < 2 ^ 32
  pages : ∀ x, h.base / frameSize ≤ x → x < h.endAddress / frameSize → h.present x = true
  below : checkMagic (load32 h.mem (h.startAddress - 8)) = false

/-- **The heap invariant**, with the blocks `B` and the tree `T`. -/
structure HeapInv (h : Heap) (B : List Tile) (T : ColorTree Entry) : Prop extends Grounds h where
  tiles : Tiles h.startAddress h.endAddress B
  sizes : ∀ b ∈ B, minBlockSize ≤ b.size ∧ b.size % 4 = 0
  tagged : ∀ b ∈ B, Tagged h.mem b
  tree : FreeTree h.mem h.memTree T
  nodes : ∀ a, a ∈ treeNodes T ↔ ∃ b ∈ B, b.free = true ∧ a = b.addr + 4
  noFreePair : NoFreePair B
  used : h.memUsed = usedSize B

/-- The heap with a gap from `lo` to `hi`, between the blocks `pre` and `post`. -/
structure HeapGap (h : Heap) (pre post : List Tile) (lo hi : Nat) (T : ColorTree Entry) : Prop
    extends Grounds h where
  front : Tiles h.startAddress lo pre
  gap : lo ≤ hi
  back : Tiles hi h.endAddress post
  sizes : ∀ b ∈ pre ++ post, minBlockSize ≤ b.size ∧ b.size % 4 = 0
  tagged : ∀ b ∈ pre ++ post, Tagged h.mem b
  tree : FreeTree h.mem h.memTree T
  nodes : ∀ a, a ∈ treeNodes T ↔ ∃ b ∈ pre ++ post, b.free = true ∧ a = b.addr + 4

/-- `m'` differs from `m` in the links of free blocks only. -/
def LinksOnly (B : List Tile) (m m' : Mem) : Prop :=
  ∀ x < 2 ^ 32, (∀ b ∈ B, b.free = true → x < b.addr + 8 ∨ b.addr + 20 ≤ x) → m' x = m x

/-- `m'` is `m` on the used blocks and outside the heap. -/
def SameUsed (h : Heap) (B : List Tile) (m m' : Mem) : Prop :=
  ∀ x < 2 ^ 32, (x < h.startAddress ∨ h.endAddress ≤ x ∨
    ∃ b ∈ B, b.free = false ∧ b.addr ≤ x ∧ x < b.stop) → m' x = m x

section

variable {h : Heap} {pre post : List Tile} {lo hi : Nat} {T : ColorTree Entry}

/-- The words of the heap are mapped. -/
theorem Grounds.mapped (hg : Grounds h) {a : Nat} (h1 : h.base ≤ a) (h2 : a + 4 ≤ h.endAddress) :
    h.Mapped a := by
  have := hg.base_aligned
  have := hg.end_aligned
  simp only [frameSize] at *
  exact ⟨hg.pages _ (by simp only [frameSize]; omega) (by simp only [frameSize]; omega),
    hg.pages _ (by simp only [frameSize]; omega) (by simp only [frameSize]; omega)⟩

/-- So are those of a node in it. -/
theorem Grounds.nodeMapped (hg : Grounds h) {node : Nat} (h1 : h.base ≤ node)
    (h2 : node + 16 ≤ h.endAddress) : h.NodeMapped node :=
  ⟨hg.mapped h1 (by omega), hg.mapped (by omega) (by omega), hg.mapped (by omega) (by omega),
    hg.mapped (by omega) (by omega)⟩

/-- `insert_rbnode` for a node that is mapped. -/
theorem Heap.insertNode_eq {node r : Nat} {m' : Mem} {tree' : RbTree AllocArgs}
    (hm : h.NodeMapped node)
    (hr : insertRbnode h.mem h.memTree node none = some (r, m', tree')) :
    h.insertNode node = some (r, h.withTree m' tree') := by
  rw [Heap.insertNode, if_neg (fun hfault => hfault.2 hm), hr]
  rfl

/-- `remove_rbnode` when the node that it returns is mapped. -/
theorem Heap.removeNode_eq {data node : Nat} {args : AllocArgs} {m' : Mem}
    {tree' : RbTree AllocArgs} (hm : node ≠ 0 → h.NodeMapped node)
    (hr : removeRbnode h.mem h.memTree data (some args) = some (node, m', tree')) :
    h.removeNode data args = some (node, h.withTree m' tree') := by
  simp only [Heap.removeNode, hr, Option.bind_eq_bind, Option.bind_some]
  exact if_neg fun hfault => hfault.2 (hm hfault.1)

/-- What a removal that goes through has done. -/
theorem Heap.removeNode_some {data node : Nat} {args : AllocArgs} {h₁ : Heap}
    (hcall : h.removeNode data args = some (node, h₁)) :
    ∃ m' tree', removeRbnode h.mem h.memTree data (some args) = some (node, m', tree') ∧
      h₁ = h.withTree m' tree' := by
  simp only [Heap.removeNode, Option.bind_eq_bind, Option.bind_eq_some_iff] at hcall
  obtain ⟨⟨f, m', tree'⟩, hr, heq⟩ := hcall
  simp only at heq
  split at heq
  · exact absurd heq (by simp)
  · obtain ⟨rfl, rfl⟩ := Prod.mk.inj (Option.some.inj heq)
    exact ⟨m', tree', hr, rfl⟩

/-- A load from a page that is present. -/
theorem Heap.load_eq (hm : h.Mapped a) : h.load a = some (load32 h.mem a) := if_pos hm

/-- A store to a page that is present. -/
theorem Heap.store_eq (hm : h.Mapped a) (v : Nat) :
    h.store a v = some (h.withMem (store32 h.mem a v)) := if_pos hm

/-! ### Where the blocks lie -/

/-- The end of the heap is aligned. -/
theorem Grounds.end_mod (hg : Grounds h) : h.endAddress % 4 = 0 := by
  have := hg.end_aligned
  simp only [frameSize] at this
  omega

/-- A block around a gap lies in the heap, and not in the gap. -/
theorem HeapGap.place (hg : HeapGap h pre post lo hi T) {b : Tile} (hb : b ∈ pre ++ post) :
    h.startAddress ≤ b.addr ∧ b.stop ≤ h.endAddress ∧ (b.stop ≤ lo ∨ hi ≤ b.addr) ∧
      minBlockSize ≤ b.size ∧ b.addr % 4 = 0 := by
  have hsize := hg.sizes b hb
  have hback := hg.back.mod_eq fun c hc => (hg.sizes c (by simp [hc])).2
  have hfl := hg.front.le
  have hbl := hg.back.le
  have hgap := hg.gap
  have hend := hg.end_mod
  rcases List.mem_append.mp hb with hmem | hmem
  · -- a block in front of the gap
    have hplace := hg.front.bounds hmem
    have hfront := hg.front.mod_eq fun c hc => (hg.sizes c (by simp [hc])).2
    have hstart := hg.start_aligned
    exact ⟨hplace.1, by omega, Or.inl hplace.2.2, hsize.1, by rw [hfront.2 b hmem]; omega⟩
  · -- a block behind it
    have hplace := hg.back.bounds hmem
    exact ⟨by omega, hplace.2.2, Or.inr hplace.1, hsize.1, by rw [hback.2 b hmem, hend]⟩

/-- The ends of the gap are aligned. -/
theorem HeapGap.aligned (hg : HeapGap h pre post lo hi T) : lo % 4 = 0 ∧ hi % 4 = 0 := by
  have hback := hg.back.mod_eq fun c hc => (hg.sizes c (by simp [hc])).2
  have hfront := hg.front.mod_eq fun c hc => (hg.sizes c (by simp [hc])).2
  have := hg.start_aligned
  have := hg.end_mod
  omega

/-- Two blocks around a gap lie apart. -/
theorem HeapGap.apart (hg : HeapGap h pre post lo hi T) {b c : Tile} (hb : b ∈ pre ++ post)
    (hc : c ∈ pre ++ post) (hne : b ≠ c) : b.stop ≤ c.addr ∨ c.stop ≤ b.addr := by
  have hgap := hg.gap
  rcases List.mem_append.mp hb with hmem | hmem <;> rcases List.mem_append.mp hc with hmem' | hmem'
  · exact hg.front.apart hmem hmem' hne
  · have := hg.front.bounds hmem
    have := hg.back.bounds hmem'
    omega
  · have := hg.back.bounds hmem
    have := hg.front.bounds hmem'
    omega
  · exact hg.back.apart hmem hmem' hne

/-- A block is not equal to one with another address. -/
theorem HeapGap.eq_of_addr (hg : HeapGap h pre post lo hi T) {b c : Tile} (hb : b ∈ pre ++ post)
    (hc : c ∈ pre ++ post) (haddr : b.addr = c.addr) : b = c := by
  by_contra hne
  have := hg.apart hb hc hne
  have := (hg.place hb).2.2.2.1
  have := (hg.place hc).2.2.2.1
  simp only [Tile.stop, minBlockSize] at *
  omega

/-! ### Changes of the memory -/

/-- The tags are no links. -/
theorem HeapGap.tagged_of_linksOnly (hg : HeapGap h pre post lo hi T) {m' : Mem}
    (hm : LinksOnly (pre ++ post) h.mem m') {b : Tile} (hb : b ∈ pre ++ post) : Tagged m' b := by
  obtain ⟨-, hstop, -, hsize, -⟩ := hg.place hb
  have hend := hg.end_lt
  simp only [minBlockSize] at hsize
  -- the links of a block lie between its tags, those of another block outside of it
  have hoff : ∀ x, b.addr ≤ x → x < b.stop → (x < b.addr + 8 ∨ b.stop - 8 ≤ x) →
      m' x = h.mem x := by
    intro x h1 h2 htag
    refine hm x (by omega) fun c hc hfree => ?_
    by_cases hbc : b = c
    · subst hbc
      simp only [Tile.stop] at *
      omega
    · have hapart := hg.apart hb hc hbc
      have hcsize := (hg.place hc).2.2.2.1
      simp only [Tile.stop, minBlockSize] at *
      omega
  have htags := hg.tagged b hb
  have hlen : b.addr + 28 ≤ b.stop := by
    simp only [Tile.stop]
    omega
  exact ⟨htags.head.congr fun x h1 h2 => hoff x h1 (by omega) (Or.inl h2),
    htags.foot.congr (by omega) fun x h1 h2 => hoff x (by omega) h2 (Or.inr h1)⟩

/-- The gap holds no links. -/
theorem HeapGap.gap_of_linksOnly (hg : HeapGap h pre post lo hi T) {m' : Mem}
    (hm : LinksOnly (pre ++ post) h.mem m') {x : Nat} (hlo : lo ≤ x) (hhi : x < hi) :
    m' x = h.mem x := by
  have hbl := hg.back.le
  have hend := hg.end_lt
  refine hm x (by omega) fun c hc _ => ?_
  have hplace := (hg.place hc).2.2.1
  have hcsize := (hg.place hc).2.2.2.1
  simp only [Tile.stop, minBlockSize] at *
  omega

/-- Links are not written below the first block. -/
theorem HeapGap.below_of_linksOnly (hg : HeapGap h pre post lo hi T) {m' : Mem}
    (hm : LinksOnly (pre ++ post) h.mem m') :
    load32 m' (h.startAddress - 8) = load32 h.mem (h.startAddress - 8) := by
  have hbase := hg.base_le
  have hfl := hg.front.le
  have hbl := hg.back.le
  have hgap := hg.gap
  have hend := hg.end_lt
  refine load32_congr fun x h1 h2 => hm x (by omega) fun c hc _ => ?_
  have := (hg.place hc).1
  simp only [allocatorSize] at hbase
  omega

/-- **Stores to the gap.** -/
theorem HeapGap.write (hg : HeapGap h pre post lo hi T) {m' : Mem}
    (hm : ∀ x, x < lo ∨ hi ≤ x → m' x = h.mem x) :
    HeapGap (h.withMem m') pre post lo hi T := by
  have hbase := hg.base_le
  have hfl := hg.front.le
  -- the blocks lie outside of the gap
  have hoff : ∀ b ∈ pre ++ post, ∀ x, b.addr ≤ x → x < b.stop → m' x = h.mem x := by
    intro b hb x h1 h2
    have := (hg.place hb).2.2.1
    exact hm x (by omega)
  refine ⟨⟨hg.base_aligned, hg.base_le, hg.start_aligned, hg.end_aligned, hg.end_lt, hg.pages, ?_⟩,
    hg.front, hg.gap, hg.back, hg.sizes, fun b hb => ?_, hg.tree.congr fun a ha x h1 h2 => ?_,
    hg.nodes⟩
  · have hword : load32 m' (h.startAddress - 8) = load32 h.mem (h.startAddress - 8) := by
      simp only [allocatorSize] at hbase
      exact load32_congr fun x h1 h2 => hm x (Or.inl (by omega))
    exact (congrArg checkMagic hword).trans hg.below
  · have htags := hg.tagged b hb
    have hsize := (hg.place hb).2.2.2.1
    have hlen : b.addr + 28 ≤ b.stop := by
      simp only [Tile.stop, minBlockSize] at *
      omega
    exact ⟨htags.head.congr fun x h1 h2 => hoff b hb x h1 (by omega),
      htags.foot.congr (by simp only [minBlockSize] at hsize; omega)
        fun x h1 h2 => hoff b hb x (by omega) h2⟩
  · obtain ⟨b, hb, -, rfl⟩ := (hg.nodes a).mp ha
    have hsize := (hg.place hb).2.2.2.1
    simp only [minBlockSize] at hsize
    exact hoff b hb x (by omega) (by simp only [Tile.stop]; omega)

/-! ### The tree -/

/-- Outside of the nodes nothing but links changes. -/
theorem HeapGap.linksOnly (hg : HeapGap h pre post lo hi T) {m' : Mem}
    (hoff : SameOff (treeNodes T) h.mem m') : LinksOnly (pre ++ post) h.mem m' := by
  refine fun x hx hlinks => hoff x hx fun a ha => ?_
  obtain ⟨b, hb, hfree, rfl⟩ := (hg.nodes a).mp ha
  have := hlinks b hb hfree
  omega

/-- The gap after a change of the tree that leaves some of the blocks. -/
theorem HeapGap.retree (hg : HeapGap h pre post lo hi T) {pre' post' : List Tile} {lo' hi' : Nat}
    {m' : Mem} {tree' : RbTree AllocArgs} {T' : ColorTree Entry}
    (hm : LinksOnly (pre ++ post) h.mem m') (hsub : ∀ b ∈ pre' ++ post', b ∈ pre ++ post)
    (hfront : Tiles h.startAddress lo' pre') (hgap : lo' ≤ hi')
    (hback : Tiles hi' h.endAddress post') (htree : FreeTree m' tree' T')
    (hnodes : ∀ a, a ∈ treeNodes T' ↔ ∃ b ∈ pre' ++ post', b.free = true ∧ a = b.addr + 4) :
    HeapGap (h.withTree m' tree') pre' post' lo' hi' T' :=
  ⟨⟨hg.base_aligned, hg.base_le, hg.start_aligned, hg.end_aligned, hg.end_lt, hg.pages,
      (congrArg checkMagic (hg.below_of_linksOnly hm)).trans hg.below⟩, hfront, hgap, hback,
    fun b hb => hg.sizes b (hsub b hb), fun b hb => hg.tagged_of_linksOnly hm (hsub b hb), htree,
    hnodes⟩

/-- The nodes that are left when one is taken out. -/
theorem HeapGap.nodes_erase (hg : HeapGap h pre post lo hi T) {b : Tile} (hb : b ∈ pre ++ post)
    {T' : ColorTree Entry} (hperm : (treeNodes T).Perm ((b.addr + 4) :: treeNodes T')) (a : Nat) :
    a ∈ treeNodes T' ↔ ∃ c ∈ pre ++ post, c ≠ b ∧ c.free = true ∧ a = c.addr + 4 := by
  have hnd := (List.nodup_cons.mp (hperm.nodup_iff.mp hg.tree.nodes.nodup)).1
  have hmem := hperm.mem_iff (a := a)
  rw [hg.nodes, List.mem_cons] at hmem
  constructor
  · intro ha
    obtain ⟨c, hc, hcfree, rfl⟩ := hmem.mpr (Or.inr ha)
    refine ⟨c, hc, ?_, hcfree, rfl⟩
    rintro rfl
    exact hnd ha
  · rintro ⟨c, hc, hne, hcfree, rfl⟩
    refine (hmem.mp ⟨c, hc, hcfree, rfl⟩).resolve_left fun heq => hne ?_
    exact hg.eq_of_addr hc hb (by omega)

/-- A free block is taken out of the tree. -/
theorem HeapGap.remove_block (hg : HeapGap h pre post lo hi T) {b : Tile} (hb : b ∈ pre ++ post)
    (hfree : b.free = true) :
    ∃ m' tree' T', h.removeNode b.size ⟨0, b.addr + 4⟩ =
        some (b.addr + 4, h.withTree m' tree') ∧
      LinksOnly (pre ++ post) h.mem m' ∧ FreeTree m' tree' T' ∧
      ∀ a, a ∈ treeNodes T' ↔
        ∃ c ∈ pre ++ post, c ≠ b ∧ c.free = true ∧ a = c.addr + 4 := by
  have hnode := (hg.nodes (b.addr + 4)).mpr ⟨b, hb, hfree, rfl⟩
  have hsize : nodeData h.mem (b.addr + 4) = b.size := (hg.tagged b hb).head.size
  obtain ⟨m', tree', T', hr, hv, hperm, hoff⟩ := hg.tree.remove_address hnode
  rw [hsize] at hr
  obtain ⟨hstart, hstop, -, hmin, -⟩ := hg.place hb
  have hbase := hg.base_le
  simp only [Tile.stop, minBlockSize] at hstop hmin
  have hmap : h.NodeMapped (b.addr + 4) := hg.toGrounds.nodeMapped (by omega) (by omega)
  exact ⟨m', tree', T', Heap.removeNode_eq (fun _ => hmap) hr, hg.linksOnly hoff, hv,
    hg.nodes_erase hb hperm⟩

/-- **The free block behind the gap** becomes a part of it. -/
theorem HeapGap.take_right {r : Tile} (hg : HeapGap h pre (r :: post) lo hi T)
    (hfree : r.free = true) :
    ∃ m' tree' T', h.removeNode r.size ⟨0, r.addr + 4⟩ =
        some (r.addr + 4, h.withTree m' tree') ∧
      LinksOnly (pre ++ r :: post) h.mem m' ∧
      HeapGap (h.withTree m' tree') pre post lo r.stop T' := by
  have hr : r ∈ pre ++ r :: post := by simp
  obtain ⟨haddr, hpos, hback⟩ := hg.back
  have hgap := hg.gap
  -- the other blocks are those in front of the gap and those behind the block
  have hmem : ∀ c, c ∈ pre ++ post ↔ c ∈ pre ++ r :: post ∧ c ≠ r := by
    intro c
    simp only [List.mem_append, List.mem_cons]
    refine ⟨fun hc => ⟨by tauto, ?_⟩, by tauto⟩
    rintro rfl
    rcases hc with hc | hc
    · have := hg.front.bounds hc
      simp only [Tile.stop] at this
      omega
    · have := hback.bounds hc
      omega
  obtain ⟨m', tree', T', hremove, hm, hv, hnodes⟩ := hg.remove_block hr hfree
  refine ⟨m', tree', T', hremove, hm, hg.retree hm (fun b hb => ((hmem b).mp hb).1) hg.front ?_ ?_
    hv fun a => ?_⟩
  · simp only [Tile.stop]
    omega
  · rw [Tile.stop, haddr]
    exact hback
  · rw [hnodes]
    simp only [hmem, and_assoc]

/-- **The free block in front of the gap** becomes a part of it. -/
theorem HeapGap.take_left {l : Tile} (hg : HeapGap h (pre ++ [l]) post lo hi T)
    (hfree : l.free = true) :
    ∃ m' tree' T', h.removeNode l.size ⟨0, l.addr + 4⟩ =
        some (l.addr + 4, h.withTree m' tree') ∧
      LinksOnly (pre ++ [l] ++ post) h.mem m' ∧
      HeapGap (h.withTree m' tree') pre post l.addr hi T' := by
  have hl : l ∈ pre ++ [l] ++ post := by simp
  obtain ⟨hfront, hpos, hlo⟩ := hg.front.split
  have hlo : l.stop = lo := hlo
  have hgap := hg.gap
  -- tiles have distinct addresses, so leaving the last one out leaves this one out
  have hmem : ∀ c, c ∈ pre ++ post ↔ c ∈ pre ++ [l] ++ post ∧ c ≠ l := by
    intro c
    simp only [List.mem_append, List.mem_singleton]
    refine ⟨fun hc => ⟨by tauto, ?_⟩, by tauto⟩
    rintro rfl
    rcases hc with hc | hc
    · have := hfront.bounds hc
      simp only [Tile.stop] at this
      omega
    · have := hg.back.bounds hc
      simp only [Tile.stop] at *
      omega
  obtain ⟨m', tree', T', hremove, hm, hv, hnodes⟩ := hg.remove_block hl hfree
  refine ⟨m', tree', T', hremove, hm, hg.retree hm (fun b hb => ((hmem b).mp hb).1) hfront ?_
    hg.back hv fun a => ?_⟩
  · simp only [Tile.stop] at hlo
    omega
  · rw [hnodes]
    simp only [hmem, and_assoc]

/-- The node of a block in the gap is put into the tree. -/
theorem HeapGap.insert_block (hg : HeapGap h pre post lo hi T) {c : Tile} (hlo : lo ≤ c.addr)
    (hhi : c.stop ≤ hi) (hsize : minBlockSize ≤ c.size) (halign : c.addr % 4 = 0) :
    ∃ m' tree' T', h.insertNode (c.addr + 4) =
        some (1, h.withTree m' tree') ∧
      (∀ x < 2 ^ 32, (∀ b ∈ pre ++ post, b.free = true → x < b.addr + 8 ∨ b.addr + 20 ≤ x) →
        x < c.addr + 8 ∨ c.addr + 20 ≤ x → m' x = h.mem x) ∧ FreeTree m' tree' T' ∧
      ∀ a, a ∈ treeNodes T' ↔ a = c.addr + 4 ∨ ∃ b ∈ pre ++ post, b.free = true ∧ a = b.addr + 4 := by
  have hbl := hg.back.le
  have hend := hg.end_lt
  simp only [minBlockSize] at hsize
  have hstop : c.addr + 28 ≤ c.stop := by
    simp only [Tile.stop]
    omega
  -- the node lies inside of the gap, away from those of the other blocks
  have hN : NodesOk ((c.addr + 4) :: treeNodes T) := by
    refine nodesOk_cons hg.tree.nodes (by omega) (by omega) (by omega) fun a ha => ?_
    obtain ⟨b, hb, -, rfl⟩ := (hg.nodes a).mp ha
    obtain ⟨-, -, hplace, hbsize, -⟩ := hg.place hb
    simp only [Tile.stop, minBlockSize] at *
    omega
  obtain ⟨m', tree', T', dup, hr, hv, hins, hoff⟩ := hg.tree.insert hN
  have hbase := hg.base_le
  have hfl := hg.front.le
  have hmap : h.NodeMapped (c.addr + 4) := hg.toGrounds.nodeMapped (by omega) (by omega)
  refine ⟨m', tree', T', Heap.insertNode_eq hmap hr, fun x hx hlinks hc => hoff x hx fun a ha => ?_,
    hv, fun a => ?_⟩
  · rcases List.mem_cons.mp ha with rfl | ha
    · omega
    · obtain ⟨b, hb, hfree, rfl⟩ := (hg.nodes a).mp ha
      have := hlinks b hb hfree
      omega
  · rw [hins.perm_treeNodes.mem_iff, List.mem_cons, hg.nodes]

/-- A block at an end of the gap goes into the tree. -/
private theorem HeapGap.put (hg : HeapGap h pre post lo hi T) {c : Tile} (hlo : lo ≤ c.addr)
    (hhi : c.stop ≤ hi) (hsize : minBlockSize ≤ c.size ∧ c.size % 4 = 0) (hfree : c.free = true)
    (htags : Tagged h.mem c) (halign : c.addr % 4 = 0) {pre' post' : List Tile} {lo' hi' : Nat}
    (hmem : ∀ b, b ∈ pre' ++ post' ↔ b = c ∨ b ∈ pre ++ post)
    (hfront : Tiles h.startAddress lo' pre') (hgap : lo' ≤ hi')
    (hback : Tiles hi' h.endAddress post') :
    ∃ m' tree' T', h.insertNode (c.addr + 4) =
        some (1, h.withTree m' tree') ∧
      LinksOnly (pre' ++ post') h.mem m' ∧
      HeapGap (h.withTree m' tree') pre' post' lo' hi' T' := by
  obtain ⟨m', tree', T', hinsert, hm, hv, hnodes⟩ := hg.insert_block hlo hhi hsize.1 halign
  have hmin : 8 ≤ c.size := le_trans (by decide) hsize.1
  have hstop : c.addr + 28 ≤ c.stop := by
    have := hsize.1
    simp only [Tile.stop, minBlockSize] at *
    omega
  have hend := hg.end_lt
  have hbl := hg.back.le
  -- the links of the new node lie in the gap, the others are those of the blocks around it
  have hout : ∀ x < 2 ^ 32, (∀ b ∈ pre ++ post, b.free = true → x < b.addr + 8 ∨ b.addr + 20 ≤ x) →
      x < lo ∨ hi ≤ x → m' x = h.mem x := fun x hx hlinks hx' => hm x hx hlinks (by omega)
  obtain ⟨m₁, hin₁, hout₁⟩ : ∃ m₁ : Mem, (∀ x, lo ≤ x ∧ x < hi → m₁ x = m' x) ∧
      ∀ x, ¬ (lo ≤ x ∧ x < hi) → m₁ x = h.mem x :=
    ⟨fun x => if lo ≤ x ∧ x < hi then m' x else h.mem x, fun x hx => if_pos hx,
      fun x hx => if_neg hx⟩
  have hg₁ := hg.write fun x hx => hout₁ x (by omega)
  have hlinks₁ : LinksOnly (pre ++ post) m₁ m' := by
    intro x hx hlinks
    by_cases hin : lo ≤ x ∧ x < hi
    · rw [hin₁ x hin]
    · rw [hout₁ x hin]
      exact hout x hx hlinks (by omega)
  have hplaces : ∀ x, c.addr ≤ x → x < c.stop → x < c.addr + 8 ∨ c.addr + 20 ≤ x →
      m' x = h.mem x := by
    intro x h1 h2 hx
    refine hm x (by omega) (fun b hb _ => ?_) hx
    have hplace := (hg.place hb).2.2.1
    have hbsize := (hg.place hb).2.2.2.1
    simp only [Tile.stop, minBlockSize] at hplace hbsize hhi h2
    omega
  have htagged : ∀ b ∈ pre' ++ post', Tagged m' b := by
    intro b hb
    rcases (hmem b).mp hb with rfl | hb
    · exact ⟨htags.head.congr fun x h1 h2 => hplaces x h1 (by omega) (Or.inl h2),
        htags.foot.congr hmin fun x h1 h2 => hplaces x (by omega) h2 (Or.inr (by omega))⟩
    · exact hg₁.tagged_of_linksOnly hlinks₁ hb
  refine ⟨m', tree', T', hinsert, fun x hx hlinks => ?_, ⟨⟨hg.base_aligned, hg.base_le,
    hg.start_aligned, hg.end_aligned, hg.end_lt, hg.pages, ?_⟩, hfront, hgap, hback,
    fun b hb => ?_, htagged, hv, fun a => ?_⟩⟩
  · exact hm x hx (fun b hb => hlinks b ((hmem b).mpr (Or.inr hb)))
      (hlinks c ((hmem c).mpr (Or.inl rfl)) hfree)
  · exact (congrArg checkMagic (hg₁.below_of_linksOnly hlinks₁)).trans hg₁.below
  · rcases (hmem b).mp hb with rfl | hb
    · exact hsize
    · exact hg.sizes b hb
  · rw [hnodes]
    constructor
    · rintro (rfl | ⟨b, hb, hb'⟩)
      · exact ⟨c, (hmem c).mpr (Or.inl rfl), hfree, rfl⟩
      · exact ⟨b, (hmem b).mpr (Or.inr hb), hb'⟩
    · rintro ⟨b, hb, hfreeb, rfl⟩
      rcases (hmem b).mp hb with rfl | hb
      · exact Or.inl rfl
      · exact Or.inr ⟨b, hb, hfreeb, rfl⟩

/-- **A free block at the front of the gap** goes into the tree. -/
theorem HeapGap.put_front (hg : HeapGap h pre post lo hi T) {c : Tile} (hlo : c.addr = lo)
    (hhi : c.stop ≤ hi) (hsize : minBlockSize ≤ c.size ∧ c.size % 4 = 0) (hfree : c.free = true)
    (htags : Tagged h.mem c) :
    ∃ m' tree' T', h.insertNode (c.addr + 4) =
        some (1, h.withTree m' tree') ∧
      LinksOnly (pre ++ [c] ++ post) h.mem m' ∧
      HeapGap (h.withTree m' tree') (pre ++ [c]) post c.stop hi T' := by
  have hpos : 0 < c.size := by
    have := hsize.1
    simp only [minBlockSize] at this
    omega
  refine hg.put (le_of_eq hlo.symm) hhi hsize hfree htags (hlo ▸ hg.aligned.1) (fun b => ?_) ?_ hhi
    hg.back
  · simp only [List.mem_append, List.mem_singleton]
    tauto
  · exact Tiles.join (hlo.symm ▸ hg.front) hpos rfl

/-- **A free block at the back of the gap** goes into the tree. -/
theorem HeapGap.put_back (hg : HeapGap h pre post lo hi T) {c : Tile} (hlo : lo ≤ c.addr)
    (hhi : c.stop = hi) (hsize : minBlockSize ≤ c.size ∧ c.size % 4 = 0) (hfree : c.free = true)
    (htags : Tagged h.mem c) :
    ∃ m' tree' T', h.insertNode (c.addr + 4) =
        some (1, h.withTree m' tree') ∧
      LinksOnly (pre ++ c :: post) h.mem m' ∧
      HeapGap (h.withTree m' tree') pre (c :: post) lo c.addr T' := by
  have hpos : 0 < c.size := by
    have := hsize.1
    simp only [minBlockSize] at this
    omega
  have halign : c.addr % 4 = 0 := by
    have := hg.aligned.2
    have := hsize.2
    simp only [Tile.stop] at hhi
    omega
  have hback : Tiles c.stop h.endAddress post := hhi.symm ▸ hg.back
  refine hg.put hlo (le_of_eq hhi) hsize hfree htags halign (fun b => ?_) hg.front hlo
    ⟨rfl, hpos, hback⟩
  simp only [List.mem_append, List.mem_cons]
  tauto

/-- A used block at the front of the gap. -/
theorem HeapGap.put_used (hg : HeapGap h pre post lo hi T) {c : Tile} (hlo : c.addr = lo)
    (hhi : c.stop ≤ hi) (hsize : minBlockSize ≤ c.size ∧ c.size % 4 = 0) (hused : c.free = false)
    (htags : Tagged h.mem c) : HeapGap h (pre ++ [c]) post c.stop hi T := by
  have hpos : 0 < c.size := by
    have := hsize.1
    simp only [minBlockSize] at this
    omega
  -- the tree is as before: a used block has no node in it
  have hmem : ∀ b, b ∈ pre ++ [c] ++ post ↔ b = c ∨ b ∈ pre ++ post := by
    intro b
    simp only [List.mem_append, List.mem_singleton]
    tauto
  refine ⟨hg.toGrounds, Tiles.join (hlo.symm ▸ hg.front) hpos rfl, hhi, hg.back, fun b hb => ?_,
    fun b hb => ?_, hg.tree, fun a => ?_⟩
  · rcases (hmem b).mp hb with rfl | hb
    · exact hsize
    · exact hg.sizes b hb
  · rcases (hmem b).mp hb with rfl | hb
    · exact htags
    · exact hg.tagged b hb
  · rw [hg.nodes]
    constructor
    · rintro ⟨b, hb, hb'⟩
      exact ⟨b, (hmem b).mpr (Or.inr hb), hb'⟩
    · rintro ⟨b, hb, hfree, rfl⟩
      rcases (hmem b).mp hb with rfl | hb
      · rw [hused] at hfree
        exact absurd hfree (by decide)
      · exact ⟨b, hb, hfree, rfl⟩

/-! ### Between calls -/

/-- **A gap at a used block**: what it holds is up to the call. -/
theorem HeapInv.open_gap {b : Tile} (hi : HeapInv h (pre ++ b :: post) T) (hused : b.free = false) :
    HeapGap h pre post b.addr b.stop T := by
  obtain ⟨hfront, -, hback⟩ := hi.tiles.split
  have hmem : ∀ c, c ∈ pre ++ post → c ∈ pre ++ b :: post := by
    intro c hc
    simp only [List.mem_append, List.mem_cons] at hc ⊢
    tauto
  refine ⟨hi.toGrounds, hfront, Nat.le_add_right _ _, hback, fun c hc => hi.sizes c (hmem c hc),
    fun c hc => hi.tagged c (hmem c hc), hi.tree, fun a => ?_⟩
  rw [hi.nodes]
  constructor
  · rintro ⟨c, hc, hfree, rfl⟩
    -- the tile of the gap is in use, so that no node lies in it
    simp only [List.mem_append, List.mem_cons] at hc
    rcases hc with hc | rfl | hc
    · exact ⟨c, by simp [hc], hfree, rfl⟩
    · rw [hused] at hfree
      exact absurd hfree (by decide)
    · exact ⟨c, by simp [hc], hfree, rfl⟩
  · rintro ⟨c, hc, hfree, rfl⟩
    exact ⟨c, hmem c hc, hfree, rfl⟩

/-- An empty gap anywhere. -/
theorem HeapInv.empty_gap (hi : HeapInv h (pre ++ post) T) :
    ∃ lo, HeapGap h pre post lo lo T := by
  obtain ⟨lo, hfront, hback⟩ := tiles_append.mp hi.tiles
  exact ⟨lo, hi.toGrounds, hfront, le_refl _, hback, hi.sizes, hi.tagged, hi.tree, hi.nodes⟩

/-- **The end of a gap.** -/
theorem HeapGap.close (hg : HeapGap h pre post lo lo T) (hpair : NoFreePair (pre ++ post))
    (hused : h.memUsed = usedSize (pre ++ post)) : HeapInv h (pre ++ post) T :=
  ⟨hg.toGrounds, tiles_append.mpr ⟨lo, hg.front, hg.back⟩, hg.sizes, hg.tagged, hg.tree, hg.nodes,
    hpair, hused⟩

/-- `mem_used` is no part of the layout. -/
theorem HeapGap.setUsed (hg : HeapGap h pre post lo hi T) (used : Nat) :
    HeapGap (h.withUsed used) pre post lo hi T :=
  ⟨⟨hg.base_aligned, hg.base_le, hg.start_aligned, hg.end_aligned, hg.end_lt, hg.pages, hg.below⟩,
    hg.front, hg.gap, hg.back, hg.sizes, hg.tagged, hg.tree, hg.nodes⟩

end

end Toutatis
