import Toutatis.MemAlloc.Layout

/-!
# Reading and writing tags

What the accesses of the allocator do in a heap whose pages are mapped: reads of the tags of a
block, and stores to the gap.

## Key results

- `Heap.leftFree_eq`, `Heap.rightFree_eq`: the tests for free neighbours
- `HeapGap.setSize_spec`, `HeapGap.setMagic_spec`, `HeapGap.markFree_spec`,
  `HeapGap.markUsed_spec`, `HeapGap.setFooter_spec`: one store each
- `HeapGap.setTags_spec`: the tags of a new block
-/

namespace Toutatis

open ByteMem RedBlack Tiling

section

variable {h : Heap} {b : Tile} {a v : Nat}

/-! ## Reading tags -/

/-- The block lies in the heap. -/
structure Inside (h : Heap) (b : Tile) : Prop where
  base_le : h.base ≤ b.addr
  stop_le : b.stop ≤ h.endAddress
  size_le : minBlockSize ≤ b.size

/-- The end of a block is behind its header and its footer. -/
theorem Inside.stop_eq (hb : Inside h b) : b.addr + 28 ≤ b.stop := by
  have := hb.size_le
  simp only [Tile.stop, minBlockSize] at *
  omega

/-- A block has room for its footer. -/
theorem Inside.eight_le (hb : Inside h b) : 8 ≤ b.size := le_trans (by decide) hb.size_le

/-- `get_size` of a block with a header. -/
theorem Heap.getSize_eq (hg : Grounds h) (hb : Inside h b) (ht : Headed h.mem b) :
    h.getSize b.addr = some b.size := by
  have := hb.stop_eq
  have := hb.stop_le
  have := hg.end_lt
  have := hb.base_le
  rw [Heap.getSize, add32_of_lt (by omega), Heap.load_eq (hg.mapped (by omega) (by omega)), ht.size]

/-- `get_footer` of a block with a header. -/
theorem Heap.getFooter_eq (hg : Grounds h) (hb : Inside h b) (ht : Headed h.mem b) :
    h.getFooter b.addr = some (b.stop - 8) := by
  have hstop := hb.stop_eq
  have := hb.stop_le
  have := hg.end_lt
  rw [Heap.getFooter, Heap.getSize_eq hg hb ht]
  simp only [Option.bind_eq_bind, Option.bind_some]
  simp only [Tile.stop] at *
  rw [add32_of_lt (by omega), sub32_of_le (by omega) (by omega)]

/-- `get_next_block` of a block with a header. -/
theorem Heap.getNextBlock_eq (hg : Grounds h) (hb : Inside h b) (ht : Headed h.mem b) :
    h.getNextBlock b.addr = some b.stop := by
  have := hb.stop_le
  have := hg.end_lt
  rw [Heap.getNextBlock, Heap.getSize_eq hg hb ht]
  simp only [Option.bind_eq_bind, Option.bind_some]
  simp only [Tile.stop] at *
  rw [add32_of_lt (by omega)]

/-- The magic number of the header is right, and its bit 0 is the mark. -/
theorem Heap.load_head (hg : Grounds h) (hb : Inside h b) (ht : Headed h.mem b) :
    ∃ w, h.load b.addr = some w ∧ checkMagic w = true ∧ isFree w = b.free := by
  have := hb.stop_eq
  have := hb.stop_le
  exact ⟨_, Heap.load_eq (hg.mapped hb.base_le (by omega)), ht.magic, ht.mark⟩

/-- The magic number of the footer is right. -/
theorem Heap.load_foot (hg : Grounds h) (hb : Inside h b) (ht : Footed h.mem b) :
    ∃ w, h.load (b.stop - 8) = some w ∧ checkMagic w = true := by
  have := hb.stop_eq
  have := hb.stop_le
  have := hb.base_le
  exact ⟨_, Heap.load_eq (hg.mapped (by omega) (by omega)), ht.magic⟩

/-- The footer leads to the header. -/
theorem Heap.load_header (hg : Grounds h) (hb : Inside h b) (ht : Footed h.mem b) :
    h.load (add32 (b.stop - 8) 4) = some b.addr := by
  have := hb.stop_eq
  have := hb.stop_le
  have := hb.base_le
  have := hg.end_lt
  rw [add32_of_lt (by omega), show b.stop - 8 + 4 = b.stop - 4 by omega,
    Heap.load_eq (hg.mapped (by omega) (by omega)), ht.header]

/-- The test for a free block in front, on a block with its tags. -/
theorem Heap.leftFree_eq (hg : Grounds h) (hb : Inside h b) (ht : Tagged h.mem b)
    (hstart : h.startAddress ≤ b.addr) : h.leftFree (b.stop - 8) = some b.free := by
  obtain ⟨w, hw, hmagic⟩ := Heap.load_foot hg hb ht.foot
  obtain ⟨v, hv, hmagic', hmark⟩ := Heap.load_head hg hb ht.head
  simp only [Heap.leftFree, Option.bind_eq_bind]
  rw [Heap.load_header hg hb ht.foot, Option.bind_some, if_neg (by omega), hw, Option.bind_some,
    if_neg (by simp [hmagic]), hv, Option.bind_some, hmagic', hmark, Bool.true_and]

/-- Below the first block there is none. -/
theorem Heap.leftFree_start (hg : Grounds h) (hend : h.startAddress ≤ h.endAddress) :
    h.leftFree (h.startAddress - 8) = some false := by
  have hbase := hg.base_le
  have := hg.end_lt
  have hfoot : (!checkMagic (load32 h.mem (h.startAddress - 8))) = true := by simp [hg.below]
  simp only [allocatorSize] at hbase
  simp only [Heap.leftFree, Option.bind_eq_bind]
  rw [add32_of_lt (by omega), Heap.load_eq (hg.mapped (by omega) (by omega)), Option.bind_some,
    Heap.load_eq (hg.mapped (by omega) (by omega)), Option.bind_some, if_pos hfoot, ite_self]

/-- The test for a free block behind, on a block with its tags. -/
theorem Heap.rightFree_eq (hg : Grounds h) (hb : Inside h b) (ht : Tagged h.mem b) :
    h.rightFree b.addr = some b.free := by
  have hstop := hb.stop_le
  have hend := hg.end_lt
  have hsum : add32 b.addr b.size = b.stop := add32_of_lt (by simp only [Tile.stop] at hstop; omega)
  obtain ⟨w, hw, hmagic⟩ := Heap.load_foot hg hb ht.foot
  obtain ⟨v, hv, hmagic', hmark⟩ := Heap.load_head hg hb ht.head
  simp only [Heap.rightFree, Option.bind_eq_bind]
  rw [Heap.getSize_eq hg hb ht.head, Option.bind_some, hsum, if_neg (by omega), hv,
    Option.bind_some, if_neg (by simp [hmagic']), Heap.getFooter_eq hg hb ht.head,
    Option.bind_some, hw, Option.bind_some, hmagic, hmark, Bool.true_and]

/-! ## Blocks and gaps -/

variable {pre post : List Tile} {lo hi : Nat} {T : ColorTree Entry}

/-- The blocks of a heap lie in it. -/
theorem HeapInv.inside {B : List Tile} (hi : HeapInv h B T) (hb : b ∈ B) : Inside h b := by
  have hplace := hi.tiles.bounds hb
  have hbase := hi.base_le
  simp only [allocatorSize] at hbase
  exact ⟨by omega, hplace.2.2, (hi.sizes b hb).1⟩

/-- The words of the nodes are mapped. -/
theorem HeapInv.nodeMapped {B : List Tile} {node : Nat} (hi : HeapInv h B T)
    (hnode : node ∈ treeNodes T) : h.NodeMapped node := by
  obtain ⟨b, hb, -, rfl⟩ := (hi.nodes node).mp hnode
  have hin := hi.inside hb
  have hbase := hin.base_le
  have hlen := hin.stop_eq
  have hstop := hin.stop_le
  exact hi.toGrounds.nodeMapped (by omega) (by omega)

/-- The blocks around a gap lie in the heap. -/
theorem HeapGap.inside (hg : HeapGap h pre post lo hi T) (hb : b ∈ pre ++ post) : Inside h b := by
  have hplace := hg.place hb
  have hbase := hg.base_le
  simp only [allocatorSize] at hbase
  exact ⟨by omega, hplace.2.1, hplace.2.2.2.1⟩

/-- Stores to the gap do not touch used blocks. -/
theorem HeapGap.sameUsed_write (hg : HeapGap h pre post lo hi T) {m' : Mem}
    (hm : ∀ x, x < lo ∨ hi ≤ x → m' x = h.mem x) : SameUsed h (pre ++ post) h.mem m' := by
  have hfl := hg.front.le
  have hbl := hg.back.le
  rintro x - (hx | hx | ⟨c, hc, -, h1, h2⟩)
  · exact hm x (by omega)
  · exact hm x (by omega)
  · have := (hg.place hc).2.2.1
    exact hm x (by omega)

/-- Changes of links do not touch used blocks. -/
theorem HeapGap.sameUsed_links (hg : HeapGap h pre post lo hi T) {m m' : Mem}
    (hm : LinksOnly (pre ++ post) m m') : SameUsed h (pre ++ post) m m' := by
  intro x hx hplaces
  refine hm x hx fun d hd hfree => ?_
  obtain ⟨hstart, hend, -, hsize, -⟩ := hg.place hd
  rcases hplaces with h1 | h1 | ⟨c, hc, hused, h1, h2⟩
  · omega
  · simp only [Tile.stop, minBlockSize] at *
    omega
  · have hne : c ≠ d := by
      rintro rfl
      rw [hused] at hfree
      exact absurd hfree (by decide)
    have hapart := hg.apart hc hd hne
    simp only [Tile.stop, minBlockSize] at *
    omega

/-- Memory agrees with itself on the used blocks. -/
theorem SameUsed.refl (h : Heap) (B : List Tile) (m : Mem) : SameUsed h B m m := fun _ _ _ => rfl

/-- Two steps that keep the used blocks. -/
theorem SameUsed.trans {B : List Tile} {m m₁ m₂ : Mem} (h₁ : SameUsed h B m m₁)
    (h₂ : SameUsed h B m₁ m₂) : SameUsed h B m m₂ := by
  intro x hx hplaces
  rw [h₂ x hx hplaces, h₁ x hx hplaces]

/-- What keeps the used blocks keeps some of them. -/
theorem SameUsed.mono {B C : List Tile} {m m' : Mem} (hs : SameUsed h B m m')
    (hsub : ∀ b ∈ C, b.free = false → b ∈ B) : SameUsed h C m m' := by
  rintro x hx (h1 | h1 | ⟨b, hb, hused, hplace⟩)
  · exact hs x hx (Or.inl h1)
  · exact hs x hx (Or.inr (Or.inl h1))
  · exact hs x hx (Or.inr (Or.inr ⟨b, hsub b hb hused, hused, hplace⟩))

/-! ## Writing tags -/

variable {m : Mem}

/-- **A store to the gap.** -/
theorem HeapGap.store_spec (hg : HeapGap (h.withMem m) pre post lo hi T) (hlo : lo ≤ a)
    (hhi : a + 4 ≤ hi) (hv : v < 2 ^ 32) :
    ∃ m', (h.withMem m).store a v = some (h.withMem m') ∧
      HeapGap (h.withMem m') pre post lo hi T ∧ (∀ x, x < a ∨ a + 4 ≤ x → m' x = m x) ∧
      load32 m' a = v := by
  have hbase := hg.base_le
  have hfront := hg.front.le
  have hback := hg.back.le
  have hoff : ∀ x, x < a ∨ a + 4 ≤ x → store32 m a v x = m x :=
    fun x hx => store32_apply_of_disjoint _ _ hx
  refine ⟨store32 m a v, Heap.store_eq (hg.mapped (by omega) (by omega)) v,
    hg.write fun x hx => hoff x (by omega), hoff, ?_⟩
  rw [load32_store32_self, Nat.mod_eq_of_lt hv]

/-- Words of the gap can be loaded. -/
theorem HeapGap.load_gap (hg : HeapGap (h.withMem m) pre post lo hi T) (hlo : lo ≤ a)
    (hhi : a + 4 ≤ hi) : (h.withMem m).load a = some (load32 m a) := by
  have hbase := hg.base_le
  have hfront := hg.front.le
  have hback := hg.back.le
  exact Heap.load_eq (hg.mapped (by omega) (by omega))

/-- The gap ends below `2 ^ 32`. -/
theorem HeapGap.end_lt' (hg : HeapGap (h.withMem m) pre post lo hi T) : hi < 2 ^ 32 :=
  lt_of_le_of_lt hg.back.le hg.end_lt

/-- `set_size` in the gap. -/
theorem HeapGap.setSize_spec (hg : HeapGap (h.withMem m) pre post lo hi T) (hlo : lo ≤ a)
    (hhi : a + 8 ≤ hi) {size : Nat} (hsize : size < 2 ^ 32) :
    ∃ m', (h.withMem m).setSize a size = some (h.withMem m') ∧
      HeapGap (h.withMem m') pre post lo hi T ∧
      (∀ x, x < a + 4 ∨ a + 8 ≤ x → m' x = m x) ∧ load32 m' (a + 4) = size := by
  have hend := hg.end_lt'
  obtain ⟨m', hstore, hg', hoff, hword⟩ := hg.store_spec (by omega : lo ≤ a + 4) (by omega) hsize
  refine ⟨m', ?_, hg', fun x hx => hoff x (by omega), hword⟩
  rw [Heap.setSize, add32_of_lt (by omega), hstore]

/-- `set_magic` in the gap, which keeps the mark. -/
theorem HeapGap.setMagic_spec (hg : HeapGap (h.withMem m) pre post lo hi T) (hlo : lo ≤ a)
    (hhi : a + 4 ≤ hi) :
    ∃ m', (h.withMem m).setMagic a = some (h.withMem m') ∧
      HeapGap (h.withMem m') pre post lo hi T ∧ (∀ x, x < a ∨ a + 4 ≤ x → m' x = m x) ∧
      checkMagic (load32 m' a) = true ∧ isFree (load32 m' a) = isFree (load32 m a) := by
  obtain ⟨hlt, hmagic, hfree⟩ := magic_setMagic (load32 m a)
  obtain ⟨m', hstore, hg', hoff, hword⟩ := hg.store_spec hlo hhi hlt
  refine ⟨m', ?_, hg', hoff, ?_⟩
  · simp only [Heap.setMagic, Option.bind_eq_bind]
    rw [hg.load_gap hlo hhi, Option.bind_some, hstore]
  · rw [hword]
    exact ⟨hmagic, hfree⟩

/-- `mark_free` in the gap. -/
theorem HeapGap.markFree_spec (hg : HeapGap (h.withMem m) pre post lo hi T) (hlo : lo ≤ a)
    (hhi : a + 4 ≤ hi) :
    ∃ m', (h.withMem m).markFree a = some (h.withMem m') ∧
      HeapGap (h.withMem m') pre post lo hi T ∧ (∀ x, x < a ∨ a + 4 ≤ x → m' x = m x) ∧
      checkMagic (load32 m' a) = checkMagic (load32 m a) ∧ isFree (load32 m' a) = true := by
  obtain ⟨hlt, hmagic, hfree⟩ := magic_markFree (load32_lt m a)
  obtain ⟨m', hstore, hg', hoff, hword⟩ := hg.store_spec hlo hhi hlt
  refine ⟨m', ?_, hg', hoff, ?_⟩
  · simp only [Heap.markFree, Option.bind_eq_bind]
    rw [hg.load_gap hlo hhi, Option.bind_some, hstore]
  · rw [hword]
    exact ⟨hmagic, hfree⟩

/-- `mark_used` in the gap. -/
theorem HeapGap.markUsed_spec (hg : HeapGap (h.withMem m) pre post lo hi T) (hlo : lo ≤ a)
    (hhi : a + 4 ≤ hi) :
    ∃ m', (h.withMem m).markUsed a = some (h.withMem m') ∧
      HeapGap (h.withMem m') pre post lo hi T ∧ (∀ x, x < a ∨ a + 4 ≤ x → m' x = m x) ∧
      checkMagic (load32 m' a) = checkMagic (load32 m a) ∧ isFree (load32 m' a) = false := by
  obtain ⟨hlt, hmagic, hfree⟩ := magic_markUsed (load32_lt m a)
  obtain ⟨m', hstore, hg', hoff, hword⟩ := hg.store_spec hlo hhi hlt
  refine ⟨m', ?_, hg', hoff, ?_⟩
  · simp only [Heap.markUsed, Option.bind_eq_bind]
    rw [hg.load_gap hlo hhi, Option.bind_some, hstore]
  · rw [hword]
    exact ⟨hmagic, hfree⟩

/-- `get_size` and `get_footer` of a block in the gap, by the word of its size. -/
theorem HeapGap.getFooter_gap {size : Nat} (hg : HeapGap (h.withMem m) pre post lo hi T)
    (hlo : lo ≤ a) (hhi : a + size ≤ hi) (hmin : 8 ≤ size) (hsize : load32 m (a + 4) = size) :
    (h.withMem m).getSize a = some size ∧ (h.withMem m).getFooter a = some (a + size - 8) := by
  have hend := hg.end_lt'
  have hget : (h.withMem m).getSize a = some size := by
    rw [Heap.getSize, add32_of_lt (by omega), hg.load_gap (by omega) (by omega), hsize]
  refine ⟨hget, ?_⟩
  simp only [Heap.getFooter, Option.bind_eq_bind]
  rw [hget, Option.bind_some, add32_of_lt (by omega), sub32_of_le (by omega) (by omega)]

/-- The header of a block in the gap gets another size and is marked free. -/
theorem HeapGap.resize_spec (hg : HeapGap (h.withMem m) pre post lo hi T) {size : Nat}
    (hlo : lo ≤ a) (hhi : a + size ≤ hi) (hmin : 8 ≤ size) :
    ∃ m₁ m₂, (h.withMem m).setSize a size = some (h.withMem m₁) ∧
      (h.withMem m₁).markFree a = some (h.withMem m₂) ∧
      (h.withMem m₂).getFooter a = some (a + size - 8) ∧
      HeapGap (h.withMem m₂) pre post lo hi T ∧ (∀ x, x < a ∨ a + 8 ≤ x → m₂ x = m x) ∧
      (checkMagic (load32 m a) = true → Headed m₂ ⟨a, size, true⟩) := by
  have hend := hg.end_lt'
  obtain ⟨m₁, h₁, g₁, off₁, size₁⟩ :=
    hg.setSize_spec hlo (by omega : a + 8 ≤ hi) (by omega : size < 2 ^ 32)
  obtain ⟨m₂, h₂, g₂, off₂, magic₂, mark₂⟩ := g₁.markFree_spec hlo (by omega : a + 4 ≤ hi)
  have size₂ : load32 m₂ (a + 4) = size := by
    rw [← size₁]
    exact load32_congr fun x h1 _ => off₂ x (Or.inr h1)
  refine ⟨m₁, m₂, h₁, h₂, (g₂.getFooter_gap hlo hhi hmin size₂).2, g₂, fun x hx => ?_,
    fun hmagic => ⟨?_, mark₂, size₂⟩⟩
  · rw [off₂ x (by omega), off₁ x (by omega)]
  · rw [magic₂, ← hmagic]
    exact congrArg checkMagic (load32_congr fun x _ h2 => off₁ x (Or.inl h2))

/-- The footer of a block in the gap. -/
theorem HeapGap.setFooter_spec (hg : HeapGap (h.withMem m) pre post lo hi T) {size : Nat}
    (hlo : lo ≤ a) (hhi : a + size ≤ hi) (hmin : minBlockSize ≤ size)
    (hsize : load32 m (a + 4) = size) (free : Bool) :
    ∃ m', (h.withMem m).setFooter a = some (h.withMem m') ∧
      HeapGap (h.withMem m') pre post lo hi T ∧
      (∀ x, x < a + size - 8 ∨ a + size ≤ x → m' x = m x) ∧ Footed m' ⟨a, size, free⟩ := by
  have hend := hg.end_lt'
  have h28 : 28 ≤ size := hmin
  obtain ⟨m₁, hstore, hg₁, hoff₁, hword₁⟩ :=
    hg.store_spec (by omega : lo ≤ a + size - 4) (by omega) (by omega : a < 2 ^ 32)
  obtain ⟨m₂, hset, hg₂, hoff₂, hmagic, -⟩ :=
    hg₁.setMagic_spec (by omega : lo ≤ a + size - 8) (by omega)
  refine ⟨m₂, ?_, hg₂, fun x hx => ?_, hmagic, ?_⟩
  · simp only [Heap.setFooter, Option.bind_eq_bind]
    rw [(hg.getFooter_gap hlo hhi (by omega) hsize).2, Option.bind_some, add32_of_lt (by omega),
      show a + size - 8 + 4 = a + size - 4 by omega, hstore, Option.bind_some, hset]
  · rw [hoff₂ x (by omega), hoff₁ x (by omega)]
  · refine Eq.trans ?_ hword₁
    exact load32_congr fun x h1 h2 => hoff₂ x (by simp only [Tile.stop] at h1; omega)

/-- The tags of a new block in the gap; `set_magic` keeps the mark `f` that was there. -/
theorem HeapGap.setTags_spec (hg : HeapGap (h.withMem m) pre post lo hi T) {size : Nat}
    (hlo : lo ≤ a) (hhi : a + size ≤ hi) (hmin : minBlockSize ≤ size) :
    ∃ m₁ m₂ m₃ f, (h.withMem m).setSize a size = some (h.withMem m₁) ∧
      (h.withMem m₁).setMagic a = some (h.withMem m₂) ∧
      (h.withMem m₂).setFooter a = some (h.withMem m₃) ∧
      HeapGap (h.withMem m₃) pre post lo hi T ∧
      (∀ x, x < a ∨ a + 8 ≤ x ∧ x < a + size - 8 ∨ a + size ≤ x → m₃ x = m x) ∧
      Tagged m₃ ⟨a, size, f⟩ := by
  have hend := hg.end_lt'
  have h28 : 28 ≤ size := hmin
  obtain ⟨m₁, h₁, g₁, off₁, size₁⟩ :=
    hg.setSize_spec hlo (by omega : a + 8 ≤ hi) (by omega : size < 2 ^ 32)
  obtain ⟨m₂, h₂, g₂, off₂, magic₂, -⟩ := g₁.setMagic_spec hlo (by omega : a + 4 ≤ hi)
  have size₂ : load32 m₂ (a + 4) = size := by
    rw [← size₁]
    exact load32_congr fun x h1 _ => off₂ x (Or.inr h1)
  -- whether the word had the mark before is not known
  obtain ⟨f, hf⟩ : ∃ f, isFree (load32 m₂ a) = f := ⟨_, rfl⟩
  obtain ⟨m₃, h₃, g₃, off₃, hfoot⟩ := g₂.setFooter_spec hlo hhi hmin size₂ f
  have hhead : Headed m₂ ⟨a, size, f⟩ := ⟨magic₂, hf, size₂⟩
  refine ⟨m₁, m₂, m₃, f, h₁, h₂, h₃, g₃, fun x hx => ?_,
    hhead.congr fun x _ h2 => off₃ x (Or.inl ?_), hfoot⟩
  · rw [off₃ x (by omega), off₂ x (by omega), off₁ x (by omega)]
  · simp only at h2
    omega

end

end Toutatis
