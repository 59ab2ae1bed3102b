import Toutatis.MemAlloc.Alloc

/-!
# Growth of the heap

`create_mem_allocator`, `expand`, and the block that `alloc` makes of the added pages. Pages are
mapped one after the other at the end of the heap; what they hold is arbitrary.

## Key results

- `HeapInv.create`: `create_mem_allocator` establishes the invariant
- `HeapGap.expandLoop_spec`: the added pages are a gap at the end of the heap
- `HeapGap.addHole_spec`: the block with the added space
- `HeapInv.alloc_grow`: `alloc` without a fit
-/

namespace Toutatis

open ByteMem RedBlack Tiling

section

variable {h : Heap} {m : Mem} {B : List Tile} {lo : Nat} {T : ColorTree Entry}

/-! ## `create_mem_allocator` -/

/-- What `create_mem_allocator` needs: aligned bounds, room for a block, mapped pages, and no
    magic number below the first block. -/
structure CanCreate (h : Heap) (start stop : Nat) : Prop where
  start_aligned : start % frameSize = 0
  stop_aligned : stop % frameSize = 0
  start_lt : start < 2 ^ 32
  stop_lt : stop < 2 ^ 32
  room : firstBlock start + minBlockSize ≤ stop
  pages : ∀ x, start / frameSize ≤ x → x < stop / frameSize → h.present x = true
  below : checkMagic (load32 h.mem (firstBlock start - 8)) = false

/-- The first block starts at a multiple of `MIN_BLOCK_SIZE` behind the structure. -/
theorem firstBlock_spec {start : Nat} (halign : start % frameSize = 0) (hlt : start < 2 ^ 32) :
    start + allocatorSize ≤ firstBlock start ∧ firstBlock start < start + allocatorSize + 28 ∧
      firstBlock start % 28 = 0 := by
  simp only [frameSize] at halign
  have hsum : add32 start allocatorSize = start + allocatorSize := by
    simp only [allocatorSize]
    exact add32_of_lt (by omega)
  simp only [firstBlock, hsum]
  by_cases h28 : (start + allocatorSize) % minBlockSize ≠ 0
  · rw [if_pos h28]
    simp only [allocatorSize, minBlockSize] at *
    rw [add32_of_lt (by omega)]
    omega
  · rw [if_neg h28]
    simp only [allocatorSize, minBlockSize] at *
    omega

/-- The fields that `create_mem_allocator` sets. -/
def Heap.created (h : Heap) (start stop minSize maxSize : Nat) : Heap :=
  { h with
    base := start
    memTree := initRbtree h.memTree compare selectDup
    memUsed := 0
    startAddress := firstBlock start
    endAddress := stop
    minSize := minSize
    maxSize := maxSize }

/-- **`create_mem_allocator`** establishes the invariant with one free block, and does not touch the
    inside of the block. -/
theorem HeapInv.create_inside {start stop : Nat} (hc : CanCreate h start stop)
    (minSize maxSize : Nat) :
    ∃ m' tree' T', h.create start stop minSize maxSize =
        some (some ((h.created start stop minSize maxSize).withTree m' tree')) ∧
      HeapInv ((h.created start stop minSize maxSize).withTree m' tree')
        [⟨firstBlock start, stop - firstBlock start, true⟩] T' ∧
      ∀ x, firstBlock start + 20 ≤ x → x < stop - 8 → m' x = h.mem x := by
  obtain ⟨hfirst, -, hmod⟩ := firstBlock_spec hc.start_aligned hc.start_lt
  have hstop := hc.stop_lt
  have hroom : firstBlock start + 28 ≤ stop := hc.room
  have hstop4 : stop % 4 = 0 := by
    have := hc.stop_aligned
    simp only [frameSize] at this
    omega
  have hg : HeapGap ((h.created start stop minSize maxSize).withMem h.mem) [] []
      (firstBlock start) stop .nil :=
    ⟨⟨hc.start_aligned, hfirst, show firstBlock start % 4 = 0 by omega, hc.stop_aligned, hstop,
      hc.pages, hc.below⟩, rfl, by omega, rfl, by simp, by simp, FreeTree.init _ _,
      by simp [treeNodes]⟩
  have hsize : minBlockSize ≤ stop - firstBlock start := by
    simp only [minBlockSize]
    omega
  -- the tags of the one block, then its node
  obtain ⟨m₁, m₂, m₃, f, h₁, h₂, h₃, g₃, off₃, ht₃⟩ := hg.setTags_spec (le_refl (firstBlock start))
    (by omega : firstBlock start + (stop - firstBlock start) ≤ stop) hsize
  obtain ⟨m₄, h₄, g₄, off₄, magic₄, mark₄⟩ :=
    g₃.markFree_spec (le_refl (firstBlock start)) (by omega)
  have hlast : ∀ f, (⟨firstBlock start, stop - firstBlock start, f⟩ : Tile).stop = stop := by
    intro f
    simp only [Tile.stop]
    omega
  have ht₄ : Tagged m₄ ⟨firstBlock start, stop - firstBlock start, true⟩ := by
    refine ⟨⟨magic₄.trans ht₃.head.magic, mark₄, ?_⟩, ?_⟩
    · refine Eq.trans ?_ ht₃.head.size
      exact load32_congr fun x h1 _ => off₄ x (Or.inr h1)
    · refine (ht₃.foot.congr (by simp only; omega) fun x h1 _ => off₄ x (Or.inr ?_)).of_eq rfl rfl
      rw [hlast] at h1
      omega
  obtain ⟨m₅, tree₅, T₅, h₅, hlinks, g₅⟩ :=
    g₄.put_front (c := ⟨firstBlock start, stop - firstBlock start, true⟩) rfl
      (le_of_eq (hlast true)) ⟨hsize, by simp only; omega⟩ rfl ht₄
  rw [hlast] at g₅
  have hclose := g₅.close (List.isChain_singleton _) rfl
  refine ⟨m₅, tree₅, T₅, ?_, hclose, fun x h1 h2 => ?_⟩
  · have h₁ : (h.created start stop minSize maxSize).setSize (firstBlock start)
        (stop - firstBlock start) = some ((h.created start stop minSize maxSize).withMem m₁) := h₁
    have hsub : sub32 stop (firstBlock start) = stop - firstBlock start :=
      sub32_of_le (by omega) hstop
    have haligned : ¬ (start % frameSize ≠ 0 ∨ stop % frameSize ≠ 0) := by
      simp [hc.start_aligned, hc.stop_aligned]
    simp only [Heap.create, Option.bind_eq_bind]
    rw [if_neg haligned, hsub, ← Heap.created, h₁, Option.bind_some, h₂, Option.bind_some, h₃,
      Option.bind_some, h₄, Option.bind_some, add32_of_lt (by omega), h₅, Option.bind_some]
    rfl
  · have h5 : m₅ x = m₄ x := by
      refine hlinks x (by omega) fun b hb _ => ?_
      simp only [List.nil_append, List.append_nil, List.mem_singleton] at hb
      rw [hb]
      exact Or.inr h1
    rw [h5, off₄ x (by omega), off₃ x (by omega)]

theorem HeapInv.create {start stop : Nat} (hc : CanCreate h start stop) (minSize maxSize : Nat) :
    ∃ m' tree' T', h.create start stop minSize maxSize =
        some (some ((h.created start stop minSize maxSize).withTree m' tree')) ∧
      HeapInv ((h.created start stop minSize maxSize).withTree m' tree')
        [⟨firstBlock start, stop - firstBlock start, true⟩] T' := by
  obtain ⟨m', tree', T', hcreate, hi, -⟩ := HeapInv.create_inside hc minSize maxSize
  exact ⟨m', tree', T', hcreate, hi⟩

/-! ## Pages -/

/-- The heap with other pages and another end. -/
def Heap.grown (h : Heap) (m : Mem) (present : Nat → Bool) (frames : PageFrames) (stop : Nat) :
    Heap :=
  { h with mem := m, present := present, frames := frames, endAddress := stop }

/-- Memory from the start of the gap on is no part of the layout. -/
theorem HeapGap.regrow {hi stop : Nat} {present : Nat → Bool} {frames : PageFrames}
    (hg : HeapGap h B [] lo hi T) (hm : ∀ x < lo, m x = h.mem x) (hlo : lo ≤ stop)
    (halign : stop % frameSize = 0) (hlt : stop < 2 ^ 32)
    (hpages : ∀ x, h.base / frameSize ≤ x → x < stop / frameSize → present x = true) :
    HeapGap (h.grown m present frames stop) B [] lo stop T := by
  have hbase := hg.base_le
  have hfl := hg.front.le
  -- the blocks, the magic number below and the nodes all lie in front of the gap
  have hoff : ∀ b ∈ B ++ [], ∀ x, x < b.stop → m x = h.mem x := by
    intro b hb x hx
    have hplace := hg.front.bounds (by simpa using hb)
    exact hm x (by omega)
  refine ⟨⟨hg.base_aligned, hg.base_le, hg.start_aligned, halign, hlt, hpages, ?_⟩, hg.front, hlo,
    rfl, hg.sizes, fun b hb => ?_, hg.tree.congr fun a ha x h1 h2 => ?_, hg.nodes⟩
  · have hword : load32 m (h.startAddress - 8) = load32 h.mem (h.startAddress - 8) := by
      simp only [allocatorSize] at hbase
      exact load32_congr fun x h1 h2 => hm x (by omega)
    exact (congrArg checkMagic hword).trans hg.below
  · have htags := hg.tagged b hb
    have hlen := (hg.inside hb).stop_eq
    exact ⟨htags.head.congr fun x h1 h2 => hoff b hb x (by omega),
      htags.foot.congr (hg.inside hb).eight_le fun x h1 h2 => hoff b hb x h2⟩
  · obtain ⟨b, hb, -, rfl⟩ := (hg.nodes a).mp ha
    have hlen := (hg.inside hb).stop_eq
    exact hoff b hb x (by omega)

/-- The pages between two addresses that are not mapped yet. -/
def Heap.missing (h : Heap) (lo hi : Nat) : List Nat :=
  (List.range' (lo / frameSize) ((hi - lo) / frameSize)).filter fun x => !h.present x

/-- One page more; a page that is mapped already stays as it is. -/
private theorem HeapGap.grow_page (hg : HeapGap h B [] lo h.endAddress T)
    (hframes : h.present (h.endAddress / frameSize) = false → 0 < h.freeFrames)
    (hlt : h.endAddress + frameSize < 2 ^ 32) (fresh : NewPages) :
    ∃ m' present' frames', { h.allocPage fresh with endAddress := add32 h.endAddress frameSize } =
        h.grown m' present' frames' (h.endAddress + frameSize) ∧
      (∀ x, x ≠ h.endAddress / frameSize → present' x = h.present x) ∧
      h.freeFrames ≤ frames'.free + (if h.present (h.endAddress / frameSize) then 0 else 1) ∧
      HeapGap (h.grown m' present' frames' (h.endAddress + frameSize)) B [] lo
        (h.endAddress + frameSize) T ∧
      ∀ x, x < h.endAddress ∨ h.endAddress + frameSize ≤ x → m' x = h.mem x := by
  have hgap := hg.gap
  have halign : (h.endAddress + frameSize) % frameSize = 0 := by
    rw [Nat.add_mod_right, hg.end_aligned]
  have hnext : (h.endAddress + frameSize) / frameSize = h.endAddress / frameSize + 1 :=
    Nat.add_div_right _ (by decide)
  cases hin : h.present (h.endAddress / frameSize) with
  | true =>
    -- the page has its frame already
    refine ⟨h.mem, h.present, h.frames, ?_, fun _ _ => rfl, by simp [Heap.freeFrames],
      hg.regrow (fun _ _ => rfl) (by omega) halign hlt fun x hx hx' => ?_, fun _ _ => rfl⟩
    · simp only [Heap.allocPage, hin, if_true, add32_of_lt hlt]
      rfl
    · by_cases hlast : x = h.endAddress / frameSize
      · rw [hlast, hin]
      · exact hg.pages x hx (by omega)
  | false =>
    have hpos := hframes hin
    have hmem : ∀ x, x < h.endAddress ∨ h.endAddress + frameSize ≤ x →
        (if x / frameSize = h.endAddress / frameSize then fresh.mem x else h.mem x) = h.mem x := by
      intro x hx
      have := hg.end_aligned
      rw [if_neg]
      simp only [frameSize] at *
      omega
    refine ⟨_, Function.update h.present (h.endAddress / frameSize) true,
      ⟨h.freeFrames - 1, Function.update h.frames.held (h.endAddress / frameSize)
        (fresh.frame (h.endAddress / frameSize))⟩, ?_,
      fun x hx => Function.update_of_ne hx _ _, ?_,
      hg.regrow
        (m := fun x => if x / frameSize = h.endAddress / frameSize then fresh.mem x else h.mem x)
        (fun x hx => hmem x (by omega)) (by omega) halign hlt fun x hx hx' => ?_, hmem⟩
    · simp only [Heap.allocPage, hin, Bool.false_eq_true, if_false, if_neg (Nat.ne_of_gt hpos),
        add32_of_lt hlt]
      rfl
    · simp only [Bool.false_eq_true, if_false]
      omega
    · by_cases hlast : x = h.endAddress / frameSize
      · subst hlast
        simp
      · rw [Function.update_of_ne hlast]
        exact hg.pages x hx (by omega)

/-- **The loop of `expand`**, while there are frames for the pages. -/
theorem HeapGap.expandLoop_spec {fuel target : Nat} (fresh : NewPages)
    (hg : HeapGap h B [] lo h.endAddress T) (hle : h.endAddress ≤ target)
    (halign : target % frameSize = 0) (hlt : target < 2 ^ 32)
    (hframes : (h.missing h.endAddress target).length ≤ h.freeFrames)
    (hfuel : (target - h.endAddress) / frameSize < fuel) :
    ∃ m' present' frames', h.expandLoop fresh target fuel = h.grown m' present' frames' target ∧
      HeapGap (h.grown m' present' frames' target) B [] lo target T ∧
      (∀ x, x < h.endAddress ∨ target ≤ x → m' x = h.mem x) ∧
      ∀ x, target / frameSize ≤ x → present' x = h.present x := by
  induction fuel generalizing h with
  | zero => exact absurd hfuel (Nat.not_lt_zero _)
  | succ fuel ih =>
    have hend := hg.end_aligned
    rw [Heap.expandLoop]
    by_cases hmore : h.endAddress < target
    · have hstep : h.endAddress + frameSize ≤ target := by
        simp only [frameSize] at *
        omega
      obtain ⟨k, hk⟩ : ∃ k, (target - (h.endAddress + frameSize)) / frameSize = k := ⟨_, rfl⟩
      have hleft : (target - h.endAddress) / frameSize = k + 1 := by
        simp only [frameSize] at *
        omega
      have hnext : (h.endAddress + frameSize) / frameSize = h.endAddress / frameSize + 1 :=
        Nat.add_div_right _ (by decide)
      -- the page at the end is the first of those that are added
      have hcount : (h.missing h.endAddress target).length =
          (if h.present (h.endAddress / frameSize) then 0 else 1) +
            ((List.range' (h.endAddress / frameSize + 1) k).filter fun x => !h.present x).length := by
        rw [Heap.missing, hleft, List.range'_succ, List.filter_cons]
        cases h.present (h.endAddress / frameSize)
        · simp [Nat.add_comm]
        · simp
      obtain ⟨m₁, present₁, frames₁, heq, hsame₁, hleast, hg₁, hm₁⟩ :=
        hg.grow_page (fun hout => by simp only [hout, Bool.false_eq_true, if_false] at hcount; omega)
          (by omega) fresh
      rw [if_pos hmore, heq]
      have hrest : ((h.grown m₁ present₁ frames₁ (h.endAddress + frameSize)).missing
          (h.endAddress + frameSize) target).length ≤ frames₁.free := by
        have hfilter : (List.range' (h.endAddress / frameSize + 1) k).filter (fun x => !present₁ x) =
            (List.range' (h.endAddress / frameSize + 1) k).filter fun x => !h.present x := by
          refine List.filter_congr fun x hx => ?_
          rw [hsame₁ x]
          have := (List.mem_range'_1.mp hx).1
          omega
        have hlist : (h.grown m₁ present₁ frames₁ (h.endAddress + frameSize)).missing
            (h.endAddress + frameSize) target =
              (List.range' (h.endAddress / frameSize + 1) k).filter fun x => !h.present x := by
          rw [Heap.missing, hnext, hk]
          exact hfilter
        rw [hlist]
        omega
      obtain ⟨m₂, present₂, frames₂, hloop, hg₂, hm₂, hsame₂⟩ :=
        ih hg₁ hstep hrest (show (target - (h.endAddress + frameSize)) / frameSize < fuel by omega)
      refine ⟨m₂, present₂, frames₂, hloop, hg₂, fun x hx => ?_, fun x hx => ?_⟩
      · rw [hm₂ x (show x < h.endAddress + frameSize ∨ target ≤ x by omega)]
        exact hm₁ x (by omega)
      · have hpage := Nat.div_le_div_right (c := frameSize) hstep
        rw [hsame₂ x hx]
        exact hsame₁ x (by omega)
    · obtain rfl : target = h.endAddress := by omega
      rw [if_neg hmore]
      exact ⟨h.mem, h.present, h.frames, rfl, hg, fun _ _ => rfl, fun _ _ => rfl⟩

/-- The next page boundary, without wrap-around. -/
def pageUp (a : Nat) : Nat := (a + (frameSize - 1)) / frameSize * frameSize

theorem pageRound_eq {a : Nat} (h : pageUp a < 2 ^ 32) : pageRound a = pageUp a := by
  rw [pageRound]
  by_cases h0 : a % frameSize = 0
  · rw [if_neg (fun hne => hne h0)]
    simp only [pageUp, frameSize] at *
    omega
  · have hsum : a - a % frameSize + frameSize = pageUp a := by
      simp only [pageUp, frameSize] at *
      omega
    rw [if_pos h0, add32_of_lt (by omega), hsum]

/-- **`expand`** by a number of bytes. -/
theorem HeapInv.expand_spec (hi : HeapInv h B T) (fresh : NewPages) {more : Nat} (hmore : 0 < more)
    (hlt : pageUp (h.endAddress + more) < 2 ^ 32)
    (hmax : pageUp (h.endAddress + more) ≤ add32 h.startAddress h.maxSize)
    (hframes : (h.missing h.endAddress (pageUp (h.endAddress + more))).length ≤ h.freeFrames) :
    ∃ m' present' frames', h.expand fresh (add32 h.endAddress more) =
        h.grown m' present' frames' (pageUp (h.endAddress + more)) ∧
      HeapGap (h.grown m' present' frames' (pageUp (h.endAddress + more))) B [] h.endAddress
        (pageUp (h.endAddress + more)) T ∧
      (∀ x, x < h.endAddress ∨ pageUp (h.endAddress + more) ≤ x → m' x = h.mem x) ∧
      ∀ x, pageUp (h.endAddress + more) / frameSize ≤ x → present' x = h.present x := by
  have hup : h.endAddress + more ≤ pageUp (h.endAddress + more) := by
    simp only [pageUp, frameSize]
    omega
  have hend := hi.end_lt
  have hB : HeapInv h (B ++ []) T := by rwa [List.append_nil]
  -- a heap is a layout with an empty gap at its end, which the loop widens
  obtain ⟨e, hg⟩ := hB.empty_gap
  obtain rfl : e = h.endAddress := hg.back
  rw [Heap.expand, add32_of_lt (by omega), if_neg (by omega), pageRound_eq hlt,
    if_neg (by omega)]
  refine hg.expandLoop_spec fresh (by omega) ?_ hlt hframes ?_
  · simp only [pageUp, frameSize, Nat.mul_mod_left]
  · simp only [frameSize] at *
    omega

/-! ## The added space -/

/-- The tags of the added block: its size, both magic numbers and its footer. -/
private theorem HeapGap.holeTags_spec (hg : HeapGap (h.withMem m) B [] lo h.endAddress T)
    (hsize : lo + minBlockSize ≤ h.endAddress) :
    ∃ m₁ m₂ m₃ m₄ f, (h.withMem m).setSize lo (h.endAddress - lo) = some (h.withMem m₁) ∧
      (h.withMem m₁).setMagic lo = some (h.withMem m₂) ∧
      (h.withMem m₂).getFooter lo = some (h.endAddress - 8) ∧
      (h.withMem m₂).store (h.endAddress - 4) lo = some (h.withMem m₃) ∧
      (h.withMem m₃).setMagic (h.endAddress - 8) = some (h.withMem m₄) ∧
      HeapGap (h.withMem m₄) B [] lo h.endAddress T ∧
      (∀ x, x < lo ∨ h.endAddress ≤ x → m₄ x = m x) ∧
      Tagged m₄ ⟨lo, h.endAddress - lo, f⟩ := by
  have hend := hg.end_lt'
  have h28 : lo + 28 ≤ h.endAddress := hsize
  -- the four stores in the order of the source: size, magic number, header of the footer, its magic
  -- number
  obtain ⟨m₁, h₁, g₁, off₁, size₁⟩ :=
    hg.setSize_spec (le_refl lo) (by omega) (by omega : h.endAddress - lo < 2 ^ 32)
  obtain ⟨m₂, h₂, g₂, off₂, magic₂, -⟩ := g₁.setMagic_spec (le_refl lo) (by omega)
  have size₂ : load32 m₂ (lo + 4) = h.endAddress - lo := by
    rw [← size₁]
    exact load32_congr fun x h1 _ => off₂ x (Or.inr h1)
  have hfooter := (g₂.getFooter_gap (le_refl lo) (by omega : lo + (h.endAddress - lo) ≤ _)
    (by omega) size₂).2
  rw [show lo + (h.endAddress - lo) - 8 = h.endAddress - 8 by omega] at hfooter
  obtain ⟨m₃, h₃, g₃, off₃, header₃⟩ :=
    g₂.store_spec (by omega : lo ≤ h.endAddress - 4) (by omega) (by omega : lo < 2 ^ 32)
  obtain ⟨m₄, h₄, g₄, off₄, magic₄, -⟩ :=
    g₃.setMagic_spec (by omega : lo ≤ h.endAddress - 8) (by omega)
  -- the free bit is what the memory held before, and is set later
  obtain ⟨f, hf⟩ : ∃ f, isFree (load32 m₂ lo) = f := ⟨_, rfl⟩
  have hhead : Headed m₂ ⟨lo, h.endAddress - lo, f⟩ := ⟨magic₂, hf, size₂⟩
  have hstop : (⟨lo, h.endAddress - lo, f⟩ : Tile).stop = h.endAddress := by
    simp only [Tile.stop]
    omega
  refine ⟨m₁, m₂, m₃, m₄, f, h₁, h₂, hfooter, h₃, h₄, g₄, fun x hx => ?_,
    hhead.congr fun x h1 h2 => ?_, ?_, ?_⟩
  · rw [off₄ x (by omega), off₃ x (by omega), off₂ x (by omega), off₁ x (by omega)]
  · simp only at h1 h2
    rw [off₄ x (by omega), off₃ x (by omega)]
  · rw [hstop]
    exact magic₄
  · rw [hstop]
    refine Eq.trans ?_ header₃
    exact load32_congr fun x h1 _ => off₄ x (Or.inr (by omega))

/-- The added block goes into the tree when the block in front is used. -/
private theorem HeapGap.hole_alone {f : Bool} (hg : HeapGap (h.withMem m) B [] lo h.endAddress T)
    (hsize : lo + minBlockSize ≤ h.endAddress) (ht : Tagged m ⟨lo, h.endAddress - lo, f⟩)
    (hpair : NoFreePair (B ++ [⟨lo, h.endAddress - lo, true⟩]))
    (hused : h.memUsed = usedSize B) :
    ∃ m₁ m₂ tree₂ T₂, (h.withMem m).markFree lo = some (h.withMem m₁) ∧
      (h.withMem m₁).insertNode (lo + 4) = some (1, h.withTree m₂ tree₂) ∧
      HeapInv (h.withTree m₂ tree₂) (B ++ [⟨lo, h.endAddress - lo, true⟩]) T₂ ∧
      SameUsed h B m m₂ := by
  have h28 : lo + 28 ≤ h.endAddress := hsize
  have hal := hg.aligned
  have hend : h.endAddress % 4 = 0 := hg.end_mod
  obtain ⟨m₁, h₁, g₁, off₁, magic₁, mark₁⟩ := hg.markFree_spec (le_refl lo) (by omega)
  have hstop : ∀ f, (⟨lo, h.endAddress - lo, f⟩ : Tile).stop = h.endAddress := by
    intro f
    simp only [Tile.stop]
    omega
  -- marking the block leaves its size and its footer alone
  have ht₁ : Tagged m₁ ⟨lo, h.endAddress - lo, true⟩ := by
    refine ⟨⟨magic₁.trans ht.head.magic, mark₁, ?_⟩, ?_⟩
    · refine Eq.trans ?_ ht.head.size
      exact load32_congr fun x h1 _ => off₁ x (Or.inr h1)
    · refine (ht.foot.congr (by simp only; omega) fun x h1 _ => off₁ x (Or.inr ?_)).of_eq rfl
        (by rw [hstop, hstop])
      rw [hstop] at h1
      omega
  have hmin : minBlockSize ≤ h.endAddress - lo := by
    simp only [minBlockSize]
    omega
  obtain ⟨m₂, tree₂, T₂, h₂, hlinks, g₂⟩ := g₁.put_front (c := ⟨lo, h.endAddress - lo, true⟩) rfl
    (le_of_eq (hstop true)) ⟨hmin, by simp only; omega⟩ rfl ht₁
  rw [hstop] at g₂
  -- the new tile closes the gap at the end of the heap
  have hclose := g₂.close (by simpa using hpair) (by
    refine hused.trans ?_
    simp)
  rw [List.append_nil] at hclose
  refine ⟨m₁, m₂, tree₂, T₂, h₁, h₂, hclose, ?_⟩
  have hsame₁ := hg.sameUsed_write fun x hx => off₁ x (by omega)
  have hsame₂ := g₂.sameUsed_links hlinks
  rw [List.append_nil] at hsame₁ hsame₂
  exact hsame₁.trans (hsame₂.mono fun b hb _ => List.mem_append_left _ hb)

/-- The added block is merged with a free block in front of it. -/
private theorem HeapGap.hole_merged {f : Bool} {pre : List Tile} {l : Tile}
    (hg : HeapGap (h.withMem m) (pre ++ [l]) [] lo h.endAddress T) (hfree : l.free = true)
    (hsize : lo + minBlockSize ≤ h.endAddress) (ht : Tagged m ⟨lo, h.endAddress - lo, f⟩)
    (hpair : NoFreePair (pre ++ [l])) (hused : h.memUsed = usedSize (pre ++ [l])) :
    ∃ m₁ tree₁ m₂ m₃ m₄ m₅ tree₅ T₅,
      (h.withMem m).removeNode l.size ⟨0, l.addr + 4⟩ = some (l.addr + 4, h.withTree m₁ tree₁) ∧
      (h.withTree m₁ tree₁).getSize l.addr = some l.size ∧
      (h.withTree m₁ tree₁).getSize lo = some (h.endAddress - lo) ∧
      (h.withTree m₁ tree₁).setSize l.addr (l.size + (h.endAddress - lo)) =
        some (h.withTree m₂ tree₁) ∧
      (h.withTree m₂ tree₁).store (h.endAddress - 4) l.addr = some (h.withTree m₃ tree₁) ∧
      (h.withTree m₃ tree₁).markFree l.addr = some (h.withTree m₄ tree₁) ∧
      (h.withTree m₄ tree₁).insertNode (l.addr + 4) = some (1, h.withTree m₅ tree₅) ∧
      HeapInv (h.withTree m₅ tree₅)
        (pre ++ [⟨l.addr, l.size + (h.endAddress - lo), true⟩]) T₅ ∧
      SameUsed h (pre ++ [l]) m m₅ := by
  have h28 : lo + 28 ≤ h.endAddress := hsize
  have hl : l ∈ pre ++ [l] ++ [] := by simp
  have hin := hg.inside hl
  have hlen := hin.stop_eq
  have hbase : h.base ≤ l.addr := hin.base_le
  have hlo : l.stop = lo := hg.front.split.2.2
  have hend : h.endAddress < 2 ^ 32 := hg.end_lt
  have hend4 : h.endAddress % 4 = 0 := hg.end_mod
  have hal := hg.aligned
  have hlsize := hg.sizes l hl
  have hsum : l.addr + (l.size + (h.endAddress - lo)) = h.endAddress := by
    simp only [Tile.stop] at hlo
    omega
  obtain ⟨m₁, tree₁, T₁, hremove, hlinks, g₁⟩ := hg.take_left hfree
  have hl₁ := hg.tagged_of_linksOnly hlinks hl
  -- the tags of the added block are no links
  have hhole : ∀ x, lo ≤ x → x < h.endAddress → m₁ x = m x :=
    fun _ => hg.gap_of_linksOnly hlinks
  have hstop : ∀ f, (⟨lo, h.endAddress - lo, f⟩ : Tile).stop = h.endAddress := by
    intro f
    simp only [Tile.stop]
    omega
  have hword : load32 m₁ (lo + 4) = h.endAddress - lo := by
    refine Eq.trans ?_ ht.head.size
    exact load32_congr fun x h1 h2 => hhole x (by omega) (by omega)
  have hmagic : checkMagic (load32 m₁ (h.endAddress - 8)) = true := by
    have := ht.foot.magic
    rw [hstop] at this
    rw [← this]
    exact congrArg checkMagic (load32_congr fun x h1 h2 => hhole x (by omega) (by omega))
  have g₁ : HeapGap ((h.withTree m₁ tree₁).withMem m₁) pre [] l.addr h.endAddress T₁ := g₁
  obtain ⟨m₂, h₂, g₂, off₂, size₂⟩ := g₁.setSize_spec (le_refl l.addr) (by omega)
    (by omega : l.size + (h.endAddress - lo) < 2 ^ 32)
  obtain ⟨m₃, h₃, g₃, off₃, header₃⟩ :=
    g₂.store_spec (by omega : l.addr ≤ h.endAddress - 4) (by omega) (by omega : l.addr < 2 ^ 32)
  obtain ⟨m₄, h₄, g₄, off₄, magic₄, mark₄⟩ := g₃.markFree_spec (le_refl l.addr) (by omega)
  have hstop' : (⟨l.addr, l.size + (h.endAddress - lo), true⟩ : Tile).stop = h.endAddress := hsum
  have ht₄ : Tagged m₄ ⟨l.addr, l.size + (h.endAddress - lo), true⟩ := by
    refine ⟨⟨?_, mark₄, ?_⟩, ?_, ?_⟩
    · rw [magic₄, ← hl₁.head.magic]
      refine congrArg checkMagic (load32_congr fun x h1 h2 => ?_)
      rw [off₃ x (by omega), off₂ x (by omega)]
    · refine Eq.trans ?_ size₂
      refine load32_congr fun x h1 h2 => ?_
      simp only at h1 h2
      rw [off₄ x (by omega), off₃ x (by omega)]
    · rw [hstop', ← hmagic]
      refine congrArg checkMagic (load32_congr fun x h1 h2 => ?_)
      rw [off₄ x (by omega), off₃ x (by omega), off₂ x (by omega)]
    · rw [hstop']
      refine Eq.trans ?_ header₃
      exact load32_congr fun x h1 h2 => off₄ x (by omega)
  have hmin : minBlockSize ≤ l.size + (h.endAddress - lo) :=
    le_trans hlsize.1 (Nat.le_add_right _ _)
  obtain ⟨m₅, tree₅, T₅, h₅, hlinks₅, g₅⟩ :=
    g₄.put_front (c := ⟨l.addr, l.size + (h.endAddress - lo), true⟩) rfl (le_of_eq hstop')
      ⟨hmin, by simp only; omega⟩ rfl ht₄
  rw [hstop'] at g₅
  have hpair' : NoFreePair (pre ++ [⟨l.addr, l.size + (h.endAddress - lo), true⟩]) := by
    refine List.isChain_append.mpr ⟨(List.isChain_append.mp hpair).1, List.isChain_singleton _,
      fun x hx y hy => ?_⟩
    have hnot := hpair.border hx rfl
    rw [hfree] at hnot
    simp only [List.head?_cons, Option.mem_def, Option.some.injEq] at hy
    rw [← hy]
    exact hnot
  have hclose := g₅.close (by simpa using hpair') (by
    refine hused.trans ?_
    simp [hfree])
  rw [List.append_nil] at hclose
  refine ⟨m₁, tree₁, m₂, m₃, m₄, m₅, tree₅, T₅, hremove, ?_, ?_, h₂, h₃, h₄, h₅, hclose, ?_⟩
  · exact Heap.getSize_eq (h := h.withTree m₁ tree₁) g₁.toGrounds
      ⟨hin.base_le, hin.stop_le, hin.size_le⟩ hl₁.head
  · rw [Heap.getSize, add32_of_lt (by omega)]
    refine (g₁.load_gap (by omega) (by omega)).trans ?_
    rw [hword]
  · have hsame₁ := hg.sameUsed_links hlinks
    have hsame₂ : SameUsed h (pre ++ []) m₁ m₄ := g₁.sameUsed_write fun x hx => by
      rw [off₄ x (by omega), off₃ x (by omega), off₂ x (by omega)]
      rfl
    have hsame₃ := g₅.sameUsed_links hlinks₅
    rw [List.append_nil] at hsame₁ hsame₂ hsame₃
    have hpre : ∀ b ∈ pre ++ [l], b.free = false → b ∈ pre := by
      intro b hb hbused
      rcases List.mem_append.mp hb with hb | hb
      · exact hb
      · rw [List.mem_singleton.mp hb, hfree] at hbused
        exact absurd hbused (by decide)
    exact hsame₁.trans ((hsame₂.mono hpre).trans
      (hsame₃.mono fun b hb hbused => List.mem_append_left _ (hpre b hb hbused)))

/-- **The block with the added space**, merged with a free block in front of it. -/
theorem HeapGap.addHole_spec (hg : HeapGap h B [] lo h.endAddress T)
    (hsize : lo + minBlockSize ≤ h.endAddress) (hpair : NoFreePair B)
    (hused : h.memUsed = usedSize B) :
    ∃ m' tree' T' B' u, h.addHole lo = some (none, h.withTree m' tree') ∧
      HeapInv (h.withTree m' tree') (B' ++ [u]) T' ∧ u.free = true ∧ h.endAddress - lo ≤ u.size ∧
      (∀ b ∈ B, b.free = false → b ∈ B') ∧ SameUsed h B h.mem m' := by
  have hend := hg.end_lt
  have hbase := hg.base_le
  have hfl := hg.front.le
  have h28 : lo + 28 ≤ h.endAddress := hsize
  have hg : HeapGap (h.withMem h.mem) B [] lo h.endAddress T := hg
  obtain ⟨m₁, m₂, m₃, m₄, f, h₁, h₂, hfooter, h₃, h₄, g₄, off₄, ht₄⟩ := hg.holeTags_spec hsize
  have hsame₄ : SameUsed h B h.mem m₄ := by
    have := hg.sameUsed_write off₄
    rwa [List.append_nil] at this
  have hadd : add32 (h.endAddress - 8) 4 = h.endAddress - 4 := by
    rw [add32_of_lt (by omega)]
    omega
  have hleft : sub32 lo 8 = lo - 8 := by
    simp only [allocatorSize] at hbase
    exact sub32_of_le (by omega) (by omega)
  have h₁ : h.setSize lo (h.endAddress - lo) = some (h.withMem m₁) := h₁
  simp only [Heap.addHole, Option.bind_eq_bind]
  rw [sub32_of_le (by omega) hend, h₁, Option.bind_some, h₂, Option.bind_some, hfooter,
    Option.bind_some, hadd, h₃, Option.bind_some, h₄, Option.bind_some, hleft]
  by_cases hlast : ∃ pre l, B = pre ++ [l] ∧ l.free = true
  · -- the last block was free, and the hole is merged with it
    obtain ⟨pre, l, rfl, hlfree⟩ := hlast
    have hl : l ∈ pre ++ [l] ++ [] := by simp
    have hin := g₄.inside hl
    have hlen := hin.stop_eq
    have hltags := g₄.tagged l hl
    have hstop : l.stop = lo := hg.front.split.2.2
    have htest := Heap.leftFree_eq g₄.toGrounds hin hltags (g₄.place hl).1
    have hheader := Heap.load_header g₄.toGrounds hin hltags.foot
    have hlsize := Heap.getSize_eq g₄.toGrounds hin hltags.head
    rw [hstop] at htest hheader
    obtain ⟨m₅, tree₅, m₆, m₇, m₈, m₉, tree₉, T₉, hremove, hsize₅, hhole, h₆, h₇, h₈, h₉, hinv,
      hsame⟩ := g₄.hole_merged hlfree hsize ht₄ hpair hused
    have hladdr : sub32 (l.addr + 4) 4 = l.addr := by
      rw [sub32_of_le (by omega) (by omega), Nat.add_sub_cancel]
    refine ⟨m₉, tree₉, T₉, pre, ⟨l.addr, l.size + (h.endAddress - lo), true⟩, ?_, hinv, rfl,
      by simp, fun b hb hbused => ?_, hsame₄.trans hsame⟩
    · rw [htest, Option.bind_some, if_pos hlfree, hheader, Option.bind_some, hlsize,
        Option.bind_some, add32_of_lt (by omega), hremove, Option.bind_some]
      simp only
      rw [if_neg (by omega), hladdr, hsize₅, Option.bind_some, hhole, Option.bind_some,
        add32_of_lt (by simp only [Tile.stop] at hstop; omega), h₆, Option.bind_some, h₇,
        Option.bind_some, h₈, Option.bind_some, h₉, Option.bind_some]
    · rcases List.mem_append.mp hb with hb | hb
      · exact hb
      · rw [List.mem_singleton.mp hb, hlfree] at hbused
        exact absurd hbused (by decide)
  · -- there is no block in front of it, or a used one
    have hback : ∀ x, B.getLast? = some x → x.free = false := by
      intro x hx
      obtain ⟨pre, rfl⟩ := List.getLast?_eq_some_iff.mp hx
      rw [← Bool.not_eq_true]
      exact fun hxfree => hlast ⟨pre, x, rfl, hxfree⟩
    have htest : (h.withMem m₄).leftFree (lo - 8) = some false := by
      rcases List.eq_nil_or_concat B with rfl | ⟨pre, l, rfl⟩
      · have hstart : h.startAddress = lo := hg.front
        have hle : h.startAddress ≤ h.endAddress := by omega
        have htest := Heap.leftFree_start g₄.toGrounds hle
        have hstart' : (h.withMem m₄).startAddress = lo := hstart
        rwa [hstart'] at htest
      · rw [List.concat_eq_append] at *
        have hl : l ∈ pre ++ [l] ++ [] := by simp
        have hstop : l.stop = lo := hg.front.split.2.2
        rw [← hstop, ← hback l (by simp)]
        exact Heap.leftFree_eq g₄.toGrounds (g₄.inside hl) (g₄.tagged l hl) (g₄.place hl).1
    have hpair' : NoFreePair (B ++ [⟨lo, h.endAddress - lo, true⟩]) := by
      refine List.isChain_append.mpr ⟨hpair, List.isChain_singleton _, fun x hx y _ => ?_⟩
      rw [hback x hx]
      simp
    obtain ⟨m₅, m₆, tree₆, T₆, h₅, h₆, hinv, hsame⟩ := g₄.hole_alone hsize ht₄ hpair' hused
    refine ⟨m₆, tree₆, T₆, B, ⟨lo, h.endAddress - lo, true⟩, ?_, hinv, rfl, le_refl _,
      fun b hb _ => hb, hsame₄.trans hsame⟩
    rw [htest, Option.bind_some, if_neg (by decide), h₅, Option.bind_some, add32_of_lt (by omega),
      h₆, Option.bind_some]

/-! ## The call after an expansion -/

/-- The heap may grow by the bytes: its end stays below the maximum, and there are frames for the
    pages. -/
structure CanGrow (h : Heap) (more : Nat) : Prop where
  end_le : pageUp (h.endAddress + more) ≤ add32 h.startAddress h.maxSize
  frames : (h.missing h.endAddress (pageUp (h.endAddress + more))).length ≤ h.freeFrames

/-- The end of the bigger heap is an address. -/
theorem CanGrow.end_lt {more : Nat} (hgrow : CanGrow h more) :
    pageUp (h.endAddress + more) < 2 ^ 32 :=
  lt_of_le_of_lt hgrow.end_le (Nat.mod_lt _ (by decide))

/-- What is the same in the heap is so in a bigger one. -/
theorem SameUsed.grow {h' : Heap} {m' : Mem} (hs : SameUsed h B m m')
    (hstart : h'.startAddress = h.startAddress) (hend : h.endAddress ≤ h'.endAddress) :
    SameUsed h' B m m' := by
  rintro x hx (h1 | h1 | hused)
  · exact hs x hx (Or.inl (by omega))
  · exact hs x hx (Or.inr (Or.inl (by omega)))
  · exact hs x hx (Or.inr (Or.inr hused))

/-- **An expansion** that the heap can make adds a free block at its end, or to the free block
    there. -/
theorem HeapInv.grow (hi : HeapInv h B T) {more : Nat} (hmore : minBlockSize ≤ more)
    (hgrow : CanGrow h more) (fresh : NewPages) :
    ∃ m' tree' present' frames' B' u T',
      (h.expand fresh (add32 h.endAddress more)).addHole h.endAddress =
        some (none, (h.grown m' present' frames' (pageUp (h.endAddress + more))).withTree m' tree') ∧
      HeapInv ((h.grown m' present' frames' (pageUp (h.endAddress + more))).withTree m' tree')
        (B' ++ [u]) T' ∧
      u.free = true ∧ more ≤ u.size ∧ (∀ b ∈ B, b.free = false → b ∈ B') ∧
      SameUsed (h.grown m' present' frames' (pageUp (h.endAddress + more))) B h.mem m' ∧
      ∀ x, pageUp (h.endAddress + more) / frameSize ≤ x → present' x = h.present x := by
  have h28 : 28 ≤ more := hmore
  have hup : h.endAddress + more ≤ pageUp (h.endAddress + more) := by
    simp only [pageUp, frameSize]
    omega
  -- the pages are added
  obtain ⟨m₂, present₂, frames₂, hexpand, g₂, hm₂, hpresent⟩ := hi.expand_spec fresh (by omega)
    hgrow.end_lt hgrow.end_le hgrow.frames
  have hsame₂ : SameUsed (h.grown m₂ present₂ frames₂ (pageUp (h.endAddress + more))) B
      h.mem m₂ := by
    rintro x - (h1 | h1 | ⟨b, hb, -, -, h2⟩)
    · exact hm₂ x (Or.inl (lt_of_lt_of_le h1 hi.tiles.le))
    · exact hm₂ x (Or.inr h1)
    · exact hm₂ x (Or.inl (lt_of_lt_of_le h2 (hi.inside hb).stop_le))
  obtain ⟨m₃, tree₃, T₃, B₃, u, hhole, hinv, hufree, husize, hkept, hsame₃⟩ :=
    g₂.addHole_spec (le_trans (by omega) hup) hi.noFreePair hi.used
  refine ⟨m₃, tree₃, present₂, frames₂, B₃, u, T₃, by rw [hexpand]; exact hhole, hinv, hufree, ?_,
    hkept, SameUsed.trans hsame₂ hsame₃, hpresent⟩
  refine le_trans ?_ husize
  have : (h.grown m₂ present₂ frames₂ (pageUp (h.endAddress + more))).endAddress =
      pageUp (h.endAddress + more) := rfl
  omega

/-- **`alloc` without a fit** is the call on a bigger heap, where there is one. -/
theorem HeapInv.alloc_grow (hi : HeapInv h B T) {size alignment : Nat} (halign : alignment ≤ 1)
    (hnone : ∀ b ∈ B, b.free = true → b.size < getBlockSize size)
    (hgrow : CanGrow h (getBlockSize size)) (fresh : NewPages) (fuel : Nat) :
    ∃ m' tree' present' frames' B' u T',
      h.allocLoop fresh size (fuel + 1) alignment =
        Heap.allocLoop fresh size fuel 1 ((h.grown m' present' frames'
          (pageUp (h.endAddress + getBlockSize size))).withTree m' tree') ∧
      HeapInv ((h.grown m' present' frames'
          (pageUp (h.endAddress + getBlockSize size))).withTree m' tree') (B' ++ [u]) T' ∧
      u.free = true ∧ getBlockSize size ≤ u.size ∧
      (∀ b ∈ B, b.free = false → b ∈ B') ∧
      SameUsed (h.grown m' present' frames' (pageUp (h.endAddress + getBlockSize size))) B
        h.mem m' ∧
      ∀ x, pageUp (h.endAddress + getBlockSize size) / frameSize ≤ x →
        present' x = h.present x := by
  have hmin : minBlockSize ≤ getBlockSize size := (requestOk_getBlockSize size).1
  have hup : h.endAddress + getBlockSize size ≤ pageUp (h.endAddress + getBlockSize size) := by
    simp only [pageUp, frameSize]
    omega
  have hone : (if alignment = 0 then 1 else alignment) = 1 := by
    split
    · rfl
    · omega
  -- there is no fit
  obtain ⟨node, m₁, tree₁, T₁, hremove, hsame₁, hcases⟩ := hi.remove_best (getBlockSize size)
  obtain ⟨rfl, hi₁⟩ : node = 0 ∧ HeapInv (h.withTree m₁ tree₁) B T₁ := by
    rcases hcases with ⟨hnode, -, hi₁⟩ | ⟨pre, c, post, rfl, -, hcfree, hcle, -⟩
    · exact ⟨hnode, hi₁⟩
    · have := hnone c (by simp) hcfree
      omega
  have hsame₁' : ∀ m present frames,
      SameUsed (h.grown m present frames (pageUp (h.endAddress + getBlockSize size))) B h.mem m₁ :=
    fun _ _ _ => hsame₁.grow rfl (le_trans (Nat.le_add_right _ _) hup)
  have hgrow₁ : CanGrow (h.withTree m₁ tree₁) (getBlockSize size) := ⟨hgrow.end_le, hgrow.frames⟩
  obtain ⟨m₃, tree₃, present₃, frames₃, B₃, u, T₃, hhole, hinv, hufree, husize, hkept, hsame₃,
    hpresent⟩ := hi₁.grow hmin hgrow₁ fresh
  refine ⟨m₃, tree₃, present₃, frames₃, B₃, u, T₃, ?_, hinv, hufree, husize, hkept,
    (hsame₁' _ _ _).trans hsame₃, hpresent⟩
  simp only [Heap.allocLoop, Option.bind_eq_bind]
  rw [hone, hremove, Option.bind_some]
  simp only [if_true]
  rw [hhole, Option.bind_some]
  rfl

end

end Toutatis
