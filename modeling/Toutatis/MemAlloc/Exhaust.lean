import Toutatis.MemAlloc.Calls

/-!
# Exhausted heaps

`alloc` when no free block fits and the heap cannot grow. `expand` only prints an error, and the
caller goes on to build a block behind the end of the heap, where no page is mapped.

## Key results

- `HeapInv.alloc_fault`: the call ends in a page fault
- `exhausted_never_refuses`: it never returns `NULL`
-/

namespace Toutatis

open ByteMem RedBlack Tiling

section

variable {h : Heap} {B : List Tile} {T : ColorTree Entry} {hole target limit : Nat}

/-- No page behind the heap is mapped. -/
def Heap.Bounded (h : Heap) : Prop := ∀ x, h.endAddress / frameSize ≤ x → h.present x = false

/-- No page from the end of the heap up to the one at `limit` is mapped. -/
def Heap.ClearTo (h : Heap) (limit : Nat) : Prop :=
  ∀ x, h.endAddress / frameSize ≤ x → x ≤ limit / frameSize → h.present x = false

/-- Without a page behind the heap there is none up to a limit. -/
theorem Heap.Bounded.clearTo (hb : h.Bounded) (limit : Nat) : h.ClearTo limit :=
  fun x hx _ => hb x hx

/-- A store to a page that is not present faults. -/
theorem Heap.store_fault {a : Nat} (hout : h.present (a / frameSize) = false) (v : Nat) :
    h.store a v = none := by
  refine if_neg fun hmapped => ?_
  have hin := hmapped.1
  rw [hout] at hin
  exact Bool.false_ne_true hin

/-! ## The block with the added space -/

/-- Its header is not mapped. -/
theorem Heap.addHole_header_fault (hout : h.present (add32 hole 4 / frameSize) = false) :
    h.addHole hole = none := by
  simp only [Heap.addHole, Heap.setSize, Option.bind_eq_bind]
  rw [Heap.store_fault hout, Option.bind_none]

/-- What a store leaves when it does not fault. -/
theorem Heap.store_cases {a v : Nat} (hv : v < 2 ^ 32) :
    h.store a v = none ∨ ∃ m, h.store a v = some (h.withMem m) ∧ load32 m a = v ∧
      ∀ x, x < a ∨ a + 4 ≤ x → m x = h.mem x := by
  rw [Heap.store]
  split
  · refine Or.inr ⟨_, rfl, ?_, fun x hx => store32_apply_of_disjoint _ _ hx⟩
    rw [load32_store32_self, Nat.mod_eq_of_lt hv]
  · exact Or.inl rfl

/-- `set_magic` faults, or writes one word. -/
theorem Heap.setMagic_cases {a : Nat} :
    h.setMagic a = none ∨ ∃ m, h.setMagic a = some (h.withMem m) ∧
      ∀ x, x < a ∨ a + 4 ≤ x → m x = h.mem x := by
  simp only [Heap.setMagic, Option.bind_eq_bind]
  cases hload : h.load a with
  | none => exact Or.inl rfl
  | some w =>
    rw [Option.bind_some]
    rcases Heap.store_cases (h := h) (a := a) (magic_setMagic w).1 with hstore | ⟨m, hstore, -, hoff⟩
    · exact Or.inl hstore
    · exact Or.inr ⟨m, hstore, hoff⟩

/-- Its footer is not mapped. -/
theorem Heap.addHole_footer_fault (hlt : h.endAddress < 2 ^ 32) (hle : hole + 8 ≤ h.endAddress)
    (hout : h.present ((h.endAddress - 4) / frameSize) = false) : h.addHole hole = none := by
  have hsize : sub32 h.endAddress hole = h.endAddress - hole := sub32_of_le (by omega) hlt
  simp only [Heap.addHole, Heap.setSize, Option.bind_eq_bind]
  rw [hsize, add32_of_lt (by omega)]
  -- the stores to the header may fault already; if they do not, the footer does
  rcases Heap.store_cases (h := h) (a := hole + 4) (by omega : h.endAddress - hole < 2 ^ 32) with
    hstore | ⟨m₁, h₁, size₁, off₁⟩
  · rw [hstore, Option.bind_none]
  rw [h₁, Option.bind_some]
  rcases Heap.setMagic_cases (h := h.withMem m₁) (a := hole) with hmagic | ⟨m₂, h₂, off₂⟩
  · rw [hmagic, Option.bind_none]
  rw [h₂, Option.bind_some]
  have size₂ : load32 m₂ (hole + 4) = h.endAddress - hole := by
    rw [← size₁]
    exact load32_congr fun x h1 _ => off₂ x (Or.inr h1)
  have hmapped : ((h.withMem m₁).withMem m₂).Mapped (hole + 4) := by
    by_contra hnot
    exact absurd ((if_neg hnot).symm.trans h₁) (by simp)
  have hfooter : ((h.withMem m₁).withMem m₂).getFooter hole = some (h.endAddress - 8) := by
    simp only [Heap.getFooter, Heap.getSize, Option.bind_eq_bind]
    rw [add32_of_lt (by omega), Heap.load_eq hmapped, Option.bind_some]
    refine congrArg some ?_
    have hword : load32 ((h.withMem m₁).withMem m₂).mem (hole + 4) = h.endAddress - hole := size₂
    rw [hword, add32_of_lt (by omega), sub32_of_le (by omega) (by omega)]
    omega
  have hlast : add32 (h.endAddress - 8) 4 = h.endAddress - 4 := by
    rw [add32_of_lt (by omega)]
    omega
  have hfault : ((h.withMem m₁).withMem m₂).store (h.endAddress - 4) hole = none :=
    Heap.store_fault (h := (h.withMem m₁).withMem m₂) hout hole
  rw [hfooter, Option.bind_some, hlast, hfault, Option.bind_none]

/-! ## Pages without frames -/

/-- The loop of `expand` ends at once when the end is reached. -/
theorem Heap.expandLoop_done {fresh : NewPages} {fuel : Nat} (hle : target ≤ h.endAddress) :
    h.expandLoop fresh target fuel = h := by
  cases fuel with
  | zero => rfl
  | succ fuel => rw [Heap.expandLoop, if_neg (by omega)]

/-- Without a free frame no page is mapped, but the end moves on. -/
theorem Heap.expandLoop_noFrames {fuel : Nat} (fresh : NewPages) (hframes : h.freeFrames = 0)
    (halign : h.endAddress % frameSize = 0) (htarget : target % frameSize = 0)
    (hle : h.endAddress ≤ target) (hlt : target < 2 ^ 32)
    (hfuel : (target - h.endAddress) / frameSize < fuel) :
    (h.expandLoop fresh target fuel).endAddress = target ∧
      (h.expandLoop fresh target fuel).present = h.present := by
  induction fuel generalizing h with
  | zero => exact absurd hfuel (Nat.not_lt_zero _)
  | succ fuel ih =>
    rw [Heap.expandLoop]
    by_cases hmore : h.endAddress < target
    · have hstep : h.endAddress + frameSize ≤ target := by
        simp only [frameSize] at *
        omega
      -- alloc_page without a frame changes nothing
      have hsame : h.allocPage fresh = h := by
        simp only [Heap.allocPage, hframes, if_true, ite_self]
      rw [if_pos hmore, hsame, add32_of_lt (by omega)]
      refine ih hframes ?_ hstep ?_
      · rw [← Nat.add_mod_right h.endAddress frameSize] at halign
        exact halign
      · simp only [frameSize] at *
        omega
    · rw [if_neg hmore]
      exact ⟨by omega, rfl⟩

/-- With too few frames the last page is not mapped. -/
theorem Heap.expandLoop_fewFrames {fuel : Nat} (fresh : NewPages) (hb : h.ClearTo target)
    (halign : h.endAddress % frameSize = 0) (htarget : target % frameSize = 0)
    (hle : h.endAddress ≤ target) (hlt : target < 2 ^ 32)
    (hframes : h.freeFrames < (target - h.endAddress) / frameSize)
    (hfuel : (target - h.endAddress) / frameSize < fuel) :
    (h.expandLoop fresh target fuel).endAddress = target ∧
      (h.expandLoop fresh target fuel).present (target / frameSize - 1) = false := by
  induction fuel generalizing h with
  | zero => exact absurd hfuel (Nat.not_lt_zero _)
  | succ fuel ih =>
    have hmore : h.endAddress < target := by
      by_contra hnot
      rw [Nat.sub_eq_zero_of_le (by omega), Nat.zero_div] at hframes
      omega
    have hlast : h.endAddress / frameSize ≤ target / frameSize - 1 := by
      simp only [frameSize] at *
      omega
    by_cases hzero : h.freeFrames = 0
    · obtain ⟨hend, hpresent⟩ :=
        Heap.expandLoop_noFrames fresh hzero halign htarget hle hlt hfuel
      rw [hend, hpresent]
      exact ⟨rfl, hb _ hlast (Nat.sub_le _ _)⟩
    · have hstep : h.endAddress + frameSize ≤ target := by
        simp only [frameSize] at *
        omega
      have hnext : (h.endAddress + frameSize) / frameSize = h.endAddress / frameSize + 1 :=
        Nat.add_div_right _ (by decide)
      -- the page at the end takes one frame
      have hpage : h.allocPage fresh = { h with
          present := Function.update h.present (h.endAddress / frameSize) true
          frames := ⟨h.freeFrames - 1, Function.update h.frames.held (h.endAddress / frameSize)
            (fresh.frame (h.endAddress / frameSize))⟩
          mem := fun x =>
            if x / frameSize = h.endAddress / frameSize then fresh.mem x else h.mem x } := by
        simp only [Heap.allocPage, hb _ (le_refl _) (Nat.div_le_div_right hle), Bool.false_eq_true,
          if_false, hzero]
      obtain ⟨k, hk⟩ : ∃ k, (target - (h.endAddress + frameSize)) / frameSize = k := ⟨_, rfl⟩
      have hleft : (target - h.endAddress) / frameSize = k + 1 := by
        simp only [frameSize] at *
        omega
      rw [Heap.expandLoop, if_pos hmore, add32_of_lt (by omega), hpage]
      refine ih (fun x hx hx' => ?_) ?_ hstep ?_ ?_
      · have hx : h.endAddress / frameSize + 1 ≤ x := hnext ▸ hx
        simp only
        rw [Function.update_of_ne (by omega)]
        exact hb x (by omega) hx'
      · simp only
        rw [Nat.add_mod_right, halign]
      · change h.freeFrames - 1 < (target - (h.endAddress + frameSize)) / frameSize
        omega
      · simp only
        omega

/-! ## The call -/

/-- The size of a block is a word. -/
theorem getBlockSize_lt (size : Nat) : getBlockSize size < 2 ^ 32 := by
  simp only [getBlockSize, getBlockSize_sum]
  split
  · simp only [minBlockSize]
    omega
  · omega

/-- An expansion beyond the maximum does nothing. -/
theorem Heap.expand_refused {more : Nat} (fresh : NewPages) (hend : h.endAddress < 2 ^ 32)
    (hmore : more < 2 ^ 32)
    (hmax : add32 h.startAddress h.maxSize < pageUp (h.endAddress + more)) :
    h.expand fresh (add32 h.endAddress more) = h := by
  rw [Heap.expand]
  by_cases hwrap : 2 ^ 32 ≤ h.endAddress + more
  · -- the sum wraps around
    rw [if_pos]
    simp only [add32]
    omega
  · have hsum : add32 h.endAddress more = h.endAddress + more := add32_of_lt (by omega)
    rw [hsum]
    by_cases hsmall : h.endAddress + more ≤ h.endAddress
    · rw [if_pos hsmall]
    · rw [if_neg hsmall]
      by_cases hround : pageUp (h.endAddress + more) < 2 ^ 32
      · rw [pageRound_eq hround, if_pos hmax]
      · -- the rounded sum wraps around
        have hzero : pageRound (h.endAddress + more) = 0 := by
          simp only [pageUp, frameSize] at hround
          rw [pageRound, if_pos (by simp only [frameSize]; omega)]
          simp only [add32, frameSize]
          omega
        rw [hzero, if_neg (Nat.not_lt_zero _), Heap.expandLoop_done (Nat.zero_le _)]

/-- The block with the added space lies on pages that are not mapped. -/
theorem Heap.addHole_fault (hend : h.endAddress < 2 ^ 32) (halign : h.endAddress % frameSize = 0)
    (hb : h.ClearTo limit) (hle : h.endAddress ≤ limit)
    (hlimit : add32 h.startAddress h.maxSize ≤ limit) {more : Nat} (hpos : minBlockSize ≤ more)
    (hmore : more < 2 ^ 32) (hgrow : ¬ CanGrow h more) (fresh : NewPages) :
    (h.expand fresh (add32 h.endAddress more)).addHole h.endAddress = none := by
  have h28 : 28 ≤ more := hpos
  by_cases hmax : pageUp (h.endAddress + more) ≤ add32 h.startAddress h.maxSize
  · -- there are too few frames
    have hlt : pageUp (h.endAddress + more) < 2 ^ 32 :=
      lt_of_le_of_lt hmax (Nat.mod_lt _ (by decide))
    have hup : h.endAddress + more ≤ pageUp (h.endAddress + more) := by
      simp only [pageUp, frameSize]
      omega
    have hup4 : pageUp (h.endAddress + more) % frameSize = 0 := by
      simp only [pageUp, Nat.mul_mod_left]
    have hmissing : (h.missing h.endAddress (pageUp (h.endAddress + more))).length =
        (pageUp (h.endAddress + more) - h.endAddress) / frameSize := by
      rw [Heap.missing, List.filter_eq_self.mpr, List.length_range']
      intro x hx
      obtain ⟨h1, h2⟩ := List.mem_range'_1.mp hx
      have hpage := Nat.div_le_div_right (c := frameSize) (le_trans hmax hlimit)
      rw [hb x h1]
      · rfl
      · simp only [frameSize] at *
        omega
    have hfew : h.freeFrames < (pageUp (h.endAddress + more) - h.endAddress) / frameSize := by
      by_contra hnot
      exact hgrow ⟨hmax, by omega⟩
    have hexpand : h.expand fresh (add32 h.endAddress more) =
        Heap.expandLoop fresh (pageUp (h.endAddress + more)) (2 ^ 20) h := by
      rw [Heap.expand, add32_of_lt (by omega), if_neg (by omega), pageRound_eq hlt,
        if_neg (by omega)]
    generalize pageUp (h.endAddress + more) = target at *
    have henough : (target - h.endAddress) / frameSize < 2 ^ 20 := by
      simp only [frameSize]
      omega
    have hbefore : h.ClearTo target := fun x hx hx' =>
      hb x hx (le_trans hx' (Nat.div_le_div_right (le_trans hmax hlimit)))
    -- the loop stops at the first page without a frame, and the footer lies behind it
    obtain ⟨hstop, hout⟩ :=
      Heap.expandLoop_fewFrames fresh hbefore halign hup4 (by omega) hlt hfew henough
    rw [hexpand]
    refine Heap.addHole_footer_fault (by omega) (by omega) ?_
    rw [hstop, ← hout]
    congr 1
    simp only [frameSize] at *
    omega
  · -- `expand` refuses, and the header of the hole lies behind the end of the heap
    rw [Heap.expand_refused fresh hend hmore (by omega)]
    have h4 : h.endAddress + 4 < 2 ^ 32 := by
      simp only [frameSize] at halign
      omega
    have hpage : (h.endAddress + 4) / frameSize = h.endAddress / frameSize := by
      simp only [frameSize] at *
      omega
    refine Heap.addHole_header_fault ?_
    rw [add32_of_lt h4, hpage]
    exact hb _ (le_refl _) (Nat.div_le_div_right hle)

/-- **`alloc` without a fit and without room to grow** ends in a page fault. -/
theorem HeapInv.alloc_fault (hi : HeapInv h B T) (hb : h.ClearTo limit) (hle : h.endAddress ≤ limit)
    (hlimit : add32 h.startAddress h.maxSize ≤ limit) {size alignment : Nat} {h₁ : Heap}
    (hnone : h.removeNode (getBlockSize size) ⟨if alignment = 0 then 1 else alignment, 0⟩ =
      some (0, h₁)) (hgrow : ¬ CanGrow h (getBlockSize size)) (fresh : NewPages) :
    h.alloc fresh size alignment = none := by
  obtain ⟨m₁, tree₁, -, rfl⟩ := Heap.removeNode_some hnone
  have hgrow : ¬ CanGrow (h.withTree m₁ tree₁) (getBlockSize size) := fun hg =>
    hgrow ⟨hg.end_le, hg.frames⟩
  have hfault := Heap.addHole_fault (h := h.withTree m₁ tree₁) hi.end_lt hi.end_aligned hb hle hlimit
    (requestOk_getBlockSize size).1 (getBlockSize_lt size) hgrow fresh
  have hbound : loopBound = loopBound - 1 + 1 := by decide
  rw [Heap.alloc, hbound, Heap.allocLoop]
  simp only [Option.bind_eq_bind]
  rw [hnone, Option.bind_some]
  simp only [if_true]
  rw [hfault, Option.bind_none]

/-- A request that no block fits faults when the heap cannot grow. -/
theorem HeapInv.alloc_fault_of_bounded (hi : HeapInv h B T) (hb : h.Bounded) {size alignment : Nat}
    {h₁ : Heap}
    (hnone : h.removeNode (getBlockSize size) ⟨if alignment = 0 then 1 else alignment, 0⟩ =
      some (0, h₁)) (hgrow : ¬ CanGrow h (getBlockSize size)) (fresh : NewPages) :
    h.alloc fresh size alignment = none :=
  hi.alloc_fault (hb.clearTo (max h.endAddress (add32 h.startAddress h.maxSize)))
    (le_max_left _ _) (le_max_right _ _) hnone hgrow fresh

/-- The request is refused: `alloc` returns `NULL`, and the tags, the tree, the end of the heap and
    the count of used bytes are as they were. -/
def Refuses (h : Heap) (B : List Tile) (T : ColorTree Entry) (fresh : NewPages) (size alignment : Nat) :
    Prop :=
  ∃ h', h.alloc fresh size alignment = some (0, h') ∧ (∀ b ∈ B, Tagged h'.mem b) ∧
    FreeTree h'.mem h'.memTree T ∧ h'.endAddress = h.endAddress ∧ h'.memUsed = h.memUsed

/-- **An exhausted heap never refuses a request**: it faults on the page behind its end. -/
theorem exhausted_never_refuses (hi : HeapInv h B T) (hb : h.Bounded) {size alignment : Nat}
    {h₁ : Heap}
    (hnone : h.removeNode (getBlockSize size) ⟨if alignment = 0 then 1 else alignment, 0⟩ =
      some (0, h₁)) (hgrow : ¬ CanGrow h (getBlockSize size)) (fresh : NewPages) :
    h.alloc fresh size alignment = none ∧ ¬ Refuses h B T fresh size alignment := by
  have hfault := hi.alloc_fault_of_bounded hb hnone hgrow fresh
  refine ⟨hfault, ?_⟩
  rintro ⟨h', hcall, -⟩
  rw [hfault] at hcall
  exact absurd hcall (by simp)

/-- No page behind a new heap of one page is mapped. -/
theorem pageHeap_bounded (minSize maxSize : Nat) (m : Mem) (tree : RbTree AllocArgs) :
    ((pageHeap.created 0x10000 0x11000 minSize maxSize).withTree m tree).Bounded := by
  intro x hx
  have hx : 0x11000 / frameSize ≤ x := hx
  simp only [frameSize] at hx
  have hpage : (x == 16) = false := by
    rw [beq_eq_false_iff_ne]
    omega
  exact hpage

/-- A heap of one page with 4096 bytes at most has no room for 5000 bytes. -/
theorem exists_exhausted : ∃ h B T h₁, HeapInv h B T ∧ h.Bounded ∧
    h.removeNode (getBlockSize 5000) ⟨if 0 = 0 then 1 else 0, 0⟩ = some (0, h₁) ∧
    ¬ CanGrow h (getBlockSize 5000) := by
  obtain ⟨m₀, tree₀, T₀, -, hi₀⟩ := HeapInv.create pageHeap_canCreate 4096 4096
  obtain ⟨node, m₁, tree₁, T₁, hremove, -, hcases⟩ := hi₀.remove_best (getBlockSize 5000)
  have hsmall : ¬ getBlockSize 5000 ≤ 0x11000 - firstBlock 0x10000 := by decide
  obtain rfl : node = 0 := by
    rcases hcases with ⟨hnode, -⟩ | ⟨pre, c, post, hlist, -, hfree, hle, -⟩
    · exact hnode
    · obtain ⟨-, rfl, -⟩ := eq_of_free_mid (B := []) hlist hfree (by simp) (by simp)
      exact absurd hle hsmall
  have hlimit : ¬ pageUp (0x11000 + getBlockSize 5000) ≤ add32 (firstBlock 0x10000) 4096 := by decide
  exact ⟨_, _, T₀, _, hi₀, pageHeap_bounded _ _ _ _, by rw [if_pos rfl]; exact hremove,
    fun hgrow => hlimit hgrow.end_le⟩

/-- A page that cannot grow, asked for more than it has. -/
theorem exhausted_never_refuses_page : ∃ h B T, HeapInv h B T ∧ h.Bounded ∧
    h.alloc zeroPages 5000 0 = none := by
  obtain ⟨h, B, T, h₁, hi, hb, hnone, hgrow⟩ := exists_exhausted
  exact ⟨h, B, T, hi, hb, (exhausted_never_refuses hi hb hnone hgrow zeroPages).1⟩

/-- The call on this heap does not return. -/
theorem exhausted_faults : ∃ h B T h₁, HeapInv h B T ∧
    h.removeNode (getBlockSize 5000) ⟨if 0 = 0 then 1 else 0, 0⟩ = some (0, h₁) ∧
    ¬ CanGrow h (getBlockSize 5000) ∧ ¬ Refuses h B T zeroPages 5000 0 := by
  obtain ⟨h, B, T, h₁, hi, hb, hnone, hgrow⟩ := exists_exhausted
  refine ⟨h, B, T, h₁, hi, hnone, hgrow, ?_⟩
  rintro ⟨h', hcall, -⟩
  rw [hi.alloc_fault_of_bounded hb hnone hgrow] at hcall
  exact absurd hcall (by simp)

end

end Toutatis
