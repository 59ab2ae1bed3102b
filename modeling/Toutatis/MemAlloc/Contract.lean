import Toutatis.MemAlloc.Exhaust

/-!
# Contraction

The last part of `free`: when the block that is given back ends the heap, `contract` takes whole
pages off the end, and what is left of the block goes back to the tree.

## Key results

- `Heap.contractLoop_spec`: the pages that are taken off
- `HeapInv.free_contract`: `free` with a contraction that leaves nothing or a whole block
- `contraction_keeps_inv_iff`: when the heap is still one afterwards
-/

namespace Toutatis

open ByteMem RedBlack Tiling

section

variable {h : Heap} {m : Mem} {B pre post : List Tile} {b u : Tile} {T : ColorTree Entry}
  {target a : Nat}

/-! ## Pages -/

/-- The page boundary at which the loop of `contract` stops. -/
def pageDown (a : Nat) : Nat := a / frameSize * frameSize

/-- The end of the heap after a contraction to the block at `a`. -/
def Heap.contractEnd (h : Heap) (a : Nat) : Nat := pageDown (h.contractTo a)

/-- **The loop of `contract`** takes pages off until the end is not behind the target. -/
theorem Heap.contractLoop_spec {fuel : Nat} (halign : h.endAddress % frameSize = 0)
    (hlt : h.endAddress < 2 ^ 32) (hle : pageDown target ≤ h.endAddress)
    (hfuel : (h.endAddress - pageDown target) / frameSize ≤ fuel) :
    ∃ present' frames', h.contractLoop target fuel =
        h.grown h.mem present' frames' (pageDown target) ∧
      (∀ x, x < pageDown target / frameSize ∨ h.endAddress / frameSize ≤ x →
        present' x = h.present x) ∧
      ∀ x, pageDown target / frameSize ≤ x → x < h.endAddress / frameSize → present' x = false := by
  have hdown : pageDown target % frameSize = 0 := Nat.mul_mod_left _ _
  induction fuel generalizing h with
  | zero =>
    have hend : h.endAddress = pageDown target := by
      simp only [frameSize] at *
      omega
    refine ⟨h.present, h.frames, ?_, fun _ _ => rfl, fun x h1 h2 => ?_⟩
    · rw [← hend]
      rfl
    · rw [hend] at h2
      omega
  | succ fuel ih =>
    unfold Heap.contractLoop
    -- the target is reached when its page is
    have hmore : target < h.endAddress ↔ pageDown target < h.endAddress := by
      simp only [pageDown, frameSize] at *
      omega
    by_cases hgo : pageDown target < h.endAddress
    · have hstep : pageDown target + frameSize ≤ h.endAddress := by
        simp only [frameSize] at *
        omega
      have hprev : sub32 h.endAddress frameSize = h.endAddress - frameSize :=
        sub32_of_le (by omega) hlt
      have hpage : (h.endAddress - frameSize) / frameSize + 1 = h.endAddress / frameSize := by
        simp only [frameSize] at *
        omega
      rw [if_pos (hmore.mpr hgo), hprev]
      obtain ⟨present', frames', hloop, hsame, hout⟩ :=
        ih (h := { h.freePage with endAddress := h.endAddress - frameSize })
          (by show (h.endAddress - frameSize) % frameSize = 0; simp only [frameSize] at *; omega)
          (by show h.endAddress - frameSize < 2 ^ 32; omega)
          (by show pageDown target ≤ h.endAddress - frameSize; omega)
          (by
            show (h.endAddress - frameSize - pageDown target) / frameSize ≤ fuel
            simp only [frameSize] at *
            omega)
      have hfreed : ∀ x,
          ({ h.freePage with endAddress := h.endAddress - frameSize } : Heap).present x =
            if x = (h.endAddress - frameSize) / frameSize then false else h.present x := by
        intro x
        simp only [Heap.freePage, hprev, Function.update_apply]
      refine ⟨present', frames', hloop, fun x hx => ?_, fun x h1 h2 => ?_⟩
      · rw [hsame x (by show _ ∨ (h.endAddress - frameSize) / frameSize ≤ x; omega), hfreed, if_neg]
        have hfloor := Nat.div_le_div_right (c := frameSize)
          (by omega : pageDown target ≤ h.endAddress - frameSize)
        omega
      · by_cases hlast : x = (h.endAddress - frameSize) / frameSize
        · rw [hsame x (Or.inr (le_of_eq hlast.symm)), hfreed, if_pos hlast]
        · exact hout x h1 (by show x < (h.endAddress - frameSize) / frameSize; omega)
    · have hend : h.endAddress = pageDown target := by omega
      rw [if_neg (fun hno => hgo (hmore.mp hno))]
      refine ⟨h.present, h.frames, ?_, fun _ _ => rfl, fun x h1 h2 => ?_⟩
      · rw [← hend]
        rfl
      · rw [hend] at h2
        omega

/-- Where a contraction ends. -/
theorem Heap.contractEnd_bounds (halign : h.endAddress % frameSize = 0)
    (hlt : h.endAddress < 2 ^ 32) (hstart : h.startAddress ≤ a) (ha : a < h.endAddress)
    (hmin : h.minSize < h.endAddress - h.startAddress) :
    a ≤ h.contractEnd a ∧ h.contractEnd a ≤ h.endAddress := by
  have hup : pageUp a ≤ h.endAddress := by
    simp only [pageUp, frameSize] at *
    omega
  have hround : pageRound a = pageUp a := pageRound_eq (by omega)
  have hle : a ≤ pageUp a := by
    simp only [pageUp, frameSize]
    omega
  unfold Heap.contractEnd Heap.contractTo
  rw [hround, sub32_of_le (by omega) (by omega)]
  split
  · rw [add32_of_lt (by omega)]
    simp only [pageDown, pageUp, frameSize] at *
    omega
  · simp only [pageDown, pageUp, frameSize] at *
    omega

/-- **`contract`** to a block of the heap. -/
theorem Heap.contract_spec (halign : h.endAddress % frameSize = 0)
    (hlt : h.endAddress < 2 ^ 32) (hstart : h.startAddress ≤ a) (ha : a < h.endAddress)
    (hmin : h.minSize < h.endAddress - h.startAddress) :
    ∃ present' frames', h.contract a = (h.contractEnd a,
        h.grown h.mem present' frames' (h.contractEnd a)) ∧
      (∀ x, x < h.contractEnd a / frameSize ∨ h.endAddress / frameSize ≤ x →
        present' x = h.present x) ∧
      ∀ x, h.contractEnd a / frameSize ≤ x → x < h.endAddress / frameSize →
        present' x = false := by
  obtain ⟨-, hle⟩ := Heap.contractEnd_bounds halign hlt hstart ha hmin
  have hfuel : (h.endAddress - pageDown (h.contractTo a)) / frameSize ≤ 2 ^ 20 := by
    simp only [frameSize] at *
    omega
  obtain ⟨present', frames', hloop, hsame, hout⟩ := Heap.contractLoop_spec halign hlt hle hfuel
  refine ⟨present', frames', ?_, hsame, hout⟩
  unfold Heap.contract
  rw [if_neg (by omega), hloop]
  rfl

/-! ## What is left of the block -/

/-- The pages of the heap `h` without those from `stop` on. -/
structure PagesTo (h : Heap) (stop : Nat) (present' : Nat → Bool) : Prop where
  same : ∀ x, x < stop / frameSize ∨ h.endAddress / frameSize ≤ x → present' x = h.present x
  out : ∀ x, stop / frameSize ≤ x → x < h.endAddress / frameSize → present' x = false

/-- The block `u` ends a heap that contracts. -/
structure Trailing (h : Heap) (pre : List Tile) (u : Tile) (T : ColorTree Entry) : Prop
    extends HeapGap h pre [] u.addr u.stop T where
  tags : Tagged h.mem u
  size : minBlockSize ≤ u.size ∧ u.size % 4 = 0
  last : u.stop = h.endAddress
  big : h.minSize < h.endAddress - h.startAddress

theorem Trailing.bounds (ht : Trailing h pre u T) :
    u.addr ≤ h.contractEnd u.addr ∧ h.contractEnd u.addr ≤ h.endAddress := by
  have h28 := ht.size.1
  have hlast := ht.last
  simp only [minBlockSize, Tile.stop] at h28 hlast
  exact Heap.contractEnd_bounds ht.end_aligned ht.end_lt ht.front.le (by omega) ht.big

/-- **The contraction**: the heap ends at a page boundary behind the block or inside it, and the rest
    of the block is what lies in front of that. -/
theorem Trailing.shrink_eq (ht : Trailing h pre u T) :
    ∃ present' frames', PagesTo h (h.contractEnd u.addr) present' ∧
      HeapGap (h.grown h.mem present' frames' (h.contractEnd u.addr)) pre [] u.addr
        (h.contractEnd u.addr) T ∧
      h.shrink u.addr =
        if 0 < h.contractEnd u.addr - u.addr then
          ((h.grown h.mem present' frames' (h.contractEnd u.addr)).setSize u.addr
            (h.contractEnd u.addr - u.addr)).bind fun h₁ => (h₁.markFree u.addr).bind fun h₂ =>
              (h₂.getFooter u.addr).bind fun footer => (h₂.setMagic footer).bind fun h₃ =>
                (h₃.store (add32 footer 4) u.addr).bind fun h₄ => h₄.insertBlock u.addr
        else some (none, h.grown h.mem present' frames' (h.contractEnd u.addr)) := by
  obtain ⟨hle, hend⟩ := ht.bounds
  have hlast := ht.last
  have h28 : 28 ≤ u.size := ht.size.1
  have hstop : u.stop = u.addr + u.size := rfl
  have hlt := ht.end_lt
  have hget : h.getSize u.addr = some u.size :=
    (HeapGap.getFooter_gap (m := h.mem) ht.toHeapGap (le_refl u.addr) (le_refl u.stop) (by omega)
      ht.tags.head.size).1
  obtain ⟨present', frames', hcontract, hsame, hout⟩ :=
    Heap.contract_spec ht.end_aligned hlt ht.front.le (by omega) ht.big
  have hpages : ∀ x, h.base / frameSize ≤ x → x < h.contractEnd u.addr / frameSize →
      present' x = true := by
    intro x h1 h2
    rw [hsame x (Or.inl h2)]
    exact ht.pages x h1 (lt_of_lt_of_le h2 (Nat.div_le_div_right hend))
  refine ⟨present', frames', ⟨hsame, hout⟩, ht.toHeapGap.regrow (fun _ _ => rfl) hle
    (Nat.mul_mod_left _ _) (by omega) hpages, ?_⟩
  -- what is left of the block when the pages behind the new end are gone
  have hremoved : sub32 h.endAddress (h.contractEnd u.addr) = h.endAddress - h.contractEnd u.addr :=
    sub32_of_le hend hlt
  have hrest :
      sub32 u.size (h.endAddress - h.contractEnd u.addr) = h.contractEnd u.addr - u.addr := by
    rw [sub32_of_le (by omega) (by omega)]
    omega
  unfold Heap.shrink
  simp only [Option.bind_eq_bind]
  rw [hget, Option.bind_some, hcontract]
  simp only [hremoved, hrest]

/-- Nothing is left. -/
theorem Trailing.shrink_none (ht : Trailing h pre u T) (hrest : h.contractEnd u.addr = u.addr) :
    ∃ present' frames', PagesTo h u.addr present' ∧
      h.shrink u.addr = some (none, h.grown h.mem present' frames' u.addr) ∧
      HeapGap (h.grown h.mem present' frames' u.addr) pre [] u.addr u.addr T := by
  obtain ⟨present', frames', hpages, hg, hcall⟩ := ht.shrink_eq
  rw [hrest] at hpages hg hcall
  rw [Nat.sub_self, if_neg (Nat.lt_irrefl 0)] at hcall
  exact ⟨present', frames', hpages, hcall, hg⟩

/-- A whole block is left. -/
theorem Trailing.shrink_block (ht : Trailing h pre u T)
    (hrest : u.addr + minBlockSize ≤ h.contractEnd u.addr) :
    ∃ m' tree' present' frames' T', PagesTo h (h.contractEnd u.addr) present' ∧
      h.shrink u.addr = some (none,
        (h.grown h.mem present' frames' (h.contractEnd u.addr)).withTree m' tree') ∧
      HeapGap ((h.grown h.mem present' frames' (h.contractEnd u.addr)).withTree m' tree')
        (pre ++ [⟨u.addr, h.contractEnd u.addr - u.addr, true⟩]) [] (h.contractEnd u.addr)
        (h.contractEnd u.addr) T' ∧
      SameUsed h pre h.mem m' := by
  obtain ⟨-, hend⟩ := ht.bounds
  have hlt := ht.end_lt
  have h28 : u.addr + 28 ≤ h.contractEnd u.addr := hrest
  obtain ⟨present', frames', hpages, hg, hcall⟩ := ht.shrink_eq
  have hmod := hg.aligned
  generalize h.contractEnd u.addr = stop at *
  obtain ⟨H, hH⟩ : ∃ H, H = h.grown h.mem present' frames' stop := ⟨_, rfl⟩
  rw [← hH] at hg hcall
  have hmem : H.mem = h.mem := by rw [hH]; rfl
  have hg₀ : HeapGap (H.withMem h.mem) pre [] u.addr stop T := by
    rw [← hmem]
    exact hg
  -- the size, the mark and the new footer
  obtain ⟨m₁, m₂, h₁, h₂, hfooter, g₂, off₂, hhead⟩ := hg₀.resize_spec (le_refl u.addr)
    (by omega : u.addr + (stop - u.addr) ≤ stop) (by omega)
  rw [Nat.add_sub_cancel' (by omega)] at hfooter
  obtain ⟨m₃, h₃, g₃, off₃, magic₃, -⟩ :=
    g₂.setMagic_spec (by omega : u.addr ≤ stop - 8) (by omega)
  obtain ⟨m₄, h₄, g₄, off₄, header₄⟩ :=
    g₃.store_spec (by omega : u.addr ≤ stop - 4) (by omega) (by omega : u.addr < 2 ^ 32)
  have hlast : (⟨u.addr, stop - u.addr, true⟩ : Tile).stop = stop := by
    simp only [Tile.stop]
    omega
  have htags : Tagged m₄ ⟨u.addr, stop - u.addr, true⟩ := by
    refine ⟨(hhead ht.tags.head.magic).congr fun x h1 h2 => ?_, ?_, ?_⟩
    · have h2 : x < u.addr + 8 := h2
      rw [off₄ x (by omega), off₃ x (by omega)]
    · rw [hlast, ← magic₃]
      exact congrArg checkMagic (load32_congr fun x h1 h2 => off₄ x (by omega))
    · rw [hlast]
      exact header₄
  obtain ⟨m₅, tree₅, T₅, h₅, hlinks, g₅⟩ := g₄.put_front (c := ⟨u.addr, stop - u.addr, true⟩) rfl
    (le_of_eq hlast) ⟨by simp only [minBlockSize]; omega, by simp only; omega⟩ rfl htags
  rw [hlast] at g₅
  refine ⟨m₅, tree₅, present', frames', T₅, hpages, ?_, ?_, ?_⟩
  · have h₁ : H.setSize u.addr (stop - u.addr) = some (H.withMem m₁) := by
      rw [← h₁, ← hmem]
      rfl
    have hsum : add32 (stop - 8) 4 = stop - 4 := by
      rw [add32_of_lt (by omega)]
      omega
    rw [← hH, hcall, if_pos (by omega), h₁, Option.bind_some, h₂, Option.bind_some, hfooter,
      Option.bind_some, h₃, Option.bind_some, hsum, h₄, Option.bind_some]
    unfold Heap.insertBlock
    simp only [Option.bind_eq_bind]
    rw [add32_of_lt (by omega), h₅, Option.bind_some]
    rfl
  · rw [← hH]
    exact g₅
  · -- all stores go to the block or to links
    have hoff : ∀ x, x < u.addr ∨ stop ≤ x → m₄ x = h.mem x := by
      intro x hx
      rw [off₄ x (by omega), off₃ x (by omega), off₂ x (by omega)]
    have hsame : SameUsed H (pre ++ []) h.mem m₅ :=
      (hg₀.sameUsed_write hoff).trans ((g₅.sameUsed_links hlinks).mono fun c hc _ => by
        simp only [List.append_nil, List.mem_append] at hc ⊢
        exact Or.inl hc)
    rw [List.append_nil] at hsame
    have hstart : h.startAddress = H.startAddress := by rw [hH]; rfl
    have hstop : H.endAddress = stop := by rw [hH]; rfl
    exact hsame.grow hstart (by omega)

/-- **Less than a block is left.** Then its size or the links of its node cannot be stored, or the
    node goes into the tree all the same: in no case is there a heap afterwards. -/
theorem Trailing.shrink_small (ht : Trailing h pre u T) (hpos : u.addr < h.contractEnd u.addr)
    (hsmall : h.contractEnd u.addr < u.addr + minBlockSize) {e : Option HeapError} {h' : Heap}
    (hcall : h.shrink u.addr = some (e, h')) {B' : List Tile} {T' : ColorTree Entry} :
    ¬ HeapInv h' B' T' := by
  have hlt := ht.end_lt
  have hlast := ht.last
  have h28 : 28 ≤ u.size := ht.size.1
  have hustop : u.stop = u.addr + u.size := rfl
  have hsmall : h.contractEnd u.addr < u.addr + 28 := hsmall
  have hbase := ht.base_le
  have hfl := ht.front.le
  obtain ⟨present', frames', hpages, hg, hshrink⟩ := ht.shrink_eq
  have hmod := hg.aligned
  have hframe : h.contractEnd u.addr % frameSize = 0 := Nat.mul_mod_left _ _
  have hendmod := ht.end_aligned
  rw [hcall, if_pos (by omega)] at hshrink
  generalize h.contractEnd u.addr = stop at *
  obtain ⟨H, hH⟩ : ∃ H, H = h.grown h.mem present' frames' stop := ⟨_, rfl⟩
  rw [← hH] at hg hshrink
  have hmem : H.mem = h.mem := by rw [hH]; rfl
  have hg₀ : HeapGap (H.withMem h.mem) pre [] u.addr stop T := by
    rw [← hmem]
    exact hg
  intro hinv
  by_cases hfour : stop = u.addr + 4
  · -- the word of the size lies behind the end
    have hout : H.present ((u.addr + 4) / frameSize) = false := by
      rw [hH]
      refine hpages.out _ (by rw [hfour]) ?_
      simp only [frameSize] at *
      omega
    have hsize : H.setSize u.addr (stop - u.addr) = none := by
      unfold Heap.setSize
      rw [add32_of_lt (by omega)]
      exact Heap.store_fault hout _
    rw [hsize, Option.bind_none] at hshrink
    exact absurd hshrink (by simp)
  · obtain ⟨m₁, m₂, h₁, h₂, hfooter, g₂, -⟩ := hg₀.resize_spec (le_refl u.addr)
      (by omega : u.addr + (stop - u.addr) ≤ stop) (by omega)
    rw [Nat.add_sub_cancel' (by omega)] at hfooter
    obtain ⟨m₃, h₃, g₃, -⟩ := g₂.setMagic_spec (by omega : u.addr ≤ stop - 8) (by omega)
    obtain ⟨m₄, h₄, g₄, -⟩ :=
      g₃.store_spec (by omega : u.addr ≤ stop - 4) (by omega) (by omega : u.addr < 2 ^ 32)
    -- the node is one that the tree can take, wherever the heap ends
    have hN : NodesOk ((u.addr + 4) :: treeNodes T) := by
      refine nodesOk_cons g₄.tree.nodes (by omega) (by omega) (by omega) fun a ha => ?_
      obtain ⟨d, hd, -, rfl⟩ := (g₄.nodes a).mp ha
      rw [List.append_nil] at hd
      have hplace := g₄.front.bounds hd
      have hdsize := (g₄.sizes d (by simp [hd])).1
      simp only [Tile.stop, minBlockSize] at *
      omega
    obtain ⟨m₅, tree₅, T₅, dup, hins, hv, hnew, -⟩ := g₄.tree.insert hN
    have hfault : ¬ (H.withMem m₄).NodeMapped (u.addr + 4) →
        (H.withMem m₄).insertBlock u.addr = none := by
      intro hno
      simp only [Heap.insertBlock, Option.bind_eq_bind]
      rw [add32_of_lt (by omega), Heap.insertNode, if_pos ⟨by omega, hno⟩, Option.bind_none]
    have hinsert : (H.withMem m₄).NodeMapped (u.addr + 4) → (H.withMem m₄).insertBlock u.addr =
        some (none, (H.withMem m₄).withTree m₅ tree₅) := by
      intro hmap
      simp only [Heap.insertBlock, Option.bind_eq_bind]
      rw [add32_of_lt (by omega), Heap.insertNode_eq hmap hins, Option.bind_some]
      rfl
    have hsum : add32 (stop - 8) 4 = stop - 4 := by
      rw [add32_of_lt (by omega)]
      omega
    have h₁ : H.setSize u.addr (stop - u.addr) = some (H.withMem m₁) := by
      rw [← h₁, ← hmem]
      rfl
    rw [h₁, Option.bind_some, h₂, Option.bind_some, hfooter, Option.bind_some, h₃, Option.bind_some,
      hsum, h₄, Option.bind_some] at hshrink
    -- with 8, 12 or 16 bytes the links of the node lie behind the end
    by_cases hmap : (H.withMem m₄).NodeMapped (u.addr + 4)
    swap
    · rw [hfault hmap] at hshrink
      exact absurd hshrink (by simp)
    rw [hinsert hmap, Option.some.injEq, Prod.mk.injEq] at hshrink
    obtain ⟨-, rfl⟩ := hshrink
    -- a block at the address of the node would be too small
    have hnode : u.addr + 4 ∈ treeNodes T' := by
      have hreach := hv.reachable_iff.mpr (hnew.perm_treeNodes.mem_iff.mpr List.mem_cons_self)
      exact hinv.tree.reachable_iff.mp hreach
    obtain ⟨d, hd, -, haddr⟩ := (hinv.nodes _).mp hnode
    have hin := hinv.inside hd
    have hstop : ((H.withMem m₄).withTree m₅ tree₅).endAddress = stop := by rw [hH]; rfl
    have hdle := hin.stop_le
    have hdlen := hin.stop_eq
    omega

/-! ## The whole call -/

/-- What the contraction leaves of the block is nothing or a whole block. -/
def Heap.ContractsClean (h : Heap) (B : List Tile) (b : Tile) : Prop :=
  ∀ B' u, Coalesced b B B' u →
    h.contractEnd u.addr = u.addr ∨ u.addr + minBlockSize ≤ h.contractEnd u.addr

/-- **`free` up to the contraction**, for a block that is not the last one. -/
theorem HeapInv.free_trailing (hi : HeapInv h (pre ++ b :: post) T) (hused : b.free = false)
    (hpost : post ≠ []) (hcon : h.FreeContracts (pre ++ b :: post) b) :
    ∃ m' tree' T' u pre', (∀ contraction, h.freeWith contraction (b.addr + 8) =
        contraction ((h.withTree m' tree').withUsed (usedSize (pre ++ post))) u.addr) ∧
      Trailing ((h.withTree m' tree').withUsed (usedSize (pre ++ post))) pre' u T' ∧
      Coalesced b (pre ++ b :: post) (pre' ++ [u]) u ∧ SameUsed h (pre ++ post) h.mem m' := by
  obtain ⟨m₁, tree₁, T₁, u, pre₁, post₁, hcall, hg, htags, hfree, hsize, hco, hsame, -⟩ :=
    hi.coalesce_spec hused hpost
  obtain ⟨hmin, B', u', hco', hlast⟩ := hcon
  obtain rfl := hco'.unique hco hi.noFreePair hi.tiles
  -- nothing lies behind the merged block
  have hnil : post₁ = [] := by
    have hback : Tiles u'.stop h.endAddress post₁ := hg.back
    rw [hlast] at hback
    cases post₁ with
    | nil => rfl
    | cons c post₁ =>
      have := hback.2.2.le
      have := hback.2.1
      omega
  subst hnil
  have hg := hg.setUsed (usedSize (pre ++ post))
  have ht : Trailing ((h.withTree m₁ tree₁).withUsed (usedSize (pre ++ post))) pre₁ u' T₁ :=
    ⟨hg, htags, hsize, hlast, hmin⟩
  refine ⟨m₁, tree₁, T₁, u', pre₁, ?_, ht, hco, hsame⟩
  have hbase := hg.base_le
  have hfl := hg.front.le
  have hlt : h.endAddress < 2 ^ 32 := hi.end_lt
  have hin : Inside ((h.withTree m₁ tree₁).withUsed (usedSize (pre ++ post))) u' :=
    ⟨by omega, le_of_eq hlast, hsize.1⟩
  have hlen := hin.stop_eq
  have hbranch : ((h.withTree m₁ tree₁).withUsed (usedSize (pre ++ post))).Contracts
      (u'.stop - 8) := by
    refine ⟨?_, ?_⟩
    · show add32 (u'.stop - 8) 8 = h.endAddress
      rw [add32_of_lt (by omega)]
      omega
    · show h.minSize < sub32 h.endAddress h.startAddress
      rw [sub32_of_le hi.tiles.le hlt]
      exact hmin
  intro contraction
  rw [hcall]
  unfold Heap.giveBackWith
  simp only [Option.bind_eq_bind]
  rw [Heap.getFooter_eq hg.toGrounds hin htags.head, Option.bind_some, if_pos hbranch]

/-- What a contraction does to the heap: it ends at a page boundary that is not below the block `u`,
    and all other blocks are as they were. -/
structure Contracted (h : Heap) (B : List Tile) (b u : Tile) (h' : Heap) (B' : List Tile) : Prop where
  union : ∃ C, Coalesced b B C u
  last : u.stop = h.endAddress
  stop : h'.endAddress = h.contractEnd u.addr
  limits : SameLimits h h'
  pages : PagesTo h (h.contractEnd u.addr) h'.present
  used : ∀ x, x.free = false → (x ∈ B' ↔ x ∈ B ∧ x ≠ b)
  same : ∀ x < 2 ^ 32, (∃ c ∈ B, c.free = false ∧ c ≠ b ∧ c.Has x) → h'.mem x = h.mem x

/-- **`free` with a contraction** that leaves nothing of the block, or a whole one. -/
theorem HeapInv.free_contract (hi : HeapInv h B T) (hb : b ∈ B) (hused : b.free = false)
    (hlast : b.stop ≠ h.endAddress) (hcon : h.FreeContracts B b) (hclean : h.ContractsClean B b) :
    ∃ h' B' T' u, h.free (b.addr + 8) = some (none, h') ∧ HeapInv h' B' T' ∧
      Contracted h B b u h' B' := by
  obtain ⟨pre, post, rfl⟩ := List.append_of_mem hb
  have hpost : post ≠ [] := by
    rintro rfl
    exact hlast hi.tiles.split.2.2
  obtain ⟨m₁, tree₁, T₁, u, pre₁, hcall, ht, hco, hsame₁⟩ := hi.free_trailing hused hpost hcon
  have hcall := hcall Heap.shrink
  rw [Heap.freeWith_shrink] at hcall
  have hufree := hco.union_free
  have hulast : u.stop = h.endAddress := ht.last
  have hend := hi.end_lt
  obtain ⟨H, hH⟩ : ∃ H, H = (h.withTree m₁ tree₁).withUsed (usedSize (pre ++ post)) := ⟨_, rfl⟩
  rw [← hH] at hcall ht
  have hstop : H.contractEnd u.addr = h.contractEnd u.addr := by rw [hH]; rfl
  -- the blocks in front stay, with the same count of used bytes
  have hpair : NoFreePair (pre₁ ++ [u]) := by
    rw [hco.eq_merge hi.noFreePair hi.tiles.nodup_addr]
    exact noFreePair_merge _
  obtain ⟨hfront, hborder, -⟩ := hpair.around hufree
  have hcount : H.memUsed = usedSize pre₁ := by
    have hdrop := hco.usedSize_eq hused
    rw [hH]
    simp only [Heap.withUsed, usedSize_append, usedSize_cons, usedSize_nil, hused, hufree,
      Bool.false_eq_true, if_false, if_true] at hdrop ⊢
    omega
  have hkept : ∀ x, x.free = false → (x ∈ pre₁ ↔ x ∈ pre ++ b :: post ∧ x ≠ b) := by
    intro x hx
    rw [← hco.mem_used_iff hi.tiles hx, mem_concat_used hx hufree]
  have hbefore : ∀ x < 2 ^ 32, (∃ c ∈ pre ++ b :: post, c.free = false ∧ c ≠ b ∧ c.Has x) →
      m₁ x = h.mem x := by
    rintro x hx ⟨c, hc, hcused, hcb, hplace⟩
    refine hsame₁ x hx (Or.inr (Or.inr ⟨c, ?_, hcused, hplace⟩))
    simp only [List.mem_append, List.mem_cons] at hc ⊢
    tauto
  have hHmem : H.mem = m₁ := by rw [hH]; rfl
  have hpagesEq : ∀ stop present, PagesTo H stop present → PagesTo h stop present := by
    rw [hH]
    exact fun _ _ hp => ⟨hp.same, hp.out⟩
  rcases hclean _ u hco with hnone | hblock
  · obtain ⟨present', frames', hpages, hshrink, hg⟩ := ht.shrink_none (hstop.trans hnone)
    have hinv := hg.close (by rw [List.append_nil]; exact hfront)
      (by rw [List.append_nil]; exact hcount)
    rw [List.append_nil] at hinv
    refine ⟨_, pre₁, T₁, u, hcall.trans hshrink, hinv,
      ⟨⟨_, hco⟩, hulast, hnone.symm, ?_, ?_, hkept, ?_⟩⟩
    · rw [hH]
      exact ⟨rfl, rfl, rfl, rfl⟩
    · rw [hnone]
      exact hpagesEq _ _ hpages
    · intro x hx hplace
      show H.mem x = h.mem x
      rw [hHmem]
      exact hbefore x hx hplace
  · obtain ⟨m₂, tree₂, present', frames', T₂, hpages, hshrink, hg, hsame₂⟩ :=
      ht.shrink_block (by rw [hstop]; exact hblock)
    rw [hstop] at hpages hshrink hg
    have hinv := hg.close (by
        rw [List.append_nil]
        refine List.isChain_append.mpr ⟨hfront, List.isChain_singleton _, fun x hx y _ => ?_⟩
        rw [hborder x hx]
        simp) (by
        rw [List.append_nil]
        refine Eq.trans hcount ?_
        simp [usedSize_append, usedSize_cons])
    rw [List.append_nil] at hinv
    refine ⟨_, _, T₂, u, hcall.trans hshrink, hinv, ⟨⟨_, hco⟩, hulast, rfl, ?_, hpagesEq _ _ hpages,
      fun x hx => (mem_concat_used hx rfl).trans (hkept x hx), ?_⟩⟩
    · rw [hH]
      exact ⟨rfl, rfl, rfl, rfl⟩
    · intro x hx hplace
      show m₂ x = h.mem x
      obtain ⟨c, hc, hcused, hcb, hplace'⟩ := hplace
      rw [hsame₂ x hx (Or.inr (Or.inr ⟨c, (hkept c hcused).mpr ⟨hc, hcb⟩, hcused, hplace'⟩)), hHmem]
      exact hbefore x hx ⟨c, hc, hcused, hcb, hplace'⟩

/-- A contraction that leaves less than a block leaves no heap. -/
theorem HeapInv.free_unclean (hi : HeapInv h B T) (hb : b ∈ B) (hused : b.free = false)
    (hlast : b.stop ≠ h.endAddress) (hcon : h.FreeContracts B b) (hclean : ¬ h.ContractsClean B b)
    {e : Option HeapError} {h' : Heap} (hcall : h.free (b.addr + 8) = some (e, h')) {B' : List Tile}
    {T' : ColorTree Entry} : ¬ HeapInv h' B' T' := by
  obtain ⟨pre, post, rfl⟩ := List.append_of_mem hb
  have hpost : post ≠ [] := by
    rintro rfl
    exact hlast hi.tiles.split.2.2
  obtain ⟨m₁, tree₁, T₁, u, pre₁, hshrink, ht, hco, -⟩ := hi.free_trailing hused hpost hcon
  have hle := ht.bounds.1
  have hrest : u.addr < h.contractEnd u.addr ∧ h.contractEnd u.addr < u.addr + minBlockSize := by
    by_contra hnot
    refine hclean fun C v hv => ?_
    rw [hv.unique hco hi.noFreePair hi.tiles]
    have hle : u.addr ≤ h.contractEnd u.addr := hle
    omega
  exact ht.shrink_small hrest.1 hrest.2 ((hshrink Heap.shrink).symm.trans hcall)

/-- The block behind the last one is looked for where no page is mapped. -/
theorem HeapInv.free_last_fault (hi : HeapInv h B T) (hb : b ∈ B) (hused : b.free = false)
    (hlast : b.stop = h.endAddress) (hout : h.present (h.endAddress / frameSize) = false)
    (contraction : Heap → Nat → Option (Option HeapError × Heap)) :
    h.freeWith contraction (b.addr + 8) = none := by
  have hin := hi.inside hb
  have hlen := hin.stop_eq
  have hend := hi.end_lt
  have halign := hi.end_aligned
  obtain ⟨pre, post, rfl⟩ := List.append_of_mem hb
  obtain ⟨m', hrelease, hg, -, htags⟩ := hi.release_eq hused
  obtain ⟨H, hH⟩ : ∃ H, H = (h.withMem m').withUsed (usedSize (pre ++ post)) := ⟨_, rfl⟩
  rw [← hH] at hrelease
  have hg : Grounds H := by
    rw [hH]
    exact (hg.setUsed _).toGrounds
  have hin' : Inside H ⟨b.addr, b.size, true⟩ := by
    rw [hH]
    exact ⟨hin.base_le, hin.stop_le, hin.size_le⟩
  have htags' : Tagged H.mem ⟨b.addr, b.size, true⟩ := by
    rw [hH]
    exact htags
  have hnext := Heap.getNextBlock_eq hg hin' htags'.head
  have hstop : (⟨b.addr, b.size, true⟩ : Tile).stop = h.endAddress := hlast
  rw [hstop] at hnext
  have hnext : H.getNextBlock b.addr = some h.endAddress := hnext
  -- the test for a right neighbour loads a word behind the end of the heap
  have hnone : H.rightFree h.endAddress = none := by
    have h4 : h.endAddress + 4 < 2 ^ 32 := by
      simp only [frameSize] at halign
      omega
    have hsame : (h.endAddress + 4) / frameSize = h.endAddress / frameSize := by
      simp only [frameSize] at *
      omega
    have hpage : H.present ((h.endAddress + 4) / frameSize) = false := by
      rw [hH, hsame]
      exact hout
    have hload : H.load (h.endAddress + 4) = none := by
      refine if_neg fun hmapped => ?_
      rw [hmapped.1] at hpage
      exact absurd hpage (by decide)
    simp only [Heap.rightFree, Heap.getSize, Option.bind_eq_bind]
    rw [add32_of_lt h4, hload, Option.bind_none]
  have hmerge : H.coalesce b.addr = none := by
    simp only [Heap.coalesce, Heap.mergeRight, Option.bind_eq_bind]
    rw [hnext, Option.bind_some, hnone, Option.bind_none, Option.bind_none]
  have hsub : sub32 (b.addr + 8) 8 = b.addr := by
    rw [sub32_of_le (by omega) (by omega), Nat.add_sub_cancel]
  unfold Heap.freeWith
  rw [if_neg (by omega), hsub]
  simp only [Option.bind_eq_bind]
  rw [hrelease, Option.bind_some]
  simp only [Option.isSome_none, Bool.false_eq_true, if_false]
  rw [hmerge, Option.bind_none]

/-- `free` returns, and there is a heap afterwards. -/
def Heap.KeepsHeap (h : Heap) (p : Nat) : Prop :=
  ∃ e h' B' T', h.free p = some (e, h') ∧ HeapInv h' B' T'

/-- **Contractions.** For every live block whose `free` contracts the heap, the invariant holds again
    afterwards if and only if the block is not the last one, so that the test for its right neighbour
    stays inside the heap, and the new end leaves nothing of it and its free neighbours or at least
    `MIN_BLOCK_SIZE` bytes. -/
theorem contraction_keeps_inv_iff (hi : HeapInv h B T) (hb : b ∈ B) (hused : b.free = false)
    (hcon : h.FreeContracts B b) (hbound : b.stop = h.endAddress → h.Bounded) :
    h.KeepsHeap (b.addr + 8) ↔ b.stop ≠ h.endAddress ∧ h.ContractsClean B b := by
  constructor
  · rintro ⟨e, h', B', T', hcall, hinv⟩
    have hlast : b.stop ≠ h.endAddress := by
      intro hlast
      rw [← Heap.freeWith_shrink,
        hi.free_last_fault hb hused hlast (hbound hlast _ (le_refl _))] at hcall
      exact absurd hcall (by simp)
    refine ⟨hlast, ?_⟩
    by_contra hclean
    exact hi.free_unclean hb hused hlast hcon hclean hcall hinv
  · rintro ⟨hlast, hclean⟩
    obtain ⟨h', B', T', u, hcall, hinv, -⟩ := hi.free_contract hb hused hlast hcon hclean
    exact ⟨none, h', B', T', hcall, hinv⟩

/-! ## A heap of two pages -/

/-- Two mapped pages at `0x10000`, all zero. -/
def twoPages : Heap :=
  ⟨fun _ => 0, fun x => x == 16 || x == 17, ⟨8, fun x => x⟩, 0, ⟨0, 0, 0, compare, selectDup⟩,
    0, 0, 0, 0, 0⟩

theorem twoPages_canCreate : CanCreate twoPages 0x10000 0x12000 := by
  refine ⟨by decide, by decide, by decide, by decide, by decide, fun x h1 h2 => ?_, by decide⟩
  simp only [frameSize] at h1 h2
  simp only [twoPages, Bool.or_eq_true, beq_iff_eq]
  omega

/-- The blocks after two requests. -/
def twoTaken (first : Nat) : List Tile :=
  [⟨65604, first, false⟩, ⟨65604 + first, 28, false⟩, ⟨65632 + first, 8096 - first, true⟩]

/-- A request of any size, then one of 12 bytes, in a new heap of two pages. -/
theorem exists_twoTaken {size : Nat} (minSize : Nat)
    (hsize : getBlockSize size + 28 + minBlockSize ≤ 8124) :
    ∃ h₀ h₁ h T, twoPages.create 0x10000 0x12000 minSize 0x100000 = some (some h₀) ∧
      h₀.alloc zeroPages size 0 = some (65612, h₁) ∧
      h₁.alloc zeroPages 12 0 = some (65612 + getBlockSize size, h) ∧
      HeapInv h (twoTaken (getBlockSize size)) T ∧ h.endAddress = 73728 ∧
      h.startAddress = 65604 ∧ h.minSize = minSize := by
  have hreq28 : 28 ≤ getBlockSize size := (requestOk_getBlockSize size).1
  simp only [minBlockSize] at hsize
  obtain ⟨m₀, tree₀, T₀, hcreate, hi₀⟩ := HeapInv.create twoPages_canCreate minSize 0x100000
  -- the first request cuts the one free block of the new heap
  obtain ⟨h₁, T₁, hi₁, hend₁, hstart₁, hmin₁, hcall₁⟩ := HeapInv.alloc_last (B := []) hi₀
    (by simp) rfl (show getBlockSize size ≤ 0x12000 - firstBlock 0x10000 by
      rw [show firstBlock 0x10000 = 65604 by decide]
      omega)
  have hcut₁ : cut minBlockSize ⟨firstBlock 0x10000, 0x12000 - firstBlock 0x10000, true⟩
      (getBlockSize size) = [⟨65604, getBlockSize size, false⟩,
        ⟨65604 + getBlockSize size, 8124 - getBlockSize size, true⟩] := by
    rw [show firstBlock 0x10000 = 65604 by decide, cut, if_pos (by simp only [minBlockSize]; omega)]
  rw [List.nil_append, hcut₁] at hi₁
  -- the second one cuts what the first has left
  obtain ⟨h₂, T₂, hi₂, hend₂, hstart₂, hmin₂, hcall₂⟩ :=
    HeapInv.alloc_last (B := [⟨65604, getBlockSize size, false⟩])
      (b := ⟨65604 + getBlockSize size, 8124 - getBlockSize size, true⟩) hi₁ (by simp) rfl
      (show getBlockSize 12 ≤ 8124 - getBlockSize size by
        rw [show getBlockSize 12 = 28 by decide]
        omega)
  have hcut₂ : [⟨65604, getBlockSize size, false⟩] ++ cut minBlockSize
      ⟨65604 + getBlockSize size, 8124 - getBlockSize size, true⟩ (getBlockSize 12) =
        twoTaken (getBlockSize size) := by
    rw [show getBlockSize 12 = 28 by decide, cut, if_pos (by simp only [minBlockSize]; omega),
      twoTaken]
    simp only [List.cons_append, List.nil_append, List.cons.injEq, Tile.mk.injEq, and_true,
      true_and]
    omega
  rw [hcut₂] at hi₂
  refine ⟨_, h₁, h₂, T₂, hcreate, hcall₁, ?_, hi₂, ?_, ?_, ?_⟩
  · rw [hcall₂]
    exact congrArg (fun p => some (p, h₂)) (by simp only; omega)
  · rw [hend₂, hend₁]
    rfl
  · rw [hstart₂, hstart₁]
    exact (by decide : firstBlock 0x10000 = 65604)
  · rw [hmin₂, hmin₁]
    rfl

/-- The second block and the free one behind it. -/
theorem twoTaken_coalesced {first : Nat} (hfirst : first + 28 ≤ 8096) :
    Coalesced ⟨65604 + first, 28, false⟩ (twoTaken first)
      ([⟨65604, first, false⟩] ++ [⟨65604 + first, 8124 - first, true⟩])
      ⟨65604 + first, 8124 - first, true⟩ := by
  have htiles : Tiles (65604 + first) (65604 + first + (8124 - first))
      [⟨65604 + first, 28, false⟩, ⟨65632 + first, 8096 - first, true⟩] := by
    simp only [Tiles, true_and]
    omega
  show Coalesced _ ([⟨65604, first, false⟩] ++ ([] ++ ⟨65604 + first, 28, false⟩ ::
    [⟨65632 + first, 8096 - first, true⟩]) ++ []) ([⟨65604, first, false⟩] ++ _ :: []) _
  exact Coalesced.mk (by simp) (by simp) (by simp) (by simp) (by simp) htiles rfl

/-- A contraction in a heap of two pages that leaves 4000 bytes of the block. -/
theorem contraction_keeps_inv_iff_two : ∃ h T, HeapInv h (twoTaken 28) T ∧
    h.FreeContracts (twoTaken 28) ⟨65632, 28, false⟩ ∧ h.KeepsHeap 65640 := by
  obtain ⟨_, _, h, T, -, -, -, hi, hend, hstart, hmin⟩ := exists_twoTaken 1024
    (by decide : getBlockSize 12 + 28 + minBlockSize ≤ 8124)
  have hco := twoTaken_coalesced (by decide : 28 + 28 ≤ 8096)
  have hcon : h.FreeContracts (twoTaken 28) ⟨65632, 28, false⟩ :=
    ⟨by omega, _, _, hco, hend.symm⟩
  refine ⟨h, T, hi, hcon, (contraction_keeps_inv_iff hi (by decide) rfl hcon ?_).mpr ⟨?_, ?_⟩⟩
  · intro hlast
    rw [hend] at hlast
    exact absurd hlast (by decide)
  · rw [hend]
    decide
  · intro C u hu
    rw [hu.unique hco hi.noFreePair hi.tiles]
    right
    simp only [Heap.contractEnd, Heap.contractTo, hstart, hmin]
    decide

/-- The first request ends 4 bytes in front of the second page, and the second block starts there:
    when it is given back, the word of its new size is not mapped any more. -/
theorem contraction_leaves_fragment : ∃ h T, HeapInv h (twoTaken 4024) T ∧
    h.FreeContracts (twoTaken 4024) ⟨69628, 28, false⟩ ∧ ¬ h.KeepsHeap 69636 := by
  obtain ⟨_, _, h, T, -, -, -, hi, hend, hstart, hmin⟩ := exists_twoTaken 1024
    (by decide : getBlockSize 4008 + 28 + minBlockSize ≤ 8124)
  have hco := twoTaken_coalesced (by decide : 4024 + 28 ≤ 8096)
  have hcon : h.FreeContracts (twoTaken 4024) ⟨69628, 28, false⟩ :=
    ⟨by omega, _, _, hco, hend.symm⟩
  refine ⟨h, T, hi, hcon, ?_⟩
  rintro ⟨e, h', B', T', hcall, hinv⟩
  refine hi.free_unclean (b := ⟨69628, 28, false⟩) (by decide) rfl ?_ hcon ?_ hcall hinv
  · rw [hend]
    decide
  · intro hclean
    have hrest := hclean _ _ hco
    simp only [Heap.contractEnd, Heap.contractTo, hstart, hmin] at hrest
    exact absurd hrest (by decide)

end

end Toutatis
