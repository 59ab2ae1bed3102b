import Toutatis.MemAlloc.Aligned
import Toutatis.MemAlloc.Exhaust

/-!
# Requests in full

Whether the block behind the pointer that `alloc` returns has the bytes that were asked for. Two
sums can go wrong. The size of the block is computed in 32 bits, and wraps around for the largest
requests. And the search accepts a block that is smaller than the padding in front of the aligned
pointer, so that the pointer leaves the block, or has too little behind it.

## Key results

- `HeapInv.takes_block`: every call that returns takes a free block, after as many
  expansions as it needs
- `served_in_full_iff`: when the pointer has its block inside of that one
-/

namespace Toutatis

open ByteMem RedBlack Tiling

/-! ## The block that is taken -/

/-- `c` is the free block for a request of `requested` bytes after `n` expansions: the first
    duplicate of the last match on the search path in the tree, or that match when it has none. A
    heap whose tree has no match is expanded. -/
def Heap.TakesAfter (fresh : NewPages) (requested alignment : Nat) (c : Tile) : (n : Nat) → Heap → Prop
  | 0, h => ∃ B T e, HeapInv h B T ∧ c ∈ B ∧ c.free = true ∧
      bestMatch T requested (some ⟨alignment, 0⟩) = some e ∧ c.addr + 4 = fitNode e
  | n + 1, h => ∃ h₁ h₂, h.removeNode requested ⟨alignment, 0⟩ = some (0, h₁) ∧
      (h₁.expand fresh (add32 h₁.endAddress requested)).addHole h₁.endAddress = some (none, h₂) ∧
      Heap.TakesAfter fresh requested alignment c n h₂

/-- The pointer `p` has its block in the free block `c`: the size of the block leaves room for `size`
    bytes between the header and the footer, and it lies inside of `c`. -/
structure Usable (h' : Heap) (c : Tile) (size p : Nat) : Prop where
  room : size + 16 ≤ getBlockSize size
  above : c.addr + 8 ≤ p
  within : BlockWithin h' p (getBlockSize size) c.stop

section

variable {h h' h₁ : Heap} {B : List Tile} {c : Tile} {T : ColorTree Entry} {fresh : NewPages}
  {alignment requested size p : Nat}

/-- The search takes what the tree matches. -/
theorem HeapInv.remove_match (hi : HeapInv h B T) (requested alignment : Nat) :
    ∃ h₁, h.removeNode requested ⟨alignment, 0⟩ =
      some (((bestMatch T requested (some ⟨alignment, 0⟩)).map fitNode).getD 0, h₁) := by
  obtain ⟨m', tree', T', -, hr, -⟩ := hi.tree.remove requested (some ⟨alignment, 0⟩)
  rw [removedNode_fit hi.tree] at hr
  refine ⟨h.withTree m' tree', Heap.removeNode_eq (fun h0 => ?_) hr⟩
  cases hmatch : bestMatch T requested (some ⟨alignment, 0⟩) with
  | none =>
    rw [hmatch] at h0
    exact absurd rfl h0
  | some e =>
    have he := (lastMatch_mem hmatch).1
    exact hi.nodeMapped (mem_treeNodes_iff.mpr ⟨e, he, fitNode_mem e⟩)

/-- A match is taken out of the tree. -/
theorem HeapInv.remove_some (hi : HeapInv h B T) {e : Entry}
    (hmatch : bestMatch T requested (some ⟨alignment, 0⟩) = some e) :
    ∃ h₁, h.removeNode requested ⟨alignment, 0⟩ = some (fitNode e, h₁) := by
  obtain ⟨h₁, htake⟩ := hi.remove_match requested alignment
  rw [hmatch] at htake
  exact ⟨h₁, htake⟩

/-- A block that the search has taken is the one that the tree matches. -/
theorem HeapInv.match_of_remove (hi : HeapInv h B T)
    (htake : h.removeNode requested ⟨alignment, 0⟩ = some (c.addr + 4, h₁)) :
    ∃ e, bestMatch T requested (some ⟨alignment, 0⟩) = some e ∧ c.addr + 4 = fitNode e := by
  obtain ⟨h₂, htake₂⟩ := hi.remove_match requested alignment
  have hnode := (Prod.mk.inj (Option.some.inj (htake.symm.trans htake₂))).1
  cases hmatch : bestMatch T requested (some ⟨alignment, 0⟩) with
  | none =>
    rw [hmatch] at hnode
    exact absurd hnode (Nat.succ_ne_zero _)
  | some e =>
    rw [hmatch] at hnode
    exact ⟨e, rfl, hnode⟩

/-- The request is served without an expansion. -/
theorem HeapInv.takes_now (hi : HeapInv h B T) (hc : c ∈ B) (hfree : c.free = true)
    (htake : h.removeNode requested ⟨alignment, 0⟩ = some (c.addr + 4, h₁)) (fresh : NewPages) :
    h.TakesAfter fresh requested alignment c 0 := by
  obtain ⟨e, hmatch, hat⟩ := hi.match_of_remove htake
  exact ⟨B, T, e, hi, hc, hfree, hmatch, hat⟩

/-- Blocks at one address have one size, the word of the header. -/
theorem HeapInv.size_eq {B' : List Tile} {T' : ColorTree Entry} {c' : Tile} (hi : HeapInv h B T)
    (hi' : HeapInv h B' T') (hc : c ∈ B) (hc' : c' ∈ B') (haddr : c.addr = c'.addr) :
    c.size = c'.size := by
  have hword := (hi.tagged c hc).head.size
  have hword' := (hi'.tagged c' hc').head.size
  rw [haddr, hword'] at hword
  exact hword.symm

/-- The block is the only one: the search is a function, and the header has its size. -/
theorem Heap.TakesAfter.unique {n n' : Nat} {c' : Tile}
    (htakes : h.TakesAfter fresh requested alignment c n)
    (htakes' : h.TakesAfter fresh requested alignment c' n') : c = c' := by
  induction n generalizing h n' with
  | zero =>
    obtain ⟨B, T, e, hi, hc, hfree, hmatch, hat⟩ := htakes
    obtain ⟨h₁, htake⟩ := hi.remove_some hmatch
    cases n' with
    | zero =>
      -- both searches end here, and the words of the header tell the block
      obtain ⟨B', T', e', hi', hc', hfree', hmatch', hat'⟩ := htakes'
      obtain ⟨h₂, htake'⟩ := hi'.remove_some hmatch'
      have hnode := (Prod.mk.inj (Option.some.inj (htake.symm.trans htake'))).1
      have haddr : c.addr = c'.addr := by omega
      have hsize := hi.size_eq hi' hc hc' haddr
      cases c
      cases c'
      simp_all
    | succ n' =>
      -- a search that goes on has found no block
      obtain ⟨h₂, -, htake', -⟩ := htakes'
      have := (Prod.mk.inj (Option.some.inj (htake.symm.trans htake'))).1
      omega
  | succ n ih =>
    obtain ⟨h₁, h₂, htake, hhole, hmore⟩ := htakes
    cases n' with
    | zero =>
      -- conversely
      obtain ⟨B', T', e', hi', -, -, hmatch', hat'⟩ := htakes'
      obtain ⟨h₃, htake'⟩ := hi'.remove_some hmatch'
      have := (Prod.mk.inj (Option.some.inj (htake.symm.trans htake'))).1
      omega
    | succ n' =>
      obtain ⟨h₁', h₂', htake', hhole', hmore'⟩ := htakes'
      -- both searches go on in the same heap
      obtain rfl := (Prod.mk.inj (Option.some.inj (htake.symm.trans htake'))).2
      obtain rfl := (Prod.mk.inj (Option.some.inj (hhole.symm.trans hhole'))).2
      exact ih hmore hmore'

/-- Without an alignment the block that is taken is big enough. -/
theorem HeapInv.taken_fits (hi : HeapInv h B T) (hc : c ∈ B)
    (htake : h.removeNode requested ⟨1, 0⟩ = some (c.addr + 4, h₁)) : requested ≤ c.size := by
  obtain ⟨node, m', tree', T', htake', -, hcases⟩ := hi.remove_best requested
  have hnode := (Prod.mk.inj (Option.some.inj (htake.symm.trans htake'))).1
  rcases hcases with ⟨rfl, -⟩ | ⟨pre, c', post, rfl, rfl, -, hle, -⟩
  · exact absurd hnode (Nat.succ_ne_zero _)
  · rwa [hi.size_eq hi hc (by simp) (by omega : c.addr = c'.addr)]

theorem usedAlignment_idem (alignment : Nat) :
    usedAlignment (usedAlignment alignment) = usedAlignment alignment := by
  have := usedAlignment_pos alignment
  exact if_neg (by omega)

/-- **A heap that grows** for a request keeps the invariant, and no page behind its end is mapped. -/
theorem HeapInv.grow_or_fault (hi : HeapInv h B T) (hb : h.Bounded) (size : Nat) (fresh : NewPages) :
    (h.expand fresh (add32 h.endAddress (getBlockSize size))).addHole h.endAddress = none ∨
      ∃ h₂ B₂ T₂, (h.expand fresh (add32 h.endAddress (getBlockSize size))).addHole h.endAddress =
        some (none, h₂) ∧ HeapInv h₂ B₂ T₂ ∧ h₂.Bounded := by
  by_cases hgrow : CanGrow h (getBlockSize size)
  · obtain ⟨m', tree', present', frames', B', u, T', hhole, hinv, -, -, -, -, hpresent⟩ :=
      hi.grow (requestOk_getBlockSize size).1 hgrow fresh
    refine Or.inr ⟨_, _, T', hhole, hinv, fun x hx => ?_⟩
    refine (hpresent x hx).trans (hb x (le_trans (Nat.div_le_div_right ?_) hx))
    show h.endAddress ≤ pageUp (h.endAddress + getBlockSize size)
    simp only [pageUp, frameSize]
    omega
  · -- the hole starts on a page that is not mapped
    refine Or.inl (Heap.addHole_fault hi.end_lt hi.end_aligned
      (hb.clearTo (max h.endAddress (add32 h.startAddress h.maxSize))) (le_max_left _ _)
      (le_max_right _ _) (requestOk_getBlockSize size).1 (getBlockSize_lt size) hgrow fresh)

/-- **Every call that returns takes a free block** of a heap that satisfies the invariant. -/
theorem HeapInv.takes_block {fuel : Nat} (hi : HeapInv h B T) (hb : h.Bounded)
    (hcall : h.allocLoop fresh size fuel alignment = some (p, h')) :
    ∃ n c, h.TakesAfter fresh (getBlockSize size) (usedAlignment alignment) c n ∧
      ∃ g g₁ pre post T₁, HeapInv g (pre ++ c :: post) T₁ ∧ c.free = true ∧
        g.removeNode (getBlockSize size) ⟨usedAlignment alignment, 0⟩ = some (c.addr + 4, g₁) ∧
        g₁.takeBlock (c.addr + 4) (getBlockSize size) (usedAlignment alignment) = some (p, h') := by
  induction fuel generalizing h B T alignment with
  | zero => exact absurd hcall (by simp [Heap.allocLoop])
  | succ fuel ih =>
    rw [Heap.allocLoop_succ] at hcall
    obtain ⟨⟨node, h₁⟩, htake, hcall⟩ := Option.bind_eq_some_iff.mp hcall
    rcases hi.remove_cases htake with ⟨rfl, m₁, tree₁, T₁, rfl, hi₁⟩ | ⟨pre, c, post, rfl, hfree, rfl⟩
    · -- nothing is found: the call on the bigger heap
      rw [if_pos rfl] at hcall
      have hb₁ : (h.withTree m₁ tree₁).Bounded := hb
      rcases hi₁.grow_or_fault hb₁ size fresh with hfault | ⟨h₂, B₂, T₂, hhole, hi₂, hb₂⟩
      · simp only [hfault, Option.bind_none] at hcall
        exact absurd hcall (by simp)
      · simp only [hhole, Option.bind_some, Option.isSome_none] at hcall
        obtain ⟨n, c, htakes, hlast⟩ := ih hi₂ hb₂ hcall
        rw [usedAlignment_idem] at htakes hlast
        exact ⟨n + 1, c, ⟨_, _, htake, hhole, htakes⟩, hlast⟩
    · have hpos : c.addr + 4 ≠ 0 := by omega
      simp only [if_neg hpos] at hcall
      exact ⟨0, c, hi.takes_now (by simp) hfree htake fresh, h, h₁, pre, post, T, hi, hfree, htake,
        hcall⟩

/-! ## The pointer -/

/-- The padding loop of `alloc` never ends below the alignment once it has added it without
    leaving 32 bits. -/
theorem le_alignLoop {fuel offset : Nat} (hlt : alignment < 2 ^ 32) (hmin : minBlockSize ≤ alignment)
    (hoffset : offset < minBlockSize) (hfuel : offset < fuel) :
    alignment ≤ alignLoop fuel alignment offset := by
  have h28 : 28 ≤ alignment := hmin
  induction fuel generalizing offset with
  | zero => exact absurd hfuel (Nat.not_lt_zero _)
  | succ fuel ih =>
    rw [alignLoop, if_pos hoffset]
    by_cases hwrap : offset + alignment < 2 ^ 32
    · rw [add32_of_lt hwrap]
      cases fuel with
      | zero => exact Nat.le_add_left _ _
      | succ fuel =>
        rw [alignLoop, if_neg (by simp only [minBlockSize]; omega)]
        exact Nat.le_add_left _ _
    · -- the sum is smaller than before
      have hsum : add32 offset alignment = offset + alignment - 2 ^ 32 := by
        simp only [add32, minBlockSize] at *
        omega
      rw [hsum]
      exact ih (by omega) (by omega)

theorem alignLoop_lt {fuel offset : Nat} (hoffset : offset < 2 ^ 32) :
    alignLoop fuel alignment offset < 2 ^ 32 := by
  induction fuel generalizing offset with
  | zero => exact hoffset
  | succ fuel ih =>
    rw [alignLoop]
    split
    · exact ih (add32_lt _ _)
    · exact hoffset

theorem frontOffset_lt (node : Nat) (hlt : alignment < 2 ^ 32) :
    frontOffset node alignment < 2 ^ 32 := by
  unfold frontOffset
  split
  · exact alignLoop_lt (by omega)
  · decide

/-- An offset that fits into a heap is the least one that aligns the pointer. -/
theorem frontOffset_of_small {node : Nat} (h0 : 0 < alignment) (hlt : alignment < 2 ^ 32)
    (hsmall : frontOffset node alignment ≤ 2 ^ 32 - frameSize) :
    padding (add32 node 4) alignment = frontOffset node alignment := by
  by_cases hpad : padding (add32 node 4) alignment < 2 ^ 32
  · exact (frontOffset_eq_padding h0 hlt hpad).symm
  · -- the alignment is nearly 2 ^ 32, and so is the offset
    exfalso
    have hshift : add32 node 4 % alignment ≠ 0 := by
      intro hz
      rw [padding, if_pos hz] at hpad
      exact hpad (by decide)
    have hr := Nat.mod_lt (add32 node 4) h0
    have hbig : 2 ^ 32 - minBlockSize ≤ alignment := by
      have hmod := Nat.mod_lt
        (alignment - (add32 node 4 + minBlockSize) % alignment) h0
      rw [padding, if_neg hshift] at hpad
      omega
    have hfirst : alignment - add32 node 4 % alignment < minBlockSize := by
      by_contra hge
      refine hpad ?_
      rw [← eq_padding h0 hshift (Nat.not_lt.mp hge) (by omega) ?_]
      · omega
      · have hdm := Nat.div_add_mod (add32 node 4) alignment
        rw [show add32 node 4 + (alignment - add32 node 4 % alignment) =
          alignment * (add32 node 4 / alignment + 1) by rw [Nat.mul_add]; omega]
        exact Nat.mul_mod_right _ _
    have hle : alignment ≤ alignLoop (minBlockSize + 1) alignment
        (alignment - add32 node 4 % alignment) :=
      le_alignLoop hlt (by simp only [minBlockSize] at *; omega) hfirst (by omega)
    rw [frontOffset, if_pos hshift] at hsmall
    simp only [minBlockSize, frameSize] at *
    omega

/-- The pointer that `alloc` returns for a block. -/
theorem Heap.takeBlock_pointer (hlt : c.addr + 8 < 2 ^ 32)
    (hcall : h.takeBlock (c.addr + 4) requested alignment = some (p, h')) :
    p = add32 (add32 c.addr (frontOffset (c.addr + 4) alignment)) 8 := by
  have hnode : sub32 (c.addr + 4) 4 = c.addr := by
    rw [sub32_of_le (by omega) (by omega), Nat.add_sub_cancel]
  have huser : add32 c.addr 8 = add32 (c.addr + 4) 4 := by
    rw [add32_of_lt (by omega), add32_of_lt (by omega)]
  rw [Heap.takeBlock, hnode] at hcall
  simp only [Option.bind_eq_bind, Option.bind_eq_some_iff] at hcall
  obtain ⟨⟨block, h₁⟩, hblock, h₂, -, h₃, -, n, -, hcall⟩ := hcall
  obtain ⟨rfl, -⟩ := Prod.mk.inj (Option.some.inj hcall)
  suffices hb : block = add32 c.addr (frontOffset (c.addr + 4) alignment) by rw [hb]
  rw [Heap.alignBlock, huser] at hblock
  rw [frontOffset]
  split at hblock
  · -- the block is shifted to the alignment
    rename_i hshift
    rw [if_pos hshift]
    simp only [Option.bind_eq_bind, Option.bind_eq_some_iff] at hblock
    obtain ⟨n, -, h₄, -, h₅, -, hblock⟩ := hblock
    split at hblock
    · exact absurd hblock (by simp)
    · simp only [Option.bind_eq_some_iff] at hblock
      obtain ⟨h₆, -, h₇, -, h₈, -, h₉, -, r, -, hblock⟩ := hblock
      exact (Prod.mk.inj (Option.some.inj hblock)).1.symm
  · -- it is aligned already
    rename_i hshift
    rw [if_neg hshift, add32_of_lt (by omega)]
    exact (Prod.mk.inj (Option.some.inj hblock)).1.symm

/-- **Requests get what they ask for.** A pointer that `alloc` returns has its block, with room for
    the bytes that were asked for, inside of the free block that was taken, if and only if the
    size of the block does not wrap around and the block fits behind the padding. Without an
    alignment it always does. -/
theorem served_in_full_iff (hi : HeapInv h B T) (hb : h.Bounded) (hsize : size < 2 ^ 32)
    (halign : alignment % 4 = 0) (hlt : alignment < 2 ^ 32)
    (hcall : h.alloc fresh size alignment = some (p, h')) :
    ∃ n c, h.TakesAfter fresh (getBlockSize size) (usedAlignment alignment) c n ∧
      (Usable h' c size p ↔ size + 19 < 2 ^ 32 ∧
        padding (c.addr + 8) (usedAlignment alignment) + getBlockSize size ≤ c.size) ∧
      (alignment = 0 → (Usable h' c size p ↔ size + 19 < 2 ^ 32)) := by
  obtain ⟨n, c, htakes, g, g₁, pre, post, T₁, hg, hfree, htake, hblock⟩ := hi.takes_block hb hcall
  suffices hiff : Usable h' c size p ↔ size + 19 < 2 ^ 32 ∧
      padding (c.addr + 8) (usedAlignment alignment) + getBlockSize size ≤ c.size by
    refine ⟨n, c, htakes, hiff, fun hzero => hiff.trans (and_iff_left ?_)⟩
    -- every address is a multiple of one
    subst hzero
    have hfits := hg.taken_fits (by simp) htake
    rw [padding, usedAlignment, if_pos rfl, if_pos (Nat.mod_one _), Nat.zero_add]
    exact hfits
  have h0 := usedAlignment_pos alignment
  have hlt' := usedAlignment_lt hlt
  have hin := hg.inside (by simp : c ∈ pre ++ c :: post)
  have hstop := hin.stop_le
  have hstop' : c.stop = c.addr + c.size := rfl
  have hlen := hin.stop_eq
  have hend := hg.end_lt
  have hmod := hg.end_aligned
  have hmin := (requestOk_getBlockSize size).1
  simp only [frameSize, minBlockSize] at hmod hmin
  have huser : add32 (c.addr + 4) 4 = c.addr + 8 := add32_of_lt (by omega)
  constructor
  · rintro ⟨hroom, habove, n, hn, hle, hwithin⟩
    have hsmall : size + 19 < 2 ^ 32 := by
      by_contra hwrap
      have hleast := getBlockSize_of_wrap hsize (Nat.not_lt.mp hwrap)
      rw [hleast, minBlockSize] at hroom
      omega
    refine ⟨hsmall, ?_⟩
    -- the pointer lies in the block, so the offset has not wrapped around
    have hpointer := Heap.takeBlock_pointer (by omega) hblock
    have hoffset := frontOffset_lt (c.addr + 4) hlt'
    have hfront : frontOffset (c.addr + 4) (usedAlignment alignment) + getBlockSize size ≤ c.size := by
      generalize frontOffset (c.addr + 4) (usedAlignment alignment) = offset at *
      simp only [add32] at hpointer
      omega
    rw [← huser, frontOffset_of_small h0 hlt' (by simp only [frameSize]; omega)]
    exact hfront
  · rintro ⟨hsmall, hfit⟩
    obtain ⟨h₂, hblock₂, hwithin, -⟩ := hg.takeBlock_aligned hfree h0 (usedAlignment_spec halign) hlt'
      (requestOk_getBlockSize size) htake rfl hfit
    obtain ⟨rfl, rfl⟩ := Prod.mk.inj (Option.some.inj (hblock.symm.trans hblock₂))
    exact ⟨le_getBlockSize hsmall, by omega, hwithin⟩

end

/-- A request of 100 bytes at a multiple of 64, in a new heap of one page. -/
theorem served_in_full_iff_page : ∃ h T p h', HeapInv h [⟨65604, 4028, true⟩] T ∧
    h.alloc zeroPages 100 64 = some (p, h') ∧ Usable h' ⟨65604, 4028, true⟩ 100 p := by
  obtain ⟨m₀, tree₀, T₀, -, hi₀⟩ := HeapInv.create pageHeap_canCreate 4096 0x100000
  have hi : HeapInv _ ([] ++ ⟨65604, 4028, true⟩ :: []) T₀ := hi₀
  obtain ⟨h₁, htake⟩ := hi.take_only rfl (by decide : 1 < 64) (by decide)
    (by decide : padding 65612 64 + getBlockSize 100 ≤ 4028)
  obtain ⟨h', hcall, -⟩ := hi.alloc_aligned rfl (by decide : 64 % 4 = 0) (by decide) htake
    (by decide) (by decide : 52 + getBlockSize 100 ≤ 4028) zeroPages
  obtain ⟨n, c, htakes, hiff, -⟩ := served_in_full_iff hi (pageHeap_bounded _ _ _ _) (by decide)
    (by decide) (by decide) hcall
  have honly := hi.takes_now (List.mem_singleton_self _) rfl htake zeroPages
  obtain rfl := htakes.unique honly
  exact ⟨_, T₀, _, h', hi, hcall, hiff.mpr ⟨by decide, by decide⟩⟩

/-- A request for nearly all of the address space gets a block of 28 bytes. -/
theorem huge_request_served : ∃ h B T p h', HeapInv h B T ∧
    h.alloc zeroPages (2 ^ 32 - 16) 0 = some (p, h') ∧ p ≠ 0 ∧
      h'.getSize (p - 8) = some 28 ∧ getBlockSize (2 ^ 32 - 16) < 2 ^ 32 - 16 + 16 := by
  obtain ⟨m₀, tree₀, T₀, -, hi₀⟩ := HeapInv.create pageHeap_canCreate 4096 0x100000
  obtain ⟨pre, c, post, m₁, tree₁, T₁, hlist, hfree, -, hcall, hi₁, -⟩ :=
    hi₀.alloc_fit (Nat.zero_le 1) (List.mem_singleton.mpr rfl) rfl
      (by decide : getBlockSize (2 ^ 32 - 16) ≤ 0x11000 - firstBlock 0x10000) zeroPages
      (loopBound - 1)
  obtain ⟨rfl, rfl, rfl⟩ := eq_of_free_mid (B := []) hlist hfree (by simp) (by simp)
  have hB₁ : [] ++ cut minBlockSize ⟨firstBlock 0x10000, 0x11000 - firstBlock 0x10000, true⟩
      (getBlockSize (2 ^ 32 - 16)) ++ [] = [⟨65604, 28, false⟩, ⟨65632, 4000, true⟩] := by decide
  have hblock : (⟨65604, 28, false⟩ : Tile) ∈ [⟨65604, 28, false⟩, ⟨65632, 4000, true⟩] := by simp
  rw [hB₁] at hcall hi₁
  refine ⟨_, _, T₀, _, _, hi₀, hcall, by simp, ?_, by decide⟩
  exact Heap.getSize_eq hi₁.toGrounds (hi₁.inside hblock) (hi₁.tagged _ hblock).head

end Toutatis
