import Toutatis.MemAlloc.Tags

/-!
# Taking blocks

`alloc` without an alignment on a heap that satisfies the invariant: the best fit is taken out of
the tree and cut.

## Key results

- `HeapInv.remove_best`: the block that is taken out of the tree
- `HeapGap.takeBlock_spec`: the block is cut and marked used
- `HeapInv.alloc_fit`: the call when there is a fit
-/

namespace Toutatis

open ByteMem RedBlack Tiling

section

variable {h : Heap} {m : Mem} {B pre post : List Tile} {c : Tile} {lo hi requested : Nat}
  {T : ColorTree Entry}

/-! ## The best fit -/

/-- A block that is taken out of the tree leaves a gap. -/
theorem HeapInv.remove_gap (hi : HeapInv h (pre ++ c :: post) T) {m' : Mem}
    {tree' : RbTree AllocArgs} {T' : ColorTree Entry} (hoff : SameOff (treeNodes T) h.mem m')
    (hv : FreeTree m' tree' T') (hperm : (treeNodes T).Perm ((c.addr + 4) :: treeNodes T')) :
    LinksOnly (pre ++ c :: post) h.mem m' ∧ Tagged m' c ∧
      HeapGap (h.withTree m' tree') pre post c.addr c.stop T' := by
  -- an empty gap at the end of the heap
  have hB : HeapInv h (pre ++ c :: post ++ []) T := by rwa [List.append_nil]
  obtain ⟨e, hg⟩ := hB.empty_gap
  have hlinks := hg.linksOnly hoff
  obtain ⟨hfront, hpos, hback⟩ := hi.tiles.split
  have hc' : c ∈ pre ++ c :: post ++ [] := by simp
  have hmem' : ∀ x, x ∈ pre ++ post ↔ x ∈ pre ++ c :: post ++ [] ∧ x ≠ c := by
    intro x
    refine ⟨fun hx => ⟨?_, hi.tiles.ne_mid hx⟩, ?_⟩
    · simp only [List.append_nil, List.mem_append, List.mem_cons] at hx ⊢
      tauto
    · simp only [List.append_nil, List.mem_append, List.mem_cons]
      tauto
  refine ⟨?_, hg.tagged_of_linksOnly hlinks hc', hg.retree hlinks
    (fun x hx => ((hmem' x).mp hx).1) hfront (Nat.le_add_right _ _) hback hv fun a => ?_⟩
  · rwa [List.append_nil] at hlinks
  · rw [hg.nodes_erase hc' hperm]
    simp only [hmem', and_assoc]

/-- The same for a search that returns the node of the block. -/
theorem HeapInv.remove_taken (hi : HeapInv h (pre ++ c :: post) T) {data : Nat} {args : AllocArgs}
    {h₁ : Heap} (hcall : h.removeNode data args = some (c.addr + 4, h₁)) :
    ∃ m' tree' T', h₁ = h.withTree m' tree' ∧ LinksOnly (pre ++ c :: post) h.mem m' ∧
      Tagged m' c ∧ HeapGap h₁ pre post c.addr c.stop T' := by
  obtain ⟨m', tree', T', kind, hr, hv, hrem, hoff⟩ := hi.tree.remove data (some args)
  have hperm := hrem.perm_treeNodes
  rw [hrem.node?_eq hi.tree.nodes.pos] at hperm
  obtain ⟨m₁, tree₁, hr₁, rfl⟩ := Heap.removeNode_some hcall
  obtain ⟨hnode, rfl, rfl⟩ : _ ∧ _ ∧ _ := by
    simpa only [Option.some.injEq, Prod.mk.injEq] using hr.symm.trans hr₁
  rw [hnode, if_neg (by omega)] at hperm
  obtain ⟨hlinks, htags, hg⟩ := hi.remove_gap hoff hv hperm
  exact ⟨m', tree', T', rfl, hlinks, htags, hg⟩

/-- A search that finds nothing keeps the heap as it is; otherwise it takes a free block. -/
theorem HeapInv.remove_cases (hi : HeapInv h B T) {data node : Nat} {args : AllocArgs} {h₁ : Heap}
    (hcall : h.removeNode data args = some (node, h₁)) :
    (node = 0 ∧ ∃ m' tree' T', h₁ = h.withTree m' tree' ∧ HeapInv h₁ B T') ∨
      ∃ pre c post, B = pre ++ c :: post ∧ c.free = true ∧ node = c.addr + 4 := by
  obtain ⟨m', tree', T', kind, hr, hv, hrem, hoff⟩ := hi.tree.remove data (some args)
  have hperm := hrem.perm_treeNodes
  rw [hrem.node?_eq hi.tree.nodes.pos] at hperm
  obtain ⟨m₁, tree₁, hr₁, rfl⟩ := Heap.removeNode_some hcall
  obtain ⟨hnode, rfl, rfl⟩ : _ ∧ _ ∧ _ := by
    simpa only [Option.some.injEq, Prod.mk.injEq] using hr.symm.trans hr₁
  rw [hnode] at hperm
  by_cases h0 : node = 0
  · -- an empty gap at the end of the heap
    rw [if_pos h0, List.nil_append] at hperm
    have hB : HeapInv h (B ++ []) T := by rwa [List.append_nil]
    obtain ⟨e, hg⟩ := hB.empty_gap
    have hg' := hg.retree (hg.linksOnly hoff) (fun b hb => hb) hg.front hg.gap hg.back hv fun a => by
      rw [← hperm.mem_iff]
      exact hg.nodes a
    have hclosed := hg'.close (by rw [List.append_nil]; exact hi.noFreePair)
      (by rw [List.append_nil]; exact hi.used)
    rw [List.append_nil] at hclosed
    exact Or.inl ⟨h0, m', tree', T', rfl, hclosed⟩
  · rw [if_neg h0] at hperm
    have hmem : node ∈ treeNodes T := hperm.mem_iff.mpr (by simp)
    obtain ⟨c, hc, hfree, hat⟩ := (hi.nodes node).mp hmem
    obtain ⟨pre, post, rfl⟩ := List.append_of_mem hc
    exact Or.inr ⟨pre, c, post, rfl, hfree, hat⟩

/-- **Best fit**: a free block that is big enough is taken out of the tree, or there is none. -/
theorem HeapInv.remove_best (hi : HeapInv h B T) (requested : Nat) :
    ∃ node m' tree' T', h.removeNode requested ⟨1, 0⟩ = some (node, h.withTree m' tree') ∧
      SameUsed h B h.mem m' ∧
      (node = 0 ∧ (∀ b ∈ B, b.free = true → b.size < requested) ∧
          HeapInv (h.withTree m' tree') B T' ∨
        ∃ pre c post, B = pre ++ c :: post ∧ node = c.addr + 4 ∧ c.free = true ∧
          requested ≤ c.size ∧ Tagged m' c ∧
          HeapGap (h.withTree m' tree') pre post c.addr c.stop T') := by
  obtain ⟨node, m', tree', T', hr, hv, hoff, hcases⟩ := hi.tree.remove_best requested
  have hmap : node ≠ 0 → h.NodeMapped node := by
    intro h0
    rcases hcases with ⟨rfl, -⟩ | ⟨hmem, -⟩
    · exact absurd rfl h0
    · exact hi.nodeMapped hmem
  have hremove : h.removeNode requested ⟨1, 0⟩ = some (node, h.withTree m' tree') :=
    Heap.removeNode_eq hmap hr
  -- an empty gap at the end of the heap
  have hB : HeapInv h (B ++ []) T := by rwa [List.append_nil]
  obtain ⟨e, hg⟩ := hB.empty_gap
  have hlinks := hg.linksOnly hoff
  have hkey : ∀ b ∈ B, nodeData h.mem (b.addr + 4) = b.size := fun b hb =>
    (hi.tagged b hb).head.size
  refine ⟨node, m', tree', T', hremove, ?_, ?_⟩
  · have := hg.sameUsed_links hlinks
    rwa [List.append_nil] at this
  rcases hcases with ⟨rfl, hsmall, hperm⟩ | ⟨hmem, hle, -, hperm⟩
  · refine Or.inl ⟨rfl, fun b hb hfree => ?_, ?_⟩
    · rw [← hkey b hb]
      exact hsmall _ ((hi.nodes _).mpr ⟨b, hb, hfree, rfl⟩)
    · have hg' := hg.retree hlinks (fun b hb => hb) hg.front hg.gap hg.back hv fun a => by
        rw [← hperm.mem_iff]
        exact hg.nodes a
      have := hg'.close (by rw [List.append_nil]; exact hi.noFreePair)
        (by rw [List.append_nil]; exact hi.used)
      rwa [List.append_nil] at this
  · obtain ⟨c, hc, hfree, rfl⟩ := (hi.nodes node).mp hmem
    rw [hkey c hc] at hle
    obtain ⟨pre, post, rfl⟩ := List.append_of_mem hc
    obtain ⟨-, htags, hg'⟩ := hi.remove_gap hoff hv hperm
    exact Or.inr ⟨pre, c, post, rfl, rfl, hfree, hle, htags, hg'⟩

/-! ## Cutting -/

/-- A request that is not rounded to zero. -/
def RequestOk (requested : Nat) : Prop := minBlockSize ≤ requested ∧ requested % 4 = 0

/-- The block is cut when there is room for another one behind it. -/
theorem HeapGap.fragment_spec (hg : HeapGap h pre post c.addr c.stop T)
    (hword : load32 h.mem (c.addr + 4) = c.size) (hsize : c.size % 4 = 0)
    (hreq : RequestOk requested) (hle : requested ≤ c.size)
    (hcut : minBlockSize ≤ c.size - requested) :
    ∃ m' tree' T' f, h.fragment c.addr requested = some (h.withTree m' tree') ∧
      HeapGap (h.withTree m' tree') pre (⟨c.addr + requested, c.size - requested, true⟩ :: post)
        c.addr (c.addr + requested) T' ∧
      Tagged m' ⟨c.addr, requested, f⟩ ∧ SameUsed h (pre ++ post) h.mem m' := by
  have hbase := hg.base_le
  have hfl := hg.front.le
  have hend := hg.end_lt
  have hback := hg.back.le
  have hreq28 : 28 ≤ requested := hreq.1
  have hcut28 : 28 ≤ c.size - requested := hcut
  have hstop : c.stop = c.addr + c.size := rfl
  have hin : Inside h c := ⟨by omega, hback, le_trans hreq.1 hle⟩
  have hget : h.getSize c.addr = some c.size :=
    (HeapGap.getFooter_gap (m := h.mem) hg (le_refl c.addr) (le_refl c.stop) (by omega) hword).1
  have hfrag : sub32 c.size requested = c.size - requested := sub32_of_le hle (by omega)
  -- the tags of the block
  obtain ⟨m₁, m₂, m₃, f, h₁, h₂, h₃, g₃, off₃, ht₃⟩ :=
    HeapGap.setTags_spec (m := h.mem) hg (le_refl c.addr)
      (by omega : c.addr + requested ≤ c.stop) hreq.1
  -- the tags of what is left over
  obtain ⟨m₄, m₅, m₆, f', h₄, h₅, h₆, g₆, off₆, ht₆⟩ :=
    g₃.setTags_spec (by omega : c.addr ≤ c.addr + requested)
      (by omega : c.addr + requested + (c.size - requested) ≤ c.stop) hcut
  obtain ⟨m₇, h₇, g₇, off₇, magic₇, mark₇⟩ :=
    g₆.markFree_spec (by omega : c.addr ≤ c.addr + requested) (by omega)
  have ht₇ : Tagged m₇ ⟨c.addr + requested, c.size - requested, true⟩ := by
    refine ⟨⟨magic₇.trans ht₆.head.magic, mark₇, ?_⟩, ?_⟩
    · refine Eq.trans ?_ ht₆.head.size
      exact load32_congr fun x h1 _ => off₇ x (Or.inr h1)
    · refine (ht₆.foot.congr (by simp only; omega) fun x h1 _ => off₇ x (Or.inr ?_)).of_eq rfl rfl
      simp only [Tile.stop] at h1
      omega
  have hlast : (⟨c.addr + requested, c.size - requested, true⟩ : Tile).stop = c.stop := by
    simp only [Tile.stop]
    omega
  obtain ⟨m₈, tree₈, T₈, h₈, hlinks, g₈⟩ :=
    g₇.put_back (by simp only; omega) hlast ⟨hcut, by have := hreq.2; simp only; omega⟩ rfl ht₇
  have hblock : Tagged m₈ ⟨c.addr, requested, f⟩ := by
    have hoff : ∀ x, c.addr ≤ x → x < c.addr + requested → m₈ x = m₃ x := by
      intro x hx1 hx2
      have h8 : m₈ x = m₇ x := by
        refine hlinks x (by omega) fun d hd _ => ?_
        simp only [List.mem_append, List.mem_cons] at hd
        rcases hd with hd | rfl | hd
        · have hplace := hg.front.bounds hd
          have := (hg.sizes d (by simp [hd])).1
          simp only [Tile.stop, minBlockSize] at *
          omega
        · simp only
          omega
        · have hplace := hg.back.bounds hd
          omega
      rw [h8, off₇ x (by omega), off₆ x (by omega)]
    refine ⟨ht₃.head.congr fun x h1 h2 => hoff x h1 ?_,
      ht₃.foot.congr (by simp only; omega) fun x h1 h2 => hoff x ?_ h2⟩
    · simp only at h2
      omega
    · simp only [Tile.stop] at h1
      omega
  refine ⟨m₈, tree₈, T₈, _, ?_, g₈, hblock, ?_⟩
  · have hnext : (h.withMem m₃).getNextBlock c.addr = some (c.addr + requested) := by
      have hin₃ : Inside (h.withMem m₃) ⟨c.addr, requested, f⟩ :=
        ⟨hin.base_le, by simp only [Tile.stop]; exact le_trans (by omega) hback, hreq.1⟩
      exact Heap.getNextBlock_eq g₃.toGrounds hin₃ ht₃.head
    have h₁ : h.setSize c.addr requested = some (h.withMem m₁) := h₁
    simp only [Heap.fragment, Option.bind_eq_bind]
    rw [hget, Option.bind_some, hfrag, if_pos ⟨by omega, hcut⟩, h₁, Option.bind_some, h₂,
      Option.bind_some, h₃, Option.bind_some, hnext, Option.bind_some, h₄, Option.bind_some, h₅,
      Option.bind_some, h₆, Option.bind_some, h₇, Option.bind_some, add32_of_lt (by omega), h₈,
      Option.bind_some]
    rfl
  · have hgap : ∀ x, x < c.addr ∨ c.stop ≤ x → m₇ x = h.mem x := by
      intro x hx
      rw [off₇ x (by omega), off₆ x (by omega), off₃ x (by omega)]
    refine (hg.sameUsed_write hgap).trans ((g₈.sameUsed_links hlinks).mono fun x hx _ => ?_)
    simp only [List.mem_append, List.mem_cons] at hx ⊢
    tauto

/-- Without room for another block nothing changes. -/
theorem HeapGap.fragment_whole (hg : HeapGap h pre post c.addr c.stop T)
    (hword : load32 h.mem (c.addr + 4) = c.size) (hsize : minBlockSize ≤ c.size)
    (hle : requested ≤ c.size) (hcut : ¬ minBlockSize ≤ c.size - requested) :
    h.fragment c.addr requested = some h := by
  have hback := hg.back.le
  have hend := hg.end_lt
  have hget : h.getSize c.addr = some c.size :=
    (HeapGap.getFooter_gap (m := h.mem) hg (le_refl c.addr) (le_refl c.stop)
      (le_trans (by decide) hsize) hword).1
  have hfrag : sub32 c.size requested = c.size - requested :=
    sub32_of_le hle (by simp only [Tile.stop] at hback; omega)
  simp only [Heap.fragment, Option.bind_eq_bind]
  rw [hget, Option.bind_some, hfrag, if_neg (fun hpos => hcut hpos.2)]

/-- What `alloc` needs of the block that it cuts: the word of the size and the footer. The magic
    number of the header is needed when nothing is cut off. -/
structure Ready (m : Mem) (c : Tile) (requested : Nat) : Prop where
  size : load32 m (c.addr + 4) = c.size
  foot : Footed m c
  magic : minBlockSize ≤ c.size - requested ∨ checkMagic (load32 m c.addr) = true

theorem Tagged.ready (ht : Tagged m c) (requested : Nat) : Ready m c requested :=
  ⟨ht.head.size, ht.foot, Or.inr ht.head.magic⟩

/-- The block after `fragment`, cut or not. -/
theorem HeapGap.fragment_cases (hg : HeapGap h pre post c.addr c.stop T)
    (hready : Ready h.mem c requested) (hsize : minBlockSize ≤ c.size ∧ c.size % 4 = 0)
    (hreq : RequestOk requested) (hle : requested ≤ c.size) :
    ∃ m' tree' T' rest f, h.fragment c.addr requested = some (h.withTree m' tree') ∧
      cut minBlockSize c requested = ⟨c.addr, taken minBlockSize c requested, false⟩ :: rest ∧
      HeapGap (h.withTree m' tree') pre (rest ++ post) c.addr
        (c.addr + taken minBlockSize c requested) T' ∧
      Tagged m' ⟨c.addr, taken minBlockSize c requested, f⟩ ∧
      (minBlockSize ≤ taken minBlockSize c requested ∧ taken minBlockSize c requested % 4 = 0) ∧
      SameUsed h (pre ++ post) h.mem m' := by
  by_cases hcut : minBlockSize ≤ c.size - requested
  · obtain ⟨m', tree', T', f, hfrag, hg', ht', hsame⟩ :=
      hg.fragment_spec hready.size hsize.2 hreq hle hcut
    have htaken : taken minBlockSize c requested = requested := if_pos hcut
    rw [htaken]
    exact ⟨m', tree', T', [⟨c.addr + requested, c.size - requested, true⟩], f, hfrag,
      if_pos hcut, hg', ht', hreq, hsame⟩
  · -- what is left over stays with the block
    have htaken : taken minBlockSize c requested = c.size := if_neg hcut
    rw [htaken]
    have hmagic := hready.magic.resolve_left hcut
    obtain ⟨f, hf⟩ : ∃ f, isFree (load32 h.mem c.addr) = f := ⟨_, rfl⟩
    have hhead : Headed h.mem ⟨c.addr, c.size, f⟩ := ⟨hmagic, hf, hready.size⟩
    have hfrag := hg.fragment_whole hready.size hsize.1 hle hcut
    exact ⟨h.mem, h.memTree, T, [], f, hfrag, if_neg hcut, hg,
      ⟨hhead, hready.foot.of_eq rfl rfl⟩, hsize, SameUsed.refl _ _ _⟩

/-- The end of `alloc`, when the block is aligned. -/
theorem Heap.takeBlock_eq {node block alignment : Nat} {h₁ : Heap}
    (halign : h.alignBlock (sub32 node 4) alignment = some (block, h₁)) :
    h.takeBlock node requested alignment =
      (h₁.fragment block requested).bind fun h₂ => (h₂.markUsed block).bind fun h₃ =>
        (h₃.getSize block).bind fun size =>
          some (add32 block 8, h₃.withUsed (add32 h₃.memUsed size)) := by
  simp only [Heap.takeBlock, Option.bind_eq_bind]
  rw [halign, Option.bind_some]

/-- **A block is taken**: it is cut if there is room for another one, and marked used. -/
theorem HeapGap.takeRest_spec (hg : HeapGap h pre post c.addr c.stop T)
    (hready : Ready h.mem c requested) (hsize : minBlockSize ≤ c.size ∧ c.size % 4 = 0)
    (hpair : NoFreePair (pre ++ cut minBlockSize c requested ++ post))
    (hused : h.memUsed = usedSize (pre ++ post)) (hreq : RequestOk requested)
    (hle : requested ≤ c.size) :
    ∃ m' tree' T', ((h.fragment c.addr requested).bind fun h₂ => (h₂.markUsed c.addr).bind fun h₃ =>
        (h₃.getSize c.addr).bind fun size =>
          some (add32 c.addr 8, h₃.withUsed (add32 h₃.memUsed size))) =
        some (c.addr + 8, (h.withTree m' tree').withUsed
          (usedSize (pre ++ cut minBlockSize c requested ++ post))) ∧
      HeapInv ((h.withTree m' tree').withUsed
          (usedSize (pre ++ cut minBlockSize c requested ++ post)))
        (pre ++ cut minBlockSize c requested ++ post) T' ∧
      SameUsed h (pre ++ post) h.mem m' := by
  have hback := hg.back.le
  have hend := hg.end_lt
  have hbase := hg.base_le
  have hfl := hg.front.le
  have hin : Inside h c := ⟨by omega, hback, hsize.1⟩
  have hlen := hin.stop_eq
  obtain ⟨m₁, tree₁, T₁, rest, f, hfrag, hcut, g₁, ht₁, hsize₁, hsame₁⟩ :=
    hg.fragment_cases hready hsize hreq hle
  have hsum : usedSize (pre ++ cut minBlockSize c requested ++ post) =
      usedSize (pre ++ post) + taken minBlockSize c requested := by
    simp only [usedSize_append, usedSize_cut]
    omega
  generalize taken minBlockSize c requested = t at *
  have h28 : 28 ≤ t := hsize₁.1
  have hhi : c.addr + t ≤ h.endAddress := g₁.back.le
  -- the mark
  obtain ⟨m₂, hmark, g₂, off₂, magic₂, mark₂⟩ :=
    HeapGap.markUsed_spec (h := h.withTree m₁ tree₁) (m := m₁) g₁ (le_refl c.addr)
      (by omega : c.addr + 4 ≤ c.addr + t)
  have ht₂ : Tagged m₂ ⟨c.addr, t, false⟩ := by
    refine ⟨⟨magic₂.trans ht₁.head.magic, mark₂, ?_⟩, ?_⟩
    · refine Eq.trans ?_ ht₁.head.size
      exact load32_congr fun x h1 _ => off₂ x (Or.inr h1)
    · refine (ht₁.foot.congr (by simp only; omega) fun x h1 _ => off₂ x (Or.inr ?_)).of_eq rfl rfl
      simp only [Tile.stop] at h1
      omega
  have hsame₂ : SameUsed h (pre ++ post) m₁ m₂ := by
    refine (g₁.sameUsed_write fun x hx => off₂ x (by omega)).mono fun b hb _ => ?_
    simp only [List.mem_append] at hb ⊢
    tauto
  have hclosed := g₂.put_used (c := ⟨c.addr, t, false⟩) rfl (le_refl _) hsize₁ rfl ht₂
  have hlast : (⟨c.addr, t, false⟩ : Tile).stop = c.addr + t := rfl
  rw [hlast] at hclosed
  have hsmall : usedSize (pre ++ post) + t < 2 ^ 32 := by
    have htiles := tiles_append.mpr ⟨_, hclosed.front, hclosed.back⟩
    have htotal := htiles.usedSize_add_freeSize
    have hend' : ((h.withTree m₁ tree₁).withMem m₂).endAddress = h.endAddress := rfl
    simp only [usedSize_append, usedSize_cons, usedSize_nil, Bool.false_eq_true, if_false] at htotal ⊢
    omega
  refine ⟨m₂, tree₁, T₁, ?_, ?_, hsame₁.trans hsame₂⟩
  · have hin₂ : Inside ((h.withTree m₁ tree₁).withMem m₂) ⟨c.addr, t, false⟩ :=
      ⟨hin.base_le, hhi, hsize₁.1⟩
    have hget := Heap.getSize_eq g₂.toGrounds hin₂ ht₂.head
    have hmark' : (h.withTree m₁ tree₁).markUsed c.addr =
        some ((h.withTree m₁ tree₁).withMem m₂) := hmark
    rw [hfrag, Option.bind_some, hmark', Option.bind_some, hget, Option.bind_some,
      add32_of_lt (by omega), hsum]
    have hadd : add32 h.memUsed t = usedSize (pre ++ post) + t := by
      rw [hused, add32_of_lt hsmall]
    exact congrArg (fun n => some (c.addr + 8, ((h.withTree m₁ tree₁).withMem m₂).withUsed n)) hadd
  · have hlist : pre ++ [⟨c.addr, t, false⟩] ++ (rest ++ post) =
        pre ++ cut minBlockSize c requested ++ post := by
      rw [hcut]
      simp
    have hclose := (hclosed.setUsed (usedSize (pre ++ cut minBlockSize c requested ++ post))).close
      (by rw [hlist]; exact hpair) (by rw [hlist]; rfl)
    rw [hlist] at hclose
    exact hclose

/-- The same for the whole of what `alloc` does with a block, when no alignment is asked for. -/
theorem HeapGap.takeBlock_spec (hg : HeapGap h pre post c.addr c.stop T) (ht : Tagged h.mem c)
    (hfree : c.free = true) (hsize : minBlockSize ≤ c.size ∧ c.size % 4 = 0)
    (hpair : NoFreePair (pre ++ c :: post)) (hused : h.memUsed = usedSize (pre ++ post))
    (hreq : RequestOk requested) (hle : requested ≤ c.size) :
    ∃ m' tree' T', h.takeBlock (c.addr + 4) requested 1 =
        some (c.addr + 8, (h.withTree m' tree').withUsed
          (usedSize (pre ++ cut minBlockSize c requested ++ post))) ∧
      HeapInv ((h.withTree m' tree').withUsed
          (usedSize (pre ++ cut minBlockSize c requested ++ post)))
        (pre ++ cut minBlockSize c requested ++ post) T' ∧
      SameUsed h (pre ++ post) h.mem m' := by
  have hgap : c.stop < 2 ^ 32 := lt_of_le_of_lt hg.back.le hg.end_lt
  have h28 := hsize.1
  have halign : h.alignBlock (sub32 (c.addr + 4) 4) 1 = some (c.addr, h) := by
    simp only [Tile.stop, minBlockSize] at hgap h28
    rw [sub32_of_le (by omega) (by omega), Nat.add_sub_cancel, Heap.alignBlock,
      if_neg (by simp [Nat.mod_one])]
  rw [Heap.takeBlock_eq halign]
  exact hg.takeRest_spec (ht.ready requested) hsize (noFreePair_cut hpair hfree) hused hreq hle

/-! ## Requests -/

/-- The size of a block, rounded and at least the least one, for every request. -/
theorem requestOk_getBlockSize (size : Nat) : RequestOk (getBlockSize size) := by
  simp only [RequestOk, getBlockSize]
  split
  · exact ⟨le_refl _, by decide⟩
  · exact ⟨by omega, by omega⟩

/-- **`alloc` with a fit.** The block is taken from a free block of the heap, the others stay. -/
theorem HeapInv.alloc_fit (hi : HeapInv h B T) {size alignment : Nat} (halign : alignment ≤ 1)
    {b : Tile} (hb : b ∈ B) (hfree : b.free = true) (hle : getBlockSize size ≤ b.size)
    (fresh : NewPages) (fuel : Nat) :
    ∃ pre c post m' tree' T', B = pre ++ c :: post ∧ c.free = true ∧ getBlockSize size ≤ c.size ∧
      h.allocLoop fresh size (fuel + 1) alignment =
        some (c.addr + 8, (h.withTree m' tree').withUsed
          (usedSize (pre ++ cut minBlockSize c (getBlockSize size) ++ post))) ∧
      HeapInv ((h.withTree m' tree').withUsed
          (usedSize (pre ++ cut minBlockSize c (getBlockSize size) ++ post)))
        (pre ++ cut minBlockSize c (getBlockSize size) ++ post) T' ∧
      SameUsed h (pre ++ post) h.mem m' := by
  obtain ⟨node, m₁, tree₁, T₁, hremove, hsame₁, hcases⟩ := hi.remove_best (getBlockSize size)
  rcases hcases with ⟨-, hsmall, -⟩ | ⟨pre, c, post, rfl, rfl, hcfree, hcle, htags, hg⟩
  · have := hsmall b hb hfree
    omega
  · -- the free block was not counted, so the count is that of the others
    have hused : (h.withTree m₁ tree₁).memUsed = usedSize (pre ++ post) := by
      refine hi.used.trans ?_
      simp only [usedSize_append, usedSize_cons, hcfree, if_true]
      omega
    obtain ⟨m₂, tree₂, T₂, htake, hinv, hsame₂⟩ := hg.takeBlock_spec htags hcfree
      (hi.sizes c (by simp)) hi.noFreePair hused (requestOk_getBlockSize size) hcle
    refine ⟨pre, c, post, m₂, tree₂, T₂, rfl, hcfree, hcle, ?_, hinv, ?_⟩
    · have hone : (if alignment = 0 then 1 else alignment) = 1 := by
        split
        · rfl
        · omega
      simp only [Heap.allocLoop, Option.bind_eq_bind]
      rw [hone, hremove, Option.bind_some]
      simp only
      rw [if_neg (by omega), htake]
      rfl
    · refine (hsame₁.mono fun x hx _ => ?_).trans hsame₂
      simp only [List.mem_append, List.mem_cons] at hx ⊢
      rcases hx with hx | hx
      · exact Or.inl hx
      · exact Or.inr (Or.inr hx)

end

end Toutatis
