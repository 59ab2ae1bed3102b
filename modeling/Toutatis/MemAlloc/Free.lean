import Toutatis.MemAlloc.Tags

/-!
# Giving blocks back

`free` on a heap that satisfies the invariant: the block is marked, merged with its free
neighbours and put into the tree.

## Key results

- `HeapInv.release_eq`, `HeapGap.mergeRight_spec`, `HeapGap.mergeLeft_spec`: the parts of `free`
- `HeapInv.free_spec`: `free` without a contraction
- `Heap.free_marked`: `free` of a block that is marked free changes nothing
-/

namespace Toutatis

open ByteMem RedBlack Tiling

section

variable {h : Heap} {m : Mem} {b : Tile} {pre post : List Tile} {lo hi : Nat} {T : ColorTree Entry}

/-! ## Marking the block -/

/-- The block is marked free, and nothing else changes. -/
theorem HeapInv.release_eq (hi : HeapInv h (pre ++ b :: post) T) (hused : b.free = false) :
    ∃ m', h.release b.addr = some (none, (h.withMem m').withUsed (usedSize (pre ++ post))) ∧
      HeapGap (h.withMem m') pre post b.addr b.stop T ∧
      (∀ x, x < b.addr ∨ b.stop ≤ x → m' x = h.mem x) ∧ Tagged m' ⟨b.addr, b.size, true⟩ := by
  have hb : b ∈ pre ++ b :: post := by simp
  have hin := hi.inside hb
  have htags := hi.tagged b hb
  have hlen := hin.stop_eq
  have hstop := hin.stop_le
  -- the sum of the used sizes loses the size of the block
  have hdrop : sub32 h.memUsed b.size = usedSize (pre ++ post) := by
    have hsum := hi.tiles.usedSize_add_freeSize
    have hend := hi.end_lt
    rw [hi.used, sub32_of_le]
    · simp only [usedSize_append, usedSize_cons, hused, Bool.false_eq_true, if_false]
      omega
    · simp only [usedSize_append, usedSize_cons, hused, Bool.false_eq_true, if_false]
      omega
    · omega
  obtain ⟨w, hw, hmagic, hmark⟩ := Heap.load_head hi.toGrounds hin htags.head
  obtain ⟨m', hfree, hg', hoff, hmagic', hmark'⟩ :=
    HeapGap.markFree_spec (m := h.mem) (hi.open_gap hused) (le_refl b.addr) (by omega)
  have hfree : h.markFree b.addr = some (h.withMem m') := hfree
  have hsame : ∀ x, b.addr + 4 ≤ x → m' x = h.mem x := fun x hx => hoff x (Or.inr hx)
  have htags' : Tagged m' ⟨b.addr, b.size, true⟩ := by
    refine ⟨⟨hmagic'.trans htags.head.magic, hmark', ?_⟩, ?_⟩
    · rw [← htags.head.size]
      exact load32_congr fun x h1 _ => hsame x h1
    · refine (htags.foot.congr hin.eight_le fun x h1 _ => hsame x ?_).of_eq rfl rfl
      omega
  have hin' : Inside (h.withMem m') ⟨b.addr, b.size, true⟩ :=
    ⟨hin.base_le, hin.stop_le, hin.size_le⟩
  obtain ⟨v, hv, hmagic''⟩ := Heap.load_foot hg'.toGrounds hin' htags'.foot
  refine ⟨m', ?_, hg', fun x hx => hoff x (by omega), htags'⟩
  simp only [Heap.release, Option.bind_eq_bind]
  rw [hw, Option.bind_some, if_neg (by simp [hmagic]), if_neg (by simp [hmark, hused]), hfree,
    Option.bind_some, Heap.getFooter_eq hg'.toGrounds hin' htags'.head, Option.bind_some, hv,
    Option.bind_some, if_neg (by simp [hmagic'']), Heap.getSize_eq hg'.toGrounds hin' htags'.head,
    Option.bind_some, ← hdrop]
  rfl

/-! ## Merging -/

/-- The tags of a merged block in the gap, from the header of its first part and the footer of
    its last. -/
theorem HeapGap.setMerged_spec (hg : HeapGap (h.withMem m) pre post lo hi T) {size : Nat}
    (hlo : lo ≤ b.addr) (hhi : b.addr + size ≤ hi) (hsize : minBlockSize ≤ size)
    (hb : Headed m b) (hfoot : checkMagic (load32 m (b.addr + size - 8)) = true) :
    ∃ m', (h.withMem m).setMerged b.addr size = some (h.withMem m') ∧
      HeapGap (h.withMem m') pre post lo hi T ∧
      (∀ x, x < b.addr ∨ b.addr + 8 ≤ x → x < b.addr + size - 4 ∨ b.addr + size ≤ x →
        m' x = m x) ∧ Tagged m' ⟨b.addr, size, true⟩ := by
  have hend := hg.end_lt'
  have h28 : 28 ≤ size := hsize
  -- the size and the free mark, then the header in the footer, which has its magic number
  obtain ⟨m₁, m₂, h₁, h₂, hfooter, g₂, off₂, hhead⟩ := hg.resize_spec hlo hhi (by omega)
  obtain ⟨m₃, h₃, g₃, off₃, header₃⟩ :=
    g₂.store_spec (by omega : lo ≤ b.addr + size - 4) (by omega) (by omega : b.addr < 2 ^ 32)
  have hfoot' : load32 m₃ (b.addr + size - 8) = load32 m (b.addr + size - 8) :=
    load32_congr fun x h1 h2 => by rw [off₃ x (by omega), off₂ x (by omega)]
  refine ⟨m₃, ?_, g₃, fun x hx hx' => ?_, (hhead hb.magic).congr fun x h1 h2 => off₃ x ?_, ?_,
    header₃⟩
  · simp only [Heap.setMerged, Option.bind_eq_bind]
    rw [h₁, Option.bind_some, h₂, Option.bind_some, hfooter, Option.bind_some,
      add32_of_lt (by omega), show b.addr + size - 8 + 4 = b.addr + size - 4 by omega, h₃]
  · rw [off₃ x (by omega), off₂ x (by omega)]
  · simp only at h2
    omega
  · exact (congrArg checkMagic hfoot').trans hfoot

/-- **The right neighbour** is merged with the block when it is free. -/
theorem HeapGap.mergeRight_spec (hg : HeapGap h pre post b.addr b.stop T) (hb : Tagged h.mem b)
    (hfree : b.free = true) (hmin : minBlockSize ≤ b.size) (hpost : post ≠ []) :
    ∃ m' tree' T' c post', h.mergeRight b.addr = some (none, h.withTree m' tree') ∧
      glue b post = c :: post' ∧ HeapGap (h.withTree m' tree') pre post' b.addr c.stop T' ∧
      Tagged m' c ∧ minBlockSize ≤ c.size ∧ SameUsed h (pre ++ post) h.mem m' := by
  obtain ⟨r, post, rfl⟩ := List.exists_cons_of_ne_nil hpost
  have hbase := hg.base_le
  have hfl := hg.front.le
  have hback := hg.back.le
  have hend := hg.end_lt
  have hr : r ∈ pre ++ r :: post := by simp
  have haddr : r.addr = b.stop := hg.back.1
  have hin : Inside h b := ⟨by omega, hback, hmin⟩
  have hrin := hg.inside hr
  have hrtags := hg.tagged r hr
  have hnext := Heap.getNextBlock_eq hg.toGrounds hin hb.head
  have htest := Heap.rightFree_eq hg.toGrounds hrin hrtags
  have hrsize := Heap.getSize_eq hg.toGrounds hrin hrtags.head
  rw [← haddr] at hnext
  simp only [Heap.mergeRight, Option.bind_eq_bind]
  rw [hnext, Option.bind_some, htest, Option.bind_some]
  cases hrfree : r.free with
  | false =>
    refine ⟨h.mem, h.memTree, T, b, r :: post, rfl, ?_, hg, hb, hmin, SameUsed.refl _ _ _⟩
    rw [glue, hrfree, Bool.and_false]
    rfl
  | true =>
    obtain ⟨m₁, tree₁, T₁, hremove, hlinks, g₁⟩ := hg.take_right hrfree
    have hrlen := hrin.stop_eq
    have hrstop := hrin.stop_le
    have hlen := hin.stop_eq
    -- the header of the block and the footer of its neighbour are no links
    have hb₁ : Headed m₁ b :=
      hb.head.congr fun x h1 h2 => hg.gap_of_linksOnly hlinks h1 (by omega)
    have hr₁ := hg.tagged_of_linksOnly hlinks hr
    have hin₁ : Inside (h.withTree m₁ tree₁) b := ⟨hin.base_le, hin.stop_le, hin.size_le⟩
    have hrin₁ : Inside (h.withTree m₁ tree₁) r := ⟨hrin.base_le, hrin.stop_le, hrin.size_le⟩
    have hsum : b.addr + (b.size + r.size) = r.stop := by
      simp only [Tile.stop] at *
      omega
    obtain ⟨m₂, hset, g₂, off₂, htags₂⟩ :=
      HeapGap.setMerged_spec (h := h.withTree m₁ tree₁) (m := m₁) g₁ (le_refl b.addr)
        (le_of_eq hsum) (le_trans hmin (Nat.le_add_right _ _)) hb₁
        (by rw [hsum]; exact hr₁.foot.magic)
    refine ⟨m₂, tree₁, T₁, ⟨b.addr, b.size + r.size, true⟩, post, ?_, ?_, ?_, htags₂,
      le_trans hmin (Nat.le_add_right _ _), ?_⟩
    · rw [if_pos rfl, hrsize, Option.bind_some, add32_of_lt (by omega), hremove, Option.bind_some]
      simp only
      rw [if_neg (by omega), Heap.getSize_eq g₁.toGrounds hin₁ hb₁, Option.bind_some,
        Heap.getSize_eq g₁.toGrounds hrin₁ hr₁.head, Option.bind_some,
        add32_of_lt (by simp only [Tile.stop] at *; omega)]
      exact congrArg (Option.bind · _) hset
    · rw [glue, hfree, hrfree]
      rfl
    · have hstop : (⟨b.addr, b.size + r.size, true⟩ : Tile).stop = r.stop := hsum
      rw [hstop]
      exact g₂
    · refine (hg.sameUsed_links hlinks).trans ((g₁.sameUsed_write fun x hx =>
        off₂ x (by omega) (by omega)).mono fun c hc hused => ?_)
      simp only [List.mem_append, List.mem_cons] at hc ⊢
      rcases hc with hc | rfl | hc
      · exact Or.inl hc
      · rw [hrfree] at hused
        exact absurd hused (by decide)
      · exact Or.inr hc

/-- **The left neighbour** is merged with the block when it is free. -/
theorem HeapGap.mergeLeft_spec (hg : HeapGap h pre post b.addr b.stop T) (hb : Tagged h.mem b)
    (hfree : b.free = true) (hmin : minBlockSize ≤ b.size) :
    ∃ m' tree' T' c pre', h.mergeLeft b.addr = some (none, h.withTree m' tree', c.addr) ∧
      (pre' = pre ∧ c = b ∧ (∀ l, pre.getLast? = some l → l.free = false) ∨
        ∃ l, pre = pre' ++ [l] ∧ l.free = true ∧ c = ⟨l.addr, l.size + b.size, true⟩) ∧
      HeapGap (h.withTree m' tree') pre' post c.addr c.stop T' ∧
      Tagged m' c ∧ c.free = true ∧ minBlockSize ≤ c.size ∧ SameUsed h (pre ++ post) h.mem m' ∧
      Marked m' b.addr := by
  have hbase := hg.base_le
  have hfl := hg.front.le
  have hback := hg.back.le
  have hend := hg.end_lt
  have hin : Inside h b := ⟨by omega, hback, hmin⟩
  have hlen := hin.stop_eq
  have hfooter : sub32 b.addr 8 = b.addr - 8 := by
    simp only [allocatorSize] at hbase
    exact sub32_of_le (by omega) (by omega)
  simp only [Heap.mergeLeft, Option.bind_eq_bind]
  rw [hfooter]
  rcases List.eq_nil_or_concat pre with rfl | ⟨pre, l, rfl⟩
  · -- there is no block in front
    have hstart : h.startAddress = b.addr := hg.front
    have htest := Heap.leftFree_start hg.toGrounds (by omega)
    rw [hstart] at htest
    rw [htest, Option.bind_some]
    exact ⟨h.mem, h.memTree, T, b, [], rfl, Or.inl ⟨rfl, rfl, by simp⟩, hg, hb, hfree, hmin,
      SameUsed.refl _ _ _, hb.head.marked hfree⟩
  · rw [List.concat_eq_append] at *
    have hl : l ∈ pre ++ [l] ++ post := by simp
    have hlin := hg.inside hl
    have hltags := hg.tagged l hl
    have hllen := hlin.stop_eq
    have hstop : l.stop = b.addr := hg.front.split.2.2
    have htest := Heap.leftFree_eq hg.toGrounds hlin hltags (hg.place hl).1
    have hheader := Heap.load_header hg.toGrounds hlin hltags.foot
    have hlsize := Heap.getSize_eq hg.toGrounds hlin hltags.head
    rw [hstop] at htest hheader
    rw [htest, Option.bind_some]
    cases hlfree : l.free with
    | false =>
      -- a used neighbour stays where it is
      refine ⟨h.mem, h.memTree, T, b, pre ++ [l], rfl, Or.inl ⟨rfl, rfl, ?_⟩, hg, hb, hfree, hmin,
        SameUsed.refl _ _ _, hb.head.marked hfree⟩
      intro l' hl'
      rw [List.getLast?_append, List.getLast?_singleton, Option.some_or, Option.some.injEq] at hl'
      rw [← hl', hlfree]
    | true =>
      -- its node leaves the tree, and the tags of both blocks stay as they are
      obtain ⟨m₁, tree₁, T₁, hremove, hlinks, g₁⟩ := hg.take_left hlfree
      have hb₁ : Tagged m₁ b := by
        have hoff : ∀ x, b.addr ≤ x → x < b.stop → m₁ x = h.mem x :=
          fun _ => hg.gap_of_linksOnly hlinks
        exact ⟨hb.head.congr fun x h1 h2 => hoff x h1 (by omega),
          hb.foot.congr hin.eight_le fun x h1 h2 => hoff x (by omega) h2⟩
      have hl₁ := hg.tagged_of_linksOnly hlinks hl
      have hin₁ : Inside (h.withTree m₁ tree₁) b := ⟨hin.base_le, hin.stop_le, hin.size_le⟩
      have hlin₁ : Inside (h.withTree m₁ tree₁) l := ⟨hlin.base_le, hlin.stop_le, hlin.size_le⟩
      -- the merged block gets the header of the left one and the footer of the right one
      have hsum : l.addr + (l.size + b.size) = b.stop := by
        simp only [Tile.stop] at *
        omega
      obtain ⟨m₂, hset, g₂, off₂, htags₂⟩ :=
        HeapGap.setMerged_spec (h := h.withTree m₁ tree₁) (m := m₁) g₁ (le_refl l.addr)
          (le_of_eq hsum) (le_trans hmin (Nat.le_add_left _ _)) hl₁.head
          (by rw [hsum]; exact hb₁.foot.magic)
      refine ⟨m₂, tree₁, T₁, ⟨l.addr, l.size + b.size, true⟩, pre, ?_,
        Or.inr ⟨l, rfl, hlfree, rfl⟩, ?_, htags₂, rfl, le_trans hmin (Nat.le_add_left _ _), ?_, ?_⟩
      · rw [if_pos rfl, hheader, Option.bind_some, hlsize, Option.bind_some,
          add32_of_lt (by omega), hremove, Option.bind_some]
        simp only
        rw [if_neg (by omega), Heap.getSize_eq g₁.toGrounds hlin₁ hl₁.head, Option.bind_some,
          Heap.getSize_eq g₁.toGrounds hin₁ hb₁.head, Option.bind_some,
          add32_of_lt (by simp only [Tile.stop] at *; omega)]
        exact congrArg (Option.bind · _) hset
      · have hstop' : (⟨l.addr, l.size + b.size, true⟩ : Tile).stop = b.stop := hsum
        rw [hstop']
        exact g₂
      · refine (hg.sameUsed_links hlinks).trans ((g₁.sameUsed_write fun x hx =>
          off₂ x (by omega) (by omega)).mono fun c hc hused => ?_)
        simp only [List.mem_append, List.mem_singleton] at hc ⊢
        rcases hc with (hc | rfl) | hc
        · exact Or.inl hc
        · rw [hlfree] at hused
          exact absurd hused (by decide)
        · exact Or.inr hc
      · -- the old header lies between the tags of the merged block
        refine (hb₁.head.marked hfree).congr fun x h1 h2 => off₂ x (Or.inr ?_) (Or.inl ?_)
        · omega
        · omega

/-- What `glue` makes of a free block. -/
theorem glue_cases {c : Tile} {post' : List Tile} (hfree : b.free = true)
    (h : glue b post = c :: post') :
    ∃ R, R.length ≤ 1 ∧ post = R ++ post' ∧ (∀ x ∈ R, x.free = true) ∧
      (R = [] → ∀ x, post'.head? = some x → x.free = false) ∧
      c = ⟨b.addr, b.size + (R.map Tile.size).sum, true⟩ := by
  obtain ⟨ba, bs, bf⟩ := b
  simp only at hfree
  subst hfree
  -- at most one tile is taken in, since the rest is merged already
  cases post with
  | nil =>
    obtain ⟨rfl, rfl⟩ := List.cons.inj h
    exact ⟨[], by simp, rfl, by simp, by simp, rfl⟩
  | cons r post =>
    cases hr : r.free with
    | false =>
      rw [glue, hr] at h
      obtain ⟨rfl, rfl⟩ := List.cons.inj h
      refine ⟨[], by simp, rfl, by simp, fun _ x hx => ?_, rfl⟩
      rw [← Option.some.inj hx, hr]
    | true =>
      rw [glue, hr] at h
      obtain ⟨rfl, rfl⟩ := List.cons.inj h
      exact ⟨[r], by simp, rfl, by simpa using hr, by simp, by simp⟩

/-! ## The whole call -/

/-- `giveBack` with another function in place of the contraction. -/
def Heap.giveBackWith (contraction : Heap → Nat → Option (Option HeapError × Heap)) (h : Heap)
    (block : Nat) : Option (Option HeapError × Heap) := do
  let footer ← h.getFooter block
  if h.Contracts footer then contraction h block else h.insertBlock block

/-- `free` with another function in place of the contraction. -/
def Heap.freeWith (contraction : Heap → Nat → Option (Option HeapError × Heap)) (h : Heap)
    (p : Nat) : Option (Option HeapError × Heap) :=
  if p = 0 then some (none, h)
  else do
    let (error, h) ← h.release (sub32 p 8)
    if error.isSome then some (error, h)
    else
      let (error, h, block) ← h.coalesce (sub32 p 8)
      if error.isSome then some (error, h) else h.giveBackWith contraction block

theorem Heap.freeWith_shrink (p : Nat) : h.freeWith Heap.shrink p = h.free p := rfl

/-- **The first part of `free`**: the block and its free neighbours make one free block, which is
    not in the tree yet. -/
theorem HeapInv.coalesce_spec (hi : HeapInv h (pre ++ b :: post) T) (hused : b.free = false)
    (hpost : post ≠ []) :
    ∃ m' tree' T' u pre' post', (∀ contraction, h.freeWith contraction (b.addr + 8) =
        ((h.withTree m' tree').withUsed (usedSize (pre ++ post))).giveBackWith contraction u.addr) ∧
      HeapGap (h.withTree m' tree') pre' post' u.addr u.stop T' ∧ Tagged m' u ∧ u.free = true ∧
      (minBlockSize ≤ u.size ∧ u.size % 4 = 0) ∧
      Coalesced b (pre ++ b :: post) (pre' ++ u :: post') u ∧
      SameUsed h (pre ++ post) h.mem m' ∧ Marked m' b.addr := by
  have hb : b ∈ pre ++ b :: post := by simp
  have hin := hi.inside hb
  have hbase := hin.base_le
  have hend := hi.end_lt
  have hlen := hin.stop_eq
  have hstop := hin.stop_le
  obtain ⟨m₁, hrelease, g₁, off₁, htags₁⟩ := hi.release_eq hused
  have hsame₁ := (hi.open_gap hused).sameUsed_write off₁
  obtain ⟨m₂, tree₂, T₂, c, post₂, hright, hglue, g₂, htags₂, hmin₂, hsame₂⟩ :=
    HeapGap.mergeRight_spec (b := ⟨b.addr, b.size, true⟩) (g₁.setUsed (usedSize (pre ++ post)))
      htags₁ rfl hin.size_le hpost
  obtain ⟨R, hR, rfl, hRfree, hRnone, hc⟩ := glue_cases rfl hglue
  have hcaddr : c.addr = b.addr := by rw [hc]
  have hcfree : c.free = true := by rw [hc]
  rw [← hcaddr] at g₂
  obtain ⟨m₃, tree₃, T₃, u, pre₃, hleft, hcases, g₃, htags₃, hufree, hmin₃, hsame₃, hmarked⟩ :=
    g₂.mergeLeft_spec htags₂ hcfree hmin₂
  rw [hcaddr] at hmarked
  have hcall : ∀ contraction, h.freeWith contraction (b.addr + 8) =
      ((h.withTree m₃ tree₃).withUsed (usedSize (pre ++ (R ++ post₂)))).giveBackWith contraction
        u.addr := by
    intro contraction
    have hsub : sub32 (b.addr + 8) 8 = b.addr := by
      rw [sub32_of_le (by omega) (by omega), Nat.add_sub_cancel]
    rw [hcaddr] at hleft
    simp only [Heap.freeWith, Heap.coalesce, Option.bind_eq_bind]
    rw [if_neg (by omega), hsub, hrelease, Option.bind_some]
    simp only [Option.isSome_none, Bool.false_eq_true, if_false]
    rw [hright, Option.bind_some]
    simp only [Option.isSome_none, Bool.false_eq_true, if_false]
    rw [hleft, Option.bind_some]
    rfl
  have hg : HeapGap (h.withTree m₃ tree₃) pre₃ post₂ u.addr u.stop T₃ := g₃.setUsed h.memUsed
  have hsame : SameUsed h (pre ++ (R ++ post₂)) h.mem m₃ := by
    refine (hsame₁.trans hsame₂).trans (hsame₃.mono fun x hx hxused => ?_)
    simp only [List.mem_append] at hx ⊢
    rcases hx with hx | hx | hx
    · exact Or.inl hx
    · rw [hRfree x hx] at hxused
      exact absurd hxused (by decide)
    · exact Or.inr hx
  -- what is behind the merged block is used
  have hpost₂ : ∀ x, post₂.head? = some x → x.free = false := by
    intro x hx
    rcases R.eq_nil_or_concat with rfl | ⟨R', r, rfl⟩
    · exact hRnone rfl x hx
    · rw [List.concat_eq_append] at *
      have hpair : NoFreePair ((pre ++ b :: R') ++ [r] ++ post₂) := by
        have := hi.noFreePair
        simpa using this
      have hnot := hpair.border List.getLast?_concat hx
      rw [hRfree r (by simp)] at hnot
      simpa using hnot
  obtain ⟨L, hL, rfl, hLfree, hpre₃⟩ : ∃ L, L.length ≤ 1 ∧ pre = pre₃ ++ L ∧
      (∀ x ∈ L, x.free = true) ∧ ∀ x, pre₃.getLast? = some x → x.free = false := by
    rcases hcases with ⟨rfl, -, hlast⟩ | ⟨l, rfl, hl, -⟩
    · exact ⟨[], by simp, by simp, by simp, hlast⟩
    · refine ⟨[l], by simp, rfl, by simpa using hl, fun x hx => ?_⟩
      have hpair : NoFreePair (pre₃ ++ (l :: b :: (R ++ post₂))) := by
        have := hi.noFreePair
        simpa using this
      have hnot := hpair.border hx rfl
      rw [hl] at hnot
      simpa using hnot
  -- the merged block is made of the block and its neighbours
  have hlist : pre₃ ++ L ++ b :: (R ++ post₂) = pre₃ ++ (L ++ b :: R) ++ post₂ := by simp
  have htiles := hi.tiles
  rw [hlist] at htiles
  obtain ⟨e, hfront, hback⟩ := tiles_append.mp htiles
  obtain ⟨s, hfront, hmid⟩ := tiles_append.mp hfront
  obtain rfl : s = u.addr := hfront.end_unique hg.front
  obtain rfl : e = u.stop := hback.start_unique hg.back
  have hmod : u.size % 4 = 0 := by
    have := (hmid.mod_eq (n := 4) fun x hx => (hi.sizes x ?_).2).1
    · simp only [Tile.stop] at this
      omega
    · rw [hlist]
      simp only [List.mem_append] at hx ⊢
      exact Or.inl (Or.inr hx)
  refine ⟨m₃, tree₃, T₃, u, pre₃, post₂, hcall, hg, htags₃, hufree, ⟨hmin₃, hmod⟩, ?_, hsame,
    hmarked⟩
  rw [hlist]
  refine Coalesced.mk hL hR (fun x hx => ?_) hpre₃ hpost₂ hmid hufree
  rcases List.mem_append.mp hx with hx | hx
  · exact hLfree x hx
  · exact hRfree x hx

/-- The contraction branch of `free` is taken for the block. -/
def Heap.FreeContracts (h : Heap) (B : List Tile) (b : Tile) : Prop :=
  h.minSize < h.endAddress - h.startAddress ∧ ∃ B' u, Coalesced b B B' u ∧ u.stop = h.endAddress

/-- **`free`** without a contraction, whatever that does. -/
theorem HeapInv.freeWith_spec (hi : HeapInv h (pre ++ b :: post) T) (hused : b.free = false)
    (hpost : post ≠ []) (hno : ¬ h.FreeContracts (pre ++ b :: post) b) :
    ∃ m' tree' T' B' u, (∀ contraction, h.freeWith contraction (b.addr + 8) =
        some (none, (h.withTree m' tree').withUsed (usedSize (pre ++ post)))) ∧
      Coalesced b (pre ++ b :: post) B' u ∧
      HeapInv ((h.withTree m' tree').withUsed (usedSize (pre ++ post))) B' T' ∧
      SameUsed h (pre ++ post) h.mem m' ∧ Marked m' b.addr := by
  obtain ⟨m₁, tree₁, T₁, u, pre₁, post₁, hcall, hg, htags, hfree, hsize, hco, hsame, hmarked⟩ :=
    hi.coalesce_spec hused hpost
  have hg := hg.setUsed (usedSize (pre ++ post))
  have hfl := hg.front.le
  have hback : u.stop ≤ h.endAddress := hg.back.le
  have hbase := hg.base_le
  have hend : h.endAddress < 2 ^ 32 := hi.end_lt
  have hin : Inside ((h.withTree m₁ tree₁).withUsed (usedSize (pre ++ post))) u :=
    ⟨by omega, hback, hsize.1⟩
  have hlen := hin.stop_eq
  -- the heap does not contract, by the condition on the block
  have hstay : ¬ ((h.withTree m₁ tree₁).withUsed (usedSize (pre ++ post))).Contracts
      (u.stop - 8) := by
    rintro ⟨h1, h2⟩
    refine hno ⟨?_, _, u, hco, ?_⟩
    · have h2 : h.minSize < sub32 h.endAddress h.startAddress := h2
      rwa [sub32_of_le hi.tiles.le hend] at h2
    · have h1 : add32 (u.stop - 8) 8 = h.endAddress := h1
      rw [add32_of_lt (by omega)] at h1
      omega
  obtain ⟨m₂, tree₂, T₂, hinsert, hlinks, g₂⟩ := hg.put_front rfl (le_refl _) hsize hfree htags
  have hlist : pre₁ ++ [u] ++ post₁ = pre₁ ++ u :: post₁ := by simp
  have hused' := hco.usedSize_eq hused
  -- the merged block has no free neighbours
  have hpair : NoFreePair (pre₁ ++ [u] ++ post₁) := by
    rw [hlist, hco.eq_merge hi.noFreePair hi.tiles.nodup_addr]
    exact noFreePair_merge _
  have hclose := g₂.close hpair (by
    rw [hlist]
    simp only [usedSize_append, usedSize_cons, hused, Bool.false_eq_true, if_false] at hused'
    simp only [Heap.withTree, Heap.withUsed, usedSize_append, usedSize_cons]
    omega)
  rw [hlist] at hclose
  refine ⟨m₂, tree₂, T₂, _, u, ?_, hco, hclose, ?_, ?_⟩
  · intro contraction
    rw [hcall]
    simp only [Heap.giveBackWith, Heap.insertBlock, Option.bind_eq_bind]
    rw [Heap.getFooter_eq hg.toGrounds hin htags.head, Option.bind_some, if_neg hstay,
      add32_of_lt (by omega), hinsert, Option.bind_some]
    rfl
  · -- the insertion writes to free blocks only
    refine hsame.trans ((g₂.sameUsed_links hlinks).mono fun x hx hxused => ?_)
    rw [hlist, hco.mem_iff hxused (hi.tiles.ne_mid hx)]
    simp only [List.mem_append, List.mem_cons] at hx ⊢
    tauto
  · -- the insertion writes the links of the merged block, which are not at the old header
    obtain ⟨hmem, hle, -, hstop⟩ := hco.covers
    have hplace := hco.addr_cases fun x hx => (hi.sizes x hx).1
    have hb28 := (hi.inside (show b ∈ pre ++ b :: post by simp)).stop_eq
    refine hmarked.congr fun x h1 h2 => hlinks x (by omega) ?_
    intro c hc _
    rw [hlist] at hc
    by_cases hcu : c = u
    · subst hcu
      simp only [minBlockSize] at hplace
      omega
    · have hapart := hclose.tiles.apart hc hmem hcu
      have hc28 := (hclose.inside hc).stop_eq
      omega

/-- **`free`** without a contraction. -/
theorem HeapInv.free_spec (hi : HeapInv h (pre ++ b :: post) T) (hused : b.free = false)
    (hpost : post ≠ []) (hno : ¬ h.FreeContracts (pre ++ b :: post) b) :
    ∃ m' tree' T' B' u, h.free (b.addr + 8) =
        some (none, (h.withTree m' tree').withUsed (usedSize (pre ++ post))) ∧
      Coalesced b (pre ++ b :: post) B' u ∧
      HeapInv ((h.withTree m' tree').withUsed (usedSize (pre ++ post))) B' T' ∧
      SameUsed h (pre ++ post) h.mem m' ∧ Marked m' b.addr := by
  obtain ⟨m', tree', T', B', u, hcall, hrest⟩ := hi.freeWith_spec hused hpost hno
  exact ⟨m', tree', T', B', u, hcall Heap.shrink, hrest⟩

end

/-- `free` of a block that is marked free changes nothing. -/
theorem Heap.free_marked {h : Heap} {p : Nat} (hp : 8 ≤ p) (hlt : p < 2 ^ 32)
    (hmap : h.Mapped (p - 8)) (hmarked : Marked h.mem (p - 8)) :
    h.free p = some (some .alreadyFree, h) := by
  unfold Heap.free
  rw [if_neg (by omega), sub32_of_le hp hlt]
  simp only [Heap.release, Option.bind_eq_bind]
  rw [Heap.load_eq hmap, Option.bind_some, if_neg (by simp [hmarked.magic]), if_pos hmarked.mark]
  rfl

/-- `free` of a pointer without a header fails its first assertion. -/
theorem Heap.free_noMagic {h : Heap} {p : Nat} (hp : 8 ≤ p) (hlt : p < 2 ^ 32)
    (hmap : h.Mapped (p - 8)) (hmagic : checkMagic (load32 h.mem (p - 8)) = false) :
    h.free p = none := by
  unfold Heap.free
  rw [if_neg (by omega), sub32_of_le hp hlt]
  simp only [Heap.release, Option.bind_eq_bind]
  rw [Heap.load_eq hmap, Option.bind_some, if_pos (by simp [hmagic]), Option.bind_none]

end Toutatis
