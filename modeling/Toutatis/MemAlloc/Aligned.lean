import Toutatis.MemAlloc.Calls
import Toutatis.MemAlloc.Search

/-!
# Aligned blocks

`alloc` with an alignment. The block that is found may have to be shifted: its front goes back to the
tree, and a second header is written in the middle of it. That header gets its magic number only when
something is cut off behind the block as well.

## Key results

- `HeapGap.alignBlock_spec`: the block is shifted
- `aligned_block_sound_iff`: when the block that `alloc` returns has its tags
-/

namespace Toutatis

open ByteMem RedBlack Tiling

section

variable {h : Heap} {m : Mem} {B pre post : List Tile} {b c : Tile} {T : ColorTree Entry}
  {alignment requested offset : Nat}

/-! ## The shift -/

/-- **The front of the block** becomes a free block of its own. The word of the new header is not
    touched. -/
theorem HeapGap.alignBlock_spec (hg : HeapGap h pre post c.addr c.stop T) (ht : Tagged h.mem c)
    (hshift : add32 c.addr 8 % alignment ≠ 0) (hoffset : frontOffset (c.addr + 4) alignment = offset)
    (hmin : minBlockSize ≤ offset) (hmod : offset % 4 = 0) (hle : offset + minBlockSize ≤ c.size) :
    ∃ m' tree' T', h.alignBlock c.addr alignment = some (c.addr + offset, h.withTree m' tree') ∧
      HeapGap (h.withTree m' tree') (pre ++ [⟨c.addr, offset, true⟩]) post (c.addr + offset) c.stop
        T' ∧
      load32 m' (c.addr + offset + 4) = c.size - offset ∧
      Footed m' ⟨c.addr + offset, c.size - offset, true⟩ ∧
      load32 m' (c.addr + offset) = load32 h.mem (c.addr + offset) ∧
      SameUsed h (pre ++ post) h.mem m' := by
  have hbase := hg.base_le
  have hfl := hg.front.le
  have hend := hg.end_lt
  have hback := hg.back.le
  have hstop : c.stop = c.addr + c.size := rfl
  have hmin28 : 28 ≤ offset := hmin
  have hle28 : offset + 28 ≤ c.size := hle
  have hget : h.getSize c.addr = some c.size :=
    (HeapGap.getFooter_gap (m := h.mem) hg (le_refl c.addr) (le_refl c.stop) (by omega)
      ht.head.size).1
  -- the size and the footer of the block that is left
  obtain ⟨m₁, h₁, g₁, off₁, size₁⟩ :=
    HeapGap.setSize_spec (m := h.mem) hg (by omega : c.addr ≤ c.addr + offset)
      (by omega : c.addr + offset + 8 ≤ c.stop) (by omega : c.size - offset < 2 ^ 32)
  obtain ⟨m₂, h₂, g₂, off₂, foot₂⟩ :=
    g₁.setFooter_spec (by omega : c.addr ≤ c.addr + offset)
      (by omega : c.addr + offset + (c.size - offset) ≤ c.stop)
      (by simp only [minBlockSize]; omega) size₁ true
  -- the tags of the front
  obtain ⟨m₃, h₃, g₃, off₃, magic₃, -⟩ :=
    g₂.setMagic_spec (le_refl c.addr) (by omega : c.addr + 4 ≤ c.stop)
  obtain ⟨m₄, h₄, g₄, off₄, size₄⟩ :=
    g₃.setSize_spec (le_refl c.addr) (by omega : c.addr + 8 ≤ c.stop) (by omega : offset < 2 ^ 32)
  obtain ⟨m₅, h₅, g₅, off₅, foot₅⟩ :=
    g₄.setFooter_spec (le_refl c.addr) (by omega : c.addr + offset ≤ c.stop) hmin size₄ true
  obtain ⟨m₆, h₆, g₆, off₆, magic₆, mark₆⟩ :=
    g₅.markFree_spec (le_refl c.addr) (by omega : c.addr + 4 ≤ c.stop)
  have hfront : Tagged m₆ ⟨c.addr, offset, true⟩ := by
    refine ⟨⟨?_, mark₆, ?_⟩, ?_⟩
    · rw [magic₆, ← magic₃]
      refine congrArg checkMagic (load32_congr fun x h1 h2 => ?_)
      rw [off₅ x (by omega), off₄ x (by omega)]
    · refine Eq.trans (load32_congr fun x h1 h2 => ?_) size₄
      have h1 : c.addr + 4 ≤ x := h1
      have h2 : x < c.addr + 4 + 4 := h2
      rw [off₆ x (by omega), off₅ x (by omega)]
    · refine foot₅.congr (by simp only; omega) fun x h1 _ => off₆ x (Or.inr ?_)
      simp only [Tile.stop] at h1
      omega
  obtain ⟨m₇, tree₇, T₇, h₇, hlinks, g₇⟩ := g₆.put_front (c := ⟨c.addr, offset, true⟩) rfl
    (by simp only [Tile.stop]; omega) ⟨hmin, hmod⟩ rfl hfront
  -- what lies behind the front is as the first two stores have left it
  have hrest : ∀ x, c.addr + offset ≤ x → x < c.stop → m₇ x = m₂ x := by
    intro x hx1 hx2
    have h7 : m₇ x = m₆ x := by
      refine hlinks x (by omega) fun d hd _ => ?_
      simp only [List.mem_append, List.mem_singleton] at hd
      rcases hd with (hd | rfl) | hd
      · have hplace := hg.front.bounds hd
        have := (hg.sizes d (by simp [hd])).1
        simp only [Tile.stop, minBlockSize] at *
        omega
      · simp only
        omega
      · have hplace := hg.back.bounds hd
        omega
    rw [h7, off₆ x (by omega), off₅ x (by omega), off₄ x (by omega), off₃ x (by omega)]
  refine ⟨m₇, tree₇, T₇, ?_, g₇, ?_, ?_, ?_, ?_⟩
  · have hnew : add32 c.addr offset = c.addr + offset := add32_of_lt (by omega)
    have hleft : sub32 c.size offset = c.size - offset := sub32_of_le (by omega) (by omega)
    have hloop : alignLoop (minBlockSize + 1) alignment (alignment - add32 c.addr 8 % alignment) =
        offset := by
      have hsum : add32 (c.addr + 4) 4 = add32 c.addr 8 := by
        rw [add32_of_lt (by omega), add32_of_lt (by omega)]
      rw [← hoffset, frontOffset, hsum, if_pos hshift]
    have h₁ : h.setSize (c.addr + offset) (c.size - offset) = some (h.withMem m₁) := h₁
    unfold Heap.alignBlock
    rw [if_pos hshift]
    simp only [hloop, hnew, Option.bind_eq_bind]
    rw [hget, Option.bind_some, hleft, h₁, Option.bind_some, h₂, Option.bind_some,
      if_neg (by omega), h₃, Option.bind_some, h₄, Option.bind_some, h₅, Option.bind_some, h₆,
      Option.bind_some, add32_of_lt (by omega), h₇, Option.bind_some]
    rfl
  · refine Eq.trans (load32_congr fun x h1 h2 => ?_) size₁
    rw [hrest x (by omega) (by omega), off₂ x (by omega)]
  · refine foot₂.congr (by simp only; omega) fun x h1 h2 => hrest x ?_ ?_
    · simp only [Tile.stop] at h1
      omega
    · simp only [Tile.stop] at h2
      omega
  · refine load32_congr fun x h1 h2 => ?_
    rw [hrest x h1 (by omega), off₂ x (by omega), off₁ x (by omega)]
  · have hgap : ∀ x, x < c.addr ∨ c.stop ≤ x → m₆ x = h.mem x := by
      intro x hx
      rw [off₆ x (by omega), off₅ x (by omega), off₄ x (by omega), off₃ x (by omega),
        off₂ x (by omega), off₁ x (by omega)]
    refine (hg.sameUsed_write hgap).trans ((g₇.sameUsed_links hlinks).mono fun x hx _ => ?_)
    simp only [List.mem_append] at hx ⊢
    tauto

/-! ## The call -/

/-- The alignment that `alloc` uses; `0` stands for none. -/
def usedAlignment (alignment : Nat) : Nat := if alignment = 0 then 1 else alignment

/-- The blocks that are made of `c` when `n` bytes are taken behind `offset` bytes. -/
def shiftCut (c : Tile) (offset n : Nat) : List Tile :=
  if offset = 0 then cut minBlockSize c n
  else ⟨c.addr, offset, true⟩ :: cut minBlockSize ⟨c.addr + offset, c.size - offset, true⟩ n

/-- The block of the user pointer `p` is sound: `p` is aligned, the block has its tags among the
    blocks `B` of a heap that satisfies the invariant, and `free` passes both assertions. -/
structure SoundBlock (h : Heap) (B : List Tile) (alignment p : Nat) : Prop where
  aligned : p % alignment = 0
  inv : ∃ T, HeapInv h B T
  block : ∃ b ∈ B, b.free = false ∧ b.addr + 8 = p ∧ Tagged h.mem b
  released : ∃ h', h.release (p - 8) = some (none, h')

/-- The header of the block gets its magic number: the block is not shifted, or something is cut off
    behind it, or the word is one already. -/
def HeaderWritten (m : Mem) (c : Tile) (offset n : Nat) : Prop :=
  offset = 0 ∨ minBlockSize ≤ c.size - offset - n ∨ checkMagic (load32 m (c.addr + offset)) = true

/-- A used block of a heap that satisfies the invariant is sound. -/
theorem HeapInv.soundBlock (hi : HeapInv h B T) (hb : b ∈ B) (hused : b.free = false)
    (haligned : (b.addr + 8) % alignment = 0) : SoundBlock h B alignment (b.addr + 8) := by
  refine ⟨haligned, ⟨T, hi⟩, ⟨b, hb, hused, rfl, hi.tagged b hb⟩, ?_⟩
  obtain ⟨pre, post, rfl⟩ := List.append_of_mem hb
  obtain ⟨m', hrelease, -⟩ := hi.release_eq hused
  rw [Nat.add_sub_cancel]
  exact ⟨_, hrelease⟩

/-- `alloc` is one search, and either a taken block or the call on a bigger heap. -/
theorem Heap.allocLoop_succ (h : Heap) (fresh : NewPages) (size fuel alignment : Nat) :
    h.allocLoop fresh size (fuel + 1) alignment =
      (h.removeNode (getBlockSize size) ⟨usedAlignment alignment, 0⟩).bind fun r =>
        if r.1 = 0 then
          ((r.2.expand fresh (add32 r.2.endAddress (getBlockSize size))).addHole
            r.2.endAddress).bind fun e =>
              if e.1.isSome then some (0, e.2)
              else Heap.allocLoop fresh size fuel (usedAlignment alignment) e.2
        else r.2.takeBlock r.1 (getBlockSize size) (usedAlignment alignment) := rfl

/-- `alloc` when the search in the tree takes a block. -/
theorem Heap.alloc_taken {fresh : NewPages} {size : Nat} {h₁ : Heap} (hblock : c.addr + 4 ≠ 0)
    (htake : h.removeNode (getBlockSize size) ⟨usedAlignment alignment, 0⟩ =
      some (c.addr + 4, h₁)) :
    h.alloc fresh size alignment =
      h₁.takeBlock (c.addr + 4) (getBlockSize size) (usedAlignment alignment) := by
  have hfuel : loopBound = loopBound - 1 + 1 := by decide
  rw [Heap.alloc, hfuel, Heap.allocLoop_succ, htake, Option.bind_some]
  exact if_neg hblock

/-- The header behind the user pointer `p` has no magic number. -/
def NoHeader (h : Heap) (p : Nat) : Prop :=
  h.Mapped (p - 8) ∧ checkMagic (load32 h.mem (p - 8)) = false

theorem SoundBlock.not_noHeader {p : Nat} (hs : SoundBlock h B alignment p) : ¬ NoHeader h p := by
  rintro ⟨-, hmagic⟩
  obtain ⟨b, -, -, rfl, htags⟩ := hs.block
  rw [Nat.add_sub_cancel, htags.head.magic] at hmagic
  exact absurd hmagic (by decide)

/-- The block of the user pointer `p` has at least `n` bytes and ends at or below `stop`. -/
def BlockWithin (h : Heap) (p n stop : Nat) : Prop :=
  ∃ size, h.getSize (p - 8) = some size ∧ n ≤ size ∧ p - 8 + size ≤ stop

/-- What is left of `alloc` once the block is aligned: it returns, and the block is sound if its header
    has the magic number, or gets it because something is cut off. -/
theorem HeapGap.takeRest_cases (hg : HeapGap h pre post c.addr c.stop T)
    (hword : load32 h.mem (c.addr + 4) = c.size) (hfoot : Footed h.mem c)
    (hsize : minBlockSize ≤ c.size ∧ c.size % 4 = 0)
    (hpair : NoFreePair (pre ++ cut minBlockSize c requested ++ post))
    (hused : h.memUsed = usedSize (pre ++ post)) (hreq : RequestOk requested)
    (hle : requested ≤ c.size) (haligned : (c.addr + 8) % alignment = 0) :
    ∃ h', ((h.fragment c.addr requested).bind fun h₂ => (h₂.markUsed c.addr).bind fun h₃ =>
        (h₃.getSize c.addr).bind fun size =>
          some (add32 c.addr 8, h₃.withUsed (add32 h₃.memUsed size))) = some (c.addr + 8, h') ∧
      BlockWithin h' (c.addr + 8) requested c.stop ∧
      if minBlockSize ≤ c.size - requested ∨ checkMagic (load32 h.mem c.addr) = true then
        SoundBlock h' (pre ++ cut minBlockSize c requested ++ post) alignment (c.addr + 8)
      else NoHeader h' (c.addr + 8) := by
  by_cases hmagic : minBlockSize ≤ c.size - requested ∨ checkMagic (load32 h.mem c.addr) = true
  · obtain ⟨m', tree', T', hrest, hinv, -⟩ :=
      hg.takeRest_spec ⟨hword, hfoot, hmagic⟩ hsize hpair hused hreq hle
    obtain ⟨rest, hcut⟩ := cut_eq minBlockSize requested c
    have hblock : (⟨c.addr, taken minBlockSize c requested, false⟩ : Tile) ∈
        pre ++ cut minBlockSize c requested ++ post := by
      rw [hcut]
      simp
    have hget := Heap.getSize_eq hinv.toGrounds (hinv.inside hblock) (hinv.tagged _ hblock).head
    refine ⟨_, hrest, ⟨taken minBlockSize c requested, ?_, le_taken hle, ?_⟩, ?_⟩
    · rw [Nat.add_sub_cancel]
      exact hget
    · rw [Nat.add_sub_cancel]
      exact Nat.add_le_add_left (taken_le hle) _
    · rw [if_pos hmagic]
      exact hinv.soundBlock (b := ⟨c.addr, taken minBlockSize c requested, false⟩) hblock rfl haligned
  · -- the word of the header keeps what it held
    have hwhole : ¬ minBlockSize ≤ c.size - requested := fun hle => hmagic (Or.inl hle)
    have hbase := hg.base_le
    have hfl := hg.front.le
    have hback := hg.back.le
    have hend := hg.end_lt
    have h28 : 28 ≤ c.size := hsize.1
    have hstop : c.stop = c.addr + c.size := rfl
    obtain ⟨m', hmark, hg', hoff, hmagic', -⟩ :=
      HeapGap.markUsed_spec (m := h.mem) hg (le_refl c.addr) (by omega : c.addr + 4 ≤ c.stop)
    have hmark : h.markUsed c.addr = some (h.withMem m') := hmark
    have hword' : load32 m' (c.addr + 4) = c.size := by
      rw [← hword]
      exact load32_congr fun x h1 _ => hoff x (Or.inr h1)
    have hget := (hg'.getFooter_gap (le_refl c.addr) (le_refl c.stop) (by omega) hword').1
    refine ⟨(h.withMem m').withUsed (add32 h.memUsed c.size), ?_, ⟨c.size, ?_, hle, ?_⟩, ?_⟩
    · rw [hg.fragment_whole hword hsize.1 hle hwhole, Option.bind_some, hmark, Option.bind_some,
        hget, Option.bind_some, add32_of_lt (by omega)]
      rfl
    · rw [Nat.add_sub_cancel]
      exact hget
    · rw [Nat.add_sub_cancel]
      exact le_refl c.stop
    · rw [if_neg hmagic]
      unfold NoHeader
      rw [Nat.add_sub_cancel]
      refine ⟨hg.mapped (by omega) (by omega), hmagic'.trans ?_⟩
      rw [← Bool.not_eq_true]
      exact fun hyes => hmagic (Or.inr hyes)

/-- The offset of a block that is shifted. -/
theorem padding_spec {user : Nat} (h0 : 0 < alignment) (hshift : user % alignment ≠ 0) :
    minBlockSize ≤ padding user alignment ∧ (user + padding user alignment) % alignment = 0 :=
  (padding_isLeast h0 hshift).1

/-- The offset of a shifted block is a multiple of 4 when the alignment is. -/
theorem padding_mod {user : Nat} (h0 : 0 < alignment) (halign : alignment = 1 ∨ alignment % 4 = 0)
    (huser : user % 4 = 0) (hshift : user % alignment ≠ 0) : padding user alignment % 4 = 0 := by
  have halign : alignment % 4 = 0 := by
    refine halign.resolve_left ?_
    rintro rfl
    exact hshift (Nat.mod_one user)
  have haligned := (padding_spec h0 hshift).2
  have hsum : (user + padding user alignment) % 4 = 0 :=
    Nat.mod_eq_zero_of_dvd
      ((Nat.dvd_of_mod_eq_zero halign).trans (Nat.dvd_of_mod_eq_zero haligned))
  omega

theorem usedAlignment_pos (alignment : Nat) : 0 < usedAlignment alignment := by
  unfold usedAlignment
  split <;> omega

theorem usedAlignment_lt (hlt : alignment < 2 ^ 32) : usedAlignment alignment < 2 ^ 32 := by
  unfold usedAlignment
  split <;> omega

theorem usedAlignment_spec (halign : alignment % 4 = 0) :
    usedAlignment alignment = 1 ∨ usedAlignment alignment % 4 = 0 := by
  unfold usedAlignment
  split <;> omega

/-- What `alloc` does with a free block that fits. -/
theorem HeapInv.takeBlock_aligned (hi : HeapInv h (pre ++ c :: post) T) (hfree : c.free = true)
    (h0 : 0 < alignment) (halign : alignment = 1 ∨ alignment % 4 = 0) (hlt : alignment < 2 ^ 32)
    (hreq : RequestOk requested) {h₁ : Heap}
    (htake : h.removeNode requested ⟨alignment, 0⟩ = some (c.addr + 4, h₁))
    (hoffset : padding (c.addr + 8) alignment = offset) (hfit : offset + requested ≤ c.size) :
    ∃ h', h₁.takeBlock (c.addr + 4) requested alignment = some (c.addr + offset + 8, h') ∧
      BlockWithin h' (c.addr + offset + 8) requested c.stop ∧
      (HeaderWritten h.mem c offset requested →
        SoundBlock h' (pre ++ shiftCut c offset requested ++ post) alignment
          (c.addr + offset + 8)) ∧
      (¬ HeaderWritten h.mem c offset requested → NoHeader h' (c.addr + offset + 8)) := by
  have hcmem : c ∈ pre ++ c :: post := by simp
  have hstop := (hi.inside hcmem).stop_le
  have hlen := (hi.inside hcmem).stop_eq
  have hend := hi.end_lt
  have hcsize := hi.sizes c hcmem
  have hcstop : c.stop = c.addr + c.size := rfl
  have huser : add32 (c.addr + 4) 4 = c.addr + 8 := add32_of_lt (by omega)
  have hadd8 : add32 c.addr 8 = c.addr + 8 := add32_of_lt (by omega)
  have hsub : sub32 (c.addr + 4) 4 = c.addr := by
    rw [sub32_of_le (by omega) (by omega), Nat.add_sub_cancel]
  obtain ⟨m₁, tree₁, T₁, rfl, hlinks, htags, hg⟩ := hi.remove_taken htake
  have hused : (h.withTree m₁ tree₁).memUsed = usedSize (pre ++ post) := by
    refine hi.used.trans ?_
    simp only [usedSize_append, usedSize_cons, hfree, if_true]
    omega
  by_cases hshift : (c.addr + 8) % alignment = 0
  · -- the block is aligned as it is
    have hzero : offset = 0 := by
      rw [← hoffset, padding, if_pos hshift]
    subst hzero
    have hstay : (h.withTree m₁ tree₁).alignBlock (sub32 (c.addr + 4) 4) alignment =
        some (c.addr, h.withTree m₁ tree₁) := by
      unfold Heap.alignBlock
      rw [hsub, hadd8, if_neg (by simp [hshift])]
    obtain ⟨h', hrest, hwithin, hsound⟩ := hg.takeRest_cases htags.head.size htags.foot hcsize
      (noFreePair_cut hi.noFreePair hfree) hused hreq (by omega) hshift
    have hmagic : checkMagic (load32 (h.withTree m₁ tree₁).mem c.addr) = true := htags.head.magic
    rw [if_pos (Or.inr hmagic)] at hsound
    exact ⟨h', (Heap.takeBlock_eq hstay).trans hrest, hwithin, fun _ => hsound,
      fun hnot => absurd (Or.inl rfl) hnot⟩
  · -- a second header is written in the middle of the block
    obtain ⟨hmin, haligned⟩ := padding_spec h0 hshift
    have hcmod : c.addr % 4 = 0 := hg.aligned.1
    have hmod := padding_mod h0 halign (by omega : (c.addr + 8) % 4 = 0) hshift
    rw [hoffset] at hmin haligned hmod
    have hmin28 : 28 ≤ offset := hmin
    have hreq28 : 28 ≤ requested := hreq.1
    have hne : offset ≠ 0 := by omega
    have hfront : frontOffset (c.addr + 4) alignment = offset := by
      rw [frontOffset_eq_padding h0 hlt
        (by rw [huser, hoffset]; omega), huser, hoffset]
    obtain ⟨m₂, tree₂, T₂, hcall, hg₂, hword, hfoot, hheader, -⟩ := hg.alignBlock_spec htags
      (by rw [hadd8]; exact hshift) hfront hmin hmod (by simp only [minBlockSize]; omega)
    have hmoved : (h.withTree m₁ tree₁).alignBlock (sub32 (c.addr + 4) 4) alignment =
        some (c.addr + offset, (h.withTree m₁ tree₁).withTree m₂ tree₂) := by
      rw [hsub]
      exact hcall
    -- the search has not touched the word of the new header either
    have hsame : load32 m₂ (c.addr + offset) = load32 h.mem (c.addr + offset) := by
      refine hheader.trans (load32_congr fun x h1 h2 => hlinks x (by omega) fun d hd _ => ?_)
      by_cases hdc : d = c
      · subst hdc
        omega
      · have hapart := hi.tiles.apart hd hcmem hdc
        have := (hi.inside hd).stop_eq
        omega
    obtain ⟨c', hc'⟩ : ∃ c' : Tile, c' = ⟨c.addr + offset, c.size - offset, true⟩ := ⟨_, rfl⟩
    have haddr : c'.addr = c.addr + offset := by rw [hc']
    have hsize' : c'.size = c.size - offset := by rw [hc']
    have hlast : c'.stop = c.stop := by
      rw [Tile.stop, haddr, hsize']
      omega
    have hlist : pre ++ shiftCut c offset (requested) ++ post =
        pre ++ [⟨c.addr, offset, true⟩] ++ cut minBlockSize c' (requested) ++ post := by
      rw [shiftCut, if_neg hne, hc']
      simp
    have hused₂ : ((h.withTree m₁ tree₁).withTree m₂ tree₂).memUsed =
        usedSize (pre ++ [⟨c.addr, offset, true⟩] ++ post) := by
      refine hused.trans ?_
      simp only [usedSize_append, usedSize_cons, usedSize_nil, if_true]
      omega
    rw [Heap.takeBlock_eq hmoved, hlist, HeaderWritten, ← haddr, ← hsize', or_iff_right hne]
    rw [← haddr] at hg₂ hword hsame
    rw [← hlast] at hg₂
    rw [← hsize'] at hword
    rw [← hc'] at hfoot
    obtain ⟨h', hrest, hwithin, hsound⟩ := hg₂.takeRest_cases hword hfoot
      ⟨by simp only [minBlockSize]; omega, by omega⟩ (noFreePair_shift hi.noFreePair hfree) hused₂
      hreq (by omega) (by rw [haddr, Nat.add_right_comm]; exact haligned)
    have hsame : load32 ((h.withTree m₁ tree₁).withTree m₂ tree₂).mem c'.addr =
        load32 h.mem c'.addr := hsame
    rw [hsame] at hsound
    refine ⟨h', hrest, hlast ▸ hwithin, fun hwritten => ?_, fun hnot => ?_⟩
    · rwa [if_pos hwritten] at hsound
    · rwa [if_neg hnot] at hsound

/-- `alloc` with an alignment of a multiple of 4, when the search in the tree takes a free block that
    fits. -/
theorem HeapInv.alloc_aligned (hi : HeapInv h (pre ++ c :: post) T) (hfree : c.free = true)
    {size : Nat} (halign : alignment % 4 = 0) (hlt : alignment < 2 ^ 32) {h₁ : Heap}
    (htake : h.removeNode (getBlockSize size) ⟨usedAlignment alignment, 0⟩ = some (c.addr + 4, h₁))
    (hoffset : padding (c.addr + 8) (usedAlignment alignment) = offset)
    (hfit : offset + getBlockSize size ≤ c.size) (fresh : NewPages) :
    ∃ h', h.alloc fresh size alignment = some (c.addr + offset + 8, h') ∧
      (HeaderWritten h.mem c offset (getBlockSize size) →
        SoundBlock h' (pre ++ shiftCut c offset (getBlockSize size) ++ post)
          (usedAlignment alignment) (c.addr + offset + 8)) ∧
      (¬ HeaderWritten h.mem c offset (getBlockSize size) →
        NoHeader h' (c.addr + offset + 8)) := by
  obtain ⟨h', hblock, -, hsound⟩ := hi.takeBlock_aligned hfree (usedAlignment_pos alignment)
    (usedAlignment_spec halign) (usedAlignment_lt hlt) (requestOk_getBlockSize size) htake hoffset hfit
  exact ⟨h', (Heap.alloc_taken (by omega) htake).trans hblock, hsound⟩

/-- **Aligned blocks.** `alloc` with an alignment of a multiple of 4, when the search in the tree takes
    a free block that fits: the call returns, and the block behind the pointer is sound, with the
    front that is cut off as a free block, if and only if the header of it gets its magic number. The
    call that `alloc` makes of itself after an expansion is one more instance of this. -/
theorem aligned_block_sound_iff (hi : HeapInv h (pre ++ c :: post) T) (hfree : c.free = true)
    {size : Nat} (halign : alignment % 4 = 0) (hlt : alignment < 2 ^ 32) {h₁ : Heap}
    (htake : h.removeNode (getBlockSize size) ⟨usedAlignment alignment, 0⟩ = some (c.addr + 4, h₁))
    (hoffset : padding (c.addr + 8) (usedAlignment alignment) = offset)
    (hfit : offset + getBlockSize size ≤ c.size) (fresh : NewPages) :
    ∃ h', h.alloc fresh size alignment = some (c.addr + offset + 8, h') ∧
      (SoundBlock h' (pre ++ shiftCut c offset (getBlockSize size) ++ post)
          (usedAlignment alignment) (c.addr + offset + 8) ↔
        HeaderWritten h.mem c offset (getBlockSize size)) := by
  obtain ⟨h', hcall, hsound, hbroken⟩ := hi.alloc_aligned hfree halign hlt htake hoffset hfit fresh
  refine ⟨h', hcall, fun hs => ?_, hsound⟩
  by_contra hnot
  exact hs.not_noHeader (hbroken hnot)

/-- An aligned search takes the only block of a heap when it fits. -/
theorem HeapInv.take_only (hi : HeapInv h [c] T) (hfree : c.free = true) (h1 : 1 < alignment)
    (hlt : alignment < 2 ^ 32) (hfit : padding (c.addr + 8) alignment + requested ≤ c.size) :
    ∃ h₁, h.removeNode requested ⟨alignment, 0⟩ = some (c.addr + 4, h₁) := by
  have hstop := (hi.inside (List.mem_singleton_self c)).stop_le
  have hlen := (hi.inside (List.mem_singleton_self c)).stop_eq
  have hend := hi.end_lt
  have huser : add32 (c.addr + 4) 4 = c.addr + 8 := add32_of_lt (by omega)
  have hnodes : ∀ a, a ∈ treeNodes T ↔ a = c.addr + 4 := by
    intro a
    rw [hi.nodes]
    simp only [List.mem_singleton, exists_eq_left, hfree, true_and]
  have hkey : nodeData h.mem (c.addr + 4) = c.size :=
    (hi.tagged c (List.mem_singleton_self c)).head.size
  -- the root of the tree is the node of the block
  obtain ⟨e, he, hspine, haddr⟩ : ∃ e ∈ T.toList, e ∈ T.sideSpine true ∧ e.addr = c.addr + 4 := by
    cases T with
    | nil => exact absurd ((hnodes _).mpr rfl) (by simp [treeNodes])
    | node col l e r =>
      have hmem : e ∈ (ColorTree.node col l e r).toList := by simp
      exact ⟨e, hmem, by simp [ColorTree.sideSpine],
        (hnodes _).mp (mem_treeNodes_iff.mpr ⟨e, hmem, e.addr_mem_nodes⟩)⟩
  have hfits : padding (add32 (c.addr + 4) 4) alignment + requested ≤
      nodeData h.mem (c.addr + 4) := by
    rw [huser, hkey]
    exact hfit
  have hmatch : compare h.mem e.addr requested (some ⟨alignment, 0⟩) = 0 := by
    have hsmall : padding (add32 (c.addr + 4) 4) alignment < 2 ^ 32 :=
      lt_of_le_of_lt (le_trans (Nat.le_add_right _ _) hfits) (load32_lt h.mem _)
    have hfront := frontOffset_eq_padding (by omega) hlt hsmall
    rw [haddr, compare]
    refine compareKey_of_fits 0 (by omega) hlt (load32_lt h.mem _) ?_
    rw [hfront]
    exact hfits
  have hreach := (hi.tree.reachable_entry he e.addr_mem_nodes).1
  rw [haddr] at hreach
  obtain ⟨f, m', tree', hcall, hf⟩ :=
    (aligned_search_iff hi.tree requested h1).mpr (Or.inr ⟨e, hspine, hmatch⟩) ⟨_, hreach, hfits⟩
  obtain ⟨m₁, tree₁, T₁, kind, hr, -, hrem, -⟩ := hi.tree.remove requested (some ⟨alignment, 0⟩)
  rw [hcall] at hr
  obtain ⟨rfl, rfl, rfl⟩ := by simpa only [Option.some.injEq, Prod.mk.injEq] using hr
  have hperm := hrem.perm_treeNodes
  rw [hrem.node?_eq hi.tree.nodes.pos, if_neg hf] at hperm
  have hnode := (hnodes _).mp
    (hperm.mem_iff.mpr (List.mem_append_left _ (List.mem_singleton_self _)))
  rw [hnode] at hcall
  exact ⟨h.withTree m' tree', Heap.removeNode_eq
    (fun _ => hi.nodeMapped ((hnodes _).mpr rfl)) hcall⟩

end

/-- A new heap of one page in memory that was all zero. -/
theorem exists_zero_heap : ∃ h T, HeapInv h ([] ++ ⟨65604, 4028, true⟩ :: []) T ∧
    load32 h.mem 65656 = 0 ∧ pageHeap.create 0x10000 0x11000 4096 0x100000 = some (some h) := by
  obtain ⟨m, tree, T, hcreate, hi, hsame⟩ := HeapInv.create_inside pageHeap_canCreate 4096 0x100000
  refine ⟨_, T, hi, ?_, hcreate⟩
  refine Eq.trans (load32_congr fun x h1 h2 => hsame x ?_ ?_)
    (by decide : load32 pageHeap.mem 65656 = 0)
  · rw [show firstBlock 0x10000 = 65604 by decide]
    omega
  · omega

/-- The block is shifted by 52 bytes, and a request of 100 bytes leaves something behind it. -/
theorem aligned_block_sound_iff_split : ∃ h T h',
    HeapInv h ([] ++ ⟨65604, 4028, true⟩ :: []) T ∧
    h.alloc zeroPages 100 64 = some (65664, h') ∧
    SoundBlock h' ([] ++ shiftCut ⟨65604, 4028, true⟩ 52 (getBlockSize 100) ++ []) 64 65664 := by
  obtain ⟨h, T, hi, -, -⟩ := exists_zero_heap
  obtain ⟨h₁, htake⟩ := hi.take_only rfl (by decide : 1 < 64) (by decide)
    (by decide : padding 65612 64 + getBlockSize 100 ≤ 4028)
  obtain ⟨h', hcall, hsound⟩ := aligned_block_sound_iff hi rfl (by decide : 64 % 4 = 0)
    (by decide) htake (by decide) (by decide : 52 + getBlockSize 100 ≤ 4028) zeroPages
  exact ⟨h, T, h', hi, hcall, hsound.mpr (Or.inr (Or.inl (by decide)))⟩

/-- A request of 3960 bytes takes all that is left of the block behind its front, and the assertion
    of `free` fails for the pointer that is returned. -/
theorem aligned_block_without_magic : ∃ h T h',
    HeapInv h ([] ++ ⟨65604, 4028, true⟩ :: []) T ∧
    h.alloc zeroPages 3960 64 = some (65664, h') ∧ padding 65612 64 + getBlockSize 3960 ≤ 4028 ∧
    checkMagic (load32 h'.mem (65664 - 8)) = false ∧ h'.free 65664 = none := by
  obtain ⟨h, T, hi, hzero, -⟩ := exists_zero_heap
  obtain ⟨h₁, htake⟩ := hi.take_only rfl (by decide : 1 < 64) (by decide)
    (by decide : padding 65612 64 + getBlockSize 3960 ≤ 4028)
  obtain ⟨h', hcall, -, hbroken⟩ := hi.alloc_aligned rfl (by decide : 64 % 4 = 0)
    (by decide) htake (by decide) (by decide : 52 + getBlockSize 3960 ≤ 4028) zeroPages
  have hnot : ¬ HeaderWritten h.mem ⟨65604, 4028, true⟩ 52 (getBlockSize 3960) := by
    rintro (hno | hno | hno)
    · exact absurd hno (by decide)
    · exact absurd hno (by decide)
    · rw [show (⟨65604, 4028, true⟩ : Tile).addr + 52 = 65656 from rfl, hzero] at hno
      exact absurd hno (by decide)
  have hheader := hbroken hnot
  exact ⟨h, T, h', hi, hcall, by decide, hheader.2, Heap.free_noMagic (by decide) (by decide)
    hheader.1 hheader.2⟩

end Toutatis
