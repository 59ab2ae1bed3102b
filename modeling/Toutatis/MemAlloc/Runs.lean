import Toutatis.MemAlloc.Contract
import Toutatis.Lib.Run

/-!
# Runs of the allocator

The clients of one allocator take blocks with `alloc(size, 0)`, write to the blocks that they hold
and give them back with `free`, in any order. A call that does not return ends the run.

The invariant of `HeapRun.Holds` is that the pointers the clients hold are those of the used blocks,
and that no page behind the heap is mapped. A contraction that leaves a piece too small for a block
breaks it, so the results are about runs without one.

## Key results

- `HeapRun.Holds.step`: every call keeps the invariant
- `heap_size_bounded`: the bounds on the size of the heap
- `free_inside_iff`: when `free` stays inside the heap
-/

namespace Toutatis

open ByteMem RedBlack Tiling

/-! ## Runs -/

/-- An allocator with the pointers that its clients hold. -/
structure HeapRun where
  heap : Heap
  live : List Nat

/-- What clients do; `fresh` is what new frames hold. -/
inductive HeapCall where
  | alloc (size : Nat) (fresh : NewPages)
  | free (p : Nat)
  | write (m : Mem)

def HeapCall.exec (s : HeapRun) : HeapCall → Option HeapRun
  | .alloc size fresh => (s.heap.alloc fresh size 0).map fun (p, h) =>
      ⟨h, if p = 0 then s.live else p :: s.live⟩
  | .free p => (s.heap.free p).map fun (_, h) => ⟨h, s.live.erase p⟩
  | .write m => some ⟨s.heap.withMem m, s.live⟩

/-- The bytes behind a user pointer: those of its block without the tags. -/
def Heap.userSize (h : Heap) (p : Nat) : Nat := load32 h.mem (p - 4) - 16

/-- Clients give back what they hold, and write to what they hold. -/
def HeapCall.Allowed (s : HeapRun) : HeapCall → Prop
  | .alloc _ _ => True
  | .free p => p ∈ s.live
  | .write m => ∀ x, (∀ p ∈ s.live, x < p ∨ p + s.heap.userSize p ≤ x) → m x = s.heap.mem x

/-- `free p` contracts the heap; `u` is the block with its free neighbours. -/
def Heap.ContractsTo (h : Heap) (p : Nat) (u : Tile) : Prop :=
  ∃ B T b B', HeapInv h B T ∧ b ∈ B ∧ b.free = false ∧ p = b.addr + 8 ∧ Coalesced b B B' u ∧
    u.stop = h.endAddress ∧ h.minSize < h.endAddress - h.startAddress

/-- A contraction leaves nothing of the block, or a whole one. -/
def HeapCall.Clean (s : HeapRun) : HeapCall → Prop
  | .free p => ∀ u, s.heap.ContractsTo p u →
      s.heap.contractEnd u.addr = u.addr ∨ u.addr + minBlockSize ≤ s.heap.contractEnd u.addr
  | _ => True

/-- The state between two calls: the heap never gets beyond `limit`, and behind it no page up to
    there is mapped. -/
structure HeapRun.Holds (limit : Nat) (s : HeapRun) (B : List Tile) (T : ColorTree Entry) : Prop where
  inv : HeapInv s.heap B T
  live : ∀ p, p ∈ s.live ↔ ∃ b ∈ B, b.free = false ∧ p = b.addr + 8
  nodup : s.live.Nodup
  clear : s.heap.ClearTo limit
  stop_le : s.heap.endAddress ≤ limit
  max_le : s.heap.startAddress + s.heap.maxSize ≤ limit

section

variable {h : Heap} {s s' : HeapRun} {B B' : List Tile} {T T' : ColorTree Entry} {b u : Tile}
  {c : HeapCall} {p limit : Nat}

theorem SameLimits.refl (h : Heap) : SameLimits h h := ⟨rfl, rfl, rfl, rfl⟩

theorem SameLimits.trans {h₁ h₂ h₃ : Heap} (h12 : SameLimits h₁ h₂) (h23 : SameLimits h₂ h₃) :
    SameLimits h₁ h₃ :=
  ⟨h23.base.trans h12.base, h23.start.trans h12.start, h23.minSize.trans h12.minSize,
    h23.maxSize.trans h12.maxSize⟩

theorem SameLimits.max_le {h h' : Heap} (hl : SameLimits h h')
    (hle : h.startAddress + h.maxSize ≤ limit) : h'.startAddress + h'.maxSize ≤ limit := by
  rw [hl.start, hl.maxSize]
  exact hle

/-! ## One call -/

/-- **`alloc`**: the new pointer is that of the one new used block. -/
theorem HeapRun.Holds.alloc (hs : s.Holds limit B T) {size : Nat} {fresh : NewPages}
    (hcall : (HeapCall.alloc size fresh).exec s = some s') :
    ∃ B' T', s'.Holds limit B' T' ∧ SameLimits s.heap s'.heap ∧
      s.heap.endAddress ≤ s'.heap.endAddress := by
  have hi := hs.inv
  have hsum : add32 s.heap.startAddress s.heap.maxSize ≤ limit :=
    le_trans (Nat.mod_le _ _) hs.max_le
  rw [HeapCall.exec] at hcall
  by_cases hroom : (∃ b ∈ B, b.free = true ∧ getBlockSize size ≤ b.size) ∨
      CanGrow s.heap (getBlockSize size)
  · obtain ⟨p, h', B', T', hserve, hi', hserved, hlimits, hstop⟩ := hi.alloc_served hroom fresh
    obtain ⟨c, hc, hcused, hp, -, hcnew, hcount⟩ := hserved.block
    rw [hserve, Option.map_some, Option.some.injEq] at hcall
    subst hcall
    simp only [if_neg (show p ≠ 0 by omega)]
    have hle : s.heap.endAddress ≤ h'.endAddress := by
      rcases hstop with ⟨hsame, -⟩ | ⟨-, hnew, -⟩
      · omega
      · rw [hnew]
        simp only [pageUp, frameSize]
        omega
    have hnot : c ∉ B := fun hmem => hcnew c hmem hcused rfl
    -- the used blocks are the old ones and the new one
    have hused : ∀ d ∈ B', d.free = false → d = c ∨ d ∈ B := by
      intro d hd hdused
      refine mem_of_usedSize hserved.kept ?_ (List.Nodup.of_map _ hi.tiles.nodup_addr) hc hcused hnot
        hd hdused
        (hi'.tiles.bounds hd).2.1
      rw [← hi'.used, ← hi.used, hcount]
    refine ⟨B', T', ⟨hi', fun q => ?_, ?_, ?_, ?_, ?_⟩, hlimits, hle⟩
    · rw [List.mem_cons, hs.live]
      constructor
      · rintro (rfl | ⟨b, hb, hbused, rfl⟩)
        · exact ⟨c, hc, hcused, hp⟩
        · exact ⟨b, hserved.kept b hb hbused, hbused, rfl⟩
      · rintro ⟨d, hd, hdused, rfl⟩
        rcases hused d hd hdused with rfl | hdB
        · exact Or.inl hp.symm
        · exact Or.inr ⟨d, hdB, hdused, rfl⟩
    · refine List.nodup_cons.mpr ⟨fun hmem => ?_, hs.nodup⟩
      obtain ⟨b, hb, hbused, hpb⟩ := (hs.live p).mp hmem
      have heq := hi'.tiles.eq_of_addr (hserved.kept b hb hbused) hc (by omega)
      exact hcnew b hb hbused heq
    · intro x hx hx'
      have hpage := Nat.div_le_div_right (c := frameSize) hle
      have hold : h'.present x = s.heap.present x := by
        rcases hstop with ⟨-, hsame⟩ | ⟨-, -, hsame⟩
        · rw [hsame]
        · exact hsame x hx
      exact hold.trans (hs.clear x (le_trans hpage hx) hx')
    · rcases hstop with ⟨hsame, -⟩ | ⟨hgrow, hnew, -⟩
      · exact le_trans (le_of_eq hsame) hs.stop_le
      · exact le_trans (le_of_eq hnew) (le_trans hgrow.end_le hsum)
    · exact hlimits.max_le hs.max_le
  · -- there is neither a fit nor room to grow, and the call faults
    rw [not_or] at hroom
    obtain ⟨node, m₁, tree₁, T₁, hremove, -, hcases⟩ := hi.remove_best (getBlockSize size)
    have hnode : node = 0 := by
      rcases hcases with ⟨hnode, -⟩ | ⟨pre, c, post, hlist, -, hfree, hle, -⟩
      · exact hnode
      · exact absurd ⟨c, by rw [hlist]; simp, hfree, hle⟩ hroom.1
    rw [hnode] at hremove
    rw [hi.alloc_fault hs.clear hs.stop_le hsum (by rw [if_pos rfl]; exact hremove) hroom.2 fresh]
      at hcall
    exact absurd hcall (by simp)

/-- What clients write does not matter. -/
theorem HeapRun.Holds.write (hs : s.Holds limit B T) {m : Mem} (hok : (HeapCall.write m).Allowed s) :
    HeapRun.Holds limit ⟨s.heap.withMem m, s.live⟩ B T := by
  refine ⟨hs.inv.clientWrites fun x hx => hok x fun p hp => ?_, hs.live, hs.nodup, hs.clear,
    hs.stop_le, hs.max_le⟩
  obtain ⟨b, hb, hused, rfl⟩ := (hs.live p).mp hp
  have hsize := (hs.inv.tagged b hb).head.size
  have hlen := (hs.inv.inside hb).stop_eq
  have hplace := hx b hb hused
  have haddr : b.addr + 8 - 4 = b.addr + 4 := by omega
  have hstop : b.stop = b.addr + b.size := rfl
  unfold Heap.userSize
  rw [haddr, hsize]
  omega

/-- The pointers that are left when a block is given back. -/
theorem mem_erase_live {live : List Nat} (hnodup : live.Nodup) (hi : HeapInv h B T) (hb : b ∈ B)
    (hlive : ∀ p, p ∈ live ↔ ∃ b ∈ B, b.free = false ∧ p = b.addr + 8)
    (hused : ∀ x, x.free = false → (x ∈ B' ↔ x ∈ B ∧ x ≠ b)) (p : Nat) :
    p ∈ live.erase (b.addr + 8) ↔ ∃ x ∈ B', x.free = false ∧ p = x.addr + 8 := by
  rw [hnodup.mem_erase_iff, hlive]
  constructor
  · rintro ⟨hne, x, hx, hxused, rfl⟩
    refine ⟨x, (hused x hxused).mpr ⟨hx, ?_⟩, hxused, rfl⟩
    rintro rfl
    exact hne rfl
  · rintro ⟨x, hx, hxused, rfl⟩
    obtain ⟨hxB, hxb⟩ := (hused x hxused).mp hx
    refine ⟨fun hsame => hxb ?_, x, hxB, hxused, rfl⟩
    exact hi.tiles.eq_of_addr hxB hb (by omega)

/-- Where a contraction ends. -/
theorem Heap.ContractsTo.bounds (hto : h.ContractsTo p u) :
    u.addr ≤ h.contractEnd u.addr ∧ h.contractEnd u.addr ≤ h.endAddress := by
  obtain ⟨B, T, b, B', hi, -, -, -, hco, hstop, hmin⟩ := hto
  obtain ⟨hstart, hpos, -⟩ := (hco.tiles hi.tiles).bounds hco.covers.1
  refine Heap.contractEnd_bounds hi.end_aligned hi.end_lt hstart ?_ hmin
  rw [← hstop, Tile.stop]
  omega

/-- The headers of the blocks say where they are. -/
theorem blocks_unique {m : Mem} {a e : Nat} (hB : Tiles a e B) (hB' : Tiles a e B')
    (hm : ∀ b ∈ B, Headed m b) (hm' : ∀ b ∈ B', Headed m b) : B = B' := by
  induction B generalizing a B' with
  | nil =>
    cases B' with
    | nil => rfl
    | cons c B' =>
      have hle := hB'.2.2.le
      have hpos := hB'.2.1
      have hend : a = e := hB
      omega
  | cons b B ih =>
    cases B' with
    | nil =>
      have hle := hB.2.2.le
      have hpos := hB.2.1
      have hend : a = e := hB'
      omega
    | cons c B' =>
      have hb := hm b (by simp)
      have hc := hm' c (by simp)
      -- both tilings start at one address, and the header there has the size and the mark
      have haddr : b.addr = c.addr := hB.1.trans hB'.1.symm
      have hsize : b.size = c.size := by
        rw [← hb.size, ← hc.size, haddr]
      have hfree : b.free = c.free := by
        rw [← hb.mark, ← hc.mark, haddr]
      have hfirst : b = c := by
        obtain ⟨ba, bs, bf⟩ := b
        obtain ⟨ca, cs, cf⟩ := c
        simp only at haddr hsize hfree
        rw [haddr, hsize, hfree]
      subst hfirst
      rw [ih hB.2.2 hB'.2.2 (fun x hx => hm x (by simp [hx])) fun x hx => hm' x (by simp [hx])]

theorem HeapInv.blocks_eq (hi : HeapInv h B T) (hi' : HeapInv h B' T') : B = B' :=
  blocks_unique hi.tiles hi'.tiles (fun b hb => (hi.tagged b hb).head)
    fun b hb => (hi'.tagged b hb).head

/-- There is one block to which a call contracts the heap. -/
theorem Heap.ContractsTo.eq {v : Tile} (hto : h.ContractsTo p v) (hi : HeapInv h B T) (hb : b ∈ B)
    (hp : p = b.addr + 8) (hco : Coalesced b B B' u) : v = u := by
  obtain ⟨C, T', d, C', hi', hd, -, hpd, hcod, -⟩ := hto
  obtain rfl := hi.blocks_eq hi'
  obtain rfl : b = d := hi.tiles.eq_of_addr hb hd (by omega)
  exact hcod.unique hco hi.noFreePair hi.tiles

/-- **`free`**: with the block its pointer is gone. -/
theorem HeapRun.Holds.free (hs : s.Holds limit B T) (hok : (HeapCall.free p).Allowed s)
    (hclean : (HeapCall.free p).Clean s) (hcall : (HeapCall.free p).exec s = some s') :
    ∃ B' T', s'.Holds limit B' T' ∧ SameLimits s.heap s'.heap ∧
      (s'.heap.endAddress = s.heap.endAddress ∨
        ∃ u, s.heap.ContractsTo p u ∧ s'.heap.endAddress = s.heap.contractEnd u.addr) := by
  have hi := hs.inv
  obtain ⟨b, hb, hused, rfl⟩ := (hs.live p).mp hok
  rw [HeapCall.exec] at hcall
  by_cases hlast : b.stop = s.heap.endAddress
  · -- the block behind it is not mapped
    have hout := hs.clear _ (le_refl _) (Nat.div_le_div_right hs.stop_le)
    rw [← Heap.freeWith_shrink, hi.free_last_fault hb hused hlast hout] at hcall
    exact absurd hcall (by simp)
  by_cases hcon : s.heap.FreeContracts B b
  · -- the pages behind the new end are given back
    obtain ⟨hmin, B₀, u₀, hco₀, hstop₀⟩ := id hcon
    have hto : s.heap.ContractsTo (b.addr + 8) u₀ :=
      ⟨B, T, b, B₀, hi, hb, hused, rfl, hco₀, hstop₀, hmin⟩
    have hrest : s.heap.ContractsClean B b := by
      intro C u hu
      rw [hu.unique hco₀ hi.noFreePair hi.tiles]
      exact hclean u₀ hto
    obtain ⟨h', B', T', u, hfree, hi', hcontracted⟩ := hi.free_contract hb hused hlast hcon hrest
    rw [hfree, Option.map_some, Option.some.injEq] at hcall
    subst hcall
    obtain ⟨C, hco⟩ := hcontracted.union
    obtain rfl := hco.unique hco₀ hi.noFreePair hi.tiles
    have hstop := hcontracted.stop
    have hlimits := hcontracted.limits
    have hle : h'.endAddress ≤ s.heap.endAddress := by
      rw [hstop]
      exact hto.bounds.2
    refine ⟨B', T', ⟨hi', mem_erase_live hs.nodup hi hb hs.live hcontracted.used,
      hs.nodup.erase _, ?_, le_trans hle hs.stop_le, hlimits.max_le hs.max_le⟩, hlimits,
      Or.inr ⟨u, hto, hstop⟩⟩
    · intro x hx hx'
      have hx : s.heap.contractEnd u.addr / frameSize ≤ x := hstop ▸ hx
      by_cases hin : x < s.heap.endAddress / frameSize
      · exact hcontracted.pages.out x hx hin
      · rw [hcontracted.pages.same x (Or.inr (by omega))]
        exact hs.clear x (by omega) hx'
  · -- the block is merged with its free neighbours, within the heap
    obtain ⟨pre, post, rfl⟩ := List.append_of_mem hb
    have hpost : post ≠ [] := by
      rintro rfl
      exact hlast hi.tiles.split.2.2
    obtain ⟨m', tree', T', B', u, hfree, hco, hi', -⟩ := hi.free_spec hused hpost hcon
    rw [hfree, Option.map_some, Option.some.injEq] at hcall
    subst hcall
    exact ⟨B', T', ⟨hi',
      mem_erase_live hs.nodup hi hb hs.live fun x hx => hco.mem_used_iff hi.tiles hx,
      hs.nodup.erase _, hs.clear, hs.stop_le, hs.max_le⟩, ⟨rfl, rfl, rfl, rfl⟩, Or.inl rfl⟩

/-- **Every call keeps the invariant**, and the heap gets smaller in a contraction only. -/
theorem HeapRun.Holds.step (hs : s.Holds limit B T) (hok : c.Allowed s) (hclean : c.Clean s)
    (hcall : c.exec s = some s') :
    ∃ B' T', s'.Holds limit B' T' ∧ SameLimits s.heap s'.heap ∧
      (s.heap.endAddress ≤ s'.heap.endAddress ∨
        ∃ p u, c = .free p ∧ s.heap.ContractsTo p u ∧
          s'.heap.endAddress = s.heap.contractEnd u.addr) := by
  cases c with
  | alloc size fresh =>
    obtain ⟨B', T', hs', hlimits, hle⟩ := hs.alloc hcall
    exact ⟨B', T', hs', hlimits, Or.inl hle⟩
  | free p =>
    obtain ⟨B', T', hs', hlimits, hsame | ⟨u, hto, hstop⟩⟩ := hs.free hok hclean hcall
    · exact ⟨B', T', hs', hlimits, Or.inl (le_of_eq hsame.symm)⟩
    · exact ⟨B', T', hs', hlimits, Or.inr ⟨p, u, rfl, hto, hstop⟩⟩
  | write m =>
    obtain rfl := Option.some.inj hcall
    exact ⟨B, T, hs.write hok, ⟨rfl, rfl, rfl, rfl⟩, Or.inl (le_refl _)⟩

/-! ## Whole runs -/

/-- The end of the heap or the greatest one it may have. -/
def heapLimit (start stop maxSize : Nat) : Nat := max stop (firstBlock start + maxSize)

/-- `create_mem_allocator` made the allocator `h`, in memory where the pages behind the new heap are
    not mapped. -/
structure Started (h₀ : Heap) (start stop minSize maxSize : Nat) (h : Heap) : Prop where
  can : CanCreate h₀ start stop
  clear : ∀ x, stop / frameSize ≤ x → x ≤ heapLimit start stop maxSize / frameSize →
    h₀.present x = false
  created : h₀.create start stop minSize maxSize = some (some h)

variable {h₀ : Heap} {start stop minSize maxSize : Nat} {cs : List HeapCall}

/-- The invariant, for some blocks, of a run that started with the heap `h`. -/
def HeapRun.Good (limit : Nat) (h : Heap) (s : HeapRun) : Prop :=
  ∃ B T, s.Holds limit B T ∧ SameLimits h s.heap

/-- A new allocator: nobody holds a pointer. -/
theorem Started.holds (hs : Started h₀ start stop minSize maxSize h) :
    HeapRun.Good (heapLimit start stop maxSize) h ⟨h, []⟩ ∧ h.startAddress = firstBlock start ∧
      h.endAddress = stop ∧ h.minSize = minSize := by
  obtain ⟨m', tree', T, hcreate, hi⟩ := HeapInv.create hs.can minSize maxSize
  obtain rfl := Option.some.inj (Option.some.inj (hs.created.symm.trans hcreate))
  have hnobody : ∀ p, p ∈ ([] : List Nat) ↔ ∃ b ∈ [(⟨firstBlock start, stop - firstBlock start,
      true⟩ : Tile)], b.free = false ∧ p = b.addr + 8 := by
    simp
  exact ⟨⟨_, T, ⟨hi, hnobody, List.nodup_nil, hs.clear, le_max_left _ _, le_max_right _ _⟩,
    SameLimits.refl _⟩, rfl, rfl, rfl⟩

theorem HeapRun.Good.step (hs : s.Good limit h) (hok : c.Allowed s) (hclean : c.Clean s)
    (hcall : c.exec s = some s') : s'.Good limit h := by
  obtain ⟨B, T, hs, hlimits⟩ := hs
  obtain ⟨B', T', hs', hlimits', -⟩ := hs.step hok hclean hcall
  exact ⟨B', T', hs', hlimits.trans hlimits'⟩

/-- **Runs keep the invariant.** -/
theorem HeapRun.Good.run (hs : s.Good limit h)
    (hok : Run.Each HeapCall.exec HeapCall.Allowed s cs)
    (hclean : Run.Each HeapCall.exec HeapCall.Clean s cs)
    (hrun : Run.execAll HeapCall.exec s cs = some s') : s'.Good limit h :=
  Run.inv_of_execAll (fun _ _ _ ht hc hcall => ht.step hc.1 hc.2 hcall) hs
    (Run.each_and hok hclean) hrun

/-! ## The size of the heap -/

/-- When `contract` is kept from going below `min_size` bytes it does not round down: the end of
    `min_size` bytes is a page boundary. -/
def HeapCall.KeepsMin (s : HeapRun) : HeapCall → Prop
  | .free p => ∀ u, s.heap.ContractsTo p u →
      s.heap.minSize ≤ pageUp u.addr - s.heap.startAddress ∨
        (s.heap.startAddress + s.heap.minSize) % frameSize = 0
  | _ => True

theorem Heap.ContractsTo.minSize_le (hto : h.ContractsTo p u)
    (hkeep : h.minSize ≤ pageUp u.addr - h.startAddress ∨
      (h.startAddress + h.minSize) % frameSize = 0) :
    h.minSize ≤ h.contractEnd u.addr - h.startAddress := by
  have hbounds := hto.bounds
  obtain ⟨B, T, b, B', hi, -, -, -, hco, hstop, hmin⟩ := hto
  obtain ⟨hstart, hpos, -⟩ := (hco.tiles hi.tiles).bounds hco.covers.1
  have halign := hi.end_aligned
  have hlt := hi.end_lt
  have hu : u.stop = u.addr + u.size := rfl
  have hup : u.addr ≤ pageUp u.addr ∧ pageUp u.addr ≤ h.endAddress := by
    simp only [pageUp, frameSize] at *
    omega
  unfold Heap.contractEnd Heap.contractTo
  rw [pageRound_eq (by omega), sub32_of_le (by omega) (by omega)]
  split
  · -- the target is the end of `min_size` bytes
    rw [add32_of_lt (by omega)]
    simp only [pageDown, frameSize] at *
    omega
  · simp only [pageDown, pageUp, frameSize] at *
    omega

/-- The heap has at least `min_size` bytes. -/
def HeapRun.Sized (s : HeapRun) : Prop :=
  s.heap.minSize ≤ s.heap.endAddress - s.heap.startAddress

/-- Only a contraction makes the heap smaller. -/
theorem HeapRun.Sized.step (hsize : s.Sized) (hs : s.Good limit h) (hok : c.Allowed s)
    (hclean : c.Clean s) (hkeep : c.KeepsMin s) (hcall : c.exec s = some s') : s'.Sized := by
  obtain ⟨B, T, hholds, -⟩ := hs
  obtain ⟨B', T', -, hlimits, hend⟩ := hholds.step hok hclean hcall
  unfold HeapRun.Sized at *
  rw [hlimits.minSize, hlimits.start]
  rcases hend with hle | ⟨p, u, rfl, hto, hstop⟩
  · omega
  · rw [hstop]
    exact hto.minSize_le (hkeep u hto)

/-- **The size of the heap.** In every run in which no contraction leaves a piece of a block, and
    none is clamped to a target inside a page, the heap has at least `min_size` and at most
    `max_size` bytes and ends at a page boundary. -/
theorem heap_size_bounded (hs : Started h₀ start stop minSize maxSize h)
    (hmin : minSize ≤ stop - firstBlock start) (hmax : stop - firstBlock start ≤ maxSize)
    (hok : Run.Each HeapCall.exec HeapCall.Allowed ⟨h, []⟩ cs)
    (hclean : Run.Each HeapCall.exec HeapCall.Clean ⟨h, []⟩ cs)
    (hkeep : Run.Each HeapCall.exec HeapCall.KeepsMin ⟨h, []⟩ cs)
    (hrun : Run.execAll HeapCall.exec ⟨h, []⟩ cs = some s) :
    minSize ≤ s.heap.endAddress - s.heap.startAddress ∧
      s.heap.endAddress - s.heap.startAddress ≤ maxSize ∧ s.heap.endAddress % frameSize = 0 := by
  obtain ⟨hgood, hstart, hstop, hmin₀⟩ := hs.holds
  have hlimit : heapLimit start stop maxSize = firstBlock start + maxSize := by
    unfold heapLimit
    omega
  have hnew : HeapRun.Sized ⟨h, []⟩ := by
    show h.minSize ≤ h.endAddress - h.startAddress
    rw [hmin₀, hstop, hstart]
    exact hmin
  -- two invariants along the run: the heap is one, and it is at least as large as it may be
  have hrest : s.Good (heapLimit start stop maxSize) h ∧ s.Sized := by
    refine Run.inv_of_execAll
      (I := fun t : HeapRun => t.Good (heapLimit start stop maxSize) h ∧ t.Sized)
      (fun t c t' ht hc hcall => ?_) ⟨hgood, hnew⟩ (Run.each_and (Run.each_and hok hclean) hkeep) hrun
    obtain ⟨⟨hcok, hcclean⟩, hckeep⟩ := hc
    exact ⟨ht.1.step hcok hcclean hcall, ht.2.step ht.1 hcok hcclean hckeep hcall⟩
  obtain ⟨⟨B, T, hholds, hlimits⟩, hleast⟩ := hrest
  refine ⟨?_, ?_, hholds.inv.end_aligned⟩
  · unfold HeapRun.Sized at hleast
    rw [hlimits.minSize, hmin₀] at hleast
    exact hleast
  · have hle := hholds.stop_le
    rw [hlimit] at hle
    rw [hlimits.start, hstart]
    omega

/-! ## A heap that contracts -/

/-- Two requests of 12 bytes, and the second block is given back. -/
def twoCalls : List HeapCall := [.alloc 12 zeroPages, .alloc 12 zeroPages, .free 65640]

/-- The calls in a new heap of two pages, of which the second one is taken off. -/
theorem exists_contracted (hmin : minSize ≤ 4096) :
    ∃ h s, Started twoPages 0x10000 0x12000 minSize 0x100000 h ∧
      Run.Each HeapCall.exec HeapCall.Allowed ⟨h, []⟩ twoCalls ∧
      Run.Each HeapCall.exec HeapCall.Clean ⟨h, []⟩ twoCalls ∧
      (minSize ≤ 4028 → Run.Each HeapCall.exec HeapCall.KeepsMin ⟨h, []⟩ twoCalls) ∧
      Run.execAll HeapCall.exec ⟨h, []⟩ twoCalls = some s ∧
      s.heap.endAddress = 69632 ∧ s.heap.startAddress = 65604 := by
  have hblock : getBlockSize 12 = 28 := by decide
  obtain ⟨h₀, h₁, h, T, hcreate, hcall₁, hcall₂, hi, hend, hstart, hminSize⟩ := exists_twoTaken
    minSize (by decide : getBlockSize 12 + 28 + minBlockSize ≤ 8124)
  rw [hblock] at hcall₂ hi
  have hco := twoTaken_coalesced (by decide : 28 + 28 ≤ 8096)
  have hb : (⟨65632, 28, false⟩ : Tile) ∈ twoTaken 28 := by decide
  have hcon : h.FreeContracts (twoTaken 28) ⟨65632, 28, false⟩ :=
    ⟨by omega, _, _, hco, hend.symm⟩
  -- the contraction ends behind the first page in any case
  have hto : h.contractEnd 65632 = 69632 := by
    unfold Heap.contractEnd Heap.contractTo
    rw [hstart, hminSize, show pageRound 65632 = 69632 by decide,
      show sub32 69632 65604 = 4028 by decide]
    split
    · rw [add32_of_lt (by omega)]
      simp only [pageDown, frameSize]
      omega
    · decide
  have honly : ∀ u, h.ContractsTo 65640 u → u = ⟨65632, 8096, true⟩ := fun u hu =>
    hu.eq hi hb rfl hco
  obtain ⟨h', B', T', u, hcall₃, -, hcontracted⟩ := hi.free_contract hb rfl
    (by rw [hend]; decide) hcon fun C u hu => by
      rw [hu.unique hco hi.noFreePair hi.tiles]
      right
      rw [hto]
      decide
  have hexec₁ : (HeapCall.alloc 12 zeroPages).exec ⟨h₀, []⟩ = some ⟨h₁, [65612]⟩ := by
    rw [HeapCall.exec, hcall₁]
    rfl
  have hexec₂ : (HeapCall.alloc 12 zeroPages).exec ⟨h₁, [65612]⟩ = some ⟨h, [65640, 65612]⟩ := by
    rw [HeapCall.exec, hcall₂]
    rfl
  have hexec₃ : (HeapCall.free 65640).exec ⟨h, [65640, 65612]⟩ = some ⟨h', [65612]⟩ := by
    rw [HeapCall.exec, hcall₃]
    rfl
  have hstarted : Started twoPages 0x10000 0x12000 minSize 0x100000 h₀ := by
    refine ⟨twoPages_canCreate, fun x hx _ => ?_, hcreate⟩
    simp only [frameSize] at hx
    simp only [twoPages, Bool.or_eq_false_iff, beq_eq_false_iff_ne]
    omega
  refine ⟨h₀, ⟨h', [65612]⟩, hstarted, ?_, ?_, fun hsmall => ?_, ?_, ?_, ?_⟩
  · unfold twoCalls
    rw [Run.each_cons_some hexec₁, Run.each_cons_some hexec₂, Run.each_cons_some hexec₃]
    exact ⟨trivial, trivial, List.mem_cons_self, trivial⟩
  · unfold twoCalls
    rw [Run.each_cons_some hexec₁, Run.each_cons_some hexec₂, Run.each_cons_some hexec₃]
    refine ⟨trivial, trivial, fun u hu => Or.inr ?_, trivial⟩
    rw [honly u hu]
    show 65632 + minBlockSize ≤ h.contractEnd 65632
    rw [hto]
    decide
  · unfold twoCalls
    rw [Run.each_cons_some hexec₁, Run.each_cons_some hexec₂, Run.each_cons_some hexec₃]
    refine ⟨trivial, trivial, fun u hu => Or.inl ?_, trivial⟩
    rw [honly u hu]
    show h.minSize ≤ pageUp 65632 - h.startAddress
    rw [hstart, hminSize, show pageUp 65632 = 69632 by decide]
    omega
  · unfold twoCalls
    rw [Run.execAll_cons_some hexec₁, Run.execAll_cons_some hexec₂, Run.execAll_cons_some hexec₃]
    rfl
  · obtain ⟨C, hcou⟩ := hcontracted.union
    have hu := hcou.unique hco hi.noFreePair hi.tiles
    show h'.endAddress = 69632
    rw [hcontracted.stop, hu, ← hto]
  · show h'.startAddress = 65604
    rw [hcontracted.limits.start, hstart]

/-- A least size of 1024 bytes is kept. -/
theorem heap_size_bounded_two : ∃ h s, Started twoPages 0x10000 0x12000 1024 0x100000 h ∧
    Run.execAll HeapCall.exec ⟨h, []⟩ twoCalls = some s ∧ s.heap.endAddress < h.endAddress ∧
    1024 ≤ s.heap.endAddress - s.heap.startAddress := by
  obtain ⟨h, s, hs, hok, hclean, hkeep, hrun, hend, -⟩ :=
    exists_contracted (by decide : 1024 ≤ 4096)
  refine ⟨h, s, hs, hrun, ?_, (heap_size_bounded hs (by decide) (by decide) hok hclean
    (hkeep (by decide)) hrun).1⟩
  rw [hend, hs.holds.2.2.1]
  decide

/-- A least size of 4096 bytes is not: the heap starts 68 bytes into a page, and the contraction
    leaves no more than the rest of that page. -/
theorem contracted_below_min : ∃ h s, Started twoPages 0x10000 0x12000 4096 0x100000 h ∧
    4096 ≤ 0x12000 - firstBlock 0x10000 ∧ 0x12000 - firstBlock 0x10000 ≤ 0x100000 ∧
    Run.Each HeapCall.exec HeapCall.Allowed ⟨h, []⟩ twoCalls ∧
    Run.execAll HeapCall.exec ⟨h, []⟩ twoCalls = some s ∧
    ¬ 4096 ≤ s.heap.endAddress - s.heap.startAddress := by
  obtain ⟨h, s, hs, hok, -, -, hrun, hend, hstart⟩ := exists_contracted (le_refl 4096)
  refine ⟨h, s, hs, by decide, by decide, hok, hrun, ?_⟩
  rw [hend, hstart]
  decide

/-! ## What `free` touches -/

/-- The heap when its own pages are the only ones that are mapped, and memory is `m`. -/
def Heap.fenced (h : Heap) (m : Mem) : Heap :=
  { h with
    mem := m
    present := fun x => decide (h.base / frameSize ≤ x ∧ x < h.endAddress / frameSize) }

/-- `free` up to a contraction. -/
def Heap.freeTo (h : Heap) (p : Nat) : Option (Option HeapError × Heap) :=
  h.freeWith (fun h _ => some (none, h)) p

/-- Up to a contraction `free` touches nothing outside of the heap, from the page of `allocator_t` to
    `end_address`: it gets by with the pages of the heap whatever the rest of memory holds, it does
    not change the rest, and the nodes that the tree functions walk along lie in the heap. -/
structure FreeInside (h : Heap) (p : Nat) : Prop where
  returns : ∀ m, (∀ x, h.base ≤ x → x < h.endAddress → m x = h.mem x) →
    ∃ h', (h.fenced m).freeTo p = some (none, h')
  writes : ∀ e h', h.freeTo p = some (e, h') → ∀ x < 2 ^ 32, x < h.base ∨ h.endAddress ≤ x →
    h'.mem x = h.mem x
  nodes : ∀ a, Reachable h.mem h.memTree.root a → h.base ≤ a ∧ a + 16 ≤ h.endAddress

/-- The invariant is about the heap only. -/
theorem HeapInv.fenced (hi : HeapInv h B T) {m : Mem}
    (hm : ∀ x, h.base ≤ x → x < h.endAddress → m x = h.mem x) : HeapInv (h.fenced m) B T := by
  have hbase := hi.base_le
  have hle := hi.tiles.le
  simp only [allocatorSize] at hbase
  -- blocks, tags and nodes all lie between base and the end of the heap
  have hoff : ∀ b ∈ B, ∀ x, b.addr ≤ x → x < b.stop → m x = h.mem x := by
    intro b hb x h1 h2
    obtain ⟨hfront, -, hback⟩ := hi.tiles.bounds hb
    exact hm x (by omega) (by omega)
  refine ⟨⟨hi.base_aligned, hi.base_le, hi.start_aligned, hi.end_aligned, hi.end_lt,
    fun x h1 h2 => decide_eq_true ⟨h1, h2⟩, ?_⟩, hi.tiles, hi.sizes, fun b hb => ?_,
    hi.tree.congr fun a ha x h1 h2 => ?_, hi.nodes, hi.noFreePair, hi.used⟩
  · have hword : load32 m (h.startAddress - 8) = load32 h.mem (h.startAddress - 8) :=
      load32_congr fun x h1 h2 => hm x (by omega) (by omega)
    exact (congrArg checkMagic hword).trans hi.below
  · have htags := hi.tagged b hb
    have hlen := (hi.inside hb).stop_eq
    exact ⟨htags.head.congr fun x h1 h2 => hoff b hb x h1 (by omega),
      htags.foot.congr (hi.inside hb).eight_le fun x h1 h2 => hoff b hb x (by omega) h2⟩
  · obtain ⟨b, hb, -, rfl⟩ := (hi.nodes a).mp ha
    have hlen := (hi.inside hb).stop_eq
    exact hoff b hb x (by omega) (by omega)

/-- Up to a contraction the call returns and writes to the heap, when the block is not the last. -/
theorem HeapInv.freeTo_spec (hi : HeapInv h B T) (hb : b ∈ B) (hused : b.free = false)
    (hlast : b.stop ≠ h.endAddress) :
    ∃ h', h.freeTo (b.addr + 8) = some (none, h') ∧
      ∀ x < 2 ^ 32, x < h.startAddress ∨ h.endAddress ≤ x → h'.mem x = h.mem x := by
  obtain ⟨pre, post, rfl⟩ := List.append_of_mem hb
  have hpost : post ≠ [] := by
    rintro rfl
    exact hlast hi.tiles.split.2.2
  unfold Heap.freeTo
  by_cases hcon : h.FreeContracts (pre ++ b :: post) b
  · obtain ⟨m', tree', T', u, pre', hcall, -, -, hsame⟩ := hi.free_trailing hused hpost hcon
    refine ⟨_, hcall _, fun x hx hout => hsame x hx ?_⟩
    rcases hout with hlow | hhigh
    · exact Or.inl hlow
    · exact Or.inr (Or.inl hhigh)
  · obtain ⟨m', tree', T', B', u, hcall, -, -, hsame, -⟩ := hi.freeWith_spec hused hpost hcon
    refine ⟨_, hcall _, fun x hx hout => hsame x hx ?_⟩
    rcases hout with hlow | hhigh
    · exact Or.inl hlow
    · exact Or.inr (Or.inl hhigh)

/-- **`free` stays inside the heap** if and only if the block is not the last one. -/
theorem HeapInv.freeInside_iff (hi : HeapInv h B T) (hb : b ∈ B) (hused : b.free = false) :
    FreeInside h (b.addr + 8) ↔ b.stop ≠ h.endAddress := by
  constructor
  · intro hinside hlast
    obtain ⟨h', hcall⟩ := hinside.returns h.mem fun _ _ _ => rfl
    -- with only the pages of the heap mapped, the test of the right neighbour faults
    have hfault : (h.fenced h.mem).freeTo (b.addr + 8) = none := by
      refine (hi.fenced fun _ _ _ => rfl).free_last_fault hb hused hlast ?_ _
      exact decide_eq_false fun hin => Nat.lt_irrefl _ hin.2
    rw [hfault] at hcall
    exact absurd hcall (by simp)
  · intro hlast
    refine ⟨fun m hm => ?_, fun e h' hcall x hx hout => ?_, fun a ha => ?_⟩
    · obtain ⟨h', hcall, -⟩ := (hi.fenced hm).freeTo_spec hb hused hlast
      exact ⟨h', hcall⟩
    · obtain ⟨h'', hcall', hsame⟩ := hi.freeTo_spec hb hused hlast
      obtain ⟨-, rfl⟩ := Prod.mk.inj (Option.some.inj (hcall.symm.trans hcall'))
      have hbase := hi.base_le
      exact hsame x hx (by omega)
    · obtain ⟨c, hc, -, rfl⟩ := (hi.nodes a).mp (hi.tree.reachable_iff.mp ha)
      have hin := hi.inside hc
      have hlen := hin.stop_eq
      have hbase := hin.base_le
      have hstop := hin.stop_le
      omega

/-- **Where `free` reads and writes.** In every state that a run without a broken contraction
    reaches, `free` of a live pointer stays inside the heap if and only if the footer of its block is
    not at the end of the heap. -/
theorem free_inside_iff (hs : Started h₀ start stop minSize maxSize h)
    (hok : Run.Each HeapCall.exec HeapCall.Allowed ⟨h, []⟩ cs)
    (hclean : Run.Each HeapCall.exec HeapCall.Clean ⟨h, []⟩ cs)
    (hrun : Run.execAll HeapCall.exec ⟨h, []⟩ cs = some s) (hp : p ∈ s.live) :
    FreeInside s.heap p ↔ p + s.heap.userSize p + 8 ≠ s.heap.endAddress := by
  obtain ⟨B, T, hholds, -⟩ := hs.holds.1.run hok hclean hrun
  obtain ⟨b, hb, hused, rfl⟩ := (hholds.live p).mp hp
  rw [hholds.inv.freeInside_iff hb hused]
  have hstop : b.addr + 8 + s.heap.userSize (b.addr + 8) + 8 = b.stop := by
    have h28 : 28 ≤ b.size := (hholds.inv.inside hb).size_le
    have haddr : b.addr + 8 - 4 = b.addr + 4 := by omega
    unfold Heap.userSize
    rw [haddr, (hholds.inv.tagged b hb).head.size, Tile.stop]
    omega
  rw [hstop]

/-- One request in a new heap of one page. -/
theorem exists_pageTaken {size : Nat} (hsize : getBlockSize size ≤ 4028) :
    ∃ h s T, Started pageHeap 0x10000 0x11000 4096 0x100000 h ∧
      Run.execAll HeapCall.exec ⟨h, []⟩ [.alloc size zeroPages] = some s ∧ s.live = [65612] ∧
      HeapInv s.heap (cut minBlockSize ⟨65604, 4028, true⟩ (getBlockSize size)) T ∧
      s.heap.endAddress = 69632 := by
  obtain ⟨m₀, tree₀, T₀, hcreate, hi₀⟩ := HeapInv.create pageHeap_canCreate 4096 0x100000
  obtain ⟨h₁, T₁, hi₁, hend, -, -, hcall⟩ := HeapInv.alloc_last (B := [])
    (b := ⟨65604, 4028, true⟩) hi₀ (by simp) rfl hsize
  generalize (pageHeap.created 0x10000 0x11000 4096 0x100000).withTree m₀ tree₀ = h₀ at *
  have hstarted : Started pageHeap 0x10000 0x11000 4096 0x100000 h₀ := by
    refine ⟨pageHeap_canCreate, fun x hx _ => ?_, hcreate⟩
    simp only [frameSize] at hx
    simp only [pageHeap, beq_eq_false_iff_ne]
    omega
  have hexec : (HeapCall.alloc size zeroPages).exec ⟨h₀, []⟩ = some ⟨h₁, [65612]⟩ := by
    rw [HeapCall.exec, hcall]
    rfl
  refine ⟨h₀, ⟨h₁, [65612]⟩, T₁, hstarted, Run.execAll_cons_some hexec, rfl, hi₁, ?_⟩
  exact hend.trans hstarted.holds.2.2.1

/-- A block of 28 bytes at the start of a heap of one page. -/
theorem free_inside_iff_page : ∃ h s, Started pageHeap 0x10000 0x11000 4096 0x100000 h ∧
    Run.execAll HeapCall.exec ⟨h, []⟩ [.alloc 12 zeroPages] = some s ∧ FreeInside s.heap 65612 := by
  obtain ⟨h, s, T, hs, hrun, hlive, hi, hend⟩ :=
    exists_pageTaken (by decide : getBlockSize 12 ≤ 4028)
  have hok : Run.Each HeapCall.exec HeapCall.Allowed ⟨h, []⟩ [.alloc 12 zeroPages] :=
    ⟨trivial, fun _ _ => trivial⟩
  have hclean : Run.Each HeapCall.exec HeapCall.Clean ⟨h, []⟩ [.alloc 12 zeroPages] :=
    ⟨trivial, fun _ _ => trivial⟩
  refine ⟨h, s, hs, hrun, (free_inside_iff hs hok hclean hrun (by rw [hlive]; simp)).mpr ?_⟩
  have hsize : load32 s.heap.mem 65608 = 28 :=
    (hi.tagged ⟨65604, 28, false⟩ (by decide)).head.size
  unfold Heap.userSize
  rw [hend, hsize]
  decide

/-- A request for all of the page: the block ends at the end of the heap, and the test for its right
    neighbour reads a header there. -/
theorem free_leaves_heap : ∃ h s, Started pageHeap 0x10000 0x11000 4096 0x100000 h ∧
    Run.Each HeapCall.exec HeapCall.Allowed ⟨h, []⟩ [.alloc 4012 zeroPages] ∧
    Run.execAll HeapCall.exec ⟨h, []⟩ [.alloc 4012 zeroPages] = some s ∧ 65612 ∈ s.live ∧
    ¬ FreeInside s.heap 65612 := by
  obtain ⟨h, s, T, hs, hrun, hlive, hi, hend⟩ :=
    exists_pageTaken (by decide : getBlockSize 4012 ≤ 4028)
  refine ⟨h, s, hs, ⟨trivial, fun _ _ => trivial⟩, hrun, by rw [hlive]; simp, fun hinside => ?_⟩
  refine (hi.freeInside_iff (b := ⟨65604, 4028, false⟩) (by decide) rfl).mp hinside ?_
  rw [hend]
  rfl

end

end Toutatis
