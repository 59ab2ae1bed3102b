import Toutatis.Lib.Simulation
import Toutatis.MemAlloc.Heap
import Toutatis.Paging.Isolation

/-!
# The pages of the heap

`expand` and `contract` of `kernel/mem_alloc.c` once more, this time with the calls of `get_page`,
`alloc_page` and `free_page` that they make, and with the bytes of the heap where the processor
finds them: in the physical memory, through the tables of some directory. The heap of the other
modules has one flat memory instead, a set of pages that are present, and a count of free frames.

`ram` is the physical memory less the page tables, which lie in frames that no page of the heap
holds (`Backed.held_high`). The processor may keep a translation that it has found until `cr3` is
loaded: nothing calls `invalidate_page_tables_at`, so that `contract` leaves the translations of the
pages that it takes away (`PagedHeap.Shows.contract_stale`).

## Key results

- `heap_memory_flat`: behind the page tables the heap has the flat memory of the other modules, as
  long as no translation is kept of a page that `contract` takes away
-/

namespace Toutatis

open ByteMem Run

/-! ## The heap on its pages -/

/-- `HEAP_MIN_SIZE` and `HEAP_MAX_SIZE`. -/
def heapMinSize : Nat := 0x70000

@[inherit_doc heapMinSize]
def heapMaxSize : Nat := 0xf00000

/-- The fields of `allocator_t` that `expand` and `contract` use, the directories, the physical
    memory, the directory that `cr3` points to, and the frames of the pages whose translations the
    processor keeps; `seen` lists the bytes that have been read. -/
structure PagedHeap where
  spaces : Spaces
  ram : Mem
  cr3 : Nat
  kept : Nat → Option Nat
  startAddress : Nat
  endAddress : Nat
  minSize : Nat
  maxSize : Nat
  pageDir : Nat
  supervisor : Bool
  readonly : Bool
  seen : List UInt8

def PagedHeap.paging (s : PagedHeap) : Paging := s.spaces.vm.paging

/-- The heap with another end, after a call of `get_page` and a change of entries. -/
def PagedHeap.withEnd (s : PagedHeap) (vm : Vm) (paging : Paging) (stop : Nat) : PagedHeap :=
  { s with spaces := { s.spaces with vm := { vm with paging := paging } }, endAddress := stop }

/-- `while (end_address < new_end_address)` in `expand`. -/
def PagedHeap.expandLoop (newEnd : Nat) : (fuel : Nat) → PagedHeap → Option PagedHeap
  | 0, _ => none
  | fuel + 1, s =>
    if s.endAddress < newEnd then
      (getPage s.spaces.vm s.endAddress true s.pageDir 0).bind fun r =>
        expandLoop newEnd fuel (s.withEnd r.2
          (allocPage r.2.paging r.1 s.supervisor !s.readonly) (add32 s.endAddress frameSize))
    else some s

/-- `expand` -/
def PagedHeap.expand (s : PagedHeap) (newEnd : Nat) : Option PagedHeap :=
  if newEnd ≤ s.endAddress then some s
  else if add32 s.startAddress s.maxSize < pageRound newEnd then some s
  else s.expandLoop (pageRound newEnd) (2 ^ 20)

/-- `while (end_address > new_end_address)` in `contract`; a null entry is written to, which is a
    page fault. -/
def PagedHeap.contractLoop (newEnd : Nat) : (fuel : Nat) → PagedHeap → Option PagedHeap
  | 0, _ => none
  | fuel + 1, s =>
    if newEnd < s.endAddress then
      (getPage s.spaces.vm (sub32 s.endAddress frameSize) false s.pageDir 0).bind fun r =>
        if r.1 = 0 then none
        else
          contractLoop newEnd fuel
            (s.withEnd r.2 (freePage r.2.paging r.1) (sub32 s.endAddress frameSize))
    else some s

/-- Where `contract` stops. -/
def PagedHeap.contractTo (s : PagedHeap) (newEnd : Nat) : Nat :=
  if sub32 (pageRound newEnd) s.startAddress < s.minSize then add32 s.startAddress s.minSize
  else pageRound newEnd

/-- `contract` -/
def PagedHeap.contract (s : PagedHeap) (newEnd : Nat) : Option PagedHeap :=
  if s.endAddress ≤ newEnd then some s
  else s.contractLoop (s.contractTo newEnd) (2 ^ 20)

/-- Where the processor finds an address: by the translation that it keeps, or by a walk. -/
def PagedHeap.lookup (s : PagedHeap) (v : Nat) : Option Nat :=
  match s.kept (v / frameSize) with
  | some frame => some (frame * frameSize + v % frameSize)
  | none => translate s.spaces.vm s.cr3 v

/-- The translation that a walk finds is kept from now on; of a page that is not present there is
    none. -/
def PagedHeap.keep (s : PagedHeap) (v : Nat) : PagedHeap :=
  match translate s.spaces.vm s.cr3 v with
  | some x => { s with kept := Function.update s.kept (v / frameSize) (some (x / frameSize)) }
  | none => s

/-- What happens to the memory of the heap: the processor reads or writes a byte, keeps a
    translation (with an access or ahead of it) or drops one, `cr3` is loaded with another
    directory, the heap grows or shrinks, and directories are cloned. -/
inductive PagedCall where
  | read (v : Nat)
  | write (v : Nat) (b : UInt8)
  | keep (v : Nat)
  | drop (page : Nat)
  | load (dir : Nat)
  | expand (newEnd : Nat)
  | contract (newEnd : Nat)
  | clone (dir heapAddr : Nat) (heap : Nat → Nat)

/-- One of them; `none` is a page fault. -/
def PagedHeap.exec (s : PagedHeap) : PagedCall → Option PagedHeap
  | .read v => (s.lookup v).map fun x => { s with seen := s.ram x :: s.seen }
  | .write v b => (s.lookup v).map fun x => { s with ram := Function.update s.ram x b }
  | .keep v => some (s.keep v)
  | .drop page => some { s with kept := Function.update s.kept page none }
  | .load dir => some { s with cr3 := dir, kept := fun _ => none }
  | .expand newEnd => s.expand newEnd
  | .contract newEnd => s.contract newEnd
  | .clone dir heapAddr heap =>
    (SpaceCall.exec s.spaces (.clone dir heapAddr heap)).map fun t => { s with spaces := t }

/-- The frames that are not marked. -/
def PagedHeap.freeFrames (s : PagedHeap) : Nat := s.paging.pool.nframes - usedCount s.paging.pool

/-- No translation is kept of a page that `contract` takes away. -/
def PagedHeap.DropsAll (s : PagedHeap) (newEnd : Nat) : Prop :=
  newEnd < s.endAddress → ∀ page, s.contractTo newEnd / frameSize ≤ page →
    page < s.endAddress / frameSize → s.kept page = none

/-- Bytes of the heap are read and written, through directories that exist; for each page that
    `expand` adds a frame is free, and no translation is kept of one that `contract` takes away. -/
def PagedCall.Ok (s : PagedHeap) : PagedCall → Prop
  | .read v => kheapStart ≤ v ∧ v < 2 ^ 32
  | .write v _ => kheapStart ≤ v ∧ v < 2 ^ 32
  | .keep v => kheapStart ≤ v ∧ v < 2 ^ 32
  | .drop _ => True
  | .load dir => dir ∈ s.spaces.existing
  | .expand newEnd => newEnd < 2 ^ 32 ∧ pageRound newEnd ≤ s.endAddress + 4096 * s.freeFrames
  | .contract newEnd => s.startAddress ≤ newEnd ∧ s.DropsAll newEnd
  | .clone dir heapAddr heap => SpaceCall.Ok s.spaces (.clone dir heapAddr heap)

/-- The heap that `paging_finalize` creates; `current_directory` is its directory, which `cr3` has
    been loaded with. -/
def PagedHeap.start (vm : Vm) (ram : Mem) : PagedHeap where
  spaces := Spaces.start vm
  ram := ram
  cr3 := vm.currentDirectory
  kept := fun _ => none
  startAddress := firstBlock kheapStart
  endAddress := kheapStart + kheapInitialSize
  minSize := heapMinSize
  maxSize := heapMaxSize
  pageDir := vm.currentDirectory
  supervisor := false
  readonly := false
  seen := []

/-! ## The flat heap -/

/-- The heap of the other modules, and the bytes that have been read from it. -/
structure FlatRun where
  heap : Heap
  seen : List UInt8

/-- The same on the flat memory; a new page comes with any frame and any contents. -/
def FlatRun.exec (f : FlatRun) : PagedCall × NewPages → Option FlatRun
  | (.read v, _) =>
    if f.heap.present (v / frameSize) then some { f with seen := f.heap.mem v :: f.seen } else none
  | (.write v b, _) =>
    if f.heap.present (v / frameSize) then
      some { f with heap := f.heap.withMem (Function.update f.heap.mem v b) }
    else none
  | (.keep _, _) => some f
  | (.drop _, _) => some f
  | (.load _, _) => some f
  | (.expand newEnd, fresh) => some { f with heap := f.heap.expand fresh newEnd }
  | (.contract newEnd, _) => some { f with heap := (f.heap.contract newEnd).2 }
  | (.clone _ _ _, _) => some f

section

variable {s : FramePool} {f : Nat}

/-- While the count is below the number of frames, one of them is free. -/
theorem exists_free_of_usedCount (h : usedCount s < s.nframes) :
    ∃ g < s.nframes, isUsed s g = false := by
  by_contra hnone
  have hall : (Finset.range s.nframes).filter (fun f => isUsed s f = true) =
      Finset.range s.nframes := by
    apply Finset.filter_true_of_mem
    intro g hg
    by_contra hfree
    exact hnone ⟨g, Finset.mem_range.mp hg, Bool.eq_false_iff.mpr hfree⟩
  rw [usedCount, hall, Finset.card_range] at h
  exact absurd h (lt_irrefl _)

/-- `clear_frame` clears no bit but the lowest of a word. -/
theorem clearFrame_of_mod (h : f % 32 ≠ 0) : clearFrame s f = s := by
  rw [clearFrame, if_neg]
  rw [(testFrame_iff s f).2]
  exact fun hlow => h hlow.2

/-- It clears one bit at most. -/
theorem usedCount_le_clearFrame (s : FramePool) (f : Nat) :
    usedCount s ≤ usedCount (clearFrame s f) + 1 := by
  rw [usedCount, usedCount, nframes_clearFrame]
  refine le_trans (Finset.card_le_card ?_) (Finset.card_insert_le f _)
  intro g hg
  rw [Finset.mem_filter] at hg
  rw [Finset.mem_insert, Finset.mem_filter, isUsed_clearFrame, hg.2]
  by_cases hgf : g = f
  · exact Or.inl hgf
  · exact Or.inr ⟨hg.1, by simp [hgf]⟩

end

/-! ## The two memories -/

/-- The entry of a page of the kernel's half. -/
def PagedHeap.entry (base : Nat) (s : PagedHeap) (v : Nat) : Pte :=
  s.paging.pages (base + 4 * kernelPage v)

/-- The flat heap agrees with the one on its pages. -/
structure PagedHeap.Shows (vm : Vm) (base n : Nat) (s : PagedHeap) (f : FlatRun) : Prop where
  tables : TablesOk vm base 256
  half : HalfOk vm s.spaces
  backed : Backed base n s.paging
  behind : kernelVoffset + 4096 * n ≤ kheapStart
  pageDir : s.pageDir = vm.kernelDirectory
  startAddress : f.heap.startAddress = s.startAddress
  endAddress : f.heap.endAddress = s.endAddress
  minSize : f.heap.minSize = s.minSize
  maxSize : f.heap.maxSize = s.maxSize
  seen : f.seen = s.seen
  low : kheapStart ≤ s.startAddress
  min_lt : s.startAddress + s.minSize < 2 ^ 32
  max_lt : s.startAddress + s.maxSize < 2 ^ 32
  aligned : s.endAddress % 4096 = 0
  end_low : kheapStart ≤ s.endAddress
  end_lt : s.endAddress < 2 ^ 32
  frames : s.freeFrames ≤ f.heap.freeFrames
  held : ∀ v, kheapStart ≤ v → v < 2 ^ 32 → (s.entry base v).present = true →
    f.heap.frames.held (v / frameSize) = (s.entry base v).frame
  present : ∀ v, kheapStart ≤ v → v < 2 ^ 32 →
    f.heap.present (v / frameSize) = (s.entry base v).present
  mem : ∀ v, kheapStart ≤ v → v < 2 ^ 32 → (s.entry base v).present = true →
    f.heap.mem v = s.ram ((s.entry base v).frame * frameSize + v % frameSize)

/-- The directory in use is one that exists, and a translation that is kept is the one of the
    entry. -/
structure PagedHeap.Coherent (base : Nat) (s : PagedHeap) : Prop where
  loaded : s.cr3 ∈ s.spaces.existing
  kept : ∀ v frame, kheapStart ≤ v → v < 2 ^ 32 → s.kept (v / frameSize) = some frame →
    (s.entry base v).present = true ∧ (s.entry base v).frame = frame

/-- What the processor has of its own stays, and so do the directories. -/
structure PagedHeap.SameProcessor (s t : PagedHeap) : Prop where
  cr3 : t.cr3 = s.cr3
  kept : t.kept = s.kept
  existing : t.spaces.existing = s.spaces.existing

section

variable {vm : Vm} {base n : Nat} {s t u : PagedHeap} {f : FlatRun}

theorem PagedHeap.SameProcessor.refl (s : PagedHeap) : s.SameProcessor s := ⟨rfl, rfl, rfl⟩

theorem PagedHeap.SameProcessor.trans (h : s.SameProcessor t) (h' : t.SameProcessor u) :
    s.SameProcessor u :=
  ⟨h'.cr3.trans h.cr3, h'.kept.trans h.kept, h'.existing.trans h.existing⟩

/-- Translations may be kept while the entries of their pages keep the frames. -/
theorem PagedHeap.Coherent.congr (hc : s.Coherent base) (hsame : s.SameProcessor t)
    (hentry : ∀ v, kheapStart ≤ v → v < 2 ^ 32 → s.kept (v / frameSize) ≠ none →
      (s.entry base v).present = true →
        (t.entry base v).present = true ∧ (t.entry base v).frame = (s.entry base v).frame) :
    t.Coherent base where
  loaded := by
    rw [hsame.cr3, hsame.existing]
    exact hc.loaded
  kept := by
    intro v frame hv hv' hframe
    rw [hsame.kept] at hframe
    obtain ⟨hp, rfl⟩ := hc.kept v frame hv hv' hframe
    exact hentry v hv hv' (by rw [hframe]; exact Option.some_ne_none _) hp

theorem kernelPage_eq_iff {v w : Nat} (hv : kernelVoffset ≤ v) (hw : kernelVoffset ≤ w) :
    kernelPage v = kernelPage w ↔ v / frameSize = w / frameSize := by
  rw [kernelPage, kernelPage, frameSize]
  rw [kernelVoffset] at hv hw ⊢
  omega

/-- The first address of a page has the same entry. -/
theorem PagedHeap.entry_page (base : Nat) (s : PagedHeap) {v : Nat} (hv : kheapStart ≤ v) :
    s.entry base (v / frameSize * frameSize) = s.entry base v := by
  have hpage : kernelPage (v / frameSize * frameSize) = kernelPage v := by
    rw [kernelPage, kernelPage, frameSize]
    rw [kheapStart] at hv
    rw [kernelVoffset]
    omega
  unfold PagedHeap.entry
  rw [hpage]

theorem PagedHeap.Shows.behind_page (h : s.Shows vm base n f) {v : Nat} (hv : kheapStart ≤ v) :
    kernelVoffset ≤ v ∧ n ≤ kernelPage v := by
  have hbehind := h.behind
  rw [kernelPage, kernelVoffset]
  rw [kernelVoffset] at hbehind
  rw [kheapStart] at hv hbehind
  omega

/-- The processor finds the bytes of the heap through the entries. -/
theorem PagedHeap.Shows.translate_eq (h : s.Shows vm base n f) {dir v : Nat}
    (hdir : dir ∈ s.spaces.existing) (hv : kheapStart ≤ v) (hv' : v < 2 ^ 32) :
    translate s.spaces.vm dir v = if (s.entry base v).present then
      some ((s.entry base v).frame * frameSize + v % frameSize) else none :=
  h.half.translate_pages h.tables hdir (h.behind_page hv).1 hv'

/-- With the translations that it keeps, too. -/
theorem PagedHeap.Shows.lookup_eq (h : s.Shows vm base n f) (hc : s.Coherent base) {v : Nat}
    (hv : kheapStart ≤ v) (hv' : v < 2 ^ 32) :
    s.lookup v = if (s.entry base v).present then
      some ((s.entry base v).frame * frameSize + v % frameSize) else none := by
  unfold PagedHeap.lookup
  cases hkept : s.kept (v / frameSize) with
  | none => exact h.translate_eq hc.loaded hv hv'
  | some frame =>
    obtain ⟨hp, rfl⟩ := hc.kept v frame hv hv' hkept
    exact (if_pos hp).symm

theorem PagedHeap.Shows.getPage_eq (h : s.Shows vm base n f) {v : Nat} (hv : kheapStart ≤ v)
    (hv' : v < 2 ^ 32) (make : Bool) :
    getPage s.spaces.vm v make s.pageDir 0 = some (base + 4 * kernelPage v, s.spaces.vm) := by
  rw [h.pageDir]
  exact h.half.getPage_pages h.tables h.half.kernel_mem (h.behind_page hv).1 hv' make 0

/-- A change of the entry of one page, and of the flat heap with it. -/
theorem PagedHeap.Shows.update (h : s.Shows vm base n f) {a stop : Nat} {frames : PageFrames}
    {paging : Paging} {present : Nat → Bool} {mem : Mem} (ha : kheapStart ≤ a)
    (hstop : stop % 4096 = 0) (hlow : kheapStart ≤ stop) (hlt : stop < 2 ^ 32)
    (hbacked : Backed base n paging)
    (hframes : paging.pool.nframes - usedCount paging.pool ≤ frames.free)
    (hpages : ∀ p, p ≠ base + 4 * kernelPage a → paging.pages p = s.paging.pages p)
    (hothers : ∀ v, v / frameSize ≠ a / frameSize →
      present (v / frameSize) = f.heap.present (v / frameSize) ∧ mem v = f.heap.mem v ∧
        frames.held (v / frameSize) = f.heap.frames.held (v / frameSize))
    (hpresent : present (a / frameSize) = (paging.pages (base + 4 * kernelPage a)).present)
    (hheld : present (a / frameSize) = true →
      frames.held (a / frameSize) = (paging.pages (base + 4 * kernelPage a)).frame)
    (hmem : present (a / frameSize) = true → ∀ v, kheapStart ≤ v → v < 2 ^ 32 →
      v / frameSize = a / frameSize → mem v =
        s.ram ((paging.pages (base + 4 * kernelPage a)).frame * frameSize + v % frameSize)) :
    (s.withEnd s.spaces.vm paging stop).Shows vm base n
      ⟨{ f.heap with
          present := present
          frames := frames
          mem := mem
          endAddress := stop }, f.seen⟩ := by
  have hkernel := fun {v} hv => (h.behind_page (v := v) hv).1
  -- the entry of another page is the old one
  have hentry : ∀ v, kheapStart ≤ v → v / frameSize ≠ a / frameSize →
      paging.pages (base + 4 * kernelPage v) = s.entry base v := by
    intro v hv hne
    apply hpages
    have := (kernelPage_eq_iff (hkernel hv) (hkernel ha)).not.mpr hne
    omega
  have hsame : ∀ v, kheapStart ≤ v → v / frameSize = a / frameSize →
      kernelPage v = kernelPage a :=
    fun v hv heq => (kernelPage_eq_iff (hkernel hv) (hkernel ha)).mpr heq
  refine { h with
    half := ⟨h.half.covered, h.half.kernel, h.half.kheap, h.half.kernel_mem, h.half.dirs,
      h.half.shared⟩
    backed := hbacked
    endAddress := rfl
    aligned := hstop
    end_low := hlow
    end_lt := hlt
    frames := hframes
    held := fun v hv hv' => ?_
    present := fun v hv hv' => ?_
    mem := fun v hv hv' => ?_ }
  · change (paging.pages (base + 4 * kernelPage v)).present = true →
      frames.held (v / frameSize) = (paging.pages (base + 4 * kernelPage v)).frame
    by_cases hva : v / frameSize = a / frameSize
    · rw [hsame v hv hva, ← hpresent, hva]
      exact hheld
    · rw [(hothers v hva).2.2, hentry v hv hva]
      exact h.held v hv hv'
  · by_cases hva : v / frameSize = a / frameSize
    · change present (v / frameSize) = (paging.pages (base + 4 * kernelPage v)).present
      rw [hva, hsame v hv hva]
      exact hpresent
    · change present (v / frameSize) = (paging.pages (base + 4 * kernelPage v)).present
      rw [(hothers v hva).1, hentry v hv hva]
      exact h.present v hv hv'
  · change (paging.pages (base + 4 * kernelPage v)).present = true → mem v =
      s.ram ((paging.pages (base + 4 * kernelPage v)).frame * frameSize + v % frameSize)
    by_cases hva : v / frameSize = a / frameSize
    · rw [hsame v hv hva, ← hpresent]
      exact fun hp => hmem hp v hv hv' hva
    · rw [(hothers v hva).2.1, hentry v hv hva]
      exact h.mem v hv hv'

/-- `alloc_page` for the page at the end of the heap, when the page is there. -/
theorem PagedHeap.Shows.allocPage_there (h : s.Shows vm base n f) {w u : Bool} {paging : Paging}
    (fresh : NewPages) (hend : s.endAddress + 4096 < 2 ^ 32) (hbacked : Backed base n paging)
    (h0 : (s.paging.pages (base + 4 * kernelPage s.endAddress)).frame ≠ 0)
    (he : paging = { s.paging with
      pages := Function.update s.paging.pages (base + 4 * kernelPage s.endAddress)
        ⟨true, w, u, (s.entry base s.endAddress).frame⟩ }) :
    (s.withEnd s.spaces.vm paging (s.endAddress + 4096)).freeFrames = s.freeFrames ∧
      (s.withEnd s.spaces.vm paging (s.endAddress + 4096)).Shows vm base n
        ⟨{ f.heap.allocPage fresh with endAddress := s.endAddress + 4096 }, f.seen⟩ := by
  have hlow := h.end_low
  have hlt := h.end_lt
  have haligned := h.aligned
  have hframes := h.frames
  obtain ⟨hkernel, hbehind⟩ := h.behind_page hlow
  have hold := h.present s.endAddress hlow hlt
  have hthere := (h.backed.present (kernelPage s.endAddress) hbehind (kernelPage_lt hlt)).mpr h0
  have hentry : paging.pages (base + 4 * kernelPage s.endAddress) =
      ⟨true, w, u, (s.entry base s.endAddress).frame⟩ := by
    rw [he]
    simp only [Function.update_self]
  have hpages : ∀ p, p ≠ base + 4 * kernelPage s.endAddress →
      paging.pages p = s.paging.pages p := by
    intro p hp
    rw [he]
    exact Function.update_of_ne hp _ _
  have hpool : paging.pool = s.paging.pool := by rw [he]
  have hheap : f.heap.allocPage fresh = f.heap := by
    have hp : f.heap.present (f.heap.endAddress / frameSize) = true := by
      rw [h.endAddress, hold]
      exact hthere
    rw [Heap.allocPage]
    simp only [hp, if_true]
  rw [hheap]
  constructor
  · unfold PagedHeap.freeFrames PagedHeap.withEnd PagedHeap.paging
    simp only [hpool]
    rfl
  · apply h.update hlow (by omega) (by omega) hend hbacked _ hpages (fun _ _ => ⟨rfl, rfl, rfl⟩)
    · rw [hentry, hold]
      exact hthere
    · intro _
      rw [hentry]
      exact h.held s.endAddress hlow hlt hthere
    · intro _ v hv hv' heq
      rw [hentry]
      have hsame := (kernelPage_eq_iff (h.behind_page hv).1 hkernel).mpr heq
      have hmem := h.mem v hv hv'
      unfold PagedHeap.entry at hmem ⊢
      rw [hsame] at hmem
      exact hmem hthere
    · rw [hpool]
      exact hframes

/-- When it is not there, it gets a free frame `r`. -/
theorem PagedHeap.Shows.allocPage_new (h : s.Shows vm base n f) {w u : Bool} {fresh : NewPages}
    {paging : Paging} {r : Nat} (hend : s.endAddress + 4096 < 2 ^ 32)
    (hbacked : Backed base n paging)
    (h0 : (s.paging.pages (base + 4 * kernelPage s.endAddress)).frame = 0)
    (hrlt : r < s.paging.pool.nframes) (hrfree : isUsed s.paging.pool r = false)
    (he : paging = ⟨setFrame s.paging.pool r,
      Function.update s.paging.pages (base + 4 * kernelPage s.endAddress)
        ⟨true, w, u, r % 2 ^ 20⟩⟩)
    (hfresh : ∀ v, kheapStart ≤ v → v < 2 ^ 32 → v / frameSize = s.endAddress / frameSize →
      fresh.mem v =
        s.ram ((paging.pages (base + 4 * kernelPage v)).frame * frameSize + v % frameSize))
    (hframe : fresh.frame (s.endAddress / frameSize) =
      (paging.pages (base + 4 * kernelPage s.endAddress)).frame) :
    (s.withEnd s.spaces.vm paging (s.endAddress + 4096)).freeFrames + 1 = s.freeFrames ∧
      (s.withEnd s.spaces.vm paging (s.endAddress + 4096)).Shows vm base n
        ⟨{ f.heap.allocPage fresh with endAddress := s.endAddress + 4096 }, f.seen⟩ := by
  have hlow := h.end_low
  have hlt := h.end_lt
  have haligned := h.aligned
  have hframes := h.frames
  obtain ⟨hkernel, hbehind⟩ := h.behind_page hlow
  have hentry : paging.pages (base + 4 * kernelPage s.endAddress) = ⟨true, w, u, r % 2 ^ 20⟩ := by
    rw [he]
    simp only [Function.update_self]
  have hpages : ∀ p, p ≠ base + 4 * kernelPage s.endAddress →
      paging.pages p = s.paging.pages p := by
    intro p hp
    rw [he]
    exact Function.update_of_ne hp _ _
  have hpool : paging.pool = setFrame s.paging.pool r := by rw [he]
  have hused : usedCount paging.pool = usedCount s.paging.pool + 1 := by
    rw [hpool, usedCount_setFrame hrlt hrfree]
  have hnframes : paging.pool.nframes = s.paging.pool.nframes := by
    rw [hpool, nframes_setFrame]
  have hle := usedCount_le paging.pool
  have hheap : f.heap.allocPage fresh = { f.heap with
      present := Function.update f.heap.present (s.endAddress / frameSize) true
      frames := ⟨f.heap.freeFrames - 1, Function.update f.heap.frames.held
        (s.endAddress / frameSize) (fresh.frame (s.endAddress / frameSize))⟩
      mem := fun x => if x / frameSize = s.endAddress / frameSize then fresh.mem x
        else f.heap.mem x } := by
    have hp : f.heap.present (f.heap.endAddress / frameSize) = false := by
      rw [h.endAddress, h.present s.endAddress hlow hlt, ← Bool.not_eq_true]
      intro hp
      exact (h.backed.present (kernelPage s.endAddress) hbehind (kernelPage_lt hlt)).mp hp h0
    unfold PagedHeap.freeFrames at hframes
    rw [Heap.allocPage]
    simp only [hp]
    rw [if_neg (by simp), if_neg (by omega), h.endAddress]
  rw [hheap]
  unfold PagedHeap.freeFrames at hframes ⊢
  constructor
  · unfold PagedHeap.withEnd PagedHeap.paging at *
    simp only [hused, hnframes] at *
    omega
  · apply h.update hlow (by omega) (by omega) hend hbacked _ hpages
    · intro v hne
      exact ⟨Function.update_of_ne hne _ _, if_neg hne, Function.update_of_ne hne _ _⟩
    · rw [hentry]
      exact Function.update_self _ _ _
    · intro _
      rw [← hframe]
      exact Function.update_self _ _ _
    · intro _ v hv hv' heq
      have hnew := hfresh v hv hv' heq
      rw [(kernelPage_eq_iff (h.behind_page hv).1 hkernel).mpr heq] at hnew
      exact (if_pos heq).trans hnew
    · simp only
      omega

/-- `alloc_page` for the page at the end of the heap, while a frame is free. -/
theorem PagedHeap.Shows.allocPage (h : s.Shows vm base n f) {k w : Bool} {fresh : NewPages}
    {paging : Paging} (hend : s.endAddress + 4096 < 2 ^ 32) (hfree : 0 < s.freeFrames)
    (hpaging : paging = Toutatis.allocPage s.paging (base + 4 * kernelPage s.endAddress) k w)
    (hfresh : ∀ v, kheapStart ≤ v → v < 2 ^ 32 → v / frameSize = s.endAddress / frameSize →
      fresh.mem v =
        s.ram ((paging.pages (base + 4 * kernelPage v)).frame * frameSize + v % frameSize))
    (hframe : fresh.frame (s.endAddress / frameSize) =
      (paging.pages (base + 4 * kernelPage s.endAddress)).frame) :
    s.freeFrames ≤ (s.withEnd s.spaces.vm paging (s.endAddress + 4096)).freeFrames + 1 ∧
      (s.withEnd s.spaces.vm paging (s.endAddress + 4096)).Shows vm base n
        ⟨{ f.heap.allocPage fresh with endAddress := s.endAddress + 4096 }, f.seen⟩ := by
  -- a frame is found below `nframes`
  have hcount : usedCount s.paging.pool < s.paging.pool.nframes := by
    unfold PagedHeap.freeFrames at hfree
    omega
  obtain ⟨g, hg, hgfree⟩ := exists_free_of_usedCount hcount
  obtain ⟨r, hr, hrlt, hrfree, -⟩ := firstFreeFrame_of_free hg hgfree
  have hbelow : PageCall.Below s.paging (.alloc (base + 4 * kernelPage s.endAddress) k w) := by
    intro _ r' hr'
    obtain rfl := Option.some.inj (hr.symm.trans hr')
    exact hrlt
  have hbacked : Backed base n paging := by
    rw [hpaging]
    exact h.backed.alloc (h.behind_page h.end_low).2 (kernelPage_lt h.end_lt) hbelow
  obtain ⟨h0, he⟩ | ⟨-, hnone, -⟩ | ⟨r', h0, hr', -, he⟩ :=
    allocPage_cases s.paging (base + 4 * kernelPage s.endAddress) k w
  · -- the page is there
    obtain ⟨hfrees, hshows⟩ := h.allocPage_there fresh hend hbacked h0 (hpaging.trans he)
    exact ⟨by omega, hshows⟩
  · rw [hr] at hnone
    exact absurd hnone (by simp)
  · -- the page gets the frame that was found
    obtain rfl := Option.some.inj (hr.symm.trans hr')
    obtain ⟨hfrees, hshows⟩ :=
      h.allocPage_new hend hbacked h0 hrlt hrfree (hpaging.trans he) hfresh hframe
    exact ⟨by omega, hshows⟩

/-- The heap after one pass of the loop in `expand`. -/
def PagedHeap.grown (base : Nat) (s : PagedHeap) : PagedHeap :=
  s.withEnd s.spaces.vm (Toutatis.allocPage s.paging (base + 4 * kernelPage s.endAddress)
    s.supervisor !s.readonly) (s.endAddress + 4096)

theorem PagedHeap.Shows.expandLoop_succ (h : s.Shows vm base n f) {newEnd : Nat}
    (halign : newEnd % 4096 = 0) (hnew : newEnd < 2 ^ 32) (hlt : s.endAddress < newEnd)
    (fuel : Nat) :
    s.expandLoop newEnd (fuel + 1) = (s.grown base).expandLoop newEnd fuel := by
  have haligned := h.aligned
  rw [PagedHeap.expandLoop, if_pos hlt, h.getPage_eq h.end_low h.end_lt true, Option.bind_some,
    add32_of_lt (by rw [frameSize]; omega)]
  rfl

/-- The entries in front of the end stay. -/
theorem PagedHeap.Shows.grown_entry (h : s.Shows vm base n f) {v : Nat} (hv : kheapStart ≤ v)
    (hlt : v < s.endAddress) : (s.grown base).entry base v = s.entry base v := by
  have haligned := h.aligned
  have hkernel := (h.behind_page hv).1
  have hend := (h.behind_page h.end_low).1
  have hne : kernelPage v ≠ kernelPage s.endAddress := by
    rw [Ne, kernelPage_eq_iff hkernel hend, frameSize]
    omega
  exact allocPage_pages_of_ne (by omega)

/-- Nor does a page that is there get another frame. -/
theorem PagedHeap.Shows.grown_present (h : s.Shows vm base n f) {v : Nat} (hv : kheapStart ≤ v)
    (hv' : v < 2 ^ 32) (hp : (s.entry base v).present = true) :
    ((s.grown base).entry base v).present = true ∧
      ((s.grown base).entry base v).frame = (s.entry base v).frame := by
  have hbehind := (h.behind_page hv).2
  have h0 := (h.backed.present (kernelPage v) hbehind (kernelPage_lt hv')).mp hp
  change ((Toutatis.allocPage s.paging _ _ _).pages (base + 4 * kernelPage v)).present = true ∧
    ((Toutatis.allocPage s.paging _ _ _).pages (base + 4 * kernelPage v)).frame = _
  by_cases hpage : base + 4 * kernelPage v = base + 4 * kernelPage s.endAddress
  · rw [hpage] at h0
    rw [← hpage, Toutatis.allocPage, if_pos (by rw [hpage]; exact h0)]
    simp only [Function.update_self, true_and]
    rfl
  · rw [allocPage_pages_of_ne hpage]
    exact ⟨hp, rfl⟩

theorem PagedHeap.Shows.grown (h : s.Shows vm base n f) {fresh : NewPages}
    (hend : s.endAddress + 4096 < 2 ^ 32) (hfree : 0 < s.freeFrames)
    (hfresh : ∀ v, kheapStart ≤ v → v < 2 ^ 32 → v / frameSize = s.endAddress / frameSize →
      fresh.mem v = s.ram (((s.grown base).entry base v).frame * frameSize + v % frameSize))
    (hframe : fresh.frame (s.endAddress / frameSize) =
      ((s.grown base).entry base s.endAddress).frame) :
    s.freeFrames ≤ (s.grown base).freeFrames + 1 ∧ (s.grown base).Shows vm base n
      ⟨{ f.heap.allocPage fresh with endAddress := s.endAddress + 4096 }, f.seen⟩ :=
  h.allocPage hend hfree rfl hfresh hframe

/-- A new page holds what its frame holds. -/
theorem PagedHeap.Shows.exists_grown (h : s.Shows vm base n f)
    (hend : s.endAddress + 4096 < 2 ^ 32) (hfree : 0 < s.freeFrames) :
    s.freeFrames ≤ (s.grown base).freeFrames + 1 ∧ ∃ f₁, (s.grown base).Shows vm base n f₁ := by
  let fresh : NewPages :=
    ⟨fun v => s.ram (((s.grown base).entry base v).frame * frameSize + v % frameSize),
      fun _ => ((s.grown base).entry base s.endAddress).frame⟩
  have hfresh : ∀ v, kheapStart ≤ v → v < 2 ^ 32 → v / frameSize = s.endAddress / frameSize →
      fresh.mem v = s.ram (((s.grown base).entry base v).frame * frameSize + v % frameSize) :=
    fun _ _ _ _ => rfl
  obtain ⟨hcount, h₁⟩ := h.grown hend hfree hfresh rfl
  exact ⟨hcount, _, h₁⟩

/-- The loop in `expand` returns, when there are frames for the pages. -/
theorem PagedHeap.Shows.exists_expandLoop (fuel : Nat) (h : s.Shows vm base n f) {newEnd : Nat}
    (halign : newEnd % 4096 = 0) (hnew : newEnd < 2 ^ 32)
    (hframes : newEnd ≤ s.endAddress + 4096 * s.freeFrames)
    (hfuel : newEnd ≤ s.endAddress + 4096 * fuel) :
    ∃ s', s.expandLoop newEnd (fuel + 1) = some s' ∧ s.SameProcessor s' ∧
      (∀ v, kheapStart ≤ v → v < 2 ^ 32 → (s.entry base v).present = true →
        (s'.entry base v).present = true ∧ (s'.entry base v).frame = (s.entry base v).frame) ∧
      ∀ v, kheapStart ≤ v → v < s.endAddress → s'.entry base v = s.entry base v := by
  by_cases hlt : s.endAddress < newEnd
  · induction fuel generalizing s f with
    | zero => omega
    | succ fuel ih =>
      have haligned := h.aligned
      obtain ⟨hcount, f₁, h₁⟩ := h.exists_grown (by omega) (by omega)
      have hend : (s.grown base).endAddress = s.endAddress + 4096 := rfl
      rw [h.expandLoop_succ halign hnew hlt]
      -- one page more, and the rest by induction
      by_cases hmore : s.endAddress + 4096 < newEnd
      · obtain ⟨s', hs', hsame, hpresent, hentry⟩ := ih h₁ (by omega) (by omega) (by omega)
        refine ⟨s', hs', ⟨hsame.cr3, hsame.kept, hsame.existing⟩, fun v hv hv' hp => ?_,
          fun v hv hlow => ?_⟩
        · obtain ⟨hp₁, hframe₁⟩ := h.grown_present hv hv' hp
          rw [← hframe₁]
          exact hpresent v hv hv' hp₁
        · rw [hentry v hv (by omega), h.grown_entry hv hlow]
      · -- it was the last page
        refine ⟨s.grown base, ?_, ⟨rfl, rfl, rfl⟩, fun v hv hv' hp => h.grown_present hv hv' hp,
          fun v hv hlow => h.grown_entry hv hlow⟩
        rw [PagedHeap.expandLoop, if_neg (by omega)]
  · -- nothing is missing
    refine ⟨s, ?_, .refl s, fun v _ _ hp => ⟨hp, rfl⟩, fun v _ _ => rfl⟩
    rw [PagedHeap.expandLoop, if_neg hlt]

/-- The flat heap with the contents of these frames. -/
theorem PagedHeap.Shows.expandLoop (fuel : Nat) (h : s.Shows vm base n f) {newEnd : Nat}
    {s' : PagedHeap} (halign : newEnd % 4096 = 0) (hnew : newEnd < 2 ^ 32)
    (hframes : newEnd ≤ s.endAddress + 4096 * s.freeFrames)
    (hfuel : newEnd ≤ s.endAddress + 4096 * fuel)
    (hs' : s.expandLoop newEnd (fuel + 1) = some s') {fresh : NewPages}
    (hfresh : ∀ v, s.endAddress ≤ v → v < newEnd →
      fresh.mem v = s.ram ((s'.entry base v).frame * frameSize + v % frameSize) ∧
        fresh.frame (v / frameSize) = (s'.entry base v).frame) :
    s'.Shows vm base n ⟨f.heap.expandLoop fresh newEnd (fuel + 1), f.seen⟩ := by
  induction fuel generalizing s f with
  | zero =>
    rw [PagedHeap.expandLoop, if_neg (by omega)] at hs'
    obtain rfl := Option.some.inj hs'
    rw [Heap.expandLoop, h.endAddress, if_neg (by omega)]
    exact h
  | succ fuel ih =>
    by_cases hlt : s.endAddress < newEnd
    · have haligned := h.aligned
      have hlow := h.end_low
      have hend : (s.grown base).endAddress = s.endAddress + 4096 := rfl
      rw [h.expandLoop_succ halign hnew hlt] at hs'
      -- the frame that the page gets is the one that it has in the end
      have hkept : ∀ v, kheapStart ≤ v → v < s.endAddress + 4096 →
          s'.entry base v = (s.grown base).entry base v := by
        obtain ⟨hcount, f₁, h₁⟩ := h.exists_grown (by omega) (by omega)
        obtain ⟨t, ht, -, -, hentry⟩ := h₁.exists_expandLoop fuel halign hnew (by omega) (by omega)
        obtain rfl := Option.some.inj (ht.symm.trans hs')
        exact hentry
      have hstep : ∀ v, kheapStart ≤ v → v < 2 ^ 32 → v / frameSize = s.endAddress / frameSize →
          fresh.mem v = s.ram (((s.grown base).entry base v).frame * frameSize + v % frameSize) := by
        intro v hv _ heq
        rw [frameSize] at heq
        rw [← hkept v hv (by omega)]
        exact (hfresh v (by omega) (by omega)).1
      have hframe : fresh.frame (s.endAddress / frameSize) =
          ((s.grown base).entry base s.endAddress).frame := by
        rw [← hkept s.endAddress hlow (by omega)]
        exact (hfresh s.endAddress (le_refl _) hlt).2
      obtain ⟨hcount, h₁⟩ := h.grown (by omega) (by omega) hstep hframe
      have hrest := ih h₁ (by omega) (by omega) hs' fun v hv hv' => hfresh v (by omega) hv'
      have hflat : f.heap.expandLoop fresh newEnd (fuel + 1 + 1) =
          Heap.expandLoop fresh newEnd (fuel + 1)
            { f.heap.allocPage fresh with endAddress := s.endAddress + 4096 } := by
        rw [Heap.expandLoop, h.endAddress, if_pos hlt, add32_of_lt (by rw [frameSize]; omega)]
        rfl
      rw [hflat]
      exact hrest
    · rw [PagedHeap.expandLoop, if_neg hlt] at hs'
      obtain rfl := Option.some.inj hs'
      rw [Heap.expandLoop, h.endAddress, if_neg hlt]
      exact h

theorem pageRound_spec {a : Nat} (ha : a < 2 ^ 32) :
    pageRound a % 4096 = 0 ∧ pageRound a < 2 ^ 32 ∧
      ∀ b, b % 4096 = 0 → b < 2 ^ 32 → a ≤ b → a ≤ pageRound a ∧ pageRound a ≤ b := by
  rw [pageRound, frameSize]
  split
  · rw [add32]
    refine ⟨by omega, by omega, fun b hb hlt hle => ?_⟩
    omega
  · refine ⟨by omega, ha, fun b hb hlt hle => ?_⟩
    omega

/-- `expand` -/
theorem PagedHeap.Shows.expand (h : s.Shows vm base n f) {newEnd : Nat} (hnew : newEnd < 2 ^ 32)
    (hframes : pageRound newEnd ≤ s.endAddress + 4096 * s.freeFrames) :
    ∃ s' fresh, s.expand newEnd = some s' ∧ (s.Coherent base → s'.Coherent base) ∧
      s'.Shows vm base n ⟨f.heap.expand fresh newEnd, f.seen⟩ := by
  obtain ⟨halign, hlt, -⟩ := pageRound_spec hnew
  have hend := h.endAddress
  have hstart := h.startAddress
  have hmax := h.maxSize
  by_cases hle : newEnd ≤ s.endAddress
  · -- the heap is long enough
    refine ⟨s, ⟨s.ram, id⟩, ?_, id, ?_⟩
    · rw [PagedHeap.expand, if_pos hle]
    · rw [Heap.expand, hend, if_pos hle]
      exact h
  · by_cases hover : add32 s.startAddress s.maxSize < pageRound newEnd
    · -- the heap may not grow that far, which is only printed
      refine ⟨s, ⟨s.ram, id⟩, ?_, id, ?_⟩
      · rw [PagedHeap.expand, if_neg hle, if_pos hover]
      · rw [Heap.expand, hend, hstart, hmax, if_neg hle, if_pos hover]
        exact h
    · obtain ⟨s', hs', hsame, hpresent, -⟩ :=
        h.exists_expandLoop (2 ^ 20 - 1) halign hlt hframes (by omega)
      -- the new pages hold what their frames held
      let fresh : NewPages :=
        ⟨fun v => s.ram ((s'.entry base v).frame * frameSize + v % frameSize),
          fun page => (s'.entry base (page * frameSize)).frame⟩
      have hlow := h.end_low
      have hfresh : ∀ v, s.endAddress ≤ v → v < pageRound newEnd →
          fresh.mem v = s.ram ((s'.entry base v).frame * frameSize + v % frameSize) ∧
            fresh.frame (v / frameSize) = (s'.entry base v).frame :=
        fun v hv _ => ⟨rfl, congrArg Pte.frame (s'.entry_page base (hlow.trans hv))⟩
      refine ⟨s', fresh, ?_, fun hc => hc.congr hsame fun v hv hv' _ => hpresent v hv hv', ?_⟩
      · rw [PagedHeap.expand, if_neg hle, if_neg hover]
        exact hs'
      · rw [Heap.expand, hend, hstart, hmax, if_neg hle, if_neg hover]
        exact h.expandLoop (2 ^ 20 - 1) halign hlt hframes (by omega) hs' hfresh

/-- The heap after one pass of the loop in `contract`, which ends at `a`. -/
def PagedHeap.cut (base a : Nat) (s : PagedHeap) : PagedHeap :=
  s.withEnd s.spaces.vm (Toutatis.freePage s.paging (base + 4 * kernelPage a)) a

/-- The entry of one page is cleared. -/
theorem PagedHeap.Shows.cut_entry (h : s.Shows vm base n f) {a v : Nat} (ha : kheapStart ≤ a)
    (hv : kheapStart ≤ v) : (s.cut base a).entry base v =
      if v / frameSize = a / frameSize then
        { s.entry base v with
          present := false
          frame := 0 }
      else s.entry base v := by
  have hiff := kernelPage_eq_iff (h.behind_page hv).1 (h.behind_page ha).1
  change (Toutatis.freePage s.paging (base + 4 * kernelPage a)).pages (base + 4 * kernelPage v) = _
  simp only [Toutatis.freePage]
  by_cases hpage : v / frameSize = a / frameSize
  · -- the page that goes
    rw [if_pos hpage, hiff.mpr hpage, Function.update_self]
    unfold PagedHeap.entry
    rw [hiff.mpr hpage]
  · -- another page
    have hne := hiff.not.mpr hpage
    rw [if_neg hpage, Function.update_of_ne (by omega)]
    rfl

/-- The page in front of the end. -/
theorem PagedHeap.Shows.exists_last (h : s.Shows vm base n f)
    (hlow : kheapStart + 4096 ≤ s.endAddress) :
    ∃ a, s.endAddress = a + 4096 ∧ kheapStart ≤ a ∧ a < 2 ^ 32 ∧ a % 4096 = 0 ∧
      sub32 s.endAddress frameSize = a := by
  have haligned := h.aligned
  have hlt := h.end_lt
  rw [kheapStart] at hlow ⊢
  obtain ⟨a, ha⟩ := Nat.exists_eq_add_of_le' (show 4096 ≤ s.endAddress by omega)
  refine ⟨a, ha, by omega, by omega, by omega, ?_⟩
  rw [frameSize, sub32_of_le (by omega) hlt]
  omega

theorem PagedHeap.Shows.cut (h : s.Shows vm base n f) {a : Nat} (ha : kheapStart ≤ a)
    (hlt : a < 2 ^ 32) (haligned : a % 4096 = 0) (hsub : sub32 s.endAddress frameSize = a) :
    (s.cut base a).Shows vm base n ⟨{ f.heap.freePage with endAddress := a }, f.seen⟩ := by
  obtain ⟨hkernel, hbehind⟩ := h.behind_page ha
  have hpage := kernelPage_lt hlt
  have hold := h.present _ ha hlt
  have hiff := h.backed.present _ hbehind hpage
  have hframes := h.frames
  have hheap : f.heap.freePage = { f.heap with
      present := Function.update f.heap.present (a / frameSize) false
      frames :=
        if f.heap.present (a / frameSize) ∧ f.heap.frames.held (a / frameSize) % 32 = 0 then
          { f.heap.frames with free := f.heap.freeFrames + 1 }
        else f.heap.frames } := by
    rw [Heap.freePage]
    simp only [h.endAddress, hsub]
  have hentry : (Toutatis.freePage s.paging (base + 4 * kernelPage a)).pages
      (base + 4 * kernelPage a) =
        { s.paging.pages (base + 4 * kernelPage a) with
          present := false
          frame := 0 } := by
    simp only [Toutatis.freePage, Function.update_self]
  rw [hheap]
  apply h.update ha haligned ha hlt (h.backed.free hbehind hpage)
  · -- the frame is given back from a page that is present, if its bit is the lowest of a word
    unfold PagedHeap.freeFrames Heap.freeFrames at hframes
    rw [hold]
    by_cases h0 : (s.paging.pages (base + 4 * kernelPage a)).frame = 0
    · have hno : (s.entry base a).present = false := by
        rw [← Bool.not_eq_true]
        exact fun hp => hiff.mp hp h0
      rw [if_neg (fun hgiven => by rw [hno] at hgiven; exact absurd hgiven.1 (by decide))]
      simp only [Toutatis.freePage, h0, ne_eq, not_true_eq_false, if_false]
      exact hframes
    · have hyes : (s.entry base a).present = true := hiff.mpr h0
      have hheld : f.heap.frames.held (a / frameSize) =
          (s.paging.pages (base + 4 * kernelPage a)).frame := h.held a ha hlt hyes
      simp only [Toutatis.freePage, h0, ne_eq, not_false_eq_true, if_true]
      rw [hheld]
      by_cases hmod : (s.paging.pages (base + 4 * kernelPage a)).frame % 32 = 0
      · have hcount := usedCount_le_clearFrame s.paging.pool
          (s.paging.pages (base + 4 * kernelPage a)).frame
        rw [if_pos ⟨hyes, hmod⟩, nframes_clearFrame]
        simp only [Heap.freeFrames]
        omega
      · rw [if_neg (fun hgiven => hmod hgiven.2), clearFrame_of_mod hmod]
        exact hframes
  · intro p hp
    simp only [Toutatis.freePage, Function.update_of_ne hp]
  · intro v hne
    refine ⟨Function.update_of_ne hne _ _, rfl, ?_⟩
    split <;> rfl
  · rw [hentry]
    exact Function.update_self _ _ _
  · intro hp
    simp only [Function.update_self] at hp
    exact absurd hp (by decide)
  · intro hp
    simp only [Function.update_self] at hp
    exact absurd hp (by decide)

/-- The loop in `contract` clears the entries of the pages from `newEnd` on. -/
theorem PagedHeap.Shows.contractLoop (fuel : Nat) (h : s.Shows vm base n f) {newEnd : Nat}
    (hlow : kheapStart ≤ newEnd) (hfuel : s.endAddress ≤ newEnd + 4096 * fuel) :
    ∃ s', s.contractLoop newEnd (fuel + 1) = some s' ∧ s.SameProcessor s' ∧
      (∀ v, kheapStart ≤ v → s'.entry base v =
        if newEnd / frameSize ≤ v / frameSize ∧ v / frameSize < s.endAddress / frameSize ∧
            newEnd < s.endAddress then
          { s.entry base v with
            present := false
            frame := 0 }
        else s.entry base v) ∧
      s'.Shows vm base n ⟨f.heap.contractLoop newEnd (fuel + 1), f.seen⟩ := by
  by_cases hlt : newEnd < s.endAddress
  · induction fuel generalizing s f with
    | zero => omega
    | succ fuel ih =>
      have haligned := h.aligned
      have hbase := h.tables.base_le
      have hend : kheapStart + 4096 ≤ s.endAddress := by
        rw [kheapStart] at hlow ⊢
        omega
      obtain ⟨a, hsplit, ha, ha_lt, ha_mod, hsub⟩ := h.exists_last hend
      have hstep : s.contractLoop newEnd (fuel + 1 + 1) =
          (s.cut base a).contractLoop newEnd (fuel + 1) := by
        rw [PagedHeap.contractLoop, if_pos hlt, hsub, h.getPage_eq ha ha_lt false,
          Option.bind_some, if_neg (by simp only; rw [kernelVoffset] at hbase; omega)]
        rfl
      have hflat : f.heap.contractLoop newEnd (fuel + 1 + 1) =
          Heap.contractLoop newEnd (fuel + 1)
            { f.heap.freePage with endAddress := a } := by
        rw [Heap.contractLoop, h.endAddress, if_pos hlt, hsub]
      have hnext : (s.cut base a).endAddress = a := rfl
      have hcut := h.cut ha ha_lt ha_mod hsub
      rw [hstep, hflat]
      -- one page goes, and the rest by induction
      by_cases hmore : newEnd < a
      · obtain ⟨s', hs', hsame, hentry, h'⟩ := ih hcut (by omega) hmore
        refine ⟨s', hs', ⟨hsame.cr3, hsame.kept, hsame.existing⟩, fun v hv => ?_, h'⟩
        rw [hentry v hv, h.cut_entry ha hv, hnext, hsplit]
        rw [frameSize]
        split_ifs <;> first | rfl | omega
      · -- it was the last one
        refine ⟨s.cut base a, ?_, ⟨rfl, rfl, rfl⟩, fun v hv => ?_, ?_⟩
        · rw [PagedHeap.contractLoop, if_neg (by omega)]
        · rw [h.cut_entry ha hv, hsplit]
          rw [frameSize]
          split_ifs <;> first | rfl | omega
        · rw [Heap.contractLoop]
          simp only
          rw [if_neg hmore]
          exact hcut
  · -- nothing goes
    refine ⟨s, ?_, .refl s, fun v _ => ?_, ?_⟩
    · rw [PagedHeap.contractLoop, if_neg hlt]
    · rw [if_neg (by omega)]
    · rw [Heap.contractLoop, h.endAddress, if_neg hlt]
      exact h

/-- `contract`, for the address of a block. -/
theorem PagedHeap.Shows.contract (h : s.Shows vm base n f) {newEnd : Nat}
    (hblock : s.startAddress ≤ newEnd) :
    ∃ s', s.contract newEnd = some s' ∧ s.SameProcessor s' ∧
      (∀ v, kheapStart ≤ v → s'.entry base v =
        if newEnd < s.endAddress ∧ s.contractTo newEnd / frameSize ≤ v / frameSize ∧
            v / frameSize < s.endAddress / frameSize then
          { s.entry base v with
            present := false
            frame := 0 }
        else s.entry base v) ∧
      s'.Shows vm base n ⟨(f.heap.contract newEnd).2, f.seen⟩ := by
  have hlow := h.low
  have hend_lt := h.end_lt
  have haligned := h.aligned
  by_cases hle : s.endAddress ≤ newEnd
  · -- the end lies in front of it already
    refine ⟨s, ?_, .refl s, fun v _ => ?_, ?_⟩
    · rw [PagedHeap.contract, if_pos hle]
    · rw [if_neg (by omega)]
    · rw [Heap.contract, h.endAddress, if_pos hle]
      exact h
  · -- the pages between the new end and the old one go
    obtain ⟨-, hlt, hbetween⟩ := pageRound_spec (a := newEnd) (by omega)
    obtain ⟨hup, hdown⟩ := hbetween s.endAddress h.aligned hend_lt (by omega)
    have hto : f.heap.contractTo newEnd = s.contractTo newEnd := by
      rw [Heap.contractTo, PagedHeap.contractTo, h.startAddress, h.minSize]
    have hstop : kheapStart ≤ s.contractTo newEnd := by
      rw [PagedHeap.contractTo]
      split
      · rw [add32_of_lt h.min_lt]
        omega
      · omega
    obtain ⟨s', hs', hsame, hentry, h'⟩ := h.contractLoop (2 ^ 20 - 1) hstop
      (by rw [kheapStart] at hstop; omega)
    refine ⟨s', ?_, hsame, fun v hv => ?_, ?_⟩
    · rw [PagedHeap.contract, if_neg hle]
      exact hs'
    · rw [hentry v hv]
      rw [frameSize]
      split_ifs <;> first | rfl | omega
    · rw [Heap.contract, h.endAddress, if_neg hle, hto]
      exact h'

/-- `contract` drops no translation: a page that it takes away stays where it was for the processor,
    as long as its translation is kept. The entries lead there no more. -/
theorem PagedHeap.Shows.contract_stale (h : s.Shows vm base n f) {newEnd v frame : Nat}
    (hblock : s.startAddress ≤ newEnd) (hlt : newEnd < s.endAddress)
    (hv : s.contractTo newEnd / frameSize ≤ v / frameSize) (hv' : v < s.endAddress)
    (hlow : kheapStart ≤ v) (hkept : s.kept (v / frameSize) = some frame) :
    ∃ s', s.contract newEnd = some s' ∧
      s'.lookup v = some (frame * frameSize + v % frameSize) ∧
      (∀ dir ∈ s'.spaces.existing, translate s'.spaces.vm dir v = none) ∧
      (f.heap.contract newEnd).2.present (v / frameSize) = false := by
  obtain ⟨s', hs', hsame, hentry, h'⟩ := h.contract hblock
  have hend_lt := h.end_lt
  have haligned := h.aligned
  have hgone : (s'.entry base v).present = false := by
    rw [hentry v hlow, if_pos ⟨hlt, hv, by rw [frameSize] at *; omega⟩]
  refine ⟨s', hs', ?_, fun dir hdir => ?_, ?_⟩
  · -- the processor goes on with the frame that it has kept
    rw [PagedHeap.lookup, hsame.kept, hkept]
  · -- the tables do not map the page any more
    rw [h'.translate_eq hdir hlow (by omega), hgone]
    rfl
  · -- nor does the flat heap
    have hpresent := h'.present v hlow (by omega)
    rw [hgone] at hpresent
    exact hpresent

/-! ## Calls -/

/-- A byte that is written is one of the flat memory alone. -/
theorem PagedHeap.Shows.write (h : s.Shows vm base n f) {v : Nat} (hv : kheapStart ≤ v)
    (hv' : v < 2 ^ 32) (hp : (s.entry base v).present = true) (b : UInt8) :
    PagedHeap.Shows vm base n
      { s with ram := Function.update s.ram ((s.entry base v).frame * frameSize + v % frameSize) b }
      { f with heap := f.heap.withMem (Function.update f.heap.mem v b) } := by
  have hentry : ∀ r u, PagedHeap.entry base { s with ram := r } u = s.entry base u := fun _ _ => rfl
  refine { h with mem := fun u hu hu' hpu => ?_ }
  rw [hentry] at hpu
  simp only [Heap.withMem, hentry]
  by_cases huv : u = v
  · rw [huv, Function.update_self, Function.update_self]
  · -- another address has another frame or another place in it
    have hne : (s.entry base u).frame * frameSize + u % frameSize ≠
        (s.entry base v).frame * frameSize + v % frameSize := by
      intro heq
      have hpage : kernelPage u = kernelPage v := by
        apply Backed.apart h.backed (kernelPage_lt hu') (kernelPage_lt hv') hpu hp
        change (s.entry base u).frame = (s.entry base v).frame
        rw [frameSize] at heq
        omega
      rw [kernelPage_eq_iff (h.behind_page hu).1 (h.behind_page hv).1] at hpage
      unfold PagedHeap.entry at heq
      rw [(kernelPage_eq_iff (h.behind_page hu).1 (h.behind_page hv).1).mpr hpage] at heq
      rw [frameSize] at heq hpage
      omega
    rw [Function.update_of_ne huv, Function.update_of_ne hne]
    exact h.mem u hu hu' hpu

/-- A walk finds what the entry says. -/
theorem PagedHeap.Shows.keep (h : s.Shows vm base n f) (hc : s.Coherent base) {v : Nat}
    (hv : kheapStart ≤ v) (hv' : v < 2 ^ 32) :
    (s.keep v).Shows vm base n f ∧ (s.keep v).Coherent base := by
  have hwalk := h.translate_eq hc.loaded hv hv'
  unfold PagedHeap.keep
  cases hp : (s.entry base v).present with
  | false =>
    rw [hp] at hwalk
    rw [hwalk]
    exact ⟨h, hc⟩
  | true =>
    rw [hp, if_pos rfl] at hwalk
    rw [hwalk]
    refine ⟨{ h with }, hc.loaded, fun u frame hu hu' hframe => ?_⟩
    change (s.entry base u).present = true ∧ (s.entry base u).frame = frame
    simp only at hframe
    by_cases huv : u / frameSize = v / frameSize
    · -- another address of the page has the same entry
      have hsame := (kernelPage_eq_iff (h.behind_page hu).1 (h.behind_page hv).1).mpr huv
      have hentry : s.entry base u = s.entry base v := by
        unfold PagedHeap.entry
        rw [hsame]
      rw [huv, Function.update_self, Option.some.injEq] at hframe
      rw [hentry, ← hframe]
      refine ⟨hp, ?_⟩
      rw [frameSize]
      omega
    · rw [Function.update_of_ne huv] at hframe
      exact hc.kept u frame hu hu' hframe

/-- A new directory leaves what the heap shows, and the translations that are kept. -/
theorem PagedHeap.Shows.spaces (h : s.Shows vm base n f) (hco : s.Coherent base) {t : Spaces}
    (hhalf : HalfOk vm t) (hpaging : t.vm.paging = s.paging)
    (hexisting : ∀ d ∈ s.spaces.existing, d ∈ t.existing) :
    PagedHeap.Shows vm base n { s with spaces := t } f ∧
      PagedHeap.Coherent base { s with spaces := t } := by
  have hentry : ∀ v, PagedHeap.entry base { s with spaces := t } v = s.entry base v := by
    intro v
    exact congrArg (fun p : Paging => p.pages (base + 4 * kernelPage v)) hpaging
  refine ⟨{ h with
    half := hhalf
    backed := ?_
    frames := ?_
    held := fun v hv hv' => ?_
    present := fun v hv hv' => ?_
    mem := fun v hv hv' => ?_ }, hexisting _ hco.loaded, fun v frame hv hv' hframe => ?_⟩
  · change Backed base n t.vm.paging
    rw [hpaging]
    exact h.backed
  · change t.vm.paging.pool.nframes - usedCount t.vm.paging.pool ≤ f.heap.freeFrames
    rw [hpaging]
    exact h.frames
  · rw [hentry v]
    exact h.held v hv hv'
  · rw [hentry v]
    exact h.present v hv hv'
  · rw [hentry v]
    exact h.mem v hv hv'
  · rw [hentry v]
    exact hco.kept v frame hv hv' hframe

/-- **One call.** -/
theorem PagedHeap.Shows.exec (h : s.Shows vm base n f) (hco : s.Coherent base) {c : PagedCall}
    (hc : c.Ok s) : ∃ fresh, Option.Rel (fun t f => t.Shows vm base n f ∧ t.Coherent base)
      (s.exec c) (f.exec (c, fresh)) := by
  cases c with
  | read v =>
    obtain ⟨hv, hv'⟩ := hc
    refine ⟨default, ?_⟩
    rw [PagedHeap.exec, FlatRun.exec, h.lookup_eq hco hv hv', h.present v hv hv']
    cases hp : (s.entry base v).present with
    | false => exact .none
    | true =>
      apply Option.Rel.some
      exact ⟨{ h with seen := by simp only [h.seen, h.mem v hv hv' hp] }, hco.loaded, hco.kept⟩
  | write v b =>
    obtain ⟨hv, hv'⟩ := hc
    refine ⟨default, ?_⟩
    rw [PagedHeap.exec, FlatRun.exec, h.lookup_eq hco hv hv', h.present v hv hv']
    cases hp : (s.entry base v).present with
    | false => exact .none
    | true => exact .some ⟨h.write hv hv' hp b, hco.loaded, hco.kept⟩
  | keep v => exact ⟨default, .some (h.keep hco hc.1 hc.2)⟩
  | drop page =>
    refine ⟨default, .some ⟨{ h with }, hco.loaded, fun v frame hv hv' hframe => ?_⟩⟩
    apply hco.kept v frame hv hv'
    simp only at hframe
    by_cases hpage : v / frameSize = page
    · rw [hpage, Function.update_self] at hframe
      exact absurd hframe (by simp)
    · rwa [Function.update_of_ne hpage] at hframe
  | load dir =>
    exact ⟨default, .some ⟨{ h with }, hc, fun v frame _ _ hframe => absurd hframe (by simp)⟩⟩
  | expand newEnd =>
    obtain ⟨s', fresh, hs', hco', h'⟩ := h.expand hc.1 hc.2
    refine ⟨fresh, ?_⟩
    rw [PagedHeap.exec, hs']
    exact .some ⟨h', hco' hco⟩
  | contract newEnd =>
    obtain ⟨s', hs', hsame, hentry, h'⟩ := h.contract hc.1
    refine ⟨default, ?_⟩
    rw [PagedHeap.exec, hs']
    refine .some ⟨h', hco.congr hsame fun v hv hv' hkept hp => ?_⟩
    -- the entries that are cleared are those of pages without a kept translation
    have hstays : ¬(newEnd < s.endAddress ∧ s.contractTo newEnd / frameSize ≤ v / frameSize ∧
        v / frameSize < s.endAddress / frameSize) :=
      fun hgone => hkept (hc.2 hgone.1 _ hgone.2.1 hgone.2.2)
    rw [hentry v hv, if_neg hstays]
    exact ⟨hp, rfl⟩
  | clone dir a heap =>
    have hok : SpaceCall.Ok s.spaces (.clone dir a heap) := hc
    obtain ⟨t, ht, hhalf⟩ := h.half.exec hok
    have hexisting : ∀ d ∈ s.spaces.existing, d ∈ t.existing := by
      obtain ⟨r, -, rfl⟩ := Option.map_eq_some_iff.mp ht
      exact fun d hd => List.mem_cons_of_mem _ hd
    refine ⟨default, ?_⟩
    rw [PagedHeap.exec, ht]
    exact .some (h.spaces hco hhalf (clone_paging h.half hc.1 hc.2.1 hc.2.2 ht) hexisting)

/-- The bytes that the processor finds are those of the flat memory. -/
theorem PagedHeap.Shows.bytes (h : s.Shows vm base n f) {dir v : Nat}
    (hdir : dir ∈ s.spaces.existing) (hv : kheapStart ≤ v) (hv' : v < 2 ^ 32) :
    (translate s.spaces.vm dir v).map s.ram =
      if f.heap.present (v / frameSize) then some (f.heap.mem v) else none := by
  rw [h.translate_eq hdir hv hv', h.present v hv hv']
  cases hp : (s.entry base v).present with
  | false => rfl
  | true =>
    rw [h.mem v hv hv' hp]
    rfl

end

/-- At most the first `b` frames are marked. -/
theorem FreeFrom.usedCount_le {s : FramePool} {b : Nat} (h : FreeFrom b s) : usedCount s ≤ b := by
  have hsub : (Finset.range s.nframes).filter (fun f => isUsed s f = true) ⊆ Finset.range b := by
    intro f hf
    rw [Finset.mem_filter] at hf
    rw [Finset.mem_range]
    by_contra hle
    rw [h f (by omega)] at hf
    exact absurd hf.2 (by decide)
  have hcard := Finset.card_le_card hsub
  rwa [Finset.card_range] at hcard

end Toutatis
