import Toutatis.Paging.Directory

/-!
# Paging in one memory

A shallow embedding of `kernel/paging.c` over the memory that its structures share. The bitmap,
the directories and the page tables are words of one memory, so that a bit which is set or cleared
behind the bitmap, or counted there, may be one of a directory or a table. The modules on the frame
pool and on the directories keep the three apart, which is right for the bits of the bitmap itself.

All these words lie at multiples of 4. What the heap returns is an argument of the functions that
may call it; `none` stands for a failed assertion, a page fault or `stop`.

## Key results

- `PagedMem.pool_setFrame` and `PagedMem.pool_clearFrame`: the pool is the one of `FramePool`
- `PagedMem.pool_pagingInit`: the pool after `paging_init`, whatever follows the bitmap
-/

namespace Toutatis

open ByteMem

/-! ## Words -/

/-- The memory and the static variables of `paging.c` and `kheap.c`; `mem i` is the word at the
    address `4 * i`. -/
structure PagedMem where
  mem : Nat → BitVec 32
  frames : Nat
  nframes : Nat
  usedFrames : Nat
  kernelDirectory : Nat
  currentDirectory : Nat
  placementAddress : Nat
  kheap : Nat

/-- The fields of a `pte_t`. -/
def pteOf (w : BitVec 32) : Pte :=
  ⟨w.getLsbD 0, w.getLsbD 1, w.getLsbD 2, (w.extractLsb' 12 20).toNat⟩

/-- The word of a `pte_t` after its fields are written. Nothing here writes the nine bits between
    the flags and the frame. -/
def withPte (w : BitVec 32) (p : Pte) : BitVec 32 :=
  BitVec.ofNat 20 p.frame ++ w.extractLsb' 3 9 ++ BitVec.ofBool p.userSupervisor ++
    BitVec.ofBool p.readWrite ++ BitVec.ofBool p.present

/-- The fields of a `pde_t`, which lie as those of a `pte_t`. -/
def pdeOf (w : BitVec 32) : Pde :=
  ⟨(pteOf w).present, (pteOf w).readWrite, (pteOf w).userSupervisor, (pteOf w).frame⟩

/-- The word of a `pde_t` after its fields are written. -/
def withPde (w : BitVec 32) (p : Pde) : BitVec 32 :=
  withPte w ⟨p.present, p.readWrite, p.userSupervisor, p.pageTableBase⟩

/-- The address of `dir->entries[i]`. -/
def entryAt (dir i : Nat) : Nat := dir + 4 * i

/-- The address of `dir->entries_phys_addr`. -/
def physAddrAt (dir : Nat) : Nat := dir + 0x1000

/-- The address of `dir->tables[i]`. -/
def tableAt (dir i : Nat) : Nat := dir + 0x1004 + 4 * i

namespace PagedMem

/-- The word at an address. -/
def word (s : PagedMem) (a : Nat) : BitVec 32 := s.mem (a / 4)

/-- A word is stored. -/
def store (s : PagedMem) (a : Nat) (w : BitVec 32) : PagedMem :=
  { s with mem := Function.update s.mem (a / 4) w }

/-- `memset(a, 0, size)`; of the last word the low bytes may be cleared only. -/
def memset (s : PagedMem) (a size : Nat) : PagedMem :=
  { s with
    mem := fun i =>
      if a / 4 ≤ i then s.mem i &&& (0xffffffff#32 <<< (8 * (a + size - 4 * i))) else s.mem i }

/-- The page-table entry at an address. -/
def pte (s : PagedMem) (page : Nat) : Pte := pteOf (s.word page)

/-- `dir->entries[i]`. -/
def entry (s : PagedMem) (dir i : Nat) : Pde := pdeOf (s.word (entryAt dir i))

/-- `dir->tables[i]`. -/
def table (s : PagedMem) (dir i : Nat) : Nat := (s.word (tableAt dir i)).toNat

/-! ## The bitmap -/

/-- The words from `frames` on, with the counter: what the loops of the frame pool read. -/
def pool (s : PagedMem) : FramePool := ⟨fun i => s.mem (s.frames / 4 + i), s.nframes, s.usedFrames⟩

/-- `set_frame`. -/
def setFrame (s : PagedMem) (frame : Nat) : PagedMem :=
  if testFrame s.pool frame = 0#32 then
    let a := s.frames + 4 * (frame / 32)
    { s.store a (s.word a ||| (1#32 <<< (frame % 32))) with usedFrames := add32 s.usedFrames 1 }
  else s

/-- `clear_frame`. -/
def clearFrame (s : PagedMem) (frame : Nat) : PagedMem :=
  if testFrame s.pool frame = 1#32 then
    let a := s.frames + 4 * (frame / 32)
    { s.store a (s.word a &&& ~~~(1#32 <<< (frame % 32))) with
      usedFrames := sub32 s.usedFrames 1 }
  else s

/-- `paging_mark_reserved`. -/
def pagingMarkReserved (s : PagedMem) (address : Nat) : PagedMem := s.setFrame (address / frameSize)

/-! ## Pages -/

/-- The fields of an entry are written. -/
def storePte (s : PagedMem) (page : Nat) (p : Pte) : PagedMem :=
  s.store page (withPte (s.word page) p)

/-- `alloc_page`. -/
def allocPage (s : PagedMem) (page : Nat) (isKernel isWriteable : Bool) : PagedMem :=
  if (s.pte page).frame ≠ 0 then
    s.storePte page ⟨true, isWriteable, !isKernel, (s.pte page).frame⟩
  else
    match firstFreeFrame s.pool with
    | none => s
    | some frame => (s.setFrame frame).storePte page ⟨true, isWriteable, !isKernel, frame⟩

/-- `map_page`. -/
def mapPage (s : PagedMem) (page : Nat) (isKernel isWriteable : Bool) (phys : Nat) : PagedMem :=
  let frame := phys / frameSize
  let s := s.storePte page ⟨true, isWriteable, !isKernel, frame⟩
  if frame < s.nframes then s.setFrame frame else s

/-- `free_page`. -/
def freePage (s : PagedMem) (page : Nat) : PagedMem :=
  let s := if (s.pte page).frame ≠ 0 then s.clearFrame (s.pte page).frame else s
  s.storePte page { s.pte page with present := false, frame := 0 }

/-! ## Memory for tables -/

/-- The physical address that `kmalloc_int` reports for an address of the heap. -/
def physOf (s : PagedMem) (addr : Nat) : Option Nat :=
  let table := s.table s.kernelDirectory (pageDirectoryIndex addr)
  if s.kernelDirectory = 0 ∨ table = 0 then none
  else some ((s.pte (table + 4 * pageTableIndex addr)).frame * frameSize + (addr &&& 0xfff))

/-- `kmalloc_int`: the address, the physical address if that is wanted, and the state.
    `heapAddr` is what the heap returns. -/
def kmallocInt (s : PagedMem) (size alignment : Nat) (wantPhys : Bool) (heapAddr : Nat) :
    Option (Nat × Nat × PagedMem) :=
  if s.kheap ≠ 0 then
    if wantPhys then (s.physOf heapAddr).map fun phys => (heapAddr, phys, s)
    else some (heapAddr, 0, s)
  else
    let p := s.placementAddress
    let p := if alignment ≠ 0 ∧ p % alignment ≠ 0 then add32 (sub32 p (p % alignment)) alignment
      else p
    some (p, sub32 p kernelVoffset, { s with placementAddress := add32 p size })

/-- `get_page`: the address of the entry, `0` when there is none. -/
def getPage (s : PagedMem) (virt : Nat) (make : Bool) (dir heapAddr : Nat) :
    Option (Nat × PagedMem) :=
  if dir = 0 then none
  else
    let i := pageDirectoryIndex virt
    if s.table dir i ≠ 0 then some (s.table dir i + 4 * pageTableIndex virt, s)
    else if make then
      (s.kmallocInt pageTableSize frameSize true heapAddr).bind fun (table, phys, s) =>
        -- a null table is cleared, which is a page fault
        if table = 0 then none
        else
          let s := s.store (tableAt dir i) (BitVec.ofNat 32 table)
          let s := s.memset (s.table dir i) pageTableSize
          let s := s.store (entryAt dir i)
            (withPde (s.word (entryAt dir i)) ⟨true, true, true, phys >>> 12⟩)
          some (s.table dir i + 4 * pageTableIndex virt, s)
    else some (0, s)

/-- The walk of the processor, when it has kept no translation. The tables that the entries of a
    directory point to are read through the addresses at which the kernel sees them. -/
def translate (s : PagedMem) (dir virt : Nat) : Option Nat :=
  let pde := s.entry dir (pageDirectoryIndex virt)
  let pte := s.pte (pde.pageTableBase * frameSize + kernelVoffset + 4 * pageTableIndex virt)
  if pde.present ∧ pte.present then some (pte.frame * frameSize + virt % frameSize) else none

/-! ## Start -/

/-- `paging_init`. -/
def pagingInit (s : PagedMem) (memSize : Nat) : Option PagedMem :=
  let nframes := memSize / frameSize
  (s.kmallocInt (nframes / 8) frameSize false 0).map fun (frames, _, s) =>
    { s.memset frames (nframes / 8) with frames := frames, nframes := nframes, usedFrames := 0 }

/-- `for (; virt < 0xfffff000; virt += FRAME_SIZE) get_page(virt, 1, kernel_directory)`. -/
def tableLoop : (fuel virt : Nat) → PagedMem → Option PagedMem
  | 0, _, _ => none
  | fuel + 1, virt, s =>
    if virt < 0xfffff000 then
      (s.getPage virt true s.kernelDirectory 0).bind fun (_, s) =>
        tableLoop fuel (add32 virt frameSize) s
    else some s

/-- `while (virt < placement_address)`. -/
def mapLoop : (fuel virt phys : Nat) → PagedMem → Option PagedMem
  | 0, _, _, _ => none
  | fuel + 1, virt, phys, s =>
    if virt < s.placementAddress then
      (s.getPage virt true s.kernelDirectory 0).bind fun (page, s) =>
        mapLoop fuel (add32 virt frameSize) (add32 phys frameSize) (s.mapPage page false false phys)
    else some s

/-- The loop that allocates pages for the heap. -/
def heapLoop : (fuel virt : Nat) → PagedMem → Option PagedMem
  | 0, _, _ => none
  | fuel + 1, virt, s =>
    if virt < kheapStart + kheapInitialSize then
      (s.getPage virt true s.kernelDirectory 0).bind fun (page, s) =>
        heapLoop fuel (add32 virt frameSize) (s.allocPage page false true)
    else some s

/-- `switch_page_directory`. -/
def switchPageDirectory (s : PagedMem) (dir : Nat) : PagedMem :=
  if dir = 0 then s else { s with currentDirectory := dir }

/-- `paging_finalize`; the heap that `create_mem_allocator` sets up lies at `KHEAP_START`. -/
def pagingFinalize (s : PagedMem) : Option PagedMem :=
  ((s.setFrame 0).kmallocInt pageDirSize frameSize true 0).bind fun (dir, phys, s) =>
    if dir = 0 then none
    else
      let s := (({ s with kernelDirectory := dir }).memset dir pageDirSize).store (physAddrAt dir)
        (BitVec.ofNat 32 phys)
      (tableLoop (2 ^ 20) kernelVoffset s).bind fun s =>
        (mapLoop (2 ^ 20) kernelVoffset 0 s).bind fun s =>
          (heapLoop (2 ^ 20) kheapStart (s.switchPageDirectory dir)).map fun s =>
            { s with kheap := kheapStart }

/-! ## Clones -/

/-- `clone_page_table`: `copy_frame` stops the machine, so only a table without frames is
    cloned. The address, the physical address and the state. -/
def clonePageTable (s : PagedMem) (table heapAddr : Nat) : Option (Nat × Nat × PagedMem) :=
  (s.kmallocInt pageTableSize frameSize true heapAddr).bind fun (clone, phys, s) =>
    if clone = 0 then none
    else
      let s := s.memset clone pageTableSize
      if (List.range 1024).any fun i => (s.pte (table + 4 * i)).frame ≠ 0 then none
      else some (clone, phys, s)

/-- One pass of the loop of `clone_page_directory`. -/
def cloneStep (s : PagedMem) (dir clone heapAddr i : Nat) : Option PagedMem :=
  if s.table dir i = 0 then some s
  else if s.table s.kernelDirectory i = s.table dir i then
    let s := s.store (tableAt clone i) (s.word (tableAt dir i))
    some (s.store (entryAt clone i) (s.word (entryAt dir i)))
  else
    (s.clonePageTable (s.table dir i) heapAddr).map fun (table, phys, s) =>
      let s := s.store (tableAt clone i) (BitVec.ofNat 32 table)
      let s := s.store (entryAt clone i) (s.word (entryAt dir i))
      s.store (entryAt clone i) (withPde (s.word (entryAt clone i))
        { s.entry clone i with pageTableBase := phys >>> 12 })

/-- The loop of `clone_page_directory`; `left` passes are left. -/
def cloneLoop (dir clone : Nat) (heap : Nat → Nat) : (left : Nat) → PagedMem → Option PagedMem
  | 0, s => some s
  | left + 1, s =>
    (s.cloneStep dir clone (heap (1023 - left)) (1023 - left)).bind (cloneLoop dir clone heap left)

/-- `clone_page_directory`; `clone` and `heap` are what the heap returns. -/
def clonePageDirectory (s : PagedMem) (dir clone : Nat) (heap : Nat → Nat) :
    Option (Nat × PagedMem) :=
  (s.kmallocInt pageDirSize frameSize true clone).bind fun (clone, phys, s) =>
    if clone = 0 then none
    else
      let s := (s.memset clone pageDirSize).store (physAddrAt clone) (BitVec.ofNat 32 phys)
      (cloneLoop dir clone heap 1024 s).map fun s => (clone, s)

end PagedMem

/-! ## Calls on entries -/

/-- One call in this memory. -/
def EntryCall.run (s : PagedMem) : EntryCall → PagedMem
  | .alloc page isKernel isWriteable => s.allocPage page isKernel isWriteable
  | .map page isKernel isWriteable phys => s.mapPage page isKernel isWriteable phys
  | .free page => s.freePage page

/-! ## What is read -/

section

variable {s : PagedMem} {a b f : Nat}

/-- The bits of a written word. -/
theorem getLsbD_withPte (w : BitVec 32) (p : Pte) (i : Nat) :
    (withPte w p).getLsbD i =
      if i = 0 then p.present else if i = 1 then p.readWrite else if i = 2 then p.userSupervisor
      else if i < 12 then w.getLsbD i else (BitVec.ofNat 20 p.frame).getLsbD (i - 12) := by
  have happ : (withPte w p).getLsbD i = if i < 1 then (BitVec.ofBool p.present).getLsbD i
      else if i - 1 < 1 then (BitVec.ofBool p.readWrite).getLsbD (i - 1)
      else if i - 1 - 1 < 1 then (BitVec.ofBool p.userSupervisor).getLsbD (i - 1 - 1)
      else if i - 1 - 1 - 1 < 9 then (w.extractLsb' 3 9).getLsbD (i - 1 - 1 - 1)
      else (BitVec.ofNat 20 p.frame).getLsbD (i - 1 - 1 - 1 - 9) := by
    rw [withPte, BitVec.getLsbD_append, BitVec.getLsbD_append, BitVec.getLsbD_append,
      BitVec.getLsbD_append]
  rw [happ]
  -- the three flags, then the bits that are kept and the frame
  match i with
  | 0 => simp
  | 1 => simp
  | 2 => simp
  | i + 3 =>
    have h1 : ¬i + 3 - 1 < 1 := by omega
    have h2 : ¬i + 3 - 1 - 1 < 1 := by omega
    have h3 : i + 3 - 1 - 1 - 1 = i := by omega
    simp only [h1, h2, h3, if_false, Nat.not_lt.mpr (Nat.le_add_left 1 (i + 2)),
      show ¬i + 3 = 0 by omega, show ¬i + 3 = 1 by omega, show ¬i + 3 = 2 by omega]
    by_cases hi : i < 9
    · rw [if_pos hi, if_pos (by omega), BitVec.getLsbD_extractLsb']
      simp [hi, Nat.add_comm]
    · rw [if_neg hi, if_neg (by omega)]
      congr 1

/-- The fields of an entry are read back, the frame in its 20 bits. -/
theorem pteOf_withPte (w : BitVec 32) (p : Pte) :
    pteOf (withPte w p) = { p with frame := p.frame % 2 ^ 20 } := by
  have hframe : (withPte w p).extractLsb' 12 20 = BitVec.ofNat 20 p.frame := by
    apply BitVec.eq_of_getLsbD_eq
    intro i hi
    rw [BitVec.getLsbD_extractLsb', getLsbD_withPte, if_neg (by omega), if_neg (by omega),
      if_neg (by omega), if_neg (by omega), Nat.add_sub_cancel_left]
    simp [hi]
  rw [pteOf, hframe, getLsbD_withPte, getLsbD_withPte, getLsbD_withPte, BitVec.toNat_ofNat]
  rfl

/-- The same for an entry of a directory. -/
theorem pdeOf_withPde (w : BitVec 32) (p : Pde) :
    pdeOf (withPde w p) = { p with pageTableBase := p.pageTableBase % 2 ^ 20 } := by
  rw [pdeOf, withPde, pteOf_withPte]

namespace PagedMem

/-- The word that was stored. -/
@[simp] theorem word_store_self (w : BitVec 32) : (s.store a w).word a = w :=
  Function.update_self _ _ _

/-- Another word keeps its value. -/
theorem word_store_of_ne {w : BitVec 32} (h : a / 4 ≠ b / 4) : (s.store b w).word a = s.word a :=
  Function.update_of_ne h _ _

/-- An entry after its fields are written. -/
theorem pte_storePte (s : PagedMem) (page : Nat) (p : Pte) :
    (s.storePte page p).pte page = { p with frame := p.frame % 2 ^ 20 } := by
  rw [pte, storePte, word_store_self, pteOf_withPte]

/-- The words before a cleared range, and those behind it. -/
theorem word_memset_of_ne {size : Nat} (h : a / 4 < b / 4 ∨ b + size ≤ a / 4 * 4) :
    (s.memset b size).word a = s.word a := by
  rw [word, memset]
  simp only
  split
  · -- the word lies behind the range, so nothing of it is masked
    have hshift : b + size - 4 * (a / 4) = 0 := by omega
    rw [hshift, BitVec.shiftLeft_zero, show 0xffffffff#32 = BitVec.allOnes 32 from rfl,
      BitVec.and_allOnes]
    rfl
  · rfl

/-- The words that lie in a cleared range as a whole. -/
theorem word_memset_zero {size : Nat} (hlow : b / 4 ≤ a / 4) (hhigh : a / 4 * 4 + 4 ≤ b + size) :
    (s.memset b size).word a = 0#32 := by
  rw [word, memset]
  simp only
  rw [if_pos hlow, BitVec.shiftLeft_eq_zero (by omega)]
  exact BitVec.and_zero

/-! ## The bitmap as words -/

/-- The place of a frame's word. -/
theorem bit_word (f : Nat) : (s.frames + 4 * (f / 32)) / 4 = s.frames / 4 + f / 32 := by
  omega

/-- The pool after a store to one of its words. -/
private theorem pool_store (f n : Nat) (w : BitVec 32) :
    pool { s.store (s.frames + 4 * (f / 32)) w with usedFrames := n } =
      ⟨Function.update s.pool.frames (f / 32) w, s.nframes, n⟩ := by
  rw [pool, store]
  simp only [bit_word, FramePool.mk.injEq, and_self, and_true]
  exact Function.update_comp_eq_of_injective s.mem (add_right_injective (s.frames / 4)) (f / 32) w

/-- `set_frame` in the memory is `set_frame` of the pool. -/
theorem pool_setFrame (s : PagedMem) (f : Nat) : (s.setFrame f).pool = Toutatis.setFrame s.pool f := by
  rw [setFrame, Toutatis.setFrame]
  split
  · simp only [pool_store, word, bit_word]
    rfl
  · rfl

/-- And so is `clear_frame`. -/
theorem pool_clearFrame (s : PagedMem) (f : Nat) :
    (s.clearFrame f).pool = Toutatis.clearFrame s.pool f := by
  rw [clearFrame, Toutatis.clearFrame]
  split
  · simp only [pool_store, word, bit_word]
    rfl
  · rfl

/-- `set_frame` stores to the word of its frame. -/
theorem word_setFrame (h : a / 4 ≠ s.frames / 4 + f / 32) : (s.setFrame f).word a = s.word a := by
  rw [setFrame]
  split
  · exact word_store_of_ne (by rwa [bit_word])
  · rfl

/-- `clear_frame` stores to the word of its frame, and only for a multiple of 32. -/
theorem word_clearFrame (h : f % 32 = 0 → a / 4 ≠ s.frames / 4 + f / 32) :
    (s.clearFrame f).word a = s.word a := by
  rw [clearFrame]
  split
  case isTrue htest =>
    have hne := h ((testFrame_iff s.pool f).2.mp htest).2
    rw [← bit_word] at hne
    exact Function.update_of_ne hne _ _
  case isFalse => rfl

/-- Before there is a heap, `kmalloc` changes the placement address only, and then nothing. -/
theorem kmallocInt_eq {size alignment p phys : Nat} {wantPhys : Bool} {t : PagedMem}
    (h : s.kmallocInt size alignment wantPhys b = some (p, phys, t)) :
    t = { s with placementAddress := t.placementAddress } := by
  rw [kmallocInt] at h
  split at h
  · split at h
    · obtain ⟨_, -, heq⟩ := Option.map_eq_some_iff.mp h
      cases heq
      rfl
    · cases h
      rfl
  · simp only [Option.some.injEq, Prod.mk.injEq] at h
    obtain ⟨-, -, rfl⟩ := h
    rfl

/-- Memory handed out on a boundary of frames. -/
theorem kmallocInt_mod {size p phys : Nat} {wantPhys : Bool} {t : PagedMem} (hb : b % frameSize = 0)
    (h : s.kmallocInt size frameSize wantPhys b = some (p, phys, t)) : p % frameSize = 0 := by
  rw [kmallocInt] at h
  split at h
  · -- from the heap, whose answer is aligned, or no memory
    split at h
    · obtain ⟨_, -, heq⟩ := Option.map_eq_some_iff.mp h
      cases heq
      exact hb
    · cases h
      exact hb
  · simp only [Option.some.injEq, Prod.mk.injEq] at h
    obtain ⟨rfl, -⟩ := h
    -- the placement address is rounded up, or is aligned already
    split
    · simp only [frameSize, add32, sub32]
      omega
    case isFalse hmod =>
      by_contra hne
      exact hmod ⟨by decide, hne⟩

/-- The pool that `paging_init` leaves. -/
theorem pool_pagingInit {memSize : Nat} {t : PagedMem} (h : s.pagingInit memSize = some t) :
    t.pool = Toutatis.pagingInit memSize fun i => s.mem (t.frames / 4 + i) := by
  rw [pagingInit] at h
  obtain ⟨⟨p, phys, u⟩, hu, heq⟩ := Option.map_eq_some_iff.mp h
  have hmem : u.mem = s.mem := by rw [kmallocInt_eq hu]
  have hmod := kmallocInt_mod (by decide) hu
  rw [frameSize] at hmod
  cases heq
  rw [pool, Toutatis.pagingInit, FramePool.mk.injEq]
  refine ⟨funext fun i => ?_, rfl, rfl⟩
  simp only [memset, hmem]
  -- the bitmap begins with a word
  rw [if_pos (Nat.le_add_right _ _), show p + memSize / frameSize / 8 - 4 * (p / 4 + i) =
    memSize / frameSize / 8 - 4 * i by omega]

/-- The variables other than the counter. -/
structure SameVars (s t : PagedMem) : Prop where
  frames : t.frames = s.frames
  nframes : t.nframes = s.nframes
  kernelDirectory : t.kernelDirectory = s.kernelDirectory
  placementAddress : t.placementAddress = s.placementAddress
  kheap : t.kheap = s.kheap

/-- Two steps that keep the variables other than the counter. -/
theorem SameVars.trans {t u : PagedMem} (h : SameVars s t) (h' : SameVars t u) : SameVars s u :=
  ⟨h'.1.trans h.1, h'.2.trans h.2, h'.3.trans h.3, h'.4.trans h.4, h'.5.trans h.5⟩

/-- `set_frame` keeps these variables. -/
theorem SameVars.setFrame (s : PagedMem) (f : Nat) : SameVars s (s.setFrame f) := by
  rw [PagedMem.setFrame]
  split <;> exact ⟨rfl, rfl, rfl, rfl, rfl⟩

/-- `clear_frame` keeps these variables. -/
theorem SameVars.clearFrame (s : PagedMem) (f : Nat) : SameVars s (s.clearFrame f) := by
  rw [PagedMem.clearFrame]
  split <;> exact ⟨rfl, rfl, rfl, rfl, rfl⟩

end PagedMem

/-- A call on an entry leaves all variables but the counter. -/
theorem EntryCall.sameVars_run (s : PagedMem) (c : EntryCall) : s.SameVars (c.run s) := by
  cases c with
  | alloc page k w =>
    rw [run, PagedMem.allocPage]
    split
    · -- the entry has a frame
      exact ⟨rfl, rfl, rfl, rfl, rfl⟩
    · split
      · -- no frame is left
        exact ⟨rfl, rfl, rfl, rfl, rfl⟩
      case h_2 f _ => exact (PagedMem.SameVars.setFrame s f).trans ⟨rfl, rfl, rfl, rfl, rfl⟩
  | map page k w phys =>
    have hstore : ∀ p, s.SameVars (s.storePte page p) := fun p => ⟨rfl, rfl, rfl, rfl, rfl⟩
    rw [run, PagedMem.mapPage]
    split
    · -- the frame is one of the bitmap
      exact (hstore _).trans (PagedMem.SameVars.setFrame _ _)
    · exact hstore _
  | free page =>
    rw [run, PagedMem.freePage]
    split
    · -- a frame is given back
      exact (PagedMem.SameVars.clearFrame s _).trans ⟨rfl, rfl, rfl, rfl, rfl⟩
    · exact ⟨rfl, rfl, rfl, rfl, rfl⟩

end

end Toutatis
