import Toutatis.Paging.Conserve

/-!
# Page directories

A shallow embedding of the rest of `kernel/paging.c`: `get_page`, `map_page`,
`paging_finalize` and `clone_page_directory`, with `kmalloc_int` of `kernel/kheap.c` as far
as it hands out memory before there is a heap. Directories are records found under their
address, and a page-table entry is named by its address.

The bitmap is kept apart from the directories and the tables here. In the machine they follow it
in memory, where `set_frame` and `clear_frame` reach them with the number of a frame that has no bit
in the bitmap; `Paging.Words` has the same functions over one memory.

What the heap returns is an argument of the functions that may call it. `none` stands for
a failed assertion, a page fault or `stop`. `grants` is not in the source: it lists what
`kmalloc` has returned before there was a heap.
-/

namespace Toutatis

open ByteMem

/-! ## Data -/

/-- `pde_t`, as far as it is used here. -/
structure Pde where
  present : Bool
  readWrite : Bool
  userSupervisor : Bool
  pageTableBase : Nat

/-- `page_dir_t`. -/
structure PageDir where
  entries : Nat → Pde
  entriesPhysAddr : Nat
  tables : Nat → Nat

/-- A page-table entry, a directory entry and a directory of zeros. -/
def zeroPte : Pte := ⟨false, false, false, 0⟩

@[inherit_doc zeroPte]
def zeroPde : Pde := ⟨false, false, false, 0⟩

@[inherit_doc zeroPte]
def zeroDir : PageDir := ⟨fun _ => zeroPde, 0, fun _ => 0⟩

/-- `sizeof(page_table_t)`. -/
def pageTableSize : Nat := 0x1000

/-- `sizeof(page_dir_t)`. -/
def pageDirSize : Nat := 0x2004

/-- `KHEAP_START` and `KHEAP_INITIAL_SIZE`. -/
def kheapStart : Nat := 0xd0000000

@[inherit_doc kheapStart]
def kheapInitialSize : Nat := 0x00100000

/-- What a call of `kmalloc` has returned: a range of memory, the alignment asked for, and
    the physical address if that was asked for. -/
structure Grant where
  addr : Nat
  size : Nat
  alignment : Nat
  phys : Option Nat

/-- The state of the memory management. -/
structure Vm where
  paging : Paging
  dirs : Nat → PageDir
  kernelDirectory : Nat
  currentDirectory : Nat
  placementAddress : Nat
  kheap : Nat
  grants : List Grant

/-- `PAGE_DIRECTORY_INDEX`. -/
def pageDirectoryIndex (virt : Nat) : Nat := virt >>> 22 &&& 0x3ff

/-- `PAGE_TABLE_INDEX`. -/
def pageTableIndex (virt : Nat) : Nat := virt >>> 12 &&& 0x3ff

/-! ## Memory for tables -/

/-- `page->frame * FRAME_SIZE + (addr & 0xfff)` for the page of `addr` in the kernel's
    directory. -/
def physOf (s : Vm) (addr : Nat) : Option Nat :=
  let table := (s.dirs s.kernelDirectory).tables (pageDirectoryIndex addr)
  if s.kernelDirectory = 0 ∨ table = 0 then none
  else some ((s.paging.pages (table + 4 * pageTableIndex addr)).frame * frameSize +
    (addr &&& 0xfff))

/-- `kmalloc_int`: the address, the physical address if that is wanted, and the state.
    `heapAddr` is what the heap returns. -/
def kmallocInt (s : Vm) (size alignment : Nat) (wantPhys : Bool) (heapAddr : Nat) :
    Option (Nat × Nat × Vm) :=
  if s.kheap ≠ 0 then
    if wantPhys then (physOf s heapAddr).map fun phys => (heapAddr, phys, s)
    else some (heapAddr, 0, s)
  else
    let p := s.placementAddress
    let p := if alignment ≠ 0 ∧ p % alignment ≠ 0 then add32 (sub32 p (p % alignment)) alignment
      else p
    let phys := sub32 p kernelVoffset
    let grant : Grant := ⟨p, size, alignment, if wantPhys then some phys else none⟩
    some (p, phys, { s with placementAddress := add32 p size, grants := grant :: s.grants })

/-- `memset(table, 0, sizeof(page_table_t))`. -/
def clearTable (s : Paging) (table : Nat) : Paging :=
  { s with
    pages := fun x => if table ≤ x ∧ x < table + pageTableSize then zeroPte else s.pages x }

/-! ## Pages -/

/-- `get_page`: the address of the entry, `0` when there is none. -/
def getPage (s : Vm) (virt : Nat) (make : Bool) (dir heapAddr : Nat) : Option (Nat × Vm) :=
  if dir = 0 then none
  else
    let dirIdx := pageDirectoryIndex virt
    if (s.dirs dir).tables dirIdx ≠ 0 then
      some ((s.dirs dir).tables dirIdx + 4 * pageTableIndex virt, s)
    else if make then
      (kmallocInt s pageTableSize frameSize true heapAddr).bind fun (table, phys, s) =>
        -- a null table is cleared, which is a page fault
        if table = 0 then none
        else
          some (table + 4 * pageTableIndex virt,
            { s with
              paging := clearTable s.paging table
              dirs := Function.update s.dirs dir
                { s.dirs dir with
                  tables := Function.update (s.dirs dir).tables dirIdx table
                  entries := Function.update (s.dirs dir).entries dirIdx
                    ⟨true, true, true, phys >>> 12⟩ } })
    else some (0, s)

/-- `map_page`. -/
def mapPage (s : Paging) (page : Nat) (isKernel isWriteable : Bool) (phys : Nat) : Paging :=
  let frame := phys / frameSize
  { pool := if frame < s.pool.nframes then setFrame s.pool frame else s.pool
    pages := Function.update s.pages page ⟨true, isWriteable, !isKernel, frame % 2 ^ 20⟩ }

/-- The walk of the processor, when it has kept no translation. The tables that the entries of a
    directory point to are read through the addresses at which the kernel sees them. -/
def translate (s : Vm) (dir virt : Nat) : Option Nat :=
  let pde := (s.dirs dir).entries (pageDirectoryIndex virt)
  let pte := s.paging.pages
    (pde.pageTableBase * frameSize + kernelVoffset + 4 * pageTableIndex virt)
  if pde.present ∧ pte.present then some (pte.frame * frameSize + virt % frameSize) else none

/-! ## Start -/

/-- `paging_init`. -/
def initPaging (s : Vm) (memSize : Nat) (rest : Nat → BitVec 32) : Option Vm :=
  (kmallocInt s (memSize / frameSize / 8) frameSize false 0).map fun r =>
    { r.2.2 with paging := { r.2.2.paging with pool := pagingInit memSize rest } }

/-- `for (; virt < 0xfffff000; virt += FRAME_SIZE) get_page(virt, 1, kernel_directory)`. -/
def tableLoop : (fuel virt : Nat) → Vm → Option Vm
  | 0, _, _ => none
  | fuel + 1, virt, s =>
    if virt < 0xfffff000 then
      (getPage s virt true s.kernelDirectory 0).bind fun r =>
        tableLoop fuel (add32 virt frameSize) r.2
    else some s

/-- `while (virt < placement_address)`. -/
def mapLoop : (fuel virt phys : Nat) → Vm → Option Vm
  | 0, _, _, _ => none
  | fuel + 1, virt, phys, s =>
    if virt < s.placementAddress then
      (getPage s virt true s.kernelDirectory 0).bind fun r =>
        mapLoop fuel (add32 virt frameSize) (add32 phys frameSize)
          { r.2 with paging := mapPage r.2.paging r.1 false false phys }
    else some s

/-- The loop that allocates pages for the heap. -/
def heapLoop : (fuel virt : Nat) → Vm → Option Vm
  | 0, _, _ => none
  | fuel + 1, virt, s =>
    if virt < kheapStart + kheapInitialSize then
      (getPage s virt true s.kernelDirectory 0).bind fun r =>
        heapLoop fuel (add32 virt frameSize)
          { r.2 with paging := allocPage r.2.paging r.1 false true }
    else some s

/-- `switch_page_directory`. -/
def switchPageDirectory (s : Vm) (dir : Nat) : Vm :=
  if dir = 0 then s else { s with currentDirectory := dir }

/-- `paging_finalize`; the heap that `create_mem_allocator` sets up lies at `KHEAP_START`. -/
def pagingFinalize (s : Vm) : Option Vm :=
  let s := { s with paging := { s.paging with pool := setFrame s.paging.pool 0 } }
  (kmallocInt s pageDirSize frameSize true 0).bind fun (dir, phys, s) =>
    if dir = 0 then none
    else
      let s :=
        { s with
          dirs := Function.update s.dirs dir { zeroDir with entriesPhysAddr := phys }
          kernelDirectory := dir }
      (tableLoop (2 ^ 20) kernelVoffset s).bind fun s =>
        (mapLoop (2 ^ 20) kernelVoffset 0 s).bind fun s =>
          (heapLoop (2 ^ 20) kheapStart (switchPageDirectory s dir)).map fun s =>
            { s with kheap := kheapStart }

/-! ## Clones -/

/-- `clone_page_table`: `copy_frame` stops the machine, so only a table without frames is
    cloned. The address, the physical address and the state. -/
def clonePageTable (s : Vm) (table heapAddr : Nat) : Option (Nat × Nat × Vm) :=
  (kmallocInt s pageTableSize frameSize true heapAddr).bind fun (clone, phys, s) =>
    if clone = 0 then none
    else
      let s := { s with paging := clearTable s.paging clone }
      if (List.range 1024).any fun i => (s.paging.pages (table + 4 * i)).frame ≠ 0 then none
      else some (clone, phys, s)

/-- One pass of the loop of `clone_page_directory`. -/
def cloneStep (dir clone heapAddr i : Nat) (s : Vm) : Option Vm :=
  let table := (s.dirs dir).tables i
  let link (table : Nat) (entry : Pde) (s : Vm) : Vm :=
    { s with
      dirs := Function.update s.dirs clone
        { s.dirs clone with
          tables := Function.update (s.dirs clone).tables i table
          entries := Function.update (s.dirs clone).entries i entry } }
  if table = 0 then some s
  else if (s.dirs s.kernelDirectory).tables i = table then
    some (link table ((s.dirs dir).entries i) s)
  else
    (clonePageTable s table heapAddr).map fun (t, phys, s) =>
      link t { (s.dirs dir).entries i with pageTableBase := phys >>> 12 } s

/-- The loop of `clone_page_directory`; `left` passes are left. -/
def cloneLoop (dir clone : Nat) (heap : Nat → Nat) : (left : Nat) → Vm → Option Vm
  | 0, s => some s
  | left + 1, s =>
    (cloneStep dir clone (heap (1023 - left)) (1023 - left) s).bind (cloneLoop dir clone heap left)

/-- `clone_page_directory`; `clone` and `heap` are what the heap returns. -/
def clonePageDirectory (s : Vm) (dir clone : Nat) (heap : Nat → Nat) : Option (Nat × Vm) :=
  (kmallocInt s pageDirSize frameSize true clone).bind fun (clone, phys, s) =>
    if clone = 0 then none
    else
      let s :=
        { s with dirs := Function.update s.dirs clone { zeroDir with entriesPhysAddr := phys } }
      (cloneLoop dir clone heap 1024 s).map fun s => (clone, s)

/-! ## Calls on entries -/

/-- A call on a page-table entry. -/
inductive EntryCall where
  | alloc (page : Nat) (isKernel isWriteable : Bool)
  | map (page : Nat) (isKernel isWriteable : Bool) (phys : Nat)
  | free (page : Nat)

/-- The entry of a call. -/
def EntryCall.page : EntryCall → Nat
  | .alloc page _ _ => page
  | .map page _ _ _ => page
  | .free page => page

/-- One call. -/
def EntryCall.exec (s : Paging) : EntryCall → Option Paging
  | .alloc page isKernel isWriteable => some (allocPage s page isKernel isWriteable)
  | .map page isKernel isWriteable phys => some (mapPage s page isKernel isWriteable phys)
  | .free page => some (freePage s page)

end Toutatis
