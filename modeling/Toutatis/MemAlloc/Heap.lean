import Toutatis.MemAlloc.FreeTree
import Toutatis.Paging.Frames

/-!
# The heap

A shallow embedding of `alloc`, `free` and `create_mem_allocator` of `kernel/mem_alloc.c`. The
blocks live in byte memory: a header of 20 bytes, which is the magic number and the node of the
tree with the size of the block as its key, and a footer of 8 bytes, which is the magic number
and the address of the block. The tree takes the last 12 bytes of the header only as long as the
block is free; the user pointer stands in front of them.

The fields of `allocator_t` are kept apart from the memory. A page of the heap is mapped when
`alloc_page` finds a frame for it; `fresh` says which one, and what it holds. `none` stands for a
page fault, for a failed assertion, or for a recursion that does not end.
-/

namespace Toutatis

open ByteMem

/-- `sizeof(allocator_t)` -/
def allocatorSize : Nat := 48

/-- What added pages bring: what their frames hold, and which frames `alloc_page` finds. -/
structure NewPages where
  mem : Mem
  frame : Nat → Nat
deriving Inhabited

/-- The number of frames that are free, and the frames of the pages that are present. -/
structure PageFrames where
  free : Nat
  held : Nat → Nat

/-- `allocator_t` at the address `base`, with the memory, the pages that are present and the
    frames. -/
structure Heap where
  mem : Mem
  present : Nat → Bool
  frames : PageFrames
  base : Nat
  memTree : RbTree AllocArgs
  startAddress : Nat
  endAddress : Nat
  minSize : Nat
  maxSize : Nat
  memUsed : Nat

/-- The frames that are free. -/
def Heap.freeFrames (h : Heap) : Nat := h.frames.free

/-- The heap with another memory. -/
def Heap.withMem (h : Heap) (m : Mem) : Heap := { h with mem := m }

/-- The heap with another memory and another tree. -/
def Heap.withTree (h : Heap) (m : Mem) (tree : RbTree AllocArgs) : Heap :=
  { h with mem := m, memTree := tree }

/-- The heap with another count of used bytes. -/
def Heap.withUsed (h : Heap) (used : Nat) : Heap := { h with memUsed := used }

/-- The errors that are printed. -/
inductive HeapError where
  | alreadyFree
  | rightNotFound
  | leftNotFound
  | notInserted
  | expansionFailed
deriving DecidableEq

/-! ## Words and tags -/

/-- All bytes of the word are mapped. -/
def Heap.Mapped (h : Heap) (a : Nat) : Prop :=
  h.present (a / frameSize) = true ∧ h.present ((a + 3) / frameSize) = true

instance (h : Heap) (a : Nat) : Decidable (h.Mapped a) := inferInstanceAs (Decidable (_ ∧ _))

def Heap.load (h : Heap) (a : Nat) : Option Nat :=
  if h.Mapped a then some (load32 h.mem a) else none

def Heap.store (h : Heap) (a v : Nat) : Option Heap :=
  if h.Mapped a then some (h.withMem (store32 h.mem a v)) else none

/-- `MAGIC` -/
def magicNumber : Nat := 0xa1b2c3d4

/-- `check_magic`, which ignores bit 0. -/
def checkMagic (w : Nat) : Bool := w &&& 0xfffffffe == magicNumber

/-- `is_free` -/
def isFree (w : Nat) : Bool := w &&& 1 != 0

/-- `set_magic`, for a header or a footer. -/
def Heap.setMagic (h : Heap) (a : Nat) : Option Heap := do
  let w ← h.load a
  h.store a (magicNumber ||| (w &&& 1))

/-- `mark_free` -/
def Heap.markFree (h : Heap) (block : Nat) : Option Heap := do
  let w ← h.load block
  h.store block (w ||| 1)

/-- `mark_used` -/
def Heap.markUsed (h : Heap) (block : Nat) : Option Heap := do
  let w ← h.load block
  h.store block (w &&& 0xfffffffe)

/-- `get_size` -/
def Heap.getSize (h : Heap) (block : Nat) : Option Nat := h.load (add32 block 4)

/-- `set_size` -/
def Heap.setSize (h : Heap) (block size : Nat) : Option Heap := h.store (add32 block 4) size

/-- `get_footer` -/
def Heap.getFooter (h : Heap) (block : Nat) : Option Nat := do
  let size ← h.getSize block
  some (sub32 (add32 block size) 8)

/-- `get_next_block` -/
def Heap.getNextBlock (h : Heap) (block : Nat) : Option Nat := do
  let size ← h.getSize block
  some (add32 block size)

/-- `footer->header = block; set_magic(footer)` for the footer of a block. -/
def Heap.setFooter (h : Heap) (block : Nat) : Option Heap := do
  let footer ← h.getFooter block
  let h ← h.store (add32 footer 4) block
  h.setMagic footer

/-- The words of a node are mapped: its size and its three links. -/
def Heap.NodeMapped (h : Heap) (node : Nat) : Prop :=
  h.Mapped node ∧ h.Mapped (node + 4) ∧ h.Mapped (node + 8) ∧ h.Mapped (node + 12)

instance (h : Heap) (node : Nat) : Decidable (h.NodeMapped node) :=
  inferInstanceAs (Decidable (_ ∧ _ ∧ _ ∧ _))

/-- `insert_rbnode` writes the links of the node. -/
def Heap.insertNode (h : Heap) (node : Nat) : Option (Nat × Heap) :=
  if node ≠ 0 ∧ ¬ h.NodeMapped node then none
  else do
    let (r, mem, tree) ← insertRbnode h.mem h.memTree node none
    some (r, h.withTree mem tree)

/-- `remove_rbnode` reads the size and the links of the node that it returns. -/
def Heap.removeNode (h : Heap) (data : Nat) (args : AllocArgs) : Option (Nat × Heap) := do
  let (node, mem, tree) ← removeRbnode h.mem h.memTree data (some args)
  if node ≠ 0 ∧ ¬ h.NodeMapped node then none
  else some (node, h.withTree mem tree)

/-- The test for a free block in front, whose footer is `footer`. -/
def Heap.leftFree (h : Heap) (footer : Nat) : Option Bool := do
  let header ← h.load (add32 footer 4)
  if header < h.startAddress then some false
  else
    let fmagic ← h.load footer
    if !checkMagic fmagic then some false
    else
      let magic ← h.load header
      some (checkMagic magic && isFree magic)

/-- The test for a free block behind. -/
def Heap.rightFree (h : Heap) (neighbour : Nat) : Option Bool := do
  let size ← h.getSize neighbour
  if h.endAddress < add32 neighbour size then some false
  else
    let magic ← h.load neighbour
    if !checkMagic magic then some false
    else
      let footer ← h.getFooter neighbour
      let fmagic ← h.load footer
      some (checkMagic fmagic && isFree magic)

/-! ## `expand` and `contract` -/

/-- The next page boundary, in the arithmetic of `uintptr_t`. -/
def pageRound (a : Nat) : Nat :=
  if a % frameSize ≠ 0 then add32 (a - a % frameSize) frameSize else a

/-- `alloc_page(get_page(end_address, 1, dir), …)`: without a free frame nothing is mapped. -/
def Heap.allocPage (h : Heap) (fresh : NewPages) : Heap :=
  let page := h.endAddress / frameSize
  if h.present page then h
  else if h.freeFrames = 0 then h
  else
    { h with
      present := Function.update h.present page true
      frames := ⟨h.freeFrames - 1, Function.update h.frames.held page (fresh.frame page)⟩
      mem := fun x => if x / frameSize = page then fresh.mem x else h.mem x }

/-- `while (end_address < new_end_address)`; there are `2 ^ 20` pages. -/
def Heap.expandLoop (fresh : NewPages) (newEnd : Nat) : (fuel : Nat) → Heap → Heap
  | 0, h => h
  | fuel + 1, h =>
    if h.endAddress < newEnd then
      expandLoop fresh newEnd fuel
        { h.allocPage fresh with endAddress := add32 h.endAddress frameSize }
    else h

/-- `expand`: what goes wrong is only printed. -/
def Heap.expand (h : Heap) (fresh : NewPages) (newEnd : Nat) : Heap :=
  if newEnd ≤ h.endAddress then h
  else if add32 h.startAddress h.maxSize < pageRound newEnd then h
  else expandLoop fresh (pageRound newEnd) (2 ^ 20) h

/-- `free_page(get_page(end_address - FRAME_SIZE, 0, dir))`: `clear_frame` gives back no frame but
    one whose bit is the lowest of its word. -/
def Heap.freePage (h : Heap) : Heap :=
  let page := sub32 h.endAddress frameSize / frameSize
  { h with
    present := Function.update h.present page false
    frames :=
      if h.present page ∧ h.frames.held page % 32 = 0 then
        { h.frames with free := h.freeFrames + 1 }
      else h.frames }

/-- `while (end_address > new_end_address)` -/
def Heap.contractLoop (newEnd : Nat) : (fuel : Nat) → Heap → Heap
  | 0, h => h
  | fuel + 1, h =>
    if newEnd < h.endAddress then
      contractLoop newEnd fuel { h.freePage with endAddress := sub32 h.endAddress frameSize }
    else h

/-- Where `contract` stops: the next page boundary, or the end of `min_size` bytes. -/
def Heap.contractTo (h : Heap) (newEnd : Nat) : Nat :=
  if sub32 (pageRound newEnd) h.startAddress < h.minSize then add32 h.startAddress h.minSize
  else pageRound newEnd

/-- `contract`: the end of the heap that it returns. -/
def Heap.contract (h : Heap) (newEnd : Nat) : Nat × Heap :=
  if h.endAddress ≤ newEnd then (0, h)
  else
    let h' := contractLoop (h.contractTo newEnd) (2 ^ 20) h
    (h'.endAddress, h')

/-! ## `alloc` -/

/-- `get_block_size` -/
def getBlockSize (size : Nat) : Nat :=
  let s := add32 (add32 (add32 size 8) 8) 3 / 4 * 4
  if s < minBlockSize then minBlockSize else s

/-- The block with the added space, from `old_end_address` on: it is merged with a free block in
    front of it and put into the tree. -/
def Heap.addHole (h : Heap) (hole : Nat) : Option (Option HeapError × Heap) := do
  let h ← h.setSize hole (sub32 h.endAddress hole)
  let h ← h.setMagic hole
  let holeFooter ← h.getFooter hole
  let h ← h.store (add32 holeFooter 4) hole
  let h ← h.setMagic holeFooter
  let leftFooter := sub32 hole 8
  if ← h.leftFree leftFooter then
    let left ← h.load (add32 leftFooter 4)
    let leftSize ← h.getSize left
    let (leftNode, h) ← h.removeNode leftSize ⟨0, add32 left 4⟩
    if leftNode = 0 then some (some .expansionFailed, h)
    else
      let leftBlock := sub32 leftNode 4
      let leftSize ← h.getSize leftBlock
      let holeSize ← h.getSize hole
      let h ← h.setSize leftBlock (add32 leftSize holeSize)
      let h ← h.store (add32 holeFooter 4) leftBlock
      let h ← h.markFree leftBlock
      let (_, h) ← h.insertNode leftNode
      some (none, h)
  else
    let h ← h.markFree hole
    let (_, h) ← h.insertNode (add32 hole 4)
    some (none, h)

/-- `align block if required`: what is cut off in front goes back to the tree. -/
def Heap.alignBlock (h : Heap) (block alignment : Nat) : Option (Nat × Heap) :=
  if add32 block 8 % alignment ≠ 0 then do
    let offset := alignLoop (minBlockSize + 1) alignment (alignment - add32 block 8 % alignment)
    let newBlock := add32 block offset
    let size ← h.getSize block
    let h ← h.setSize newBlock (sub32 size offset)
    let h ← h.setFooter newBlock
    if offset < minBlockSize then none
    else
      let h ← h.setMagic block
      let h ← h.setSize block offset
      let h ← h.setFooter block
      let h ← h.markFree block
      let (_, h) ← h.insertNode (add32 block 4)
      some (newBlock, h)
  else some (block, h)

/-- `fragment node if necessary` -/
def Heap.fragment (h : Heap) (block requested : Nat) : Option Heap := do
  let blockSize ← h.getSize block
  let fragSize := sub32 blockSize requested
  if 0 < fragSize ∧ minBlockSize ≤ fragSize then
    let h ← h.setSize block requested
    let h ← h.setMagic block
    let h ← h.setFooter block
    let nextBlock ← h.getNextBlock block
    let h ← h.setSize nextBlock fragSize
    let h ← h.setMagic nextBlock
    let h ← h.setFooter nextBlock
    let h ← h.markFree nextBlock
    let (_, h) ← h.insertNode (add32 nextBlock 4)
    some h
  else some h

/-- What `alloc` does with the node that it took out of the tree. -/
def Heap.takeBlock (h : Heap) (node requested alignment : Nat) : Option (Nat × Heap) := do
  let (block, h) ← h.alignBlock (sub32 node 4) alignment
  let h ← h.fragment block requested
  let h ← h.markUsed block
  let size ← h.getSize block
  some (add32 block 8, h.withUsed (add32 h.memUsed size))

/-- `alloc`, which calls itself after an expansion. -/
def Heap.allocLoop (fresh : NewPages) (size : Nat) : (fuel : Nat) → (alignment : Nat) → Heap →
    Option (Nat × Heap)
  | 0, _, _ => none
  | fuel + 1, alignment, h => do
    let requested := getBlockSize size
    let alignment := if alignment = 0 then 1 else alignment
    let (node, h) ← h.removeNode requested ⟨alignment, 0⟩
    if node = 0 then
      let oldEnd := h.endAddress
      let (error, h) ← (h.expand fresh (add32 h.endAddress requested)).addHole oldEnd
      if error.isSome then some (0, h) else allocLoop fresh size fuel alignment h
    else h.takeBlock node requested alignment

/-- `alloc`: the user pointer, `0` when it fails. -/
def Heap.alloc (h : Heap) (fresh : NewPages) (size alignment : Nat) : Option (Nat × Heap) :=
  h.allocLoop fresh size loopBound alignment

/-! ## `free` -/

/-- The three statements of both merges: `block` gets the size of both blocks. -/
def Heap.setMerged (h : Heap) (block size : Nat) : Option Heap := do
  let h ← h.setSize block size
  let h ← h.markFree block
  let footer ← h.getFooter block
  h.store (add32 footer 4) block

/-- `right neighbour merge` -/
def Heap.mergeRight (h : Heap) (block : Nat) : Option (Option HeapError × Heap) := do
  let neighbour ← h.getNextBlock block
  if ← h.rightFree neighbour then
    let size ← h.getSize neighbour
    let (node, h) ← h.removeNode size ⟨0, add32 neighbour 4⟩
    if node = 0 then some (some .rightNotFound, h)
    else
      let blockSize ← h.getSize block
      let size ← h.getSize neighbour
      let h ← h.setMerged block (add32 blockSize size)
      some (none, h)
  else some (none, h)

/-- `left neighbour merge`: the block that is left. -/
def Heap.mergeLeft (h : Heap) (block : Nat) : Option (Option HeapError × Heap × Nat) := do
  let footer := sub32 block 8
  if ← h.leftFree footer then
    let neighbour ← h.load (add32 footer 4)
    let size ← h.getSize neighbour
    let (node, h) ← h.removeNode size ⟨0, add32 neighbour 4⟩
    if node = 0 then some (some .leftNotFound, h, block)
    else
      let size ← h.getSize neighbour
      let blockSize ← h.getSize block
      let h ← h.setMerged neighbour (add32 size blockSize)
      some (none, h, neighbour)
  else some (none, h, block)

/-- The insertion at the end of `free`. -/
def Heap.insertBlock (h : Heap) (block : Nat) : Option (Option HeapError × Heap) := do
  let (r, h) ← h.insertNode (add32 block 4)
  some (if r = 0 then some .notInserted else none, h)

/-- The condition of the contraction branch, on the footer of the block. -/
def Heap.Contracts (h : Heap) (footer : Nat) : Prop :=
  add32 footer 8 = h.endAddress ∧ h.minSize < sub32 h.endAddress h.startAddress

instance (h : Heap) (footer : Nat) : Decidable (h.Contracts footer) :=
  inferInstanceAs (Decidable (_ ∧ _))

/-- The contraction: `node may be freed entirely`. -/
def Heap.shrink (h : Heap) (block : Nat) : Option (Option HeapError × Heap) := do
  let blockSize ← h.getSize block
  let oldEnd := h.endAddress
  let (newEnd, h) := h.contract block
  let spaceRemoved := sub32 oldEnd newEnd
  if 0 < sub32 blockSize spaceRemoved then
    let h ← h.setSize block (sub32 blockSize spaceRemoved)
    let h ← h.markFree block
    let footer ← h.getFooter block
    let h ← h.setMagic footer
    let h ← h.store (add32 footer 4) block
    h.insertBlock block
  else some (none, h)

/-- The end of `free`: the contraction, or the block goes into the tree. -/
def Heap.giveBack (h : Heap) (block : Nat) : Option (Option HeapError × Heap) := do
  let footer ← h.getFooter block
  if h.Contracts footer then h.shrink block else h.insertBlock block

/-- Both merges: the block that is left, or an error. -/
def Heap.coalesce (h : Heap) (block : Nat) : Option (Option HeapError × Heap × Nat) := do
  let (error, h) ← h.mergeRight block
  if error.isSome then some (error, h, block) else h.mergeLeft block

/-- The block of a user pointer is marked free; it must not be free already. -/
def Heap.release (h : Heap) (block : Nat) : Option (Option HeapError × Heap) := do
  let magic ← h.load block
  if !checkMagic magic then none
  else if isFree magic then some (some .alreadyFree, h)
  else
    let h ← h.markFree block
    let footer ← h.getFooter block
    let fmagic ← h.load footer
    if !checkMagic fmagic then none
    else
      let size ← h.getSize block
      some (none, h.withUsed (sub32 h.memUsed size))

/-- `free`: the error that is printed, and the heap. -/
def Heap.free (h : Heap) (p : Nat) : Option (Option HeapError × Heap) :=
  if p = 0 then some (none, h)
  else do
    let (error, h) ← h.release (sub32 p 8)
    if error.isSome then some (error, h)
    else
      let (error, h, block) ← h.coalesce (sub32 p 8)
      if error.isSome then some (error, h) else h.giveBack block

/-! ## `create_mem_allocator` -/

/-- The first block starts at a multiple of `MIN_BLOCK_SIZE` behind the structure. -/
def firstBlock (start : Nat) : Nat :=
  let s := add32 start allocatorSize
  if s % minBlockSize ≠ 0 then add32 (s - s % minBlockSize) minBlockSize else s

/-- `mem_free` -/
def Heap.memFree (h : Heap) : Nat := sub32 (sub32 h.endAddress h.startAddress) h.memUsed

/-- `create_mem_allocator` in a heap whose fields are not set yet: `some none` is `NULL`. -/
def Heap.create (h : Heap) (start stop minSize maxSize : Nat) : Option (Option Heap) :=
  if start % frameSize ≠ 0 ∨ stop % frameSize ≠ 0 then some none
  else do
    let hole := firstBlock start
    let h := { h with
      base := start
      memTree := initRbtree h.memTree compare selectDup
      memUsed := 0
      startAddress := hole
      endAddress := stop
      minSize := minSize
      maxSize := maxSize }
    let h ← h.setSize hole (sub32 stop hole)
    let h ← h.setMagic hole
    let h ← h.setFooter hole
    let h ← h.markFree hole
    let (_, h) ← h.insertNode (add32 hole 4)
    some (some h)

end Toutatis
