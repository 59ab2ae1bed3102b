import Toutatis.Paging.Isolation
import Toutatis.Sched.Frame

/-!
# The first page tables

A shallow embedding of `enable_paging` of `kernel/bootstrap.s`, which maps the first 4 MiB of the
physical memory twice: where they are, and from `kernel_voffset` on. The tables are words in memory
here, and the processor walks through these.

The stack lies in the same memory: `call` and `pusha` push nine words, which `popa` and `ret` find
again through the tables.

## Key results

- `boot_mapping`: both windows onto the first 4 MiB, whatever memory held before, as long as nothing
  is written to the tables
- `enablePaging_returns`: the registers come back, read through the first window
- `switch_seamless`: the directory of the kernel continues the second window
-/

namespace Toutatis

open ByteMem Run

/-! ## The processor -/

/-- The physical memory and the control registers. -/
structure Mmu where
  mem : Mem
  cr0 : Nat
  cr3 : Nat
  cr4 : Nat

/-- The walk of the processor through the words of the tables. Bit 31 of `cr0` turns paging on, and
    bit 4 of `cr4` pages of 4 MiB. -/
def Mmu.pageWalk (s : Mmu) (v : Nat) : Option Nat :=
  if s.cr0.testBit 31 then
    let pde := load32 s.mem ((s.cr3 &&& 0xfffff000) + 4 * pageDirectoryIndex v)
    if pde.testBit 0 then
      if s.cr4.testBit 4 && pde.testBit 7 then some ((pde &&& 0xffc00000) + v % 2 ^ 22)
      else
        let pte := load32 s.mem ((pde &&& 0xfffff000) + 4 * pageTableIndex v)
        if pte.testBit 0 then some ((pte &&& 0xfffff000) + v % frameSize) else none
    else none
  else some v

/-- A byte is written to a virtual address. -/
def Mmu.write (s : Mmu) (w : Nat × UInt8) : Option Mmu :=
  (s.pageWalk w.1).map fun x => { s with mem := Function.update s.mem x w.2 }

/-! ## `enable_paging` -/

/-- `ATTR`: present, writable, supervisor mode. -/
def bootAttr : Nat := 3

/-- `PAGE_DIRECTORY`, `PAGE_TABLE_0` and `PAGE_TABLE_KERNEL`. -/
def bootDirectory : Nat := 0x9c000

@[inherit_doc bootDirectory]
def pageTable0 : Nat := 0x9d000

@[inherit_doc bootDirectory]
def pageTableKernel : Nat := 0x9e000

/-- The loops `.identity_map` and `.kernel_map`, with `ecx` passes left. -/
def mapTable : (ecx eax ebx : Nat) → Mem → Mem
  | 0, _, _, m => m
  | ecx + 1, eax, ebx, m => mapTable ecx (add32 eax 4) (add32 ebx 0x1000) (store32 m eax ebx)

/-- The words that `call` and `pusha` push. `pusha` pushes the stack pointer that it finds. -/
def bootPushes (c : Cpu) : List Nat :=
  [c.eip.toNat, c.eax.toNat, c.ecx.toNat, c.edx.toNat, c.ebx.toNat, sub32 c.esp.toNat 4,
    c.ebp.toNat, c.esi.toNat, c.edi.toNat]

/-- Memory behind `call` and `pusha`. -/
def bootSave (c : Cpu) (m : Mem) : Mem := (pushAll (m, c.esp.toNat) (bootPushes c)).1

/-- `enable_paging`, called with the registers `c`, up to `popa`. -/
def enablePaging (c : Cpu) (s : Mmu) : Mmu :=
  let m := mapTable 1024 pageTable0 (0x00000000 ||| bootAttr) (bootSave c s.mem)
  let m := mapTable 1024 pageTableKernel (0x00000000 ||| bootAttr) m
  let m := store32 m bootDirectory (pageTable0 ||| bootAttr)
  let m := store32 m (add32 (kernelVoffset >>> 22 <<< 2) bootDirectory) (pageTableKernel ||| bootAttr)
  { mem := m
    cr3 := bootDirectory
    cr4 := s.cr4 &&& 0xffffffef
    cr0 := s.cr0 ||| 1 <<< 31 }

/-- A word is read at a virtual address. -/
def Mmu.load (s : Mmu) (v : Nat) : Option (BitVec 32) :=
  (s.pageWalk v).map fun a => BitVec.ofNat 32 (load32 s.mem a)

/-- `popa` and `ret`, with the registers `c` before. The stack pointer that `pusha` has pushed is
    skipped. -/
def Mmu.popaRet (s : Mmu) (c : Cpu) (sp : Nat) : Option Cpu := do
  let edi ← s.load sp
  let esi ← s.load (sp + 4)
  let ebp ← s.load (sp + 8)
  let ebx ← s.load (sp + 16)
  let edx ← s.load (sp + 20)
  let ecx ← s.load (sp + 24)
  let eax ← s.load (sp + 28)
  let eip ← s.load (sp + 32)
  return { c with
    edi := edi, esi := esi, ebp := ebp, ebx := ebx, edx := edx, ecx := ecx, eax := eax, eip := eip
    esp := BitVec.ofNat 32 (sp + 36) }

/-! ## Words -/

section

variable {m : Mem} {n eax ebx x : Nat}

/-- The mask of a page rounds down. -/
theorem and_page_mask {v : Nat} (h : v < 2 ^ 32) : v &&& 0xfffff000 = v / 4096 * 4096 := by
  have hdiv : (v &&& 0xfffff000) / 4096 = v / 4096 % 2 ^ 20 := and_mask_div v
  have hmod : (v &&& 0xfffff000) % 4096 = 0 := by
    rw [show (4096 : Nat) = 2 ^ 12 from rfl, Nat.and_mod_two_pow]
    rw [show 0xfffff000 % 2 ^ 12 = 0 from rfl, Nat.and_zero]
  omega

/-- A loop writes its table only. -/
theorem mapTable_other (h32 : eax + 4 * n ≤ 2 ^ 32) (hx : x < eax ∨ eax + 4 * n ≤ x) :
    mapTable n eax ebx m x = m x := by
  induction n generalizing eax ebx m with
  | zero => rfl
  | succ n ih =>
    by_cases hn : n = 0
    · rw [mapTable, hn, mapTable]
      exact store32_apply_of_disjoint m ebx (by omega)
    · rw [mapTable, add32_of_lt (by omega), ih (by omega) (by omega)]
      exact store32_apply_of_disjoint m ebx (by omega)

/-- It counts the frames. -/
theorem load32_mapTable (h32 : eax + 4 * n ≤ 2 ^ 32) (hframes : ebx + 0x1000 * n ≤ 2 ^ 32) {i : Nat}
    (hi : i < n) : load32 (mapTable n eax ebx m) (eax + 4 * i) = ebx + 0x1000 * i := by
  induction n generalizing eax ebx m i with
  | zero => exact absurd hi (Nat.not_lt_zero i)
  | succ n ih =>
    by_cases h0 : i = 0
    · -- the first word is not written again
      have hkept : load32 (mapTable n (add32 eax 4) (add32 ebx 0x1000) (store32 m eax ebx)) eax =
          load32 (store32 m eax ebx) eax := by
        by_cases hn : n = 0
        · rw [hn, mapTable]
        · apply load32_congr
          intro x hlow hlt
          rw [add32_of_lt (by omega)]
          exact mapTable_other (by omega) (by omega)
      rw [mapTable, h0, Nat.mul_zero, Nat.add_zero, hkept, load32_store32_self]
      omega
    · rw [mapTable, add32_of_lt (by omega), add32_of_lt (by omega)]
      have hrest : load32 (mapTable n (eax + 4) (ebx + 0x1000) (store32 m eax ebx))
          (eax + 4 + 4 * (i - 1)) = ebx + 0x1000 + 0x1000 * (i - 1) :=
        ih (by omega) (by omega) (by omega)
      rw [show eax + 4 * i = eax + 4 + 4 * (i - 1) by omega, hrest]
      omega

end

/-! ## The two windows -/

/-- The windows onto the first 4 MiB. -/
def bootPhys (v : Nat) : Option Nat :=
  if v < 0x400000 then some v
  else if kernelVoffset ≤ v ∧ v < kernelVoffset + 0x400000 then some (v - kernelVoffset)
  else none

/-- The tables as `enable_paging` leaves them. -/
structure BootOk (s : Mmu) : Prop where
  on : s.cr0.testBit 31 = true
  small : s.cr4.testBit 4 = false
  dir : s.cr3 = bootDirectory
  low : load32 s.mem bootDirectory = 0x9d003
  high : load32 s.mem (bootDirectory + 4 * 768) = 0x9e003
  table0 : ∀ i < 1024, load32 s.mem (pageTable0 + 4 * i) = 0x1000 * i + 3
  tableKernel : ∀ i < 1024, load32 s.mem (pageTableKernel + 4 * i) = 0x1000 * i + 3

section

variable {s t : Mmu} {c : Cpu} {v x : Nat}

/-- What `enable_paging` writes besides the two tables. -/
theorem enablePaging_mem (c : Cpu) (s : Mmu) (a : Nat) (ha : a + 4 ≤ bootDirectory ∨
      bootDirectory + 4 ≤ a ∧ a + 4 ≤ bootDirectory + 4 * 768 ∨ bootDirectory + 4 * 768 + 4 ≤ a) :
    load32 (enablePaging c s).mem a = load32 (mapTable 1024 pageTableKernel bootAttr
      (mapTable 1024 pageTable0 bootAttr (bootSave c s.mem))) a := by
  have hentry : add32 (kernelVoffset >>> 22 <<< 2) bootDirectory = bootDirectory + 4 * 768 := by
    decide
  have hattr : 0x00000000 ||| bootAttr = bootAttr := by decide
  unfold enablePaging
  simp only [hentry, hattr]
  rw [load32_store32_of_disjoint _ _ (by omega), load32_store32_of_disjoint _ _ (by omega)]

/-- The tables are complete. -/
theorem enablePaging_ok (c : Cpu) (s : Mmu) : BootOk (enablePaging c s) := by
  have hentry : add32 (kernelVoffset >>> 22 <<< 2) bootDirectory = bootDirectory + 4 * 768 := by
    decide
  have hdir : bootDirectory = 0x9c000 := rfl
  have h0 : pageTable0 = 0x9d000 := rfl
  have hkernel : pageTableKernel = 0x9e000 := rfl
  have hattr : bootAttr = 3 := rfl
  refine ⟨?_, ?_, rfl, ?_, ?_, fun i hi => ?_, fun i hi => ?_⟩
  · simp only [enablePaging, Nat.testBit_or, show (1 <<< 31).testBit 31 = true by decide,
      Bool.or_true]
  · simp only [enablePaging, Nat.testBit_and, show Nat.testBit 0xffffffef 4 = false by decide,
      Bool.and_false]
  · simp only [enablePaging, hentry]
    rw [load32_store32_of_disjoint _ _ (by omega), load32_store32_self]
    decide
  · simp only [enablePaging, hentry]
    rw [load32_store32_self]
    decide
  · -- the table behind it is written later
    rw [enablePaging_mem c s _ (by omega)]
    have hkept : load32 (mapTable 1024 pageTableKernel bootAttr
          (mapTable 1024 pageTable0 bootAttr (bootSave c s.mem))) (pageTable0 + 4 * i) =
        load32 (mapTable 1024 pageTable0 bootAttr (bootSave c s.mem)) (pageTable0 + 4 * i) := by
      apply load32_congr
      exact fun x _ hx => mapTable_other (by omega) (by omega)
    rw [hkept, load32_mapTable (by omega) (by omega) hi]
    omega
  · rw [enablePaging_mem c s _ (by omega), load32_mapTable (by omega) (by omega) hi]
    omega

/-- The walk through a page of 4 KiB. -/
theorem Mmu.pageWalk_eq (hon : s.cr0.testBit 31 = true) (hsmall : s.cr4.testBit 4 = false)
    {pde pte : Nat}
    (hpde : load32 s.mem ((s.cr3 &&& 0xfffff000) + 4 * pageDirectoryIndex v) = pde)
    (hpte : load32 s.mem ((pde &&& 0xfffff000) + 4 * pageTableIndex v) = pte) :
    s.pageWalk v = if pde.testBit 0 ∧ pte.testBit 0 then
      some ((pte &&& 0xfffff000) + v % frameSize) else none := by
  rw [Mmu.pageWalk, if_pos hon]
  simp only [hpde, hsmall, Bool.false_and, Bool.false_eq_true, if_false, hpte]
  by_cases hd : pde.testBit 0 = true
  · by_cases ht : pte.testBit 0 = true
    · rw [if_pos hd, if_pos ht, if_pos ⟨hd, ht⟩]
    · rw [if_pos hd, if_neg ht, if_neg fun h => ht h.2]
  · rw [if_neg hd, if_neg fun h => hd h.1]

/-- The walk finds the first 4 MiB in both windows. -/
theorem BootOk.walk (h : BootOk s) (hx : bootPhys v = some x) : s.pageWalk v = some x := by
  have hcr3 : s.cr3 &&& 0xfffff000 = bootDirectory := by
    rw [h.dir]
    decide
  -- an entry of either table
  have hframe : ∀ i < 1024, (0x1000 * i + 3).testBit 0 = true ∧
      (0x1000 * i + 3) &&& 0xfffff000 = 0x1000 * i := by
    intro i hi
    rw [and_page_mask (by omega), Nat.testBit_zero, decide_eq_true_eq]
    omega
  unfold bootPhys at hx
  split at hx
  · cases hx
    have hidx : pageDirectoryIndex v = 0 ∧ pageTableIndex v = v / 4096 := by
      rw [pageDirectoryIndex, pageTableIndex, and_1023, and_1023, Nat.shiftRight_eq_div_pow,
        Nat.shiftRight_eq_div_pow]
      omega
    obtain ⟨hbit, hbase⟩ := hframe (v / 4096) (by omega)
    have hpde : load32 s.mem ((s.cr3 &&& 0xfffff000) + 4 * pageDirectoryIndex v) = 0x9d003 := by
      rw [hcr3, hidx.1]
      exact h.low
    have hpte : load32 s.mem ((0x9d003 &&& 0xfffff000) + 4 * pageTableIndex v) =
        0x1000 * (v / 4096) + 3 := by
      rw [hidx.2]
      exact h.table0 _ (by omega)
    rw [Mmu.pageWalk_eq h.on h.small hpde hpte, if_pos ⟨by decide, hbit⟩, hbase, frameSize,
      Option.some.injEq]
    omega
  · split at hx
    case isFalse => exact absurd hx (by simp)
    case isTrue hwindow =>
      rw [Option.some.injEq] at hx
      rw [kernelVoffset] at hwindow hx
      have hidx : pageDirectoryIndex v = 768 ∧ pageTableIndex v = (v - 0xc0000000) / 4096 := by
        rw [pageDirectoryIndex, pageTableIndex, and_1023, and_1023, Nat.shiftRight_eq_div_pow,
          Nat.shiftRight_eq_div_pow]
        omega
      obtain ⟨hbit, hbase⟩ := hframe ((v - 0xc0000000) / 4096) (by omega)
      have hpde : load32 s.mem ((s.cr3 &&& 0xfffff000) + 4 * pageDirectoryIndex v) = 0x9e003 := by
        rw [hcr3, hidx.1]
        exact h.high
      have hpte : load32 s.mem ((0x9e003 &&& 0xfffff000) + 4 * pageTableIndex v) =
          0x1000 * ((v - 0xc0000000) / 4096) + 3 := by
        rw [hidx.2]
        exact h.tableKernel _ (by omega)
      rw [Mmu.pageWalk_eq h.on h.small hpde hpte, if_pos ⟨by decide, hbit⟩, hbase, frameSize,
        Option.some.injEq]
      omega

/-- Addresses outside of the directory and the two tables. -/
def NotTables (x : Nat) : Prop := x < bootDirectory ∨ pageTableKernel + 0x1000 ≤ x

/-- The windows depend on the registers and the tables only. -/
theorem BootOk.congr (h : BootOk s) (hregs : t.cr0 = s.cr0 ∧ t.cr3 = s.cr3 ∧ t.cr4 = s.cr4)
    (hmem : ∀ y, ¬ NotTables y → t.mem y = s.mem y) : BootOk t := by
  obtain ⟨h0, h3, h4⟩ := hregs
  have hword : ∀ a, bootDirectory ≤ a → a + 4 ≤ pageTableKernel + 0x1000 →
      load32 t.mem a = load32 s.mem a := by
    intro a hlow hhigh
    apply load32_congr
    intro y hy hy'
    apply hmem
    rw [NotTables]
    omega
  have hdir : bootDirectory = 0x9c000 := rfl
  have htable0 : pageTable0 = 0x9d000 := rfl
  have hkernel : pageTableKernel = 0x9e000 := rfl
  refine ⟨h0 ▸ h.on, h4 ▸ h.small, h3.trans h.dir, ?_, ?_, fun i hi => ?_, fun i hi => ?_⟩
  · -- every word of the tables is the same
    rw [hword _ (by omega) (by omega)]
    exact h.low
  · rw [hword _ (by omega) (by omega)]
    exact h.high
  · rw [hword _ (by omega) (by omega)]
    exact h.table0 i hi
  · rw [hword _ (by omega) (by omega)]
    exact h.tableKernel i hi

/-- A write to the physical memory. -/
def physWrite (m : Mem) (w : Nat × UInt8) : Mem :=
  match bootPhys w.1 with
  | some x => Function.update m x w.2
  | none => m

/-- A run of writes through the windows, none of them to the tables. -/
theorem BootOk.writes (h : BootOk s) {writes : List (Nat × UInt8)}
    (hwrites : ∀ w ∈ writes, ∃ x, bootPhys w.1 = some x ∧ NotTables x) :
    ∃ t, execAll Mmu.write s writes = some t ∧ BootOk t ∧
      t.mem = writes.foldl physWrite s.mem ∧ ∀ y, ¬ NotTables y → t.mem y = s.mem y := by
  induction writes generalizing s with
  | nil => exact ⟨s, rfl, h, rfl, fun _ _ => rfl⟩
  | cons w writes ih =>
    obtain ⟨x, hx, hout⟩ := hwrites w (by simp)
    -- the byte goes where the windows say
    have hstep : s.write w = some { s with mem := Function.update s.mem x w.2 } := by
      rw [Mmu.write, h.walk hx, Option.map_some]
    have hkept : ∀ y, ¬ NotTables y → Function.update s.mem x w.2 y = s.mem y := by
      intro y hy
      -- a write that is not to the tables leaves them alone
      apply Function.update_of_ne
      intro hyx
      rw [hyx] at hy
      exact hy hout
    have h₁ : BootOk { s with mem := Function.update s.mem x w.2 } :=
      h.congr ⟨rfl, rfl, rfl⟩ hkept
    obtain ⟨t, ht, hok, hmem, hsame⟩ := ih h₁ fun w hw => hwrites w (by simp [hw])
    refine ⟨t, ?_, hok, ?_, fun y hy => (hsame y hy).trans (hkept y hy)⟩
    · rw [execAll_cons_some hstep]
      exact ht
    · rw [hmem, List.foldl_cons, physWrite, hx]

/-- The same writes keep two memories equal outside of the tables. -/
theorem foldl_physWrite_congr {m m' : Mem} (h : ∀ y, NotTables y → m y = m' y)
    (writes : List (Nat × UInt8)) (y : Nat) (hy : NotTables y) :
    writes.foldl physWrite m y = writes.foldl physWrite m' y := by
  induction writes generalizing m m' with
  | nil => exact h y hy
  | cons w writes ih =>
    rw [List.foldl_cons, List.foldl_cons]
    apply ih
    intro z hz
    rw [physWrite, physWrite]
    cases bootPhys w.1 with
    -- a write outside of the windows does nothing
    | none => exact h z hz
    | some x =>
      simp only
      -- both memories get the same byte
      by_cases hzx : z = x
      · rw [hzx, Function.update_self, Function.update_self]
      · rw [Function.update_of_ne hzx, Function.update_of_ne hzx]
        exact h z hz

/-- Behind the pushes `enable_paging` writes its tables only. -/
theorem enablePaging_other (c : Cpu) (s : Mmu) {y : Nat} (hy : NotTables y) :
    (enablePaging c s).mem y = bootSave c s.mem y := by
  have hdir : bootDirectory = 0x9c000 := rfl
  have htable0 : pageTable0 = 0x9d000 := rfl
  have hkernel : pageTableKernel = 0x9e000 := rfl
  have hentry : add32 (kernelVoffset >>> 22 <<< 2) bootDirectory = bootDirectory + 4 * 768 := by
    decide
  rw [NotTables, hdir, hkernel] at hy
  unfold enablePaging
  simp only [hentry]
  rw [store32_apply_of_disjoint _ _ (by rw [hdir]; omega),
    store32_apply_of_disjoint _ _ (by rw [hdir]; omega),
    mapTable_other (by rw [hkernel]; omega) (by rw [hkernel]; omega),
    mapTable_other (by rw [htable0]; omega) (by rw [htable0]; omega)]

/-- `call` and `pusha` write the 36 bytes below the stack pointer only. -/
theorem bootSave_other (m : Mem) (hroom : 36 ≤ c.esp.toNat)
    (hx : x < c.esp.toNat - 36 ∨ c.esp.toNat ≤ x) : bootSave c m x = m x := by
  obtain ⟨-, -, hoff⟩ := pushAll_spec m (bootPushes c) hroom (Nat.le_of_lt c.esp.isLt)
  rw [Nat.mod_eq_of_lt c.esp.isLt] at hoff
  exact hoff x hx

/-- The words on the stack, read through the first window. -/
theorem enablePaging_load (hlow : 0x100000 + 36 ≤ c.esp.toNat) (hhigh : c.esp.toNat ≤ 0x400000)
    {i w : Nat} (hw : ((bootPushes c).map (· % 2 ^ 32)).reverse[i]? = some w) :
    (enablePaging c s).load (c.esp.toNat - 36 + 4 * i) = some (BitVec.ofNat 32 w) := by
  have hlen : (bootPushes c).length = 9 := rfl
  have hi : i < 9 := by
    have hlt := (List.getElem?_eq_some_iff.mp hw).1
    rwa [List.length_reverse, List.length_map, hlen] at hlt
  have hwalk : (enablePaging c s).pageWalk (c.esp.toNat - 36 + 4 * i) =
      some (c.esp.toNat - 36 + 4 * i) := by
    apply (enablePaging_ok c s).walk
    rw [bootPhys, if_pos (by omega)]
  have hkept : load32 (enablePaging c s).mem (c.esp.toNat - 36 + 4 * i) =
      load32 (bootSave c s.mem) (c.esp.toNat - 36 + 4 * i) := by
    apply load32_congr
    intro y hy hy'
    apply enablePaging_other
    rw [NotTables, bootDirectory, pageTableKernel]
    omega
  have hpushed : load32 (bootSave c s.mem) (c.esp.toNat - 36 + 4 * i) = w := by
    have h := load32_pushAll s.mem (bootPushes c) (p := c.esp.toNat) (by omega)
      (Nat.le_of_lt c.esp.isLt) hw
    rwa [Nat.mod_eq_of_lt c.esp.isLt] at h
  rw [Mmu.load, hwalk, Option.map_some, hkept, hpushed]

/-- **`enable_paging` returns.** Whatever the registers `c₀` are before `popa`, all that has been
    pushed is read back through the tables: the general registers, and behind them the address that
    `call` has left. The stack lies behind `kernel_phys`, within the first 4 MiB. -/
theorem enablePaging_returns (c c₀ : Cpu) (s : Mmu) (hlow : 0x100000 + 36 ≤ c.esp.toNat)
    (hhigh : c.esp.toNat ≤ 0x400000) :
    (enablePaging c s).popaRet c₀ (c.esp.toNat - 36) = some { c₀ with
      edi := c.edi, esi := c.esi, ebp := c.ebp, ebx := c.ebx, edx := c.edx, ecx := c.ecx
      eax := c.eax, eip := c.eip, esp := c.esp } := by
  -- the word that is `i` words above the stack pointer
  have hload : ∀ (i : Nat) (r : BitVec 32),
      ((bootPushes c).map (· % 2 ^ 32)).reverse[i]? = some r.toNat →
      (enablePaging c s).load (c.esp.toNat - 36 + 4 * i) = some r := by
    intro i r hr
    rw [enablePaging_load hlow hhigh hr, BitVec.ofNat_toNat, BitVec.setWidth_eq]
  have hreg : ∀ r : BitVec 32, r.toNat % 2 ^ 32 = r.toNat := fun r => Nat.mod_eq_of_lt r.isLt
  have hedi := hload 0 c.edi (congrArg some (hreg c.edi))
  have hesi := hload 1 c.esi (congrArg some (hreg c.esi))
  have hebp := hload 2 c.ebp (congrArg some (hreg c.ebp))
  have hebx := hload 4 c.ebx (congrArg some (hreg c.ebx))
  have hedx := hload 5 c.edx (congrArg some (hreg c.edx))
  have hecx := hload 6 c.ecx (congrArg some (hreg c.ecx))
  have heax := hload 7 c.eax (congrArg some (hreg c.eax))
  have heip := hload 8 c.eip (congrArg some (hreg c.eip))
  have hesp : BitVec.ofNat 32 (c.esp.toNat - 36 + 36) = c.esp := by
    rw [Nat.sub_add_cancel (by omega), BitVec.ofNat_toNat, BitVec.setWidth_eq]
  simp only [Nat.mul_zero, Nat.add_zero, Nat.reduceMul] at hedi hesi hebp hebx hedx hecx heax heip
  simp only [Mmu.popaRet, hedi, hesi, hebp, hebx, hedx, hecx, heax, heip, hesp, Option.bind_eq_bind,
    Option.bind_some]
  rfl

/-- **The two windows.** Whatever memory and registers hold before `enable_paging`, then in every run
    of writes through the windows, none of them to the tables, each write goes through and the first
    4 MiB are found where they are and from `kernel_voffset` on. Apart from the tables memory is as
    `call` and `pusha` leave it but for these writes; the other entries of the directory are what
    memory held there. The pushes reach the 36 bytes below the stack pointer (`bootSave_other`). -/
theorem boot_mapping (c : Cpu) (s : Mmu) {writes : List (Nat × UInt8)}
    (hwrites : ∀ w ∈ writes, ∃ x, bootPhys w.1 = some x ∧ NotTables x) :
    ∃ t, execAll Mmu.write (enablePaging c s) writes = some t ∧
      (∀ v x, bootPhys v = some x → t.pageWalk v = some x) ∧
      (∀ x, NotTables x → t.mem x = writes.foldl physWrite (bootSave c s.mem) x) ∧
      ∀ i < 1024, i ≠ 0 → i ≠ 768 →
        load32 t.mem (bootDirectory + 4 * i) =
          load32 (bootSave c s.mem) (bootDirectory + 4 * i) := by
  obtain ⟨t, ht, hok, hmem, hsame⟩ := (enablePaging_ok c s).writes hwrites
  have hdir : bootDirectory = 0x9c000 := rfl
  have htable0 : pageTable0 = 0x9d000 := rfl
  have hkernel : pageTableKernel = 0x9e000 := rfl
  refine ⟨t, ht, fun v x hx => hok.walk hx, fun x hx => ?_, fun i hi h0 h768 => ?_⟩
  · rw [hmem]
    exact foldl_physWrite_congr (fun y hy => enablePaging_other c s hy) writes x hx
  · have hentry : load32 t.mem (bootDirectory + 4 * i) =
        load32 (enablePaging c s).mem (bootDirectory + 4 * i) := by
      apply load32_congr
      intro y hlow hlt
      apply hsame
      rw [NotTables]
      omega
    rw [hentry, enablePaging_mem c s _ (by omega)]
    apply load32_congr
    intro y hlow hlt
    rw [mapTable_other (by omega) (by omega), mapTable_other (by omega) (by omega)]

end

/-! ## The directory of the kernel -/

/-- `pte_t` and `pde_t` as words. -/
def Pte.word (p : Pte) : Nat :=
  p.present.toNat + 2 * p.readWrite.toNat + 4 * p.userSupervisor.toNat + 4096 * (p.frame % 2 ^ 20)

@[inherit_doc Pte.word]
def Pde.word (p : Pde) : Nat :=
  p.present.toNat + 2 * p.readWrite.toNat + 4 * p.userSupervisor.toNat +
    4096 * (p.pageTableBase % 2 ^ 20)

/-- Physical memory holds the kernel's half of a directory, and the tables that its entries point
    to. -/
structure Stored (m : Mem) (s : Vm) (dir : Nat) : Prop where
  entries : ∀ i, 768 ≤ i → i < 1024 → load32 m ((s.dirs dir).entriesPhysAddr + 4 * i) =
    ((s.dirs dir).entries i).word
  pages : ∀ i, 768 ≤ i → i < 1024 → ((s.dirs dir).entries i).present = true → ∀ j < 1024,
    load32 m (((s.dirs dir).entries i).pageTableBase * frameSize + 4 * j) =
      (s.paging.pages (((s.dirs dir).entries i).pageTableBase * frameSize + kernelVoffset +
        4 * j)).word

section

variable {s : Vm} {c : Mmu} {dir v : Nat}

/-- The present bit and the frame of a word. -/
theorem word_fields (p r u : Bool) (f : Nat) :
    (p.toNat + 2 * r.toNat + 4 * u.toNat + 4096 * (f % 2 ^ 20)).testBit 0 = p ∧
      (p.toNat + 2 * r.toNat + 4 * u.toNat + 4096 * (f % 2 ^ 20)) &&& 0xfffff000 =
        4096 * (f % 2 ^ 20) := by
  have hp := p.toNat_le
  have hr := r.toNat_le
  have hu := u.toNat_le
  constructor
  · rw [Nat.testBit_zero]
    cases p with
    | false => simp; omega
    | true => simp; omega
  · rw [and_page_mask (by omega)]
    omega

/-- The walk of the processor is the one through the fields. -/
theorem Stored.pageWalk (h : Stored c.mem s dir) (hon : c.cr0.testBit 31 = true)
    (hsmall : c.cr4.testBit 4 = false) (hcr3 : c.cr3 = (s.dirs dir).entriesPhysAddr)
    (haligned : c.cr3 % 4096 = 0) (hlt : c.cr3 < 2 ^ 32) {pde : Pde}
    (hlow : kernelVoffset ≤ v) (hv : v < 2 ^ 32)
    (hpde : (s.dirs dir).entries (pageDirectoryIndex v) = pde)
    (hbase : pde.pageTableBase < 2 ^ 20)
    (hframe : (s.paging.pages (pde.pageTableBase * frameSize + kernelVoffset +
      4 * pageTableIndex v)).frame < 2 ^ 20) : c.pageWalk v = translate s dir v := by
  obtain ⟨hidx, hidx_lt⟩ := kernel_directory_index hlow hv
  have hidx' : pageTableIndex v < 1024 := by
    rw [pageTableIndex, and_1023]
    exact Nat.mod_lt _ (by decide)
  have hcr3' : c.cr3 &&& 0xfffff000 = c.cr3 := by
    rw [and_page_mask hlt]
    omega
  have hword : load32 c.mem ((c.cr3 &&& 0xfffff000) + 4 * pageDirectoryIndex v) = pde.word := by
    rw [hcr3', hcr3, h.entries _ hidx hidx_lt, hpde]
  -- the entry of the directory, field by field
  obtain ⟨hpresent, hmask⟩ :=
    word_fields pde.present pde.readWrite pde.userSupervisor pde.pageTableBase
  change pde.word.testBit 0 = pde.present at hpresent
  change pde.word &&& 0xfffff000 = 4096 * (pde.pageTableBase % 2 ^ 20) at hmask
  rw [Nat.mod_eq_of_lt hbase] at hmask
  rw [Mmu.pageWalk_eq hon hsmall hword rfl, translate]
  simp only [hpde, hpresent]
  by_cases hp : pde.present = true
  · have hpages := h.pages _ hidx hidx_lt (by rw [hpde]; exact hp) _ hidx'
    rw [hpde, frameSize] at hpages
    rw [frameSize] at hframe ⊢
    -- the entry of the table, field by field
    let pte := s.paging.pages (pde.pageTableBase * 4096 + kernelVoffset + 4 * pageTableIndex v)
    obtain ⟨hpresent', hmask'⟩ :=
      word_fields pte.present pte.readWrite pte.userSupervisor pte.frame
    change pte.word.testBit 0 = pte.present at hpresent'
    change pte.word &&& 0xfffff000 = 4096 * (pte.frame % 2 ^ 20) at hmask'
    rw [Nat.mod_eq_of_lt hframe] at hmask'
    rw [hmask, Nat.mul_comm, hpages, hpresent', hmask', Nat.mul_comm]
  · -- without a table both walks fail
    rw [if_neg fun h => hp h.1, if_neg fun h => hp h.1]

/-- The tables of the kernel's half follow each other. -/
theorem entry_addr {base p : Nat} (hmod : base % 4096 = 0) (hle : 0xc0000000 ≤ base) :
    (base + 4096 * (p / 1024) - 0xc0000000) / 4096 * 0x1000 + 0xc0000000 + 4 * (p % 1024) =
      base + 4 * p := by
  omega

/-- The walk through the directory that `paging_finalize` makes. -/
theorem Stored.walk_finalized {base n : Nat} (h : Stored c.mem s s.kernelDirectory)
    (hon : c.cr0.testBit 31 = true) (hsmall : c.cr4.testBit 4 = false)
    (hcr3 : c.cr3 = (s.dirs s.kernelDirectory).entriesPhysAddr) (haligned : c.cr3 % 4096 = 0)
    (hlt : c.cr3 < 2 ^ 32) (hok : Finalized s base n) (hplace : s.placementAddress ≤ kheapStart)
    (hlow : kernelVoffset ≤ v) (hv : v < s.placementAddress) :
    c.pageWalk v = some (v - kernelVoffset) := by
  have hv' : v < 2 ^ 32 := by
    rw [kheapStart] at hplace
    omega
  have hcovers := hok.covers
  have hpage := kernelPage_lt hv'
  obtain ⟨hidx, htab⟩ := kernelPage_index hlow hv'
  obtain ⟨-, hentry⟩ := hok.tables.made (kernelPage v / 1024) (by omega)
  rw [← hidx] at hentry
  have hbase_mod := hok.tables.base_mod
  have hbase_le := hok.tables.base_le
  have hend := hok.tables.placement
  simp only [alignUp, if_true] at hend
  rw [kernelVoffset] at hbase_le
  rw [kheapStart] at hplace
  have htable : (base + 4096 * (kernelPage v / 1024) - kernelVoffset) / 4096 < 2 ^ 20 := by
    rw [kernelVoffset]
    omega
  -- the entry of the page
  have haddr : (base + 4096 * (kernelPage v / 1024) - kernelVoffset) / 4096 * frameSize +
      kernelVoffset + 4 * pageTableIndex v = base + 4 * kernelPage v := by
    rw [htab]
    exact entry_addr hbase_mod hbase_le
  have hin : kernelPage v < n := Nat.div_lt_of_lt_mul (by omega)
  rw [h.pageWalk hon hsmall hcr3 haligned hlt hlow hv' hentry htable, hok.translate_eq hlow hv hv']
  simp only
  rw [haddr, hok.mapped.pages _ hin]
  simp only [mappedPte]
  omega

/-- **The switch to the directory of the kernel.** While `paging_finalize` runs, the first 4 MiB of
    the kernel's half are mapped by the tables of `enable_paging`, whatever is written outside of
    them. Once `cr3` holds the physical address of the kernel's directory, all that has been handed
    out is mapped to where it was before; so are the addresses that `kmalloc` has reported. -/
theorem switch_seamless {cpu : Cpu} {mmu mmu₁ mmu₂ : Mmu} {s s' : Vm} {stop : Nat}
    {writes : List (Nat × UInt8)}
    (hwrites : ∀ w ∈ writes, ∃ x, bootPhys w.1 = some x ∧ NotTables x)
    (hrun : execAll Mmu.write (enablePaging cpu mmu) writes = some mmu₁)
    (hgrants : GrantsOk s) (hheap : s.kheap = 0)
    (hstop : stop = ((pageDirSize, true) :: List.replicate 256 (pageTableSize, true)).foldl bump
      s.placementAddress)
    (hfit : stop ≤ kheapStart) (hmem : stop ≤ kernelVoffset + 4096 * s.paging.pool.nframes)
    (hfin : pagingFinalize s = some s')
    (hregs : mmu₂.cr0 = mmu₁.cr0 ∧ mmu₂.cr4 = mmu₁.cr4 ∧
      mmu₂.cr3 = (s'.dirs s'.kernelDirectory).entriesPhysAddr)
    (hstored : Stored mmu₂.mem s' s'.kernelDirectory) :
    (∀ v, kernelVoffset ≤ v → v < s'.placementAddress →
      mmu₂.pageWalk v = some (v - kernelVoffset) ∧
      (v < kernelVoffset + 0x400000 → mmu₁.pageWalk v = mmu₂.pageWalk v)) ∧
    ∀ g ∈ s'.grants, ∀ p, g.phys = some p → 0 < g.size → mmu₂.pageWalk g.addr = some p := by
  obtain ⟨t, ht, hboot, -, -⟩ := (enablePaging_ok cpu mmu).writes hwrites
  obtain rfl : t = mmu₁ := Option.some.inj (ht.symm.trans hrun)
  obtain ⟨s₁, base, n, hs₁, hok, hplace, -, hkd⟩ :=
    pagingFinalize_spec hgrants hheap hstop hfit hmem
  obtain rfl : s₁ = s' := Option.some.inj (hs₁.symm.trans hfin)
  -- where the directory is
  have hlow := hgrants.low
  have hle : s.placementAddress ≤ stop := by
    rw [hstop]
    exact le_foldl_bump _ _
  have hfirst : alignUp s.placementAddress true + 1 ≤ kheapStart := by
    refine le_trans ?_ hfit
    rw [hstop, List.foldl_cons]
    refine le_trans ?_ (le_foldl_bump _ _)
    simp only [bump, pageDirSize]
    omega
  have hup := le_alignUp s.placementAddress true
  have hmod : alignUp s.placementAddress true % 4096 = 0 := by
    simp only [alignUp, if_true]
    exact Nat.mul_mod_left _ _
  rw [kheapStart] at hfirst hfit
  obtain ⟨-, hphys⟩ := pagingFinalize_dirs hlow (by omega) hheap hfin
  obtain ⟨h0, h4, h3⟩ := hregs
  have hcr3 : mmu₂.cr3 = alignUp s.placementAddress true - kernelVoffset := by
    rw [h3, hphys, hkd]
  have hwalk : ∀ v, kernelVoffset ≤ v → v < s₁.placementAddress →
      mmu₂.pageWalk v = some (v - kernelVoffset) := by
    intro v hv hv'
    apply hstored.walk_finalized (h0 ▸ hboot.on) (h4 ▸ hboot.small) h3 _ _ hok _ hv hv'
    · rw [hcr3]
      rw [kernelVoffset] at hlow ⊢
      omega
    · omega
    · rw [hplace, kheapStart]
      exact hfit
  refine ⟨fun v hv hv' => ⟨hwalk v hv hv', fun hwin => ?_⟩, fun g hg p hp hsize => ?_⟩
  · rw [hwalk v hv hv']
    apply hboot.walk
    rw [bootPhys, if_neg (by rw [kernelVoffset] at hv; omega), if_pos ⟨hv, hwin⟩]
  · obtain ⟨hg₁, hg₂⟩ := hok.tables.grants.range g hg
    rw [hwalk g.addr hg₁ (by omega), hok.tables.grants.phys g hg p hp]

end

/-- Memory with given words at the multiples of 4. -/
def wordMem (word : Nat → Nat) : Mem := fun y => UInt8.ofNat (word (y / 4 * 4) / 256 ^ (y % 4))

/-- A word of such a memory. -/
theorem load32_wordMem {word : Nat → Nat} {a : Nat} (ha : a % 4 = 0) (hlt : word a < 2 ^ 32) :
    load32 (wordMem word) a = word a := by
  have h0 : a / 4 * 4 = a ∧ a % 4 = 0 := by omega
  have h1 : (a + 1) / 4 * 4 = a ∧ (a + 1) % 4 = 1 := by omega
  have h2 : (a + 2) / 4 * 4 = a ∧ (a + 2) % 4 = 2 := by omega
  have h3 : (a + 3) / 4 * 4 = a ∧ (a + 3) % 4 = 3 := by omega
  simp only [load32, wordMem, h0, h1, h2, h3, UInt8.toNat_ofNat']
  omega

/-- A stack that ends at `0x10c000`. -/
def smallCpu : Cpu :=
  { eax := 0x2badb002, ebx := 0x9500, ecx := 0, edx := 0x10, esi := 0, edi := 0, ebp := 0
    ds := 0x10, es := 0x10, fs := 0x10, gs := 0x10, eip := 0x100040, cs := 8, eflags := 2
    esp := 0x10c000, ss := 0x10 }

/-- The screen is written to through the upper window; the address that `call` has pushed is found
    on the stack. -/
theorem boot_mapping_screen : ∃ t,
    execAll Mmu.write (enablePaging smallCpu ⟨fun _ => 0, 0, 0, 0⟩) [(0xc00b8000, 65)] = some t ∧
      t.pageWalk 0xb8000 = some 0xb8000 ∧ t.mem 0xb8000 = 65 ∧ t.mem 0x10bffc = 0x40 := by
  have hwrites : ∀ w ∈ [((0xc00b8000 : Nat), (65 : UInt8))],
      ∃ x, bootPhys w.1 = some x ∧ NotTables x := by
    intro w hw
    rw [List.mem_singleton] at hw
    rw [hw]
    exact ⟨0xb8000, by decide, by unfold NotTables; decide⟩
  obtain ⟨t, ht, hwalk, hmem, -⟩ := boot_mapping smallCpu ⟨fun _ => 0, 0, 0, 0⟩ hwrites
  refine ⟨t, ht, hwalk _ _ (by decide), ?_, ?_⟩
  · rw [hmem _ (by unfold NotTables; decide)]
    rfl
  · rw [hmem _ (by unfold NotTables; decide)]
    decide

/-- An entry has 32 bits. -/
theorem word_lt (p r u : Bool) (f : Nat) :
    p.toNat + 2 * r.toNat + 4 * u.toNat + 4096 * (f % 2 ^ 20) < 2 ^ 32 := by
  have hp := p.toNat_le
  have hr := r.toNat_le
  have hu := u.toNat_le
  omega

/-- On a machine of 32 MiB the screen stays where it is. -/
theorem switch_seamless_small : ∃ s, ∃ mmu : Mmu, pagingFinalize smallVm = some s ∧
    mmu.cr3 = (s.dirs s.kernelDirectory).entriesPhysAddr ∧
    mmu.pageWalk 0xc00b8000 = some 0xb8000 ∧
    (enablePaging smallCpu ⟨fun _ => 0, 0, 0, 0⟩).pageWalk 0xc00b8000 = mmu.pageWalk 0xc00b8000 := by
  obtain ⟨s, base, n, hfin, hok, hplace, -, hkd⟩ :=
    pagingFinalize_spec smallVm_grants rfl smallVm_stop (by decide) (by decide)
  have hdir : s.kernelDirectory = 0xc0200000 := hkd.trans (by decide)
  have hbase : base = 0xc0203000 := by
    have hend := hok.tables.placement
    rw [hplace, show alignUp 0xc0303000 true = 0xc0303000 by decide] at hend
    omega
  obtain ⟨-, hphys⟩ := pagingFinalize_dirs smallVm_grants.low (by decide) rfl hfin
  have hphys' : (s.dirs s.kernelDirectory).entriesPhysAddr = 0x200000 := by
    rw [hphys, hdir]
    decide
  -- memory with the directory and, behind it, the tables
  let word (a : Nat) : Nat :=
    if 0x200c00 ≤ a ∧ a < 0x201000 then
      ((s.dirs s.kernelDirectory).entries ((a - 0x200000) / 4)).word
    else (s.paging.pages (a + kernelVoffset)).word
  let mmu : Mmu := { enablePaging smallCpu ⟨fun _ => 0, 0, 0, 0⟩ with
    mem := wordMem word
    cr3 := (s.dirs s.kernelDirectory).entriesPhysAddr }
  have hword : ∀ a, a % 4 = 0 → load32 (wordMem word) a = word a := by
    intro a ha
    apply load32_wordMem ha
    simp only [word]
    split
    · exact word_lt _ _ _ _
    · exact word_lt _ _ _ _
  have hstored : Stored mmu.mem s s.kernelDirectory := by
    constructor
    · intro i hlow hlt
      rw [hphys', hword _ (by omega)]
      simp only [word]
      rw [if_pos (by omega), Nat.add_sub_cancel_left, Nat.mul_div_cancel_left i (by decide)]
    · intro i hlow hlt _ j hj
      obtain ⟨-, hentry⟩ := hok.tables.made (i - 768) (by omega)
      rw [show 768 + (i - 768) = i by omega] at hentry
      have hfirst : (base + 4096 * (i - 768) - kernelVoffset) / 4096 = 0x203 + (i - 768) := by
        rw [hbase, kernelVoffset]
        omega
      rw [hentry, hfirst, frameSize, hword _ (by omega)]
      simp only [word]
      rw [if_neg (by omega), Nat.add_right_comm]
  have hwrites : ∀ w ∈ ([] : List (Nat × UInt8)), ∃ x, bootPhys w.1 = some x ∧ NotTables x := by
    simp
  have hrun : execAll Mmu.write (enablePaging smallCpu ⟨fun _ => 0, 0, 0, 0⟩) [] =
      some (enablePaging smallCpu ⟨fun _ => 0, 0, 0, 0⟩) := rfl
  have hregs : mmu.cr0 = (enablePaging smallCpu ⟨fun _ => 0, 0, 0, 0⟩).cr0 ∧
      mmu.cr4 = (enablePaging smallCpu ⟨fun _ => 0, 0, 0, 0⟩).cr4 ∧
      mmu.cr3 = (s.dirs s.kernelDirectory).entriesPhysAddr := ⟨rfl, rfl, rfl⟩
  obtain ⟨hwalk, -⟩ := switch_seamless hwrites hrun smallVm_grants rfl smallVm_stop (by decide)
    (by decide) hfin hregs hstored
  obtain ⟨hscreen, hsame⟩ := hwalk 0xc00b8000 (by decide) (by rw [hplace]; decide)
  exact ⟨s, mmu, hfin, rfl, hscreen, hsame (by decide)⟩

end Toutatis
