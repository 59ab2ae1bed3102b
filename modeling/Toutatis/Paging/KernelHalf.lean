import Toutatis.Paging.BootMemory

/-!
# Directories that share tables

`paging_finalize` makes all 256 page tables of the kernel's half, so that every clone of a directory
can share them. The directories are records here, which no call on an entry reaches: this is right
as long as the frames that are marked and freed have their bits in the bitmap, and `Paging.SharedHalf`
has the same runs over the memory that bitmap and directories share.

## Key results

- `pagingFinalize_covered`: no table of the kernel's half is missing
- `clonePageDirectory_spec`: a clone links these tables
- `HalfOk.exec`: what every call keeps of the kernel's half
-/

namespace Toutatis

open ByteMem Run

/-! ## All tables are made -/

/-- The first `k` tables of the kernel's half exist, and an entry that has a table is present. -/
structure Covered (s : Vm) (k : Nat) : Prop where
  dir : s.kernelDirectory ≠ 0
  made : ∀ i, 768 ≤ i → i < 768 + k → (s.dirs s.kernelDirectory).tables i ≠ 0
  present : ∀ i, (s.dirs s.kernelDirectory).tables i ≠ 0 →
    ((s.dirs s.kernelDirectory).entries i).present = true

section

variable {s s' : Vm} {k p virt a : Nat}

/-- What `kmalloc` changes before there is a heap. -/
theorem kmallocInt_fields {size alignment phys : Nat} {wantPhys : Bool}
    (h : kmallocInt s size alignment wantPhys a = some (p, phys, s')) :
    s'.dirs = s.dirs ∧ s'.kernelDirectory = s.kernelDirectory ∧ s'.kheap = s.kheap := by
  unfold kmallocInt at h
  split at h
  · split at h
    · obtain ⟨q, -, hq⟩ := Option.map_eq_some_iff.mp h
      cases hq
      exact ⟨rfl, rfl, rfl⟩
    · cases h
      exact ⟨rfl, rfl, rfl⟩
  · simp only [Option.some.injEq, Prod.mk.injEq] at h
    obtain ⟨-, -, rfl⟩ := h
    exact ⟨rfl, rfl, rfl⟩

/-- `get_page` makes the table of the address and keeps all others. -/
theorem Covered.getPage (h : Covered s k) {make : Bool}
    (hcall : getPage s virt make s.kernelDirectory a = some (p, s')) :
    Covered s' k ∧
      (make = true → (s'.dirs s'.kernelDirectory).tables (pageDirectoryIndex virt) ≠ 0) := by
  unfold Toutatis.getPage at hcall
  rw [if_neg h.dir] at hcall
  simp only at hcall
  split at hcall
  case isTrue htable =>
    cases hcall
    exact ⟨h, fun _ => htable⟩
  case isFalse htable =>
    cases make with
    | false =>
      cases hcall
      exact ⟨h, fun hmake => absurd hmake (by decide)⟩
    | true =>
      rw [if_pos rfl, Option.bind_eq_some_iff] at hcall
      obtain ⟨⟨table, phys, s₁⟩, hs₁, hcall⟩ := hcall
      obtain ⟨hdirs, hkd, -⟩ := kmallocInt_fields hs₁
      simp only at hcall
      split at hcall
      · exact absurd hcall (by simp)
      case isFalse hnew =>
        cases hcall
        -- the directory of the kernel is the one that is changed
        refine ⟨⟨?_, fun i hlow hlt => ?_, fun i hi => ?_⟩, fun _ => ?_⟩
        · show s₁.kernelDirectory ≠ 0
          rw [hkd]
          exact h.dir
        · simp only [hkd, hdirs, Function.update_self]
          by_cases hidx : i = pageDirectoryIndex virt
          · rw [hidx, Function.update_self]
            exact hnew
          · rw [Function.update_of_ne hidx]
            exact h.made i hlow hlt
        · simp only [hkd, hdirs, Function.update_self] at hi ⊢
          by_cases hidx : i = pageDirectoryIndex virt
          · rw [hidx, Function.update_self]
          · rw [Function.update_of_ne hidx] at hi ⊢
            exact h.present i hi
        · simp only [hkd, Function.update_self]
          exact hnew

/-- The loop over all pages of the kernel's half. -/
theorem Covered.tableLoop {fuel j : Nat} (h : Covered s ((j + 1023) / 1024)) (hj : j < 2 ^ 18)
    (hloop : tableLoop fuel (kernelVoffset + 4096 * j) s = some s') : Covered s' 256 := by
  induction fuel generalizing s j with
  | zero => exact absurd hloop (by simp [Toutatis.tableLoop])
  | succ fuel ih =>
    unfold Toutatis.tableLoop at hloop
    by_cases hlast : kernelVoffset + 4096 * j < 0xfffff000
    · rw [if_pos hlast, Option.bind_eq_some_iff] at hloop
      obtain ⟨⟨q, s₁⟩, hs₁, hloop⟩ := hloop
      obtain ⟨h₁, hmade⟩ := h.getPage hs₁
      have hnext : add32 (kernelVoffset + 4096 * j) frameSize = kernelVoffset + 4096 * (j + 1) := by
        rw [kernelVoffset] at hlast ⊢
        rw [frameSize, add32_of_lt (by omega)]
        omega
      rw [hnext] at hloop
      rw [kernelVoffset] at hlast
      apply ih (j := j + 1) ⟨h₁.dir, fun i hlow hlt => ?_, h₁.present⟩ (by omega) hloop
      -- the table of page `j` is the only one that may be new
      by_cases hidx : i = 768 + j / 1024
      · rw [hidx, ← (kernel_index hj).1]
        exact hmade rfl
      · apply h₁.made i hlow
        omega
    · rw [if_neg hlast] at hloop
      cases hloop
      rw [kernelVoffset] at hlast
      rwa [show (j + 1023) / 1024 = 256 by omega] at h

theorem Covered.mapLoop {fuel phys : Nat} (h : Covered s k)
    (hloop : mapLoop fuel virt phys s = some s') : Covered s' k := by
  induction fuel generalizing s virt phys with
  | zero => exact absurd hloop (by simp [Toutatis.mapLoop])
  | succ fuel ih =>
    unfold Toutatis.mapLoop at hloop
    split at hloop
    · rw [Option.bind_eq_some_iff] at hloop
      obtain ⟨⟨q, s₁⟩, hs₁, hloop⟩ := hloop
      have h₁ := (h.getPage hs₁).1
      apply ih _ hloop
      exact ⟨h₁.dir, h₁.made, h₁.present⟩
    · cases hloop
      exact h

theorem Covered.heapLoop {fuel : Nat} (h : Covered s k)
    (hloop : heapLoop fuel virt s = some s') : Covered s' k := by
  induction fuel generalizing s virt with
  | zero => exact absurd hloop (by simp [Toutatis.heapLoop])
  | succ fuel ih =>
    unfold Toutatis.heapLoop at hloop
    split at hloop
    · rw [Option.bind_eq_some_iff] at hloop
      obtain ⟨⟨q, s₁⟩, hs₁, hloop⟩ := hloop
      have h₁ := (h.getPage hs₁).1
      apply ih _ hloop
      exact ⟨h₁.dir, h₁.made, h₁.present⟩
    · cases hloop
      exact h

/-- **`paging_finalize`** makes every table of the kernel's half. -/
theorem pagingFinalize_covered (hcall : pagingFinalize s = some s') :
    Covered s' 256 ∧ s'.kheap ≠ 0 := by
  unfold pagingFinalize at hcall
  simp only [Option.bind_eq_some_iff] at hcall
  obtain ⟨⟨dir, phys, s₁⟩, -, hcall⟩ := hcall
  simp only at hcall
  split at hcall
  · exact absurd hcall (by simp)
  case isFalse hdir =>
    obtain ⟨s₂, hs₂, hcall⟩ := Option.bind_eq_some_iff.mp hcall
    obtain ⟨s₃, hs₃, hcall⟩ := Option.bind_eq_some_iff.mp hcall
    obtain ⟨s₄, hs₄, hcall⟩ := Option.map_eq_some_iff.mp hcall
    -- the new directory is all zero
    have h₂ : Covered s₂ 256 := by
      refine Covered.tableLoop (j := 0) ⟨hdir, fun i hlow hlt => ?_, fun i hi => ?_⟩ (by omega) hs₂
      · omega
      · simp only [Function.update_self, zeroDir] at hi
        exact absurd rfl hi
    have h₃ := h₂.mapLoop hs₃
    have h₃' : Covered (switchPageDirectory s₃ dir) 256 := by
      unfold switchPageDirectory
      rw [if_neg hdir]
      exact ⟨h₃.dir, h₃.made, h₃.present⟩
    have h₄ := h₃'.heapLoop hs₄
    cases hcall
    refine ⟨⟨h₄.dir, h₄.made, h₄.present⟩, ?_⟩
    show kheapStart ≠ 0
    decide

end

/-! ## Clones -/

/-- All tables of the directory, in the lower half too, are those of the kernel's directory. -/
def OnlyShared (s : Vm) (dir : Nat) : Prop :=
  ∀ i < 1024, (s.dirs dir).tables i = 0 ∨
    (s.dirs dir).tables i = (s.dirs s.kernelDirectory).tables i

/-- `d` has the table and the entry of the directory `dir` at `i`. -/
def LinkedAt (s : Vm) (dir : Nat) (d : PageDir) (i : Nat) : Prop :=
  d.tables i = (s.dirs dir).tables i ∧ d.entries i = (s.dirs dir).entries i

section

variable {s : Vm} {dir clone left : Nat}

/-- One pass of the loop links a table of the kernel's directory. -/
theorem cloneStep_spec {i : Nat} (hshared : (s.dirs dir).tables i = 0 ∨
      (s.dirs dir).tables i = (s.dirs s.kernelDirectory).tables i) (clone a : Nat) :
    ∃ d, cloneStep dir clone a i s = some { s with dirs := Function.update s.dirs clone d } ∧
      ((s.dirs dir).tables i ≠ 0 → LinkedAt s dir d i) ∧
      ∀ x, x ≠ i → d.tables x = (s.dirs clone).tables x ∧
        d.entries x = (s.dirs clone).entries x := by
  unfold cloneStep
  by_cases htable : (s.dirs dir).tables i = 0
  · refine ⟨s.dirs clone, ?_, fun hne => absurd htable hne, fun x _ => ⟨rfl, rfl⟩⟩
    simp only [if_pos htable, Function.update_eq_self]
  · have hkernel := (hshared.resolve_left htable).symm
    refine ⟨{ s.dirs clone with
      tables := Function.update (s.dirs clone).tables i ((s.dirs dir).tables i)
      entries := Function.update (s.dirs clone).entries i ((s.dirs dir).entries i) }, ?_,
      fun _ => ?_, ?_⟩
    · simp only [if_neg htable, if_pos hkernel]
    · unfold LinkedAt
      simp only [Function.update_self, and_self]
    · intro x hx
      simp only [Function.update_of_ne hx, and_self]

/-- The loop over all tables. -/
theorem cloneLoop_spec (hdir : dir ≠ clone) (hkd : s.kernelDirectory ≠ clone)
    (hshared : OnlyShared s dir) (hleft : left ≤ 1024) (heap : Nat → Nat) :
    ∃ d, cloneLoop dir clone heap left s =
        some { s with dirs := Function.update s.dirs clone d } ∧
      (∀ i, 1024 - left ≤ i → i < 1024 → (s.dirs dir).tables i ≠ 0 → LinkedAt s dir d i) ∧
      ∀ i < 1024 - left, d.tables i = (s.dirs clone).tables i ∧
        d.entries i = (s.dirs clone).entries i := by
  induction left generalizing s with
  | zero =>
    refine ⟨s.dirs clone, ?_, fun i hlow hlt => by omega, fun i _ => ⟨rfl, rfl⟩⟩
    simp only [cloneLoop, Function.update_eq_self]
  | succ left ih =>
    obtain ⟨d₁, hstep, hlink₁, hrest₁⟩ := cloneStep_spec (hshared (1023 - left) (by omega)) clone
      (heap (1023 - left))
    -- neither the directory that is cloned nor the kernel's is changed
    have hsame : ∀ x, x ≠ clone → Function.update s.dirs clone d₁ x = s.dirs x :=
      fun x hx => Function.update_of_ne hx _ _
    obtain ⟨d, hloop, hlink, hrest⟩ :=
      ih (s := { s with dirs := Function.update s.dirs clone d₁ }) hkd
        (by simpa only [OnlyShared, hsame dir hdir, hsame _ hkd] using hshared) (by omega)
    refine ⟨d, ?_, fun i hlow hlt htable => ?_, fun i hi => ?_⟩
    · unfold cloneLoop
      rw [hstep, Option.bind_some, hloop]
      simp only [Function.update_idem]
    · by_cases hi : i = 1023 - left
      · obtain ⟨ht, he⟩ := hrest i (by omega)
        simp only [Function.update_self] at ht he
        subst hi
        have hfirst := hlink₁ htable
        exact ⟨ht.trans hfirst.1, he.trans hfirst.2⟩
      · have hlater := hlink i (by omega) hlt
        simp only [LinkedAt, hsame dir hdir] at hlater
        exact hlater htable
    · obtain ⟨ht, he⟩ := hrest i (by omega)
      simp only [Function.update_self] at ht he
      obtain ⟨ht₁, he₁⟩ := hrest₁ i (by omega)
      exact ⟨ht.trans ht₁, he.trans he₁⟩

/-- **`clone_page_directory`** of a directory that has no tables of its own: every table is linked,
    and no other directory changes. -/
theorem clonePageDirectory_spec (hkheap : s.kheap ≠ 0) {phys : Nat}
    (hphys : physOf s clone = some phys) (hclone : clone ≠ 0) (hdir : dir ≠ clone)
    (hkd : s.kernelDirectory ≠ clone) (hshared : OnlyShared s dir) (heap : Nat → Nat) :
    ∃ d, clonePageDirectory s dir clone heap =
        some (clone, { s with dirs := Function.update s.dirs clone d }) ∧
      ∀ i < 1024, (s.dirs dir).tables i ≠ 0 → LinkedAt s dir d i := by
  have hmalloc : kmallocInt s pageDirSize frameSize true clone = some (clone, phys, s) := by
    unfold kmallocInt
    rw [if_pos hkheap, if_pos rfl, hphys]
    rfl
  -- the new directory is written, the old one and kernel_directory are not
  have hsame : ∀ x, x ≠ clone → Function.update s.dirs clone
      { zeroDir with entriesPhysAddr := phys } x = s.dirs x :=
    fun x hx => Function.update_of_ne hx _ _
  obtain ⟨d, hloop, hlink, -⟩ := cloneLoop_spec
    (s := { s with dirs := Function.update s.dirs clone { zeroDir with entriesPhysAddr := phys } })
    hdir hkd (by simpa only [OnlyShared, hsame dir hdir, hsame _ hkd] using hshared) (le_refl 1024)
    heap
  refine ⟨d, ?_, fun i hi htable => ?_⟩
  · unfold clonePageDirectory
    rw [hmalloc, Option.bind_some]
    simp only
    rw [if_neg hclone, hloop, Option.map_some]
    simp only [Function.update_idem]
  · have hi' := hlink i (by omega) hi
    simp only [LinkedAt, hsame dir hdir] at hi'
    exact hi' htable

end

/-! ## Runs -/

/-- The state of a run after `paging_finalize`, with the directories that exist and the entries that
    `get_page` has returned. -/
structure Spaces where
  vm : Vm
  existing : List Nat
  got : List Nat

/-- The call of `clone_page_directory`, of `get_page`, or one on an entry. What the heap returns is an
    argument; when it grows it makes calls of the other kinds first. -/
inductive SpaceCall where
  | clone (dir heapAddr : Nat) (heap : Nat → Nat)
  | page (virt : Nat) (make : Bool) (dir heapAddr : Nat)
  | entry (c : EntryCall)

/-- One call. -/
def SpaceCall.exec (s : Spaces) : SpaceCall → Option Spaces
  | .clone dir heapAddr heap =>
    (clonePageDirectory s.vm dir heapAddr heap).map fun r =>
      { s with vm := r.2, existing := r.1 :: s.existing }
  | .page virt make dir heapAddr =>
    (getPage s.vm virt make dir heapAddr).map fun r =>
      { s with vm := r.2, got := r.1 :: s.got }
  | .entry c => (c.exec s.vm.paging).map fun paging => { s with vm := { s.vm with paging := paging } }

/-- What the heap returns for a directory: a part of the heap that no directory and no table of the
    kernel's half uses. -/
structure FreshDir (s : Spaces) (a : Nat) : Prop where
  low : kheapStart ≤ a
  high : a + pageDirSize ≤ 2 ^ 32
  dirs : ∀ d ∈ s.existing, a + pageDirSize ≤ d ∨ d + pageDirSize ≤ a
  tables : ∀ i, 768 ≤ i → i < 1024 →
    a + pageDirSize ≤ (s.vm.dirs s.vm.kernelDirectory).tables i ∨
      (s.vm.dirs s.vm.kernelDirectory).tables i + pageTableSize ≤ a

/-- The calls of a run: clones of directories that have no tables of their own in the lower half,
    pages of the kernel's half, and entries that `get_page` has returned. -/
def SpaceCall.Ok (s : Spaces) : SpaceCall → Prop
  | .clone dir heapAddr _ => dir ∈ s.existing ∧ FreshDir s heapAddr ∧
      ∀ i < 768, (s.vm.dirs dir).tables i = 0 ∨
        (s.vm.dirs dir).tables i = (s.vm.dirs s.vm.kernelDirectory).tables i
  | .page virt _ dir _ => dir ∈ s.existing ∧ kernelVoffset ≤ virt ∧ virt < 2 ^ 32
  | .entry c => c.page ∈ s.got

/-- The state in which `paging_finalize` leaves the directories. -/
def Spaces.start (vm : Vm) : Spaces := ⟨vm, [vm.kernelDirectory], []⟩

/-- Every directory has the kernel's half that `paging_finalize` made. -/
structure HalfOk (vm : Vm) (s : Spaces) : Prop where
  covered : Covered vm 256
  kernel : s.vm.kernelDirectory = vm.kernelDirectory
  kheap : s.vm.kheap ≠ 0
  kernel_mem : vm.kernelDirectory ∈ s.existing
  dirs : ∀ d ∈ s.existing, d ≠ 0
  shared : ∀ d ∈ s.existing, ∀ i, 768 ≤ i → i < 1024 →
    LinkedAt vm vm.kernelDirectory (s.vm.dirs d) i

/-- The directory index of an address of the kernel's half. -/
theorem kernel_directory_index {v : Nat} (hlow : kernelVoffset ≤ v) (hv : v < 2 ^ 32) :
    768 ≤ pageDirectoryIndex v ∧ pageDirectoryIndex v < 1024 := by
  rw [pageDirectoryIndex, and_1023, Nat.shiftRight_eq_div_pow]
  rw [kernelVoffset] at hlow
  omega

section

variable {vm : Vm} {s : Spaces} {dir virt a : Nat}

/-- `get_page` in the kernel's half changes nothing. -/
theorem HalfOk.getPage_eq (h : HalfOk vm s) (hdir : dir ∈ s.existing)
    (hlow : kernelVoffset ≤ virt) (hvirt : virt < 2 ^ 32) (make : Bool) :
    ∃ p, getPage s.vm virt make dir a = some (p, s.vm) := by
  obtain ⟨hidx, hlt⟩ := kernel_directory_index hlow hvirt
  have htable : (s.vm.dirs dir).tables (pageDirectoryIndex virt) ≠ 0 := by
    rw [(h.shared dir hdir _ hidx hlt).1]
    exact h.covered.made _ hidx (by omega)
  unfold getPage
  rw [if_neg (h.dirs dir hdir)]
  simp only [if_pos htable]
  exact ⟨_, rfl⟩

/-- A clone has the same kernel's half. -/
theorem HalfOk.clone (h : HalfOk vm s) (hdir : dir ∈ s.existing) (hfresh : FreshDir s a)
    (hlower : ∀ i < 768, (s.vm.dirs dir).tables i = 0 ∨
      (s.vm.dirs dir).tables i = (s.vm.dirs s.vm.kernelDirectory).tables i) (heap : Nat → Nat) :
    ∃ vm', SpaceCall.exec s (.clone dir a heap) = some ⟨vm', a :: s.existing, s.got⟩ ∧
      HalfOk vm ⟨vm', a :: s.existing, s.got⟩ := by
  have hmem : s.vm.kernelDirectory ∈ s.existing := by
    rw [h.kernel]
    exact h.kernel_mem
  -- the new directory is none of those that exist
  have hne : ∀ d ∈ s.existing, d ≠ a := by
    intro d hd heq
    have := hfresh.dirs d hd
    rw [heq, pageDirSize] at this
    omega
  have hshared : OnlyShared s.vm dir := by
    intro i hi
    by_cases hhalf : i < 768
    · exact hlower i hhalf
    · right
      rw [(h.shared dir hdir i (by omega) hi).1, (h.shared _ hmem i (by omega) hi).1]
  have hlow := hfresh.low
  have hhigh := hfresh.high
  rw [pageDirSize] at hhigh
  have hphys : ∃ phys, physOf s.vm a = some phys := by
    have hvoffset : kernelVoffset ≤ a := le_trans (by decide) hlow
    obtain ⟨hidx, hlt⟩ := kernel_directory_index hvoffset (by omega)
    have htable : (s.vm.dirs s.vm.kernelDirectory).tables (pageDirectoryIndex a) ≠ 0 := by
      rw [(h.shared _ hmem _ hidx hlt).1]
      exact h.covered.made _ hidx (by omega)
    unfold physOf
    simp only [htable, h.dirs _ hmem, or_self, if_false]
    exact ⟨_, rfl⟩
  obtain ⟨phys, hphys⟩ := hphys
  have ha : a ≠ 0 := by
    rw [kheapStart] at hlow
    omega
  obtain ⟨d, hcall, hlink⟩ := clonePageDirectory_spec h.kheap hphys ha (hne dir hdir)
    (hne _ hmem) hshared heap
  refine ⟨{ s.vm with dirs := Function.update s.vm.dirs a d }, ?_, h.covered, h.kernel, h.kheap,
    List.mem_cons_of_mem _ h.kernel_mem, ?_, ?_⟩
  · unfold SpaceCall.exec
    simp only [hcall, Option.map_some]
  · intro x hx
    rcases List.mem_cons.mp hx with rfl | hx
    · exact ha
    · exact h.dirs x hx
  · intro x hx i hi hlt
    rcases List.mem_cons.mp hx with hxa | hx
    · obtain ⟨htable, hentry⟩ := h.shared dir hdir i hi hlt
      have hmade : (s.vm.dirs dir).tables i ≠ 0 := by
        rw [htable]
        exact h.covered.made i hi (by omega)
      obtain ⟨hd, he⟩ := hlink i hlt hmade
      rw [hxa]
      simp only [LinkedAt, Function.update_self]
      exact ⟨hd.trans htable, he.trans hentry⟩
    · simp only [LinkedAt, Function.update_of_ne (hne x hx)]
      exact h.shared x hx i hi hlt

/-- Every call returns and keeps the kernel's half. -/
theorem HalfOk.exec {c : SpaceCall} (h : HalfOk vm s) (hc : c.Ok s) :
    ∃ s', SpaceCall.exec s c = some s' ∧ HalfOk vm s' := by
  cases c with
  | clone dir a heap =>
    obtain ⟨hdir, hfresh, hlower⟩ := hc
    obtain ⟨vm', hcall, h'⟩ := h.clone hdir hfresh hlower heap
    exact ⟨_, hcall, h'⟩
  | page virt make dir a =>
    obtain ⟨hdir, hlow, hvirt⟩ := hc
    obtain ⟨p, hcall⟩ := h.getPage_eq hdir hlow hvirt make (a := a)
    refine ⟨{ s with got := p :: s.got }, ?_, h.covered, h.kernel, h.kheap, h.kernel_mem, h.dirs,
      h.shared⟩
    unfold SpaceCall.exec
    simp only [hcall, Option.map_some]
  | entry c =>
    -- an entry lies in a table, not in a directory
    have hcall : ∃ paging, c.exec s.vm.paging = some paging := by
      cases c <;> exact ⟨_, rfl⟩
    obtain ⟨paging, hcall⟩ := hcall
    refine ⟨{ s with vm := { s.vm with paging := paging } }, ?_, h.covered, h.kernel, h.kheap,
      h.kernel_mem, h.dirs, h.shared⟩
    unfold SpaceCall.exec
    simp only [hcall, Option.map_some]

/-- Only the directory of the kernel exists in the beginning. -/
theorem halfOk_start (hcovered : Covered vm 256) (hkheap : vm.kheap ≠ 0) :
    HalfOk vm (Spaces.start vm) := by
  refine ⟨hcovered, rfl, hkheap, List.mem_singleton.mpr rfl, fun d hd => ?_, fun d hd i _ _ => ?_⟩
  · rw [List.mem_singleton.mp hd]
    exact hcovered.dir
  · rw [List.mem_singleton.mp hd]
    exact ⟨rfl, rfl⟩

end

end Toutatis
