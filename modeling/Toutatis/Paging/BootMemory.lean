import Toutatis.Paging.Directory

/-!
# Memory at boot

Before there is a heap, `kmalloc` hands out memory from `placement_address` on.
`paging_finalize` takes its page tables from there and then maps what has been handed out,
the tables included. The 256 tables of the kernel's half lie one behind the other, so the
entry of the page `j` of that half is the word `j` of them.

## Key results

- `kmallocInt_spec`: one call of `kmalloc`
- `getPage_made` / `getPage_make`: `get_page` on the kernel's half
- `boot_memory_mapped`: the ranges are disjoint, mapped, and their frames stay in use
-/

namespace Toutatis

open ByteMem Run

/-! ## Calls of `kmalloc` -/

/-- A call made before `paging_finalize`: `kmalloc`, `kmalloc_a`, `kmalloc_p` or
    `kmalloc_ap`, or `paging_mark_reserved`. -/
inductive BootCall where
  | kmalloc (size : Nat) (aligned wantPhys : Bool)
  | markReserved (address : Nat)

/-- One call. -/
def BootCall.exec (s : Vm) : BootCall → Option Vm
  | .kmalloc size aligned wantPhys =>
    (kmallocInt s size (if aligned then frameSize else 0) wantPhys 0).map fun r => r.2.2
  | .markReserved address =>
    some { s with paging := { s.paging with pool := pagingMarkReserved s.paging.pool address } }

/-- The start up to the end of `paging_finalize`. -/
def bootMemory (s : Vm) (pre : List BootCall) (memSize : Nat) (rest : Nat → BitVec 32)
    (mid : List BootCall) : Option Vm :=
  (execAll BootCall.exec s pre).bind fun s =>
    (initPaging s memSize rest).bind fun s =>
      (execAll BootCall.exec s mid).bind pagingFinalize

/-- Where a range begins when memory is handed out from `p` on. -/
def alignUp (p : Nat) (aligned : Bool) : Nat :=
  if aligned then (p + 4095) / 4096 * 4096 else p

/-- `placement_address` behind a range, if it does not wrap around. -/
def bump (p : Nat) (r : Nat × Bool) : Nat := alignUp p r.2 + r.1

/-- Size and alignment of what a call asks for. -/
def BootCall.requests : BootCall → List (Nat × Bool)
  | .kmalloc size aligned _ => [(size, aligned)]
  | .markReserved _ => []

/-- All that is asked for: by the calls, by `paging_init` for the bitmap, and by
    `paging_finalize` for the directory and the 256 tables. -/
def bootRequests (pre : List BootCall) (memSize : Nat) (mid : List BootCall) :
    List (Nat × Bool) :=
  pre.flatMap BootCall.requests ++ (memSize / frameSize / 8, true) ::
    mid.flatMap BootCall.requests ++ (pageDirSize, true) ::
      List.replicate 256 (pageTableSize, true)

/-- `placement_address` in the end, if it does not wrap around. -/
def bootEnd (p : Nat) (pre : List BootCall) (memSize : Nat) (mid : List BootCall) : Nat :=
  (bootRequests pre memSize mid).foldl bump p

/-- The ranges handed out, the newest first: one above the other, aligned, and with the
    physical addresses that were reported. -/
structure GrantsOk (s : Vm) : Prop where
  low : kernelVoffset ≤ s.placementAddress
  apart : s.grants.Pairwise fun g h => h.addr + h.size ≤ g.addr
  range : ∀ g ∈ s.grants, kernelVoffset ≤ g.addr ∧ g.addr + g.size ≤ s.placementAddress
  aligned : ∀ g ∈ s.grants, g.alignment ≠ 0 → g.addr % g.alignment = 0
  phys : ∀ g ∈ s.grants, ∀ p, g.phys = some p → p = g.addr - kernelVoffset

section

variable {s : Vm}

/-- Only the placement address and the grants themselves matter. -/
theorem GrantsOk.congr {s' : Vm} (h : GrantsOk s)
    (hp : s'.placementAddress = s.placementAddress) (hg : s'.grants = s.grants) : GrantsOk s' := by
  constructor
  · rw [hp]
    exact h.low
  · rw [hg]
    exact h.apart
  · rw [hg, hp]
    exact h.range
  · rw [hg]
    exact h.aligned
  · rw [hg]
    exact h.phys

theorem le_alignUp (p : Nat) (aligned : Bool) : p ≤ alignUp p aligned := by
  rw [alignUp]
  split <;> omega

theorem le_bump (p : Nat) (r : Nat × Bool) : p ≤ bump p r :=
  (le_alignUp p r.2).trans (Nat.le_add_right _ _)

theorem le_foldl_bump (p : Nat) (rs : List (Nat × Bool)) : p ≤ rs.foldl bump p := by
  induction rs generalizing p with
  | nil => exact le_refl p
  | cons r rs ih => exact (le_bump p r).trans (ih _)

/-- **One call of `kmalloc`** before there is a heap, when the address does not wrap. -/
theorem kmallocInt_spec (h : GrantsOk s) (h0 : s.kheap = 0) (size : Nat) (aligned wantPhys : Bool)
    (hfit : bump s.placementAddress (size, aligned) ≤ kheapStart) :
    ∃ s', kmallocInt s size (if aligned then frameSize else 0) wantPhys 0 =
        some (alignUp s.placementAddress aligned,
          alignUp s.placementAddress aligned - kernelVoffset, s') ∧
      s' = { s with placementAddress := s'.placementAddress, grants := s'.grants } ∧
      s'.placementAddress = bump s.placementAddress (size, aligned) ∧ GrantsOk s' := by
  have hlow := h.low
  have hup := le_alignUp s.placementAddress aligned
  simp only [bump, kheapStart, kernelVoffset] at hfit hlow
  -- the start of the range
  have haddr : (if (if aligned then frameSize else 0) ≠ 0 ∧
      s.placementAddress % (if aligned then frameSize else 0) ≠ 0 then
        add32 (sub32 s.placementAddress (s.placementAddress % (if aligned then frameSize else 0)))
          (if aligned then frameSize else 0)
      else s.placementAddress) = alignUp s.placementAddress aligned := by
    cases aligned with
    | false => rfl
    | true =>
      simp only [alignUp, if_true, frameSize, add32, sub32] at hfit ⊢
      by_cases hmod : s.placementAddress % 0x1000 = 0
      · rw [if_neg (fun hne => hne.2 hmod)]
        omega
      · rw [if_pos ⟨by decide, hmod⟩]
        omega
  have hphys : sub32 (alignUp s.placementAddress aligned) kernelVoffset =
      alignUp s.placementAddress aligned - kernelVoffset := by
    simp only [sub32, kernelVoffset]
    omega
  refine ⟨{ s with
    placementAddress := add32 (alignUp s.placementAddress aligned) size
    grants := ⟨alignUp s.placementAddress aligned, size, if aligned then frameSize else 0,
      if wantPhys then some (alignUp s.placementAddress aligned - kernelVoffset) else none⟩ ::
        s.grants }, ?_, rfl, ?_, ?_⟩
  · rw [kmallocInt, if_neg (fun hne => hne h0)]
    simp only [haddr, hphys]
  · exact add32_of_lt (by omega)
  · have hend : add32 (alignUp s.placementAddress aligned) size =
        alignUp s.placementAddress aligned + size := add32_of_lt (by omega)
    refine ⟨?_, ?_, ?_, ?_, ?_⟩
    · simp only [hend, kernelVoffset]
      omega
    · exact List.pairwise_cons.mpr ⟨fun g hg => (h.range g hg).2.trans hup, h.apart⟩
    · intro g hg
      simp only [hend]
      rcases List.mem_cons.mp hg with rfl | hg
      · exact ⟨by simp only [kernelVoffset]; omega, le_refl _⟩
      · have := h.range g hg
        omega
    · intro g hg
      rcases List.mem_cons.mp hg with rfl | hg
      · cases aligned with
        | false => exact fun hne => absurd rfl hne
        | true =>
          intro _
          simp only [if_true, alignUp, frameSize]
          exact Nat.mul_mod_left _ _
      · exact h.aligned g hg
    · intro g hg
      rcases List.mem_cons.mp hg with rfl | hg
      · intro p hp
        simp only at hp ⊢
        split at hp
        · exact (Option.some.inj hp).symm
        · exact absurd hp (by simp)
      · exact h.phys g hg

/-- The calls before `paging_finalize`. -/
theorem GrantsOk.execAll (h : GrantsOk s) (h0 : s.kheap = 0) {calls : List BootCall}
    (hfit : (calls.flatMap BootCall.requests).foldl bump s.placementAddress ≤ kheapStart) :
    ∃ s', execAll BootCall.exec s calls = some s' ∧ GrantsOk s' ∧ s'.kheap = 0 ∧
      s'.placementAddress = (calls.flatMap BootCall.requests).foldl bump s.placementAddress ∧
      s'.paging.pool.nframes = s.paging.pool.nframes := by
  induction calls generalizing s with
  | nil => exact ⟨s, rfl, h, h0, rfl, rfl⟩
  | cons c calls ih =>
    cases c with
    | kmalloc size aligned wantPhys =>
      simp only [List.flatMap_cons, BootCall.requests, List.singleton_append,
        List.foldl_cons] at hfit ⊢
      -- placement_address only grows, so what fits in the end fits now
      obtain ⟨s₁, hs₁, heq, hp₁, hok₁⟩ := kmallocInt_spec h h0 size aligned wantPhys
        ((le_foldl_bump _ _).trans hfit)
      rw [← hp₁] at hfit ⊢
      obtain ⟨s', hs', hok', h0', hp', hn'⟩ := ih hok₁ (by rw [heq]; exact h0) hfit
      refine ⟨s', ?_, hok', h0', hp', ?_⟩
      · rw [Run.execAll, BootCall.exec, hs₁]
        exact hs'
      · rw [hn', heq]
    | markReserved address =>
      have hok₁ : GrantsOk { s with
          paging := { s.paging with pool := pagingMarkReserved s.paging.pool address } } :=
        h.congr rfl rfl
      obtain ⟨s', hs', hok', h0', hp', hn'⟩ := ih hok₁ h0 hfit
      refine ⟨s', hs', hok', h0', hp', hn'.trans ?_⟩
      simp only [pagingMarkReserved, nframes_setFrame]

end

/-! ## The tables of the kernel's half -/

theorem and_1023 (x : Nat) : x &&& 0x3ff = x % 1024 := Nat.and_two_pow_sub_one_eq_mod x 10

/-- The indices of the page `j` of the kernel's half. -/
theorem kernel_index {j : Nat} (hj : j < 2 ^ 18) :
    pageDirectoryIndex (kernelVoffset + 4096 * j) = 768 + j / 1024 ∧
      pageTableIndex (kernelVoffset + 4096 * j) = j % 1024 := by
  rw [pageDirectoryIndex, pageTableIndex, and_1023, and_1023, Nat.shiftRight_eq_div_pow,
    Nat.shiftRight_eq_div_pow, kernelVoffset]
  omega

/-- The first `k` tables of the kernel's half are made, from `base` on. -/
structure TablesOk (s : Vm) (base k : Nat) : Prop where
  grants : GrantsOk s
  dir : s.kernelDirectory ≠ 0
  base_mod : base % 4096 = 0
  base_le : kernelVoffset ≤ base
  placement : alignUp s.placementAddress true = base + 4096 * k
  made : ∀ i < k, (s.dirs s.kernelDirectory).tables (768 + i) = base + 4096 * i ∧
    (s.dirs s.kernelDirectory).entries (768 + i) =
      ⟨true, true, true, (base + 4096 * i - kernelVoffset) / 4096⟩
  absent : ∀ i, k ≤ i → i < 256 → (s.dirs s.kernelDirectory).tables (768 + i) = 0

section

variable {s : Vm} {base j k : Nat}

/-- The entries and the frames are no part of it. -/
theorem TablesOk.congr {s' : Vm} (h : TablesOk s base k)
    (hp : s'.placementAddress = s.placementAddress) (hg : s'.grants = s.grants)
    (hdirs : s'.dirs = s.dirs) (hkd : s'.kernelDirectory = s.kernelDirectory) :
    TablesOk s' base k := by
  refine ⟨h.grants.congr hp hg, ?_, h.base_mod, h.base_le, ?_, ?_, ?_⟩
  · rw [hkd]
    exact h.dir
  · rw [hp]
    exact h.placement
  · rw [hdirs, hkd]
    exact h.made
  · rw [hdirs, hkd]
    exact h.absent

/-- `get_page` for a page whose table is made. -/
theorem getPage_made (h : TablesOk s base k) (hj : j < 2 ^ 18) (hk : j / 1024 < k) (make : Bool)
    (heapAddr : Nat) :
    getPage s (kernelVoffset + 4096 * j) make s.kernelDirectory heapAddr =
      some (base + 4 * j, s) := by
  have hbase := h.base_le
  obtain ⟨hdir, htable⟩ := kernel_index hj
  have hmade := (h.made _ hk).1
  rw [getPage, if_neg h.dir]
  simp only [hdir, htable, hmade]
  rw [if_pos (by rw [kernelVoffset] at hbase; omega), Option.some.injEq, Prod.mk.injEq]
  exact ⟨by omega, rfl⟩

/-- `get_page` for the first page whose table is not made. -/
theorem getPage_make (h : TablesOk s base k) (h0 : s.kheap = 0) (hk : j = 1024 * k) (hk256 : k < 256)
    (hfit : base + 4096 * (k + 1) ≤ kheapStart) :
    ∃ s', getPage s (kernelVoffset + 4096 * j) true s.kernelDirectory 0 =
        some (base + 4 * j, s') ∧
      TablesOk s' base (k + 1) ∧ s'.kheap = 0 ∧ s'.placementAddress = base + 4096 * (k + 1) ∧
      s'.kernelDirectory = s.kernelDirectory ∧ s'.paging.pool = s.paging.pool := by
  have hmod := h.base_mod
  have hbase := h.base_le
  obtain ⟨hdir, htable⟩ := kernel_index (j := j) (by omega)
  have hjk : j / 1024 = k := by omega
  rw [hjk] at hdir
  -- the tables end on a frame, so the next one begins there
  have halign := h.placement
  have hbump : bump s.placementAddress (pageTableSize, true) = base + 4096 * (k + 1) := by
    rw [bump, halign, pageTableSize]
    omega
  obtain ⟨s₁, hs₁, heq, hp₁, hok₁⟩ := kmallocInt_spec h.grants h0 pageTableSize true true
    (by rw [hbump]; exact hfit)
  rw [halign] at hs₁
  have hs₁' : kmallocInt s pageTableSize frameSize true 0 =
      some (base + 4096 * k, base + 4096 * k - kernelVoffset, s₁) := hs₁
  have hdirs : s₁.dirs = s.dirs := by rw [heq]
  have hkd : s₁.kernelDirectory = s.kernelDirectory := by rw [heq]
  let s' : Vm :=
    { s₁ with
      paging := clearTable s₁.paging (base + 4096 * k)
      dirs := Function.update s₁.dirs s.kernelDirectory
        { s₁.dirs s.kernelDirectory with
          tables := Function.update (s₁.dirs s.kernelDirectory).tables (768 + k) (base + 4096 * k)
          entries := Function.update (s₁.dirs s.kernelDirectory).entries (768 + k)
            ⟨true, true, true, (base + 4096 * k - kernelVoffset) >>> 12⟩ } }
  refine ⟨s', ?_, ?_, ?_, hp₁.trans hbump, hkd, ?_⟩
  · rw [getPage, if_neg h.dir]
    simp only [hdir, htable]
    rw [if_neg (fun hne => hne (h.absent k (le_refl k) hk256)), if_pos trivial, hs₁',
      Option.bind_some]
    simp only
    rw [if_neg (by rw [kernelVoffset] at hbase; omega), Option.some.injEq, Prod.mk.injEq]
    exact ⟨by omega, rfl⟩
  · refine ⟨hok₁.congr rfl rfl, ?_, hmod, hbase, ?_, ?_, ?_⟩
    · simp only [s', hkd]
      exact h.dir
    · simp only [s', hp₁, hbump, alignUp, if_true]
      omega
    · intro i hi
      simp only [s', hkd, hdirs, Function.update_self]
      by_cases hik : i = k
      · subst hik
        simp only [Function.update_self, Nat.shiftRight_eq_div_pow, true_and]
      · have hne : 768 + i ≠ 768 + k := by omega
        rw [Function.update_of_ne hne, Function.update_of_ne hne]
        exact h.made i (by omega)
    · intro i hki hi
      have hne : 768 + i ≠ 768 + k := by omega
      simp only [s', hkd, hdirs, Function.update_self, Function.update_of_ne hne]
      exact h.absent i (by omega) hi
  · simp only [s']
    rw [heq]
    exact h0
  · simp only [s', clearTable]
    rw [heq]

/-- **The loop that makes the tables**, from the page `j` on. -/
theorem tableLoop_spec (fuel : Nat) (h : TablesOk s base ((j + 1023) / 1024)) (h0 : s.kheap = 0)
    (hj : j < 2 ^ 18) (hplace : 0 < j → s.placementAddress = base + 4096 * ((j + 1023) / 1024))
    (hfuel : 2 ^ 18 ≤ fuel + j) (hfit : base + 4096 * 256 ≤ kheapStart) :
    ∃ s', tableLoop fuel (kernelVoffset + 4096 * j) s = some s' ∧ TablesOk s' base 256 ∧
      s'.kheap = 0 ∧ s'.placementAddress = base + 4096 * 256 ∧
      s'.kernelDirectory = s.kernelDirectory ∧ s'.paging.pool = s.paging.pool := by
  induction fuel generalizing s j with
  | zero => omega
  | succ fuel ih =>
    rw [tableLoop]
    by_cases hlast : j = 2 ^ 18 - 1
    · -- the last page of the address space has the table of the page before it
      have hk : (j + 1023) / 1024 = 256 := by omega
      rw [hk] at h hplace
      rw [if_neg (by rw [kernelVoffset]; omega)]
      exact ⟨s, rfl, h, h0, hplace (by omega), rfl, rfl⟩
    · have hnext : add32 (kernelVoffset + 4096 * j) frameSize = kernelVoffset + 4096 * (j + 1) := by
        rw [add32_of_lt (by simp only [kernelVoffset, frameSize]; omega), frameSize]
        omega
      rw [if_pos (by rw [kernelVoffset]; omega), hnext]
      by_cases hmade : j / 1024 < (j + 1023) / 1024
      · -- the table is there, from an earlier page
        rw [getPage_made h hj hmade, Option.bind_some]
        have hk : (j + 1 + 1023) / 1024 = (j + 1023) / 1024 := by omega
        have hpos : 0 < j := by
          by_contra hzero
          obtain rfl : j = 0 := by omega
          exact absurd hmade (by decide)
        have hp := hplace hpos
        rw [← hk] at h hp
        exact ih h h0 (by omega) (fun _ => hp) (by omega)
      · -- the first page of its table: `get_page` makes it
        have hle : (j + 1023) / 1024 + 1 ≤ 256 := by omega
        obtain ⟨s₁, hs₁, hok₁, h0₁, hp₁, hkd₁, hpool₁⟩ := getPage_make h h0 (j := j) (by omega)
          (by omega)
          ((Nat.add_le_add_left (Nat.mul_le_mul_left _ hle) _).trans hfit)
        rw [hs₁, Option.bind_some]
        have hk : (j + 1 + 1023) / 1024 = (j + 1023) / 1024 + 1 := by omega
        rw [← hk] at hok₁ hp₁
        obtain ⟨s', hs', hok', h0', hp', hkd', hpool'⟩ := ih (j := j + 1) hok₁ h0₁ (by omega)
          (fun _ => hp₁) (by omega)
        exact ⟨s', hs', hok', h0', hp', hkd'.trans hkd₁, hpool'.trans hpool₁⟩

/-! ## The mapping of what has been handed out -/

/-- The entry of the page `j` of the kernel's half, when `placement_address` is mapped. -/
def mappedPte (j : Nat) : Pte := ⟨true, false, true, j⟩

/-- The first `n` pages of the kernel's half are mapped to the first `n` frames, and these
    are marked. -/
structure MappedTo (s : Paging) (base n : Nat) : Prop where
  pages : ∀ i < n, s.pages (base + 4 * i) = mappedPte i
  used : ∀ i < n, isUsed s.pool i = true

theorem nframes_mapPage (s : Paging) (page phys : Nat) (k w : Bool) :
    (mapPage s page k w phys).pool.nframes = s.pool.nframes := by
  simp only [mapPage]
  split <;> simp

/-- **The loop that maps the pages** below `placement_address`, from the page `j` on. -/
theorem mapLoop_spec (fuel : Nat) (h : TablesOk s base 256)
    (hle : s.placementAddress ≤ kheapStart)
    (hmem : s.placementAddress ≤ kernelVoffset + 4096 * s.paging.pool.nframes)
    (hm : MappedTo s.paging base j) (hj : j ≤ 2 ^ 16) (hfuel : 2 ^ 16 < fuel + j) :
    ∃ s' n, mapLoop fuel (kernelVoffset + 4096 * j) (4096 * j) s = some s' ∧
      TablesOk s' base 256 ∧ MappedTo s'.paging base n ∧ n ≤ 2 ^ 16 ∧
      s.placementAddress ≤ kernelVoffset + 4096 * n ∧
      s'.placementAddress = s.placementAddress ∧ s'.kernelDirectory = s.kernelDirectory ∧
      s'.paging.pool.nframes = s.paging.pool.nframes := by
  induction fuel generalizing s j with
  | zero => omega
  | succ fuel ih =>
    rw [mapLoop]
    by_cases hlt : kernelVoffset + 4096 * j < s.placementAddress
    · have hj' : j < 2 ^ 16 := by
        simp only [kernelVoffset, kheapStart] at hlt hle
        omega
      have hnf : j < s.paging.pool.nframes := by
        simp only [kernelVoffset] at hlt hmem
        omega
      have hvirt : add32 (kernelVoffset + 4096 * j) frameSize = kernelVoffset + 4096 * (j + 1) := by
        simp only [kernelVoffset, frameSize, add32]
        omega
      have hphys : add32 (4096 * j) frameSize = 4096 * (j + 1) := by
        simp only [frameSize, add32]
        omega
      rw [if_pos hlt, getPage_made h (by omega) (by omega), Option.bind_some, hvirt, hphys]
      simp only
      have hframe : 4096 * j / frameSize = j := by
        simp only [frameSize]
        omega
      let s₁ : Vm := { s with paging := mapPage s.paging (base + 4 * j) false false (4096 * j) }
      have h₁ : TablesOk s₁ base 256 := h.congr rfl rfl rfl rfl
      -- the entry of the page `j` gets the frame `j`, and those before it keep theirs
      have hm₁ : MappedTo s₁.paging base (j + 1) := by
        constructor
        · intro i hi
          simp only [s₁, mapPage, hframe]
          by_cases hij : i = j
          · rw [hij, Function.update_self, mappedPte, Nat.mod_eq_of_lt (by omega)]
            rfl
          · rw [Function.update_of_ne (by omega)]
            exact hm.pages i (by omega)
        · intro i hi
          simp only [s₁, mapPage, hframe, if_pos hnf, isUsed_setFrame, Bool.or_eq_true,
            decide_eq_true_eq]
          by_cases hij : i = j
          · exact Or.inr hij
          · exact Or.inl (hm.used i (by omega))
      have hn₁ : s₁.paging.pool.nframes = s.paging.pool.nframes := nframes_mapPage _ _ _ _ _
      obtain ⟨s', n, hs', hok', hm', hn', hend', hp', hkd', hnf'⟩ := ih (j := j + 1) h₁ hle
        (by rw [hn₁]; exact hmem) hm₁ (by omega) (by omega)
      exact ⟨s', n, hs', hok', hm', hn', hend', hp', hkd', hnf'.trans hn₁⟩
    · rw [if_neg hlt]
      exact ⟨s, j, rfl, h, hm, hj, Nat.not_lt.mp hlt, rfl, rfl, rfl⟩

/-- What `alloc_page` leaves of the mapping. -/
theorem MappedTo.alloc {p : Paging} {n : Nat} (hm : MappedTo p base n) (page : Nat)
    (hpage : ∀ i < n, base + 4 * i ≠ page) (k w : Bool) :
    MappedTo (allocPage p page k w) base n ∧
      (allocPage p page k w).pool.nframes = p.pool.nframes := by
  refine ⟨⟨fun i hi => ?_, fun i hi => ?_⟩, ?_⟩
  · rw [allocPage_pages_of_ne (hpage i hi)]
    exact hm.pages i hi
  · rcases allocPage_cases p page k w with ⟨-, he⟩ | ⟨-, -, he⟩ | ⟨f, -, -, -, he⟩ <;> rw [he]
    · exact hm.used i hi
    · exact hm.used i hi
    · rw [isUsed_setFrame, hm.used i hi]
      rfl
  · rcases allocPage_cases p page k w with ⟨-, he⟩ | ⟨-, -, he⟩ | ⟨f, -, -, -, he⟩ <;> rw [he]
    exact nframes_setFrame

/-- **The loop that allocates the pages of the heap**, from its page `j` on. -/
theorem heapLoop_spec (fuel : Nat) {n : Nat} (h : TablesOk s base 256)
    (hm : MappedTo s.paging base n) (hn : n ≤ 2 ^ 16) (hj : j ≤ 256) (hfuel : 256 < fuel + j) :
    ∃ s', heapLoop fuel (kernelVoffset + 4096 * (2 ^ 16 + j)) s = some s' ∧
      TablesOk s' base 256 ∧ MappedTo s'.paging base n ∧
      s'.placementAddress = s.placementAddress ∧ s'.kernelDirectory = s.kernelDirectory ∧
      s'.paging.pool.nframes = s.paging.pool.nframes := by
  induction fuel generalizing s j with
  | zero => omega
  | succ fuel ih =>
    rw [heapLoop]
    by_cases hlt : j = 256
    · rw [if_neg (by rw [hlt, kernelVoffset, kheapStart, kheapInitialSize]; decide)]
      exact ⟨s, rfl, h, hm, rfl, rfl, rfl⟩
    -- the heap starts 2 ^ 16 pages above the kernel, and its last page is still below 4 GiB
    · have hvirt : add32 (kernelVoffset + 4096 * (2 ^ 16 + j)) frameSize =
          kernelVoffset + 4096 * (2 ^ 16 + (j + 1)) := by
        simp only [kernelVoffset, frameSize, add32]
        omega
      rw [if_pos (by simp only [kernelVoffset, kheapStart, kheapInitialSize]; omega),
        getPage_made h (by omega) (by omega), Option.bind_some, hvirt]
      simp only
      obtain ⟨hm₁, hn₁⟩ := hm.alloc (base + 4 * (2 ^ 16 + j)) (fun i hi => by omega)
        false true
      let s₁ : Vm :=
        { s with paging := allocPage s.paging (base + 4 * (2 ^ 16 + j)) false true }
      have h₁ : TablesOk s₁ base 256 := h.congr rfl rfl rfl rfl
      obtain ⟨s', hs', hok', hm', hp', hkd', hnf'⟩ := ih (j := j + 1) h₁ hm₁ (by omega) (by omega)
      exact ⟨s', hs', hok', hm', hp', hkd', hnf'.trans hn₁⟩

/-! ## The end of the start -/

/-- The requests for the tables, when the first begins at `base`. -/
theorem foldl_tables (p : Nat) :
    (List.replicate 256 (pageTableSize, true)).foldl bump p = alignUp p true + 4096 * 256 := by
  have hstep : ∀ n p, (List.replicate (n + 1) (pageTableSize, true)).foldl bump p =
      alignUp p true + 4096 * n + 4096 := by
    intro n
    induction n with
    | zero =>
      intro p
      simp only [Nat.zero_add, List.replicate_one, List.foldl_cons, List.foldl_nil, bump,
        pageTableSize, Nat.mul_zero, Nat.add_zero]
    | succ n ih =>
      intro p
      have halign : alignUp (bump p (pageTableSize, true)) true = alignUp p true + 4096 := by
        simp only [bump, alignUp, if_true, pageTableSize]
        omega
      rw [List.replicate_succ, List.foldl_cons, ih, halign]
      omega
  rw [hstep 255 p]

/-- What `paging_finalize` leaves: the tables of the kernel's half, from `base` on, and the
    mapping of its first `n` pages, which are all that has been handed out. -/
structure Finalized (s : Vm) (base n : Nat) : Prop where
  tables : TablesOk s base 256
  mapped : MappedTo s.paging base n
  covers : s.placementAddress ≤ kernelVoffset + 4096 * n
  kheap : s.kheap ≠ 0

/-- **`paging_finalize`.** -/
theorem pagingFinalize_spec (h : GrantsOk s) (h0 : s.kheap = 0) {stop : Nat}
    (hstop : stop = ((pageDirSize, true) :: List.replicate 256 (pageTableSize, true)).foldl bump
      s.placementAddress)
    (hfit : stop ≤ kheapStart) (hmem : stop ≤ kernelVoffset + 4096 * s.paging.pool.nframes) :
    ∃ s' base n, pagingFinalize s = some s' ∧ Finalized s' base n ∧
      s'.placementAddress = stop ∧ s'.paging.pool.nframes = s.paging.pool.nframes ∧
      s'.kernelDirectory = alignUp s.placementAddress true := by
  rw [List.foldl_cons, foldl_tables] at hstop
  let s₀ : Vm := { s with paging := { s.paging with pool := setFrame s.paging.pool 0 } }
  have hg₀ : GrantsOk s₀ := h.congr rfl rfl
  have hdirfit : bump s₀.placementAddress (pageDirSize, true) ≤ kheapStart := by
    refine le_trans ?_ hfit
    rw [hstop]
    exact (le_alignUp _ true).trans (Nat.le_add_right _ _)
  -- the directory
  obtain ⟨s₁, hs₁, heq, hp₁, hok₁⟩ := kmallocInt_spec hg₀ h0 pageDirSize true true hdirfit
  let dir := alignUp s₀.placementAddress true
  have hdir : dir ≠ 0 := by
    have hlow := h.low
    have hup := le_alignUp s₀.placementAddress true
    simp only [kernelVoffset, dir, s₀] at hlow hup ⊢
    omega
  let base := alignUp s₁.placementAddress true
  have hbase : stop = base + 4096 * 256 := by
    rw [hstop]
    simp only [base, hp₁, s₀]
  let s₂ : Vm :=
    { s₁ with
      dirs := Function.update s₁.dirs dir
        { zeroDir with entriesPhysAddr := dir - kernelVoffset }
      kernelDirectory := dir }
  have htables : TablesOk s₂ base 0 := by
    refine ⟨hok₁.congr rfl rfl, hdir, ?_, ?_, ?_, ?_, ?_⟩
    · simp only [base, alignUp, if_true]
      exact Nat.mul_mod_left _ _
    · exact hok₁.low.trans (le_alignUp _ true)
    · rw [Nat.mul_zero, Nat.add_zero]
    · exact fun i hi => absurd hi (Nat.not_lt_zero i)
    · intro i _ _
      simp only [s₂, Function.update_self, zeroDir]
  have h0₂ : s₂.kheap = 0 := by
    simp only [s₂]
    rw [heq]
    exact h0
  -- the tables of the kernel's half
  obtain ⟨s₃, hs₃, htables₃, h0₃, hp₃, hkd₃, hpool₃⟩ := tableLoop_spec (j := 0) (2 ^ 20)
    htables h0₂ (by omega) (fun hpos => absurd hpos (by decide)) (by omega)
    (by rw [← hbase]; exact hfit)
  have hn₃ : s₃.paging.pool.nframes = s.paging.pool.nframes := by
    rw [hpool₃]
    simp only [s₂]
    rw [heq]
    exact nframes_setFrame
  -- the mapping of all that has been handed out
  obtain ⟨s₄, n, hs₄, htables₄, hm₄, hn₄, hend₄, hp₄, hkd₄, hnf₄⟩ := mapLoop_spec (j := 0)
    (2 ^ 20) htables₃ (by rw [hp₃, ← hbase]; exact hfit)
    (by rw [hp₃, ← hbase, hn₃]; exact hmem)
    ⟨fun i hi => absurd hi (Nat.not_lt_zero i), fun i hi => absurd hi (Nat.not_lt_zero i)⟩
    (by omega) (by omega)
  have hkd : s₄.kernelDirectory = dir := hkd₄.trans hkd₃
  let s₅ : Vm := { s₄ with currentDirectory := dir }
  have hs₅ : switchPageDirectory s₄ dir = s₅ := if_neg hdir
  have htables₅ : TablesOk s₅ base 256 := htables₄.congr rfl rfl rfl rfl
  -- the pages of the heap, with the new directory in use
  obtain ⟨s₆, hs₆, htables₆, hm₆, hp₆, hkd₆, hnf₆⟩ := heapLoop_spec (j := 0) (2 ^ 20)
    htables₅ hm₄ hn₄ (by omega) (by omega)
  refine ⟨{ s₆ with kheap := kheapStart }, base, n, ?_, ⟨htables₆.congr rfl rfl rfl rfl, hm₆, ?_,
    ?_⟩, ?_, ?_, hkd₆.trans hkd⟩
  · have hs₁' : kmallocInt s₀ pageDirSize frameSize true 0 = some (dir, dir - kernelVoffset, s₁) :=
      hs₁
    rw [Nat.mul_zero, Nat.add_zero] at hs₃ hs₄
    rw [Nat.add_zero, show kernelVoffset + 4096 * 2 ^ 16 = kheapStart from rfl] at hs₆
    change (kmallocInt s₀ pageDirSize frameSize true 0).bind _ = _
    rw [hs₁', Option.bind_some]
    change (if dir = 0 then none else (tableLoop (2 ^ 20) kernelVoffset s₂).bind _) = _
    rw [if_neg hdir, hs₃, Option.bind_some, hs₄, Option.bind_some, hs₅, hs₆, Option.map_some]
  · simp only [hp₆]
    exact hend₄.trans' (le_of_eq hp₄)
  · simp only [kheapStart]
    decide
  · simp only [hp₆]
    exact hp₄.trans (hp₃.trans hbase.symm)
  · exact hnf₆.trans (hnf₄.trans hn₃)

/-- The walk of the processor through the tables of the kernel's half. -/
theorem TablesOk.translate_eq (h : TablesOk s base 256) {v : Nat} (hlow : kernelVoffset ≤ v)
    (hv : v < 2 ^ 32) :
    translate s s.kernelDirectory v =
      let pte := s.paging.pages (base + 4 * ((v - kernelVoffset) / 4096))
      if pte.present then some (pte.frame * frameSize + v % frameSize) else none := by
  have hmod := h.base_mod
  have hbase := h.base_le
  -- the upper 10 bits select one of the 256 tables, the next 10 an entry of it
  have hdir : pageDirectoryIndex v = 768 + (v - kernelVoffset) / 4096 / 1024 := by
    rw [pageDirectoryIndex, and_1023, Nat.shiftRight_eq_div_pow]
    rw [kernelVoffset] at hlow ⊢
    omega
  have htab : pageTableIndex v = (v - kernelVoffset) / 4096 % 1024 := by
    rw [pageTableIndex, and_1023, Nat.shiftRight_eq_div_pow]
    rw [kernelVoffset] at hlow ⊢
    omega
  have hmade := (h.made ((v - kernelVoffset) / 4096 / 1024)
    (by rw [kernelVoffset] at hlow ⊢; omega)).2
  rw [translate]
  simp only [hdir, hmade, htab, true_and]
  -- the tables follow each other in memory, so both together are the number of the page
  have hpte : (base + 4096 * ((v - kernelVoffset) / 4096 / 1024) - kernelVoffset) / 4096 *
      frameSize + kernelVoffset + 4 * ((v - kernelVoffset) / 4096 % 1024) =
        base + 4 * ((v - kernelVoffset) / 4096) := by
    rw [kernelVoffset] at hbase ⊢
    rw [frameSize]
    omega
  rw [hpte]

/-- A page that `paging_finalize` has mapped. -/
theorem Finalized.translate_eq {n : Nat} (h : Finalized s base n) {v : Nat}
    (hlow : kernelVoffset ≤ v) (hlt : v < s.placementAddress) (hv : v < 2 ^ 32) :
    translate s s.kernelDirectory v = some (v - kernelVoffset) := by
  have hcovers := h.covers
  rw [h.tables.translate_eq hlow hv, h.mapped.pages _ (by omega)]
  simp only [mappedPte, if_true, Option.some.injEq, frameSize]
  rw [kernelVoffset] at hlow ⊢
  omega

end

/-! ## Later calls -/

/-- A call does not free an entry whose frame lies below the physical address `limit`. -/
def EntryCall.Keeps (limit : Nat) (s : Paging) : EntryCall → Prop
  | .free page => (s.pages page).frame = 0 ∨ limit ≤ (s.pages page).frame * frameSize
  | _ => True

/-- The frames below the physical address `limit` are marked. -/
def LowUsed (limit n : Nat) (s : Paging) : Prop :=
  s.pool.nframes = n ∧ ∀ f, f * frameSize < limit → isUsed s.pool f = true

theorem LowUsed.exec {limit n : Nat} {s s' : Paging} {c : EntryCall} (h : LowUsed limit n s)
    (hc : c.Keeps limit s) (hs' : c.exec s = some s') : LowUsed limit n s' := by
  cases c with
  | alloc page k w =>
    cases hs'
    rcases allocPage_cases s page k w with ⟨-, he⟩ | ⟨-, -, he⟩ | ⟨f, -, -, -, he⟩ <;> rw [he]
    · exact h
    · exact h
    · refine ⟨nframes_setFrame.trans h.1, fun g hg => ?_⟩
      rw [isUsed_setFrame, h.2 g hg]
      rfl
  | map page k w phys =>
    cases hs'
    refine ⟨(nframes_mapPage _ _ _ _ _).trans h.1, fun g hg => ?_⟩
    simp only [mapPage]
    split
    · rw [isUsed_setFrame, h.2 g hg]
      rfl
    · exact h.2 g hg
  | free page =>
    cases hs'
    simp only [freePage, LowUsed]
    split
    · refine ⟨nframes_clearFrame.trans h.1, fun g hg => ?_⟩
      -- the frame that is released is not a low one, by the condition on the call
      have hne : g ≠ (s.pages page).frame := by
        rintro rfl
        rcases hc with h0 | hle
        · exact absurd h0 ‹_›
        · omega
      rw [isUsed_clearFrame, h.2 g hg]
      simp [hne]
    · exact h

/-- A frame that is allocated does not lie below `limit`. -/
theorem LowUsed.alloc_frame {limit n : Nat} {s : Paging} (h : LowUsed limit n s) (hn : n ≤ 2 ^ 20)
    {page : Nat} (hpage : (s.pages page).frame = 0)
    (hfree : ∃ g < s.pool.nframes, isUsed s.pool g = false) (k w : Bool) :
    limit ≤ ((allocPage s page k w).pages page).frame * frameSize := by
  obtain ⟨g, hg, hgfree⟩ := hfree
  obtain ⟨f, hf, hlt, hunused, -⟩ := firstFreeFrame_of_free hg hgfree
  have hpage' : ((allocPage s page k w).pages page).frame = f := by
    rw [allocPage, if_neg (fun hne => hne hpage), hf]
    simp only [Function.update_self]
    exact Nat.mod_eq_of_lt (by have := h.1; omega)
  rw [hpage']
  by_contra hlow
  have hused := h.2 f (by omega)
  rw [hunused] at hused
  exact Bool.noConfusion hused

/-- **Memory at boot.** For all calls of `kmalloc` before there is a heap, those of
    `paging_init` and `paging_finalize` included, that end below the heap and inside physical
    memory: `paging_finalize` returns; the ranges handed out do not overlap, are aligned, and
    lie at the physical addresses reported; the kernel's directory maps all that has been
    handed out, down to the beginning of the kernel's half, to these addresses; and no frame
    of it is allocated by any later run of calls on page-table entries that does not free one
    of them. -/
theorem boot_memory_mapped {s : Vm} {pre mid : List BootCall} {memSize : Nat}
    (rest : Nat → BitVec 32) (hheap : s.kheap = 0) (hgrants : s.grants = [])
    (hlow : kernelVoffset ≤ s.placementAddress) (hsize : memSize < 2 ^ 32)
    (hfit : bootEnd s.placementAddress pre memSize mid ≤ kheapStart)
    (hphys : bootEnd s.placementAddress pre memSize mid ≤
      kernelVoffset + 4096 * (memSize / frameSize)) :
    ∃ s', bootMemory s pre memSize rest mid = some s' ∧
      s'.placementAddress = bootEnd s.placementAddress pre memSize mid ∧ GrantsOk s' ∧
      (∀ v, kernelVoffset ≤ v → v < s'.placementAddress →
        translate s' s'.kernelDirectory v = some (v - kernelVoffset)) ∧
      ∀ calls t, Each EntryCall.exec
          (EntryCall.Keeps (s'.placementAddress - kernelVoffset)) s'.paging calls →
        execAll EntryCall.exec s'.paging calls = some t →
        ∀ page k w, (t.pages page).frame = 0 →
          (∃ g < t.pool.nframes, isUsed t.pool g = false) →
          s'.placementAddress - kernelVoffset ≤
            ((allocPage t page k w).pages page).frame * frameSize := by
  have hend : bootEnd s.placementAddress pre memSize mid =
      ((pageDirSize, true) :: List.replicate 256 (pageTableSize, true)).foldl bump
        ((mid.flatMap BootCall.requests).foldl bump
          (bump ((pre.flatMap BootCall.requests).foldl bump s.placementAddress)
            (memSize / frameSize / 8, true))) := by
    simp only [bootEnd, bootRequests, List.foldl_append, List.foldl_cons, List.append_assoc,
      List.cons_append]
  generalize hstop : bootEnd s.placementAddress pre memSize mid = stop at *
  have hok : GrantsOk s := by
    refine ⟨hlow, ?_, ?_, ?_, ?_⟩ <;> rw [hgrants]
    · exact List.Pairwise.nil
    all_goals exact fun g hg => absurd hg (List.not_mem_nil)
  -- the calls before `paging_init`
  have hfit₃ := (hend ▸ le_foldl_bump _ _ : _ ≤ stop).trans hfit
  have hfit₂ := (le_foldl_bump _ _).trans hfit₃
  obtain ⟨s₁, hs₁, hok₁, h0₁, hp₁, -⟩ := hok.execAll hheap ((le_bump _ _).trans hfit₂)
  -- its bitmap
  rw [← hp₁] at hfit₂ hfit₃ hend
  obtain ⟨s₂, hs₂, heq₂, hp₂, hok₂⟩ := kmallocInt_spec hok₁ h0₁ (memSize / frameSize / 8) true false
    hfit₂
  let s₃ : Vm := { s₂ with paging := { s₂.paging with pool := pagingInit memSize rest } }
  have hs₃ : initPaging s₁ memSize rest = some s₃ := by
    have hs₂' : kmallocInt s₁ (memSize / frameSize / 8) frameSize false 0 = some _ := hs₂
    rw [initPaging, hs₂', Option.map_some]
  have hok₃ : GrantsOk s₃ := hok₂.congr rfl rfl
  have h0₃ : s₃.kheap = 0 := by
    simp only [s₃]
    rw [heq₂]
    exact h0₁
  -- the calls before `paging_finalize`
  rw [← hp₂] at hfit₃ hend
  obtain ⟨s₄, hs₄, hok₄, h0₄, hp₄, hn₄⟩ := hok₃.execAll h0₃ hfit₃
  have hp₄' : s₄.placementAddress =
      (mid.flatMap BootCall.requests).foldl bump s₂.placementAddress := hp₄
  rw [← hp₄'] at hend
  have hn : s₄.paging.pool.nframes = memSize / frameSize := hn₄
  obtain ⟨s', base, n, hs', hfin, hp', hn', -⟩ := pagingFinalize_spec hok₄ h0₄ hend hfit
    (by rw [hn]; exact hphys)
  refine ⟨s', ?_, hp', hfin.tables.grants, ?_, ?_⟩
  · rw [bootMemory, hs₁, Option.bind_some, hs₃, Option.bind_some, hs₄, Option.bind_some, hs']
  · intro v hv hlt
    refine hfin.translate_eq hv hlt ?_
    rw [hp'] at hlt
    exact hlt.trans (hfit.trans_lt (by decide))
  · intro calls t hkeeps ht page k w hpage hfree
    have hlowUsed : LowUsed (s'.placementAddress - kernelVoffset) (memSize / frameSize)
        s'.paging := by
      refine ⟨hn'.trans hn, fun f hf => hfin.mapped.used f ?_⟩
      have hcovers := hfin.covers
      rw [frameSize] at hf
      omega
    have hinv := inv_of_execAll (I := LowUsed (s'.placementAddress - kernelVoffset)
      (memSize / frameSize)) (fun s c s' h hc hs => h.exec hc hs) hlowUsed hkeeps ht
    exact hinv.alloc_frame (by rw [frameSize]; omega) hpage hfree k w

/-- A machine of 32 MiB whose kernel ends at `0xc0200000`. -/
def startVm : Vm where
  paging := ⟨⟨fun _ => 0, 0, 0⟩, fun _ => zeroPte⟩
  dirs := fun _ => zeroDir
  kernelDirectory := 0
  currentDirectory := 0
  placementAddress := 0xc0200000
  kheap := 0
  grants := []

/-- The bitmap, the directory and the tables of a machine of 32 MiB end at `0xc0304000`. -/
theorem boot_memory_mapped_start :
    ∃ s', bootMemory startVm [] 0x2000000 (fun _ => 0) [] = some s' ∧
      s'.placementAddress = 0xc0304000 := by
  have hend : bootEnd startVm.placementAddress [] 0x2000000 [] = 0xc0304000 := by
    decide +kernel
  obtain ⟨s', hs', hp', -⟩ := boot_memory_mapped (s := startVm) (fun _ => 0) rfl rfl (by decide)
    (by decide : 0x2000000 < 2 ^ 32) (hend.trans_le (by decide)) (hend.trans_le (by decide))
  exact ⟨s', hs', hp'.trans hend⟩

end Toutatis
