import Toutatis.Paging.Bitmap
import Toutatis.Paging.KernelHalf

/-!
# The memory behind the kernel's addresses

What the start and all later runs make of the kernel's half as a map from addresses to memory. The
kernel finds a page-table entry through `tables`, the processor through `entries`, and both find the
same one. `Backed` is what keeps two pages from sharing a frame: it holds after `paging_finalize`,
and is kept by `alloc_page` and `free_page` on the entries behind those of the start. The frames of
these calls lie below `nframes`, so that their bits are not those of a directory.

## Key results

- `kernel_addresses_apart`: no two addresses of the kernel's half stand for the same memory
-/

namespace Toutatis

open ByteMem Run

/-! ## Two ways to an entry -/

/-- The number of the page of an address in the kernel's half. -/
def kernelPage (v : Nat) : Nat := (v - kernelVoffset) / 4096

section

variable {s vm : Vm} {t : Spaces} {base v dir : Nat}

/-- The kernel's half has `2 ^ 18` pages. -/
theorem kernelPage_lt (hv : v < 2 ^ 32) : kernelPage v < 2 ^ 18 := by
  rw [kernelPage, kernelVoffset]
  omega

/-- The indices of an address of the kernel's half. -/
theorem kernelPage_index (hlow : kernelVoffset ≤ v) (hv : v < 2 ^ 32) :
    pageDirectoryIndex v = 768 + kernelPage v / 1024 ∧ pageTableIndex v = kernelPage v % 1024 := by
  rw [pageDirectoryIndex, pageTableIndex, and_1023, and_1023, Nat.shiftRight_eq_div_pow,
    Nat.shiftRight_eq_div_pow, kernelPage]
  rw [kernelVoffset] at hlow ⊢
  omega

/-- In a run the walk of the processor is the one in the directory of the start, with the entries as
    they are. -/
theorem HalfOk.walks (h : HalfOk vm t) (hdir : dir ∈ t.existing) (hlow : kernelVoffset ≤ v)
    (hv : v < 2 ^ 32) :
    translate t.vm dir v =
      translate { vm with paging := t.vm.paging } vm.kernelDirectory v := by
  obtain ⟨hidx, hlt⟩ := kernel_directory_index hlow hv
  unfold translate
  rw [(h.shared dir hdir _ hidx hlt).2]

/-- In a run the processor finds the entry at its place behind `base`, whatever the directory. -/
theorem HalfOk.translate_pages (h : HalfOk vm t) (htables : TablesOk vm base 256)
    (hdir : dir ∈ t.existing) (hlow : kernelVoffset ≤ v) (hv : v < 2 ^ 32) :
    translate t.vm dir v =
      let pte := t.vm.paging.pages (base + 4 * kernelPage v)
      if pte.present then some (pte.frame * frameSize + v % frameSize) else none := by
  have hsame : TablesOk { vm with paging := t.vm.paging } base 256 := htables.congr rfl rfl rfl rfl
  rw [h.walks hdir hlow hv, hsame.translate_eq hlow hv]
  rfl

/-- And so does `get_page`. -/
theorem HalfOk.getPage_pages (h : HalfOk vm t) (htables : TablesOk vm base 256)
    (hdir : dir ∈ t.existing) (hlow : kernelVoffset ≤ v) (hv : v < 2 ^ 32) (make : Bool) (a : Nat) :
    getPage t.vm v make dir a = some (base + 4 * kernelPage v, t.vm) := by
  have hbase := htables.base_le
  have hpage := kernelPage_lt hv
  obtain ⟨hidx, htab⟩ := kernelPage_index hlow hv
  have hmade := (htables.made (kernelPage v / 1024) (by omega)).1
  have hshared := (h.shared dir hdir (768 + kernelPage v / 1024) (by omega) (by omega)).1
  unfold getPage
  rw [if_neg (h.dirs dir hdir)]
  simp only [hidx, htab, hshared, hmade]
  rw [if_pos (by rw [kernelVoffset] at hbase; omega), Option.some.injEq, Prod.mk.injEq]
  exact ⟨by omega, rfl⟩

end

/-- A machine of 32 MiB before `paging_finalize`. -/
def smallVm : Vm := { startVm with
  paging := { startVm.paging with pool := pagingInit 0x2000000 fun _ => 0 } }

/-- The machine of the examples before `paging_finalize`. -/
theorem smallVm_grants : GrantsOk smallVm :=
  ⟨by decide, List.Pairwise.nil, by simp [smallVm, startVm], by simp [smallVm, startVm],
    by simp [smallVm, startVm]⟩

/-- Where the grants of `paging_finalize` end on it. -/
theorem smallVm_stop : (0xc0303000 : Nat) =
    ((pageDirSize, true) :: List.replicate 256 (pageTableSize, true)).foldl bump
      smallVm.placementAddress := by
  decide +kernel

/-! ## Frames behind pages -/

/-- The pages of the kernel's half behind the first `n` hold frames that are marked, none of the
    first `n` and none twice; a page that is present holds one. -/
structure Backed (base n : Nat) (s : Paging) : Prop extends MappedTo s base n where
  pos : 0 < n
  nframes_le : s.pool.nframes ≤ 2 ^ 20
  present : ∀ i, n ≤ i → i < 2 ^ 18 →
    ((s.pages (base + 4 * i)).present = true ↔ (s.pages (base + 4 * i)).frame ≠ 0)
  held_used : ∀ i, n ≤ i → i < 2 ^ 18 → (s.pages (base + 4 * i)).frame ≠ 0 →
    isUsed s.pool (s.pages (base + 4 * i)).frame = true
  held_high : ∀ i, n ≤ i → i < 2 ^ 18 → (s.pages (base + 4 * i)).frame ≠ 0 →
    n ≤ (s.pages (base + 4 * i)).frame
  held_once : ∀ i j, n ≤ i → i < 2 ^ 18 → n ≤ j → j < 2 ^ 18 →
    (s.pages (base + 4 * i)).frame ≠ 0 →
    (s.pages (base + 4 * i)).frame = (s.pages (base + 4 * j)).frame → i = j

section

variable {s s' : Paging} {base n i : Nat} {k w : Bool}

/-- What a change of one entry has to keep. -/
theorem Backed.update (h : Backed base n s) (hi : n ≤ i) (hpool : s'.pool.nframes ≤ 2 ^ 20)
    (hpages : ∀ p, p ≠ base + 4 * i → s'.pages p = s.pages p)
    (hlow : ∀ f < n, isUsed s'.pool f = true)
    (hmarked : ∀ j, n ≤ j → j < 2 ^ 18 → j ≠ i → (s.pages (base + 4 * j)).frame ≠ 0 →
      isUsed s'.pool (s.pages (base + 4 * j)).frame = true)
    (hpresent : (s'.pages (base + 4 * i)).present = true ↔ (s'.pages (base + 4 * i)).frame ≠ 0)
    (hframe : (s'.pages (base + 4 * i)).frame ≠ 0 →
      isUsed s'.pool (s'.pages (base + 4 * i)).frame = true ∧
      n ≤ (s'.pages (base + 4 * i)).frame ∧
      ∀ j, n ≤ j → j < 2 ^ 18 → j ≠ i →
        (s.pages (base + 4 * j)).frame ≠ (s'.pages (base + 4 * i)).frame) :
    Backed base n s' := by
  have hother : ∀ j, j ≠ i → s'.pages (base + 4 * j) = s.pages (base + 4 * j) :=
    fun j hj => hpages _ (by omega)
  refine ⟨⟨fun j hj => ?_, hlow⟩, h.pos, hpool, fun j hj hlt => ?_, fun j hj hlt => ?_,
    fun j hj hlt => ?_, fun j l hj hlt hl hlt' => ?_⟩
  · -- the pages of the start are not written to
    rw [hother j (by omega)]
    exact h.pages j hj
  · -- present exactly when a frame is held
    by_cases hji : j = i
    · rw [hji]
      exact hpresent
    · rw [hother j hji]
      exact h.present j hj hlt
  · -- every frame that is held is in use
    by_cases hji : j = i
    · rw [hji]
      exact fun hne => (hframe hne).1
    · rw [hother j hji]
      exact hmarked j hj hlt hji
  · -- it lies behind those of the start
    by_cases hji : j = i
    · rw [hji]
      exact fun hne => (hframe hne).2.1
    · rw [hother j hji]
      exact h.held_high j hj hlt
  · -- no two pages hold the same one: the written page is one of both, or none of them
    by_cases hji : j = i
    · by_cases hli : l = i
      · exact fun _ _ => hji.trans hli.symm
      · rw [hji, hother l hli]
        exact fun hne heq => absurd heq.symm ((hframe hne).2.2 l hl hlt' hli)
    · by_cases hli : l = i
      · rw [hli, hother j hji]
        exact fun hne heq => absurd heq ((hframe (heq ▸ hne)).2.2 j hj hlt hji)
      · rw [hother j hji, hother l hli]
        exact h.held_once j l hj hlt hl hlt'

/-- `alloc_page` on an entry behind those of the start keeps the pages apart. -/
theorem Backed.alloc (h : Backed base n s) (hi : n ≤ i) (hlt : i < 2 ^ 18)
    (hb : PageCall.Below s (.alloc (base + 4 * i) k w)) :
    Backed base n (allocPage s (base + 4 * i) k w) := by
  have hpages : ∀ p, p ≠ base + 4 * i →
      (allocPage s (base + 4 * i) k w).pages p = s.pages p := fun p hp => allocPage_pages_of_ne hp
  obtain ⟨h0, he⟩ | ⟨-, -, he⟩ | ⟨f, h0, hf, hfree, he⟩ := allocPage_cases s (base + 4 * i) k w
  · -- the entry keeps its frame
    have hentry : (allocPage s (base + 4 * i) k w).pages (base + 4 * i) =
        ⟨true, w, !k, (s.pages (base + 4 * i)).frame⟩ := by
      rw [he]
      simp only [Function.update_self]
    have hpool : (allocPage s (base + 4 * i) k w).pool = s.pool := by rw [he]
    apply h.update hi _ hpages
    · rw [hpool]
      exact h.used
    · rw [hpool]
      exact fun j hj hlt _ => h.held_used j hj hlt
    · rw [hentry]
      exact iff_of_true rfl h0
    · rw [hpool, hentry]
      refine fun _ => ⟨h.held_used i hi hlt h0, h.held_high i hi hlt h0, fun j hj hltj hne heq => ?_⟩
      exact hne (h.held_once i j hi hlt hj hltj h0 heq.symm).symm
    · rw [hpool]
      exact h.nframes_le
  · rwa [he]
  · -- the frame was not marked, so no other page holds it
    have hbelow := hb h0 f hf
    have hnframes := h.nframes_le
    have hmod : f % 2 ^ 20 = f := Nat.mod_eq_of_lt (by omega)
    have hhigh : n ≤ f := by
      by_contra hlow
      have := h.used f (by omega)
      rw [hfree] at this
      exact absurd this (by decide)
    have hpos := h.pos
    rw [hmod] at he
    have hentry : (allocPage s (base + 4 * i) k w).pages (base + 4 * i) = ⟨true, w, !k, f⟩ := by
      rw [he]
      simp only [Function.update_self]
    have hpool : (allocPage s (base + 4 * i) k w).pool = setFrame s.pool f := by rw [he]
    apply h.update hi _ hpages
    · rw [hpool]
      intro g hg
      rw [isUsed_setFrame, h.used g hg]
      rfl
    · rw [hpool]
      intro j hj hltj _ hne
      rw [isUsed_setFrame, h.held_used j hj hltj hne]
      rfl
    · rw [hentry]
      exact iff_of_true rfl (by simp only; omega)
    · rw [hpool, hentry]
      refine fun _ => ⟨by simp [isUsed_setFrame], hhigh, fun j hj hltj _ heq => ?_⟩
      have hused := h.held_used j hj hltj (by rw [heq]; simp only; omega)
      rw [heq] at hused
      simp only at hused
      rw [hfree] at hused
      exact absurd hused (by decide)
    · rw [hpool, nframes_setFrame]
      exact hnframes

/-- So does `free_page`. -/
theorem Backed.free (h : Backed base n s) (hi : n ≤ i) (hlt : i < 2 ^ 18) :
    Backed base n (freePage s (base + 4 * i)) := by
  have hpages : ∀ p, p ≠ base + 4 * i → (freePage s (base + 4 * i)).pages p = s.pages p := by
    intro p hp
    simp only [freePage, Function.update_of_ne hp]
  have hentry : ((freePage s (base + 4 * i)).pages (base + 4 * i)).present = false ∧
      ((freePage s (base + 4 * i)).pages (base + 4 * i)).frame = 0 := by
    simp only [freePage, Function.update_self, and_self]
  -- marks of other frames stay
  have hmark : ∀ f, f ≠ (s.pages (base + 4 * i)).frame ∨ (s.pages (base + 4 * i)).frame = 0 →
      isUsed s.pool f = true → isUsed (freePage s (base + 4 * i)).pool f = true := by
    intro f hf hused
    simp only [freePage]
    split
    case isTrue hne =>
      have hff := hf.resolve_right hne
      rw [isUsed_clearFrame, hused]
      simp [hff]
    case isFalse => exact hused
  apply h.update hi _ hpages
  · intro f hf
    apply hmark f _ (h.used f hf)
    by_cases h0 : (s.pages (base + 4 * i)).frame = 0
    · exact Or.inr h0
    · have := h.held_high i hi hlt h0
      exact Or.inl (by omega)
  · intro j hj hltj hji hne
    apply hmark _ _ (h.held_used j hj hltj hne)
    exact Or.inl fun heq => hji (h.held_once j i hj hltj hi hlt hne heq)
  · rw [hentry.1, hentry.2]
    decide
  · exact fun hne => absurd hentry.2 hne
  · have := h.nframes_le
    simp only [freePage]
    split
    · rwa [nframes_clearFrame]
    · exact this

end

/-! ## The start -/

section

variable {s s' : Vm} {base j k virt : Nat}

/-- Only the placement address and the grants change. -/
theorem kmallocInt_eq {size alignment a p phys : Nat} {wantPhys : Bool}
    (h : kmallocInt s size alignment wantPhys a = some (p, phys, s')) :
    s' = { s with placementAddress := s'.placementAddress, grants := s'.grants } := by
  unfold kmallocInt at h
  split at h
  · split at h
    · rw [Option.map_eq_some_iff] at h
      obtain ⟨q, -, hq⟩ := h
      cases hq
      rfl
    · cases h
      rfl
  · simp only [Option.some.injEq, Prod.mk.injEq] at h
    obtain ⟨-, -, rfl⟩ := h
    rfl

/-- `get_page` clears the table that it makes. -/
theorem getPage_paging {make : Bool} {dir a p : Nat}
    (h : getPage s virt make dir a = some (p, s')) :
    s' = s ∨ s'.paging = clearTable s.paging ((s'.dirs dir).tables (pageDirectoryIndex virt)) := by
  unfold getPage at h
  split at h
  · -- no directory
    exact absurd h (by simp)
  · simp only at h
    split at h
    · -- the table is there
      cases h
      exact Or.inl rfl
    · split at h
      · -- a new table, which `kmalloc` may refuse
        rw [Option.bind_eq_some_iff] at h
        obtain ⟨⟨table, phys, s₁⟩, hs₁, h⟩ := h
        simp only at h
        split at h
        · exact absurd h (by simp)
        · cases h
          right
          have hpaging : s₁.paging = s.paging := by rw [kmallocInt_eq hs₁]
          simp only [Function.update_self, hpaging]
      · -- nothing is made
        cases h
        exact Or.inl rfl

/-- The directories stay where they are, and in use. -/
structure SameDirs (s s' : Vm) : Prop where
  kernel : s'.kernelDirectory = s.kernelDirectory
  current : s'.currentDirectory = s.currentDirectory
  phys : ∀ d, (s'.dirs d).entriesPhysAddr = (s.dirs d).entriesPhysAddr

/-- Two steps that keep the directories. -/
theorem SameDirs.trans {t : Vm} (h : SameDirs s s') (h' : SameDirs s' t) : SameDirs s t :=
  ⟨h'.kernel.trans h.kernel, h'.current.trans h.current, fun d => (h'.phys d).trans (h.phys d)⟩

/-- `get_page` keeps the directories and their physical addresses. -/
theorem getPage_dirs {make : Bool} {dir a p : Nat}
    (h : getPage s virt make dir a = some (p, s')) : SameDirs s s' := by
  unfold getPage at h
  split at h
  · -- no directory
    exact absurd h (by simp)
  · simp only at h
    split at h
    · -- the table is there
      cases h
      exact ⟨rfl, rfl, fun _ => rfl⟩
    · split at h
      · -- a new table: the entry of one directory changes
        rw [Option.bind_eq_some_iff] at h
        obtain ⟨⟨table, phys, s₁⟩, hs₁, h⟩ := h
        simp only at h
        split at h
        · exact absurd h (by simp)
        · cases h
          have hs := kmallocInt_eq hs₁
          refine ⟨by rw [hs], by rw [hs], fun d => ?_⟩
          have hdirs : s₁.dirs = s.dirs := by rw [hs]
          simp only [hdirs]
          by_cases hd : d = dir
          · rw [hd, Function.update_self]
          · rw [Function.update_of_ne hd]
      · -- nothing is made
        cases h
        exact ⟨rfl, rfl, fun _ => rfl⟩

/-- The loop that makes the tables keeps them. -/
theorem tableLoop_dirs (fuel : Nat) (h : tableLoop fuel virt s = some s') : SameDirs s s' := by
  induction fuel generalizing s virt with
  | zero => exact absurd h (by simp [tableLoop])
  | succ fuel ih =>
    rw [tableLoop] at h
    split at h
    · obtain ⟨⟨p, s₁⟩, hs₁, h⟩ := Option.bind_eq_some_iff.mp h
      exact (getPage_dirs hs₁).trans (ih h)
    · cases h
      exact ⟨rfl, rfl, fun _ => rfl⟩

/-- The loop that maps the kernel keeps them. -/
theorem mapLoop_dirs (fuel : Nat) {phys : Nat} (h : mapLoop fuel virt phys s = some s') :
    SameDirs s s' := by
  induction fuel generalizing s virt phys with
  | zero => exact absurd h (by simp [mapLoop])
  | succ fuel ih =>
    rw [mapLoop] at h
    split at h
    · obtain ⟨⟨p, s₁⟩, hs₁, h⟩ := Option.bind_eq_some_iff.mp h
      obtain ⟨hk, hc, hp⟩ := ih h
      exact (getPage_dirs hs₁).trans ⟨hk, hc, hp⟩
    · cases h
      exact ⟨rfl, rfl, fun _ => rfl⟩

/-- The loop that maps the heap keeps them. -/
theorem heapLoop_dirs (fuel : Nat) (h : heapLoop fuel virt s = some s') : SameDirs s s' := by
  induction fuel generalizing s virt with
  | zero => exact absurd h (by simp [heapLoop])
  | succ fuel ih =>
    rw [heapLoop] at h
    split at h
    · obtain ⟨⟨p, s₁⟩, hs₁, h⟩ := Option.bind_eq_some_iff.mp h
      obtain ⟨hk, hc, hp⟩ := ih h
      exact (getPage_dirs hs₁).trans ⟨hk, hc, hp⟩
    · cases h
      exact ⟨rfl, rfl, fun _ => rfl⟩

/-- The directory of the kernel is in use, with its physical address. -/
theorem pagingFinalize_dirs (hlow : kernelVoffset ≤ s.placementAddress)
    (hlt : s.placementAddress + 4096 < 2 ^ 32) (h0 : s.kheap = 0)
    (hfin : pagingFinalize s = some s') :
    s'.currentDirectory = s'.kernelDirectory ∧
      (s'.dirs s'.kernelDirectory).entriesPhysAddr = s'.kernelDirectory - kernelVoffset := by
  unfold pagingFinalize at hfin
  simp only [Option.bind_eq_some_iff] at hfin
  obtain ⟨⟨dir, phys, s₁⟩, hs₁, hfin⟩ := hfin
  simp only at hfin
  split at hfin
  · exact absurd hfin (by simp)
  case isFalse hdir =>
    obtain ⟨s₃, hs₃, hfin⟩ := Option.bind_eq_some_iff.mp hfin
    obtain ⟨s₄, hs₄, hfin⟩ := Option.bind_eq_some_iff.mp hfin
    obtain ⟨s₅, hs₅, rfl⟩ := Option.map_eq_some_iff.mp hfin
    have hmade := (tableLoop_dirs _ hs₃).trans (mapLoop_dirs _ hs₄)
    have hheap := heapLoop_dirs _ hs₅
    rw [switchPageDirectory, if_neg hdir] at hheap
    -- the address that `kmalloc_ap` has reported
    have hphys : phys = dir - kernelVoffset := by
      unfold kmallocInt at hs₁
      rw [if_neg (by simp [h0])] at hs₁
      simp only [Option.some.injEq, Prod.mk.injEq] at hs₁
      obtain ⟨hp, hq, -⟩ := hs₁
      have hbounds : kernelVoffset ≤ dir ∧ dir < 2 ^ 32 := by
        rw [← hp]
        split
        · rw [sub32_of_le (Nat.mod_le _ _) (by omega), frameSize, add32_of_lt (by omega)]
          omega
        · omega
      rw [hp] at hq
      rw [← hq]
      exact sub32_of_le hbounds.1 hbounds.2
    have hkernel : s₅.kernelDirectory = dir := hheap.kernel.trans hmade.kernel
    refine ⟨hheap.current.trans hkernel.symm, ?_⟩
    simp only [hkernel]
    rw [hheap.phys, ← hphys]
    refine (hmade.phys dir).trans ?_
    simp only [Function.update_self]

/-- The entries of the tables that the loop makes are all zero. -/
theorem tableLoop_zero (fuel : Nat) (h : TablesOk s base ((j + 1023) / 1024)) (h0 : s.kheap = 0)
    (hj : j < 2 ^ 18) (hfit : base + 4096 * 256 ≤ kheapStart)
    (hzero : ∀ x, base ≤ x → x < base + 4096 * ((j + 1023) / 1024) → s.paging.pages x = zeroPte)
    (hloop : tableLoop fuel (kernelVoffset + 4096 * j) s = some s') :
    ∀ x, base ≤ x → x < base + 4096 * 256 → s'.paging.pages x = zeroPte := by
  induction fuel generalizing s j with
  | zero => exact absurd hloop (by simp [tableLoop])
  | succ fuel ih =>
    rw [tableLoop] at hloop
    by_cases hlast : j = 2 ^ 18 - 1
    · rw [if_neg (by rw [kernelVoffset]; omega)] at hloop
      cases hloop
      rwa [show (j + 1023) / 1024 = 256 by omega] at hzero
    · have hnext : add32 (kernelVoffset + 4096 * j) frameSize = kernelVoffset + 4096 * (j + 1) := by
        rw [add32_of_lt (by simp only [kernelVoffset, frameSize]; omega), frameSize]
        omega
      rw [if_pos (by rw [kernelVoffset]; omega), hnext] at hloop
      by_cases hmade : j / 1024 < (j + 1023) / 1024
      · rw [getPage_made h hj hmade, Option.bind_some] at hloop
        have hk : (j + 1 + 1023) / 1024 = (j + 1023) / 1024 := by omega
        rw [← hk] at h hzero
        exact ih h h0 (by omega) hzero hloop
      · have hle : (j + 1023) / 1024 + 1 ≤ 256 := by omega
        obtain ⟨s₁, hs₁, hok₁, h0₁, -, hkd₁, -⟩ := getPage_make h h0 (j := j) (by omega)
          (by omega)
          ((Nat.add_le_add_left (Nat.mul_le_mul_left _ hle) _).trans hfit)
        rw [hs₁, Option.bind_some] at hloop
        have hk : (j + 1 + 1023) / 1024 = (j + 1023) / 1024 + 1 := by omega
        -- the new table lies behind those that are made
        have htable := (hok₁.made ((j + 1023) / 1024) (Nat.lt_succ_self _)).1
        have hidx : pageDirectoryIndex (kernelVoffset + 4096 * j) = 768 + (j + 1023) / 1024 := by
          rw [(kernel_index hj).1]
          omega
        have hbase := h.base_le
        rw [kernelVoffset] at hbase
        have hpaging : s₁.paging = clearTable s.paging (base + 4096 * ((j + 1023) / 1024)) := by
          cases getPage_paging hs₁ with
          | inl hsame =>
            have habsent := h.absent _ (le_refl _) (by omega)
            rw [hsame] at htable
            omega
          | inr hclear =>
            rw [hclear, hidx, ← htable, hkd₁]
        rw [← hk] at hok₁
        apply ih (j := j + 1) hok₁ h0₁ (by omega) _ hloop
        intro x hlow hlt
        rw [hk] at hlt
        rw [hpaging]
        have hsize : pageTableSize = 4096 := rfl
        simp only [clearTable]
        by_cases hold : x < base + 4096 * ((j + 1023) / 1024)
        · rw [if_neg (by omega)]
          exact hzero x hlow hold
        · rw [if_pos (by omega)]

/-- The loop that maps the pages leaves the entries behind them alone. -/
theorem mapLoop_behind (fuel : Nat) (h : TablesOk s base 256)
    (hle : s.placementAddress ≤ kheapStart) (hj : j ≤ 2 ^ 16) {phys : Nat}
    (hloop : mapLoop fuel (kernelVoffset + 4096 * j) phys s = some s') {i : Nat}
    (hi : s.placementAddress ≤ kernelVoffset + 4096 * i) :
    s'.paging.pages (base + 4 * i) = s.paging.pages (base + 4 * i) := by
  induction fuel generalizing s j phys with
  | zero => exact absurd hloop (by simp [mapLoop])
  | succ fuel ih =>
    rw [mapLoop] at hloop
    by_cases hlt : kernelVoffset + 4096 * j < s.placementAddress
    · -- this pass maps a page in front of `i`
      have hj' : j < 2 ^ 16 := by
        simp only [kernelVoffset, kheapStart] at hlt hle
        omega
      have hvirt : add32 (kernelVoffset + 4096 * j) frameSize = kernelVoffset + 4096 * (j + 1) := by
        simp only [kernelVoffset, frameSize, add32]
        omega
      rw [if_pos hlt, getPage_made h (by omega) (by omega), Option.bind_some, hvirt] at hloop
      simp only at hloop
      have h₁ : TablesOk { s with
          paging := mapPage s.paging (base + 4 * j) false false phys } base 256 :=
        h.congr rfl rfl rfl rfl
      refine (ih h₁ hle (by omega) hloop hi).trans ?_
      simp only [mapPage]
      rw [Function.update_of_ne (by omega)]
    · -- all of the kernel is mapped
      rw [if_neg hlt] at hloop
      cases hloop
      rfl

/-- Allocations only add marks. -/
theorem isUsed_allocPage {s : Paging} {f : Nat} (h : isUsed s.pool f = true) (p : Nat)
    (k w : Bool) : isUsed (allocPage s p k w).pool f = true := by
  obtain ⟨-, he⟩ | ⟨-, -, he⟩ | ⟨g, -, -, -, he⟩ := allocPage_cases s p k w
  · rwa [he]
  · rwa [he]
  · rw [he, isUsed_setFrame, h]
    rfl

/-- `alloc_page` keeps the number of frames. -/
theorem nframes_allocPage (s : Paging) (p : Nat) (k w : Bool) :
    (allocPage s p k w).pool.nframes = s.pool.nframes := by
  obtain ⟨-, he⟩ | ⟨-, -, he⟩ | ⟨g, -, -, -, he⟩ := allocPage_cases s p k w
  · rw [he]
  · rw [he]
  · rw [he]
    exact nframes_setFrame

/-- Frames that are in use stay so while the heap is mapped. -/
theorem heapLoop_used (fuel : Nat) (h : TablesOk s base 256) (hj : j ≤ 256)
    (hloop : heapLoop fuel (kernelVoffset + 4096 * (2 ^ 16 + j)) s = some s') :
    s'.paging.pool.nframes = s.paging.pool.nframes ∧
      ∀ f, isUsed s.paging.pool f = true → isUsed s'.paging.pool f = true := by
  induction fuel generalizing s j with
  | zero => exact absurd hloop (by simp [heapLoop])
  | succ fuel ih =>
    rw [heapLoop] at hloop
    by_cases hlast : j = 256
    · -- the heap is mapped
      rw [if_neg (by rw [hlast, kernelVoffset, kheapStart, kheapInitialSize]; decide)] at hloop
      cases hloop
      exact ⟨rfl, fun _ h => h⟩
    · -- one more page, for which a frame may be taken
      have hvirt : add32 (kernelVoffset + 4096 * (2 ^ 16 + j)) frameSize =
          kernelVoffset + 4096 * (2 ^ 16 + (j + 1)) := by
        simp only [kernelVoffset, frameSize, add32]
        omega
      rw [if_pos (by simp only [kernelVoffset, kheapStart, kheapInitialSize]; omega),
        getPage_made h (by omega) (by omega), Option.bind_some, hvirt] at hloop
      simp only at hloop
      have h₁ : TablesOk { s with
          paging := allocPage s.paging (base + 4 * (2 ^ 16 + j)) false true } base 256 :=
        h.congr rfl rfl rfl rfl
      obtain ⟨hn, hused⟩ := ih (j := j + 1) h₁ (by omega) hloop
      refine ⟨hn.trans (nframes_allocPage _ _ _ _), fun f hf => ?_⟩
      exact hused f (isUsed_allocPage hf _ _ _)

/-- The pages of the heap, when a frame is left in the end. -/
theorem heapLoop_backed (fuel : Nat) (h : TablesOk s base 256) {n : Nat}
    (hb : Backed base n s.paging) (hn : n ≤ 2 ^ 16) (hj : j ≤ 256)
    (hloop : heapLoop fuel (kernelVoffset + 4096 * (2 ^ 16 + j)) s = some s')
    (hfree : ∃ g < s'.paging.pool.nframes, isUsed s'.paging.pool g = false) :
    Backed base n s'.paging := by
  induction fuel generalizing s j with
  | zero => exact absurd hloop (by simp [heapLoop])
  | succ fuel ih =>
    have hloop' := hloop
    rw [heapLoop] at hloop
    by_cases hlast : j = 256
    · rw [if_neg (by rw [hlast, kernelVoffset, kheapStart, kheapInitialSize]; decide)] at hloop
      cases hloop
      exact hb
    · have hvirt : add32 (kernelVoffset + 4096 * (2 ^ 16 + j)) frameSize =
          kernelVoffset + 4096 * (2 ^ 16 + (j + 1)) := by
        simp only [kernelVoffset, frameSize, add32]
        omega
      rw [if_pos (by simp only [kernelVoffset, kheapStart, kheapInitialSize]; omega),
        getPage_made h (by omega) (by omega), Option.bind_some, hvirt] at hloop
      simp only at hloop
      -- the frame that is left was free before
      have hbelow : PageCall.Below s.paging (.alloc (base + 4 * (2 ^ 16 + j)) false true) := by
        obtain ⟨hnframes, hused⟩ := heapLoop_used (fuel + 1) h hj hloop'
        obtain ⟨g, hg, hgfree⟩ := hfree
        rw [hnframes] at hg
        have hunused : isUsed s.paging.pool g = false := by
          rw [← Bool.not_eq_true]
          intro h
          rw [hused g h] at hgfree
          exact absurd hgfree (by decide)
        obtain ⟨f, hf, hlt, -, -⟩ := firstFreeFrame_of_free hg hunused
        intro _ f' hf'
        obtain rfl := Option.some.inj (hf.symm.trans hf')
        exact hlt
      have hb₁ := hb.alloc (i := 2 ^ 16 + j) (by omega) (by omega) hbelow
      have h₁ : TablesOk { s with
          paging := allocPage s.paging (base + 4 * (2 ^ 16 + j)) false true } base 256 :=
        h.congr rfl rfl rfl rfl
      exact ih (j := j + 1) h₁ hb₁ (by omega) hloop

/-- The loops of `paging_finalize`: `t₁` has all tables, `t₂` the `m` pages that are mapped, and
    `t₃` the pages of the heap. -/
structure Loops (s : Vm) (base m : Nat) (t₁ t₂ t₃ : Vm) : Prop where
  tables : TablesOk t₁ base 256
  empty : ∀ x, base ≤ x → x < base + 4096 * 256 → t₁.paging.pages x = zeroPte
  placement : t₁.placementAddress = kernelVoffset + 4096 * m
  pos : 0 < m
  le : m ≤ 2 ^ 16
  pool : t₁.paging.pool = setFrame s.paging.pool 0
  map : ∃ t, mapLoop (2 ^ 20) (kernelVoffset + 4096 * 0) (4096 * 0) t₁ = some t ∧
    t₂.paging = t.paging
  tables₂ : TablesOk t₂ base 256
  mapped : MappedTo t₂.paging base m
  placement₂ : t₂.placementAddress = t₁.placementAddress
  nframes₂ : t₂.paging.pool.nframes = s.paging.pool.nframes
  heap : heapLoop (2 ^ 20) (kernelVoffset + 4096 * (2 ^ 16 + 0)) t₂ = some t₃
  tables₃ : TablesOk t₃ base 256
  placement₃ : t₃.placementAddress = t₂.placementAddress

/-- `paging_finalize` as its allocations and its three loops. -/
theorem pagingFinalize_loops {stop : Nat} (hgrants : GrantsOk s) (h0 : s.kheap = 0)
    (hstop : stop = ((pageDirSize, true) :: List.replicate 256 (pageTableSize, true)).foldl bump
      s.placementAddress)
    (hfit : stop ≤ kheapStart) (hmem : stop ≤ kernelVoffset + 4096 * s.paging.pool.nframes)
    (hfin : pagingFinalize s = some s') :
    ∃ base m t₁ t₂ t₃, Loops s base m t₁ t₂ t₃ ∧ stop = kernelVoffset + 4096 * m ∧
      s' = { t₃ with kheap := kheapStart } := by
  rw [List.foldl_cons, foldl_tables] at hstop
  unfold pagingFinalize at hfin
  simp only [Option.bind_eq_some_iff] at hfin
  obtain ⟨⟨dir, phys, s₁⟩, hs₁, hfin⟩ := hfin
  simp only at hfin
  split at hfin
  · exact absurd hfin (by simp)
  case isFalse hdir =>
    obtain ⟨s₃, hs₃, hfin⟩ := Option.bind_eq_some_iff.mp hfin
    obtain ⟨s₄, hs₄, hfin⟩ := Option.bind_eq_some_iff.mp hfin
    obtain ⟨s₅, hs₅, hfin⟩ := Option.map_eq_some_iff.mp hfin
    let s₀ : Vm := { s with paging := { s.paging with pool := setFrame s.paging.pool 0 } }
    have hdirfit : bump s₀.placementAddress (pageDirSize, true) ≤ kheapStart := by
      refine le_trans ?_ hfit
      rw [hstop]
      exact (le_alignUp _ true).trans (Nat.le_add_right _ _)
    obtain ⟨t, ht, heq, hp₁, hok₁⟩ := kmallocInt_spec (s := s₀) (hgrants.congr rfl rfl) h0
      pageDirSize true true hdirfit
    have hsame : some (dir, phys, s₁) =
        some (alignUp s₀.placementAddress true, alignUp s₀.placementAddress true - kernelVoffset, t) :=
      hs₁.symm.trans ht
    rw [Option.some.injEq, Prod.mk.injEq, Prod.mk.injEq] at hsame
    obtain ⟨-, -, rfl⟩ := hsame
    -- the empty directory
    let base := alignUp s₁.placementAddress true
    have hbase : stop = base + 4096 * 256 := by
      rw [hstop]
      simp only [base, hp₁, s₀]
    let s₂ : Vm :=
      { s₁ with
        dirs := Function.update s₁.dirs dir { zeroDir with entriesPhysAddr := phys }
        kernelDirectory := dir }
    have htables : TablesOk s₂ base 0 := by
      refine ⟨hok₁.congr rfl rfl, hdir, ?_, ?_, ?_, ?_, ?_⟩
      · simp only [base, alignUp, if_true]
        exact Nat.mul_mod_left _ _
      · exact hok₁.low.trans (le_alignUp _ true)
      · rw [Nat.mul_zero, Nat.add_zero]
      · exact fun i hi => absurd hi (Nat.not_lt_zero i)
      · intro i _ _
        simp only [s₂, Function.update_self, zeroDir]
    have h0₂ : s₂.kheap = 0 := by
      simp only [s₂]
      rw [heq]
      exact h0
    have hpool₂ : s₂.paging.pool = setFrame s.paging.pool 0 := by
      simp only [s₂]
      rw [heq]
    have hnframes₂ : s₂.paging.pool.nframes = s.paging.pool.nframes := by
      rw [hpool₂, nframes_setFrame]
    -- its tables
    have hloop₃ : tableLoop (2 ^ 20) (kernelVoffset + 4096 * 0) s₂ = some s₃ := hs₃
    obtain ⟨t₃, ht₃, htables₃, -, hp₃, hkd₃, hpool₃⟩ := tableLoop_spec (j := 0) (2 ^ 20) htables h0₂
      (by omega) (fun hpos => absurd hpos (by decide)) (by omega) (by rw [← hbase]; exact hfit)
    obtain rfl : t₃ = s₃ := Option.some.inj (ht₃.symm.trans hloop₃)
    have hzero := tableLoop_zero (j := 0) (2 ^ 20) htables h0₂ (by omega)
      (by rw [← hbase]; exact hfit) (fun x hlow hlt => by omega) hloop₃
    -- the pages that are mapped
    have hle₃ : t₃.placementAddress ≤ kheapStart := by
      rw [hp₃, ← hbase]
      exact hfit
    have hloop₄ : mapLoop (2 ^ 20) (kernelVoffset + 4096 * 0) (4096 * 0) t₃ = some s₄ := hs₄
    obtain ⟨t₄, n, ht₄, htables₄, hm₄, hn₄, hend₄, hp₄, -, hpool₄⟩ := mapLoop_spec (j := 0)
      (2 ^ 20) htables₃ hle₃ (by rw [hp₃, ← hbase, hpool₃, hnframes₂]; exact hmem)
      ⟨fun i hi => absurd hi (Nat.not_lt_zero i), fun i hi => absurd hi (Nat.not_lt_zero i)⟩
      (by omega) (by omega)
    obtain rfl : t₄ = s₄ := Option.some.inj (ht₄.symm.trans hloop₄)
    -- they end where the tables end
    have hmod := htables.base_mod
    have hlow := htables.base_le
    obtain ⟨m, hm⟩ : ∃ m, base + 4096 * 256 = kernelVoffset + 4096 * m :=
      ⟨(base + 4096 * 256 - kernelVoffset) / 4096, by rw [kernelVoffset] at hlow ⊢; omega⟩
    have hpm : t₃.placementAddress = kernelVoffset + 4096 * m := hp₃.trans hm
    have hmn : m ≤ n := by omega
    -- the pages of the heap
    have hswitch : switchPageDirectory t₄ dir = { t₄ with currentDirectory := dir } := if_neg hdir
    have htables₅ : TablesOk (switchPageDirectory t₄ dir) base 256 := by
      rw [hswitch]
      exact htables₄.congr rfl rfl rfl rfl
    have hm₅ : MappedTo (switchPageDirectory t₄ dir).paging base m := by
      rw [hswitch]
      exact ⟨fun i hi => hm₄.pages i (by omega), fun f hf => hm₄.used f (by omega)⟩
    have hloop₅ : heapLoop (2 ^ 20) (kernelVoffset + 4096 * (2 ^ 16 + 0))
        (switchPageDirectory t₄ dir) = some s₅ := hs₅
    obtain ⟨t₅, ht₅, htables₆, -, hp₆, -⟩ := heapLoop_spec (j := 0) (2 ^ 20) htables₅ hm₅
      (by omega) (by omega) (by omega)
    obtain rfl : t₅ = s₅ := Option.some.inj (ht₅.symm.trans hloop₅)
    refine ⟨base, m, t₃, switchPageDirectory t₄ dir, t₅,
      ⟨htables₃, fun x hlow hlt => hzero x hlow (by omega), hpm, ?_, by omega, ?_, ⟨t₄, hloop₄, ?_⟩,
        htables₅, hm₅, ?_, ?_, hloop₅, htables₆, hp₆⟩, hbase.trans hm, hfin.symm⟩
    · rw [kernelVoffset] at hlow hm
      omega
    · rw [hpool₃, hpool₂]
    · rw [hswitch]
    · rw [hswitch]
      exact hp₄
    · rw [hswitch]
      exact hpool₄.trans (hpool₃ ▸ hnframes₂)

/-- **After `paging_finalize`** the pages behind those that it maps are empty, but for those of the
    heap, which have frames of their own. -/
theorem Loops.backed {m : Nat} {t₁ t₂ t₃ : Vm} (h : Loops s base m t₁ t₂ t₃)
    (hnframes : s.paging.pool.nframes ≤ 2 ^ 20)
    (hfree : ∃ g < t₃.paging.pool.nframes, isUsed t₃.paging.pool g = false) :
    Backed base m t₃.paging := by
  have hlow := h.tables.base_le
  have hplace := h.placement
  have hm := h.le
  obtain ⟨t, hmap, hsame⟩ := h.map
  have hempty : ∀ i, m ≤ i → i < 2 ^ 18 → t₂.paging.pages (base + 4 * i) = zeroPte := by
    intro i hi hlt
    rw [hsame, mapLoop_behind (j := 0) (2 ^ 20) h.tables
      (by rw [hplace, kernelVoffset, kheapStart]; omega) (by omega) hmap (by omega)]
    exact h.empty _ (by omega) (by omega)
  have hb : Backed base m t₂.paging := by
    refine ⟨h.mapped, h.pos, ?_, fun i hi hlt => ?_, fun i hi hlt => ?_, fun i hi hlt => ?_,
      fun i j hi hlt _ _ => ?_⟩
    · rw [h.nframes₂]
      exact hnframes
    · -- the entries behind the kernel are still empty
      rw [hempty i hi hlt]
      decide
    · rw [hempty i hi hlt]
      exact fun h => absurd rfl h
    · rw [hempty i hi hlt]
      exact fun h => absurd rfl h
    · rw [hempty i hi hlt]
      exact fun h => absurd rfl h
  exact heapLoop_backed (j := 0) (2 ^ 20) h.tables₂ hb (by omega) (by omega) h.heap hfree

/-- What `paging_finalize` leaves behind, when a frame is left. -/
theorem pagingFinalize_backed {stop : Nat} (hgrants : GrantsOk s) (h0 : s.kheap = 0)
    (hstop : stop = ((pageDirSize, true) :: List.replicate 256 (pageTableSize, true)).foldl bump
      s.placementAddress)
    (hfit : stop ≤ kheapStart) (hmem : stop ≤ kernelVoffset + 4096 * s.paging.pool.nframes)
    (hnframes : s.paging.pool.nframes ≤ 2 ^ 20) (hfin : pagingFinalize s = some s')
    (hfree : ∃ g < s'.paging.pool.nframes, isUsed s'.paging.pool g = false) :
    ∃ base n, TablesOk s' base 256 ∧ s'.placementAddress = kernelVoffset + 4096 * n ∧ n ≤ 2 ^ 16 ∧
      Backed base n s'.paging := by
  obtain ⟨base, n, t₁, t₂, t₃, hloops, -, rfl⟩ :=
    pagingFinalize_loops hgrants h0 hstop hfit hmem hfin
  exact ⟨base, n, hloops.tables₃.congr rfl rfl rfl rfl,
    hloops.placement₃.trans (hloops.placement₂.trans hloops.placement), hloops.le,
    hloops.backed hnframes hfree⟩

/-! ## The frames that are left -/

/-- The frames from `b` on are free. -/
def FreeFrom (b : Nat) (s : FramePool) : Prop := ∀ f, b ≤ f → isUsed s f = false

/-- Taking a frame below a bound leaves those above it free. -/
theorem FreeFrom.setFrame {s : FramePool} {b f : Nat} (h : FreeFrom b s) (hf : f < b) :
    FreeFrom b (setFrame s f) := by
  intro g hg
  rw [isUsed_setFrame, h g hg]
  simp only [Bool.false_or, decide_eq_false_iff_not]
  omega

/-- The search stops at the first free frame. -/
theorem FreeFrom.allocPage {s : Paging} {b : Nat} (h : FreeFrom b s.pool) (p : Nat) (k w : Bool) :
    FreeFrom (b + 1) (allocPage s p k w).pool := by
  have hnext : FreeFrom (b + 1) s.pool := fun f hf => h f (by omega)
  obtain ⟨-, he⟩ | ⟨-, -, he⟩ | ⟨f, -, hf, -, he⟩ := allocPage_cases s p k w
  · -- the entry had a frame before, or there is none left
    rw [he]
    exact hnext
  · rw [he]
    exact hnext
  · -- the first free frame lies at or below the bound
    rw [he]
    apply hnext.setFrame
    obtain ⟨f', hf', -, hbelow⟩ | ⟨hnone, -⟩ := firstFreeFrame_spec s.pool
    · obtain rfl := Option.some.inj (hf.symm.trans hf')
      by_contra hlt
      have := hbelow b (by omega)
      rw [h b le_rfl] at this
      exact absurd this (by decide)
    · rw [hf] at hnone
      exact absurd hnone (by simp)

/-- The loop that maps the pages marks their frames alone. -/
theorem FreeFrom.mapLoop (fuel : Nat) (h : TablesOk s base 256) {b : Nat}
    (hb : FreeFrom b s.paging.pool) (hle : s.placementAddress ≤ kernelVoffset + 4096 * b)
    (hlow : b ≤ 2 ^ 16) (hj : j ≤ 2 ^ 16)
    (hloop : mapLoop fuel (kernelVoffset + 4096 * j) (4096 * j) s = some s') :
    FreeFrom b s'.paging.pool := by
  induction fuel generalizing s j with
  | zero => exact absurd hloop (by simp [Toutatis.mapLoop])
  | succ fuel ih =>
    rw [Toutatis.mapLoop] at hloop
    by_cases hlt : kernelVoffset + 4096 * j < s.placementAddress
    · -- this pass takes the frame of its page
      have hvirt : add32 (kernelVoffset + 4096 * j) frameSize = kernelVoffset + 4096 * (j + 1) := by
        simp only [kernelVoffset, frameSize, add32]
        omega
      have hphys : add32 (4096 * j) frameSize = 4096 * (j + 1) := by
        simp only [frameSize, add32]
        omega
      rw [if_pos hlt, getPage_made h (by omega) (by omega), Option.bind_some, hvirt, hphys] at hloop
      simp only at hloop
      have h₁ : TablesOk { s with
          paging := mapPage s.paging (base + 4 * j) false false (4096 * j) } base 256 :=
        h.congr rfl rfl rfl rfl
      apply ih h₁ _ hle (by omega) hloop
      simp only [mapPage, frameSize, Nat.mul_div_cancel_left j (show 0 < 4096 by decide)]
      split
      · exact hb.setFrame (by omega)
      · exact hb
    · -- all of the kernel is mapped
      rw [if_neg hlt] at hloop
      cases hloop
      exact hb

/-- Each page of the heap takes at most one frame more. -/
theorem FreeFrom.heapLoop (fuel : Nat) (h : TablesOk s base 256) {b : Nat}
    (hb : FreeFrom b s.paging.pool) (hj : j ≤ 256)
    (hloop : heapLoop fuel (kernelVoffset + 4096 * (2 ^ 16 + j)) s = some s') :
    FreeFrom (b + (256 - j)) s'.paging.pool := by
  induction fuel generalizing s j b with
  | zero => exact absurd hloop (by simp [Toutatis.heapLoop])
  | succ fuel ih =>
    rw [Toutatis.heapLoop] at hloop
    by_cases hlast : j = 256
    · -- the heap is mapped
      rw [if_neg (by rw [hlast, kernelVoffset, kheapStart, kheapInitialSize]; decide)] at hloop
      cases hloop
      intro f hf
      exact hb f (by omega)
    · -- every page takes at most one frame, so that the bound moves by one
      have hvirt : add32 (kernelVoffset + 4096 * (2 ^ 16 + j)) frameSize =
          kernelVoffset + 4096 * (2 ^ 16 + (j + 1)) := by
        simp only [kernelVoffset, frameSize, add32]
        omega
      rw [if_pos (by simp only [kernelVoffset, kheapStart, kheapInitialSize]; omega),
        getPage_made h (by omega) (by omega), Option.bind_some, hvirt] at hloop
      simp only at hloop
      have h₁ : TablesOk { s with
          paging := Toutatis.allocPage s.paging (base + 4 * (2 ^ 16 + j)) false true } base 256 :=
        h.congr rfl rfl rfl rfl
      have hrest := ih (j := j + 1) h₁ (hb.allocPage (base + 4 * (2 ^ 16 + j)) false true)
        (by omega) hloop
      intro f hf
      exact hrest f (by omega)

/-- **The frames after `paging_finalize`.** When none is marked before, those behind the pages that
    are mapped and the pages of the heap are free. -/
theorem Loops.freeFrom {m : Nat} {t₁ t₂ t₃ : Vm} (h : Loops s base m t₁ t₂ t₃)
    (hfree : FreeFrom 0 s.paging.pool) : FreeFrom (m + 256) t₃.paging.pool := by
  obtain ⟨t, hmap, hsame⟩ := h.map
  have hpos := h.pos
  have hstart : FreeFrom m t₁.paging.pool := by
    rw [h.pool]
    exact FreeFrom.setFrame (fun f _ => hfree f (Nat.zero_le f)) hpos
  have hmapped : FreeFrom m t₂.paging.pool := by
    rw [hsame]
    exact hstart.mapLoop (j := 0) (2 ^ 20) h.tables (le_of_eq h.placement) h.le (by omega) hmap
  exact hmapped.heapLoop (j := 0) (2 ^ 20) h.tables₂ (by omega) h.heap

end

/-! ## Runs -/

/-- The calls on entries are `alloc_page`, while a frame is free, and `free_page`, for addresses
    behind those that `paging_finalize` has mapped. -/
def SpaceCall.Behind (vm : Vm) (s : Spaces) : SpaceCall → Prop
  | .entry c =>
    (∃ v, vm.placementAddress ≤ v ∧ v < 2 ^ 32 ∧
      getPage vm v false vm.kernelDirectory 0 = some (c.page, vm)) ∧
    match c with
    | .alloc p isKernel isWriteable => PageCall.Below s.vm.paging (.alloc p isKernel isWriteable)
    | .map _ _ _ _ => False
    | .free _ => True
  | _ => True

section

variable {vm : Vm} {s s' : Spaces} {base n dir : Nat}

/-- A clone makes no table. -/
theorem clone_paging (h : HalfOk vm s) {a : Nat} (hdir : dir ∈ s.existing) (hfresh : FreshDir s a)
    (hlower : ∀ i < 768, (s.vm.dirs dir).tables i = 0 ∨
      (s.vm.dirs dir).tables i = (s.vm.dirs s.vm.kernelDirectory).tables i) {heap : Nat → Nat}
    (hexec : SpaceCall.exec s (.clone dir a heap) = some s') : s'.vm.paging = s.vm.paging := by
  have hmem : s.vm.kernelDirectory ∈ s.existing := by
    rw [h.kernel]
    exact h.kernel_mem
  have hne : ∀ d ∈ s.existing, d ≠ a := by
    intro d hd heq
    have := hfresh.dirs d hd
    rw [heq, pageDirSize] at this
    omega
  have hshared : OnlyShared s.vm dir := by
    intro i hi
    by_cases hhalf : i < 768
    · exact hlower i hhalf
    · right
      rw [(h.shared dir hdir i (by omega) hi).1, (h.shared _ hmem i (by omega) hi).1]
  have ha : a ≠ 0 := by
    have hlow := hfresh.low
    rw [kheapStart] at hlow
    omega
  unfold SpaceCall.exec at hexec
  rw [Option.map_eq_some_iff] at hexec
  obtain ⟨r, hr, rfl⟩ := hexec
  -- the call has returned, so the heap's address has a physical one
  have hphys : ∃ phys, physOf s.vm a = some phys := by
    unfold clonePageDirectory at hr
    rw [Option.bind_eq_some_iff] at hr
    obtain ⟨r₁, hr₁, -⟩ := hr
    rw [kmallocInt, if_pos h.kheap, if_pos rfl, Option.map_eq_some_iff] at hr₁
    obtain ⟨phys, hphys, -⟩ := hr₁
    exact ⟨phys, hphys⟩
  obtain ⟨phys, hphys⟩ := hphys
  obtain ⟨d, hcall, -⟩ := clonePageDirectory_spec h.kheap hphys ha (hne dir hdir) (hne _ hmem)
    hshared heap
  rw [hr, Option.some.injEq] at hcall
  rw [hcall]

/-- **One call.** -/
theorem Backed.spaceCall (h : HalfOk vm s) (htables : TablesOk vm base 256)
    (hcovered : Covered vm 256) (hkheap : vm.kheap ≠ 0)
    (hplace : vm.placementAddress = kernelVoffset + 4096 * n) (hb : Backed base n s.vm.paging)
    {c : SpaceCall} (hc : c.Ok s) (hbehind : c.Behind vm s) (hexec : c.exec s = some s') :
    Backed base n s'.vm.paging := by
  cases c with
  | clone d a heap =>
    rw [clone_paging h hc.1 hc.2.1 hc.2.2 hexec]
    exact hb
  | page virt make d a =>
    obtain ⟨hd, hlow, hvirt⟩ := hc
    obtain ⟨p, hcall⟩ := h.getPage_eq hd hlow hvirt make (a := a)
    unfold SpaceCall.exec at hexec
    simp only [hcall, Option.map_some, Option.some.injEq] at hexec
    rw [← hexec]
    exact hb
  | entry c =>
    obtain ⟨⟨v, hv, hlt, hpage⟩, hkind⟩ := hbehind
    -- the entry of the page behind the first `n`
    have hentry : ∃ i, n ≤ i ∧ i < 2 ^ 18 ∧ c.page = base + 4 * i := by
      refine ⟨kernelPage v, ?_, kernelPage_lt hlt, ?_⟩
      · rw [kernelPage]
        omega
      · have hhalf := halfOk_start hcovered hkheap
        have hsame := hhalf.getPage_pages htables (List.mem_singleton.mpr rfl) (v := v) (by omega)
          hlt false 0
        have hp : some (c.page, vm) = some (base + 4 * kernelPage v, vm) := hpage.symm.trans hsame
        rw [Option.some.injEq, Prod.mk.injEq] at hp
        exact hp.1
    obtain ⟨i, hi, hi', hpage⟩ := hentry
    unfold SpaceCall.exec at hexec
    cases c with
    | alloc p k w =>
      obtain rfl : p = base + 4 * i := hpage
      obtain rfl := Option.some.inj hexec
      exact hb.alloc hi hi' hkind
    | map p k w phys => exact hkind.elim
    | free p =>
      obtain rfl : p = base + 4 * i := hpage
      obtain rfl := Option.some.inj hexec
      exact hb.free hi hi'

/-- Different pages have different frames. -/
theorem Backed.apart (hb : Backed base n s.vm.paging) {i j : Nat} (hi : i < 2 ^ 18)
    (hj : j < 2 ^ 18) (hpi : (s.vm.paging.pages (base + 4 * i)).present = true)
    (hpj : (s.vm.paging.pages (base + 4 * j)).present = true)
    (heq : (s.vm.paging.pages (base + 4 * i)).frame = (s.vm.paging.pages (base + 4 * j)).frame) :
    i = j := by
  -- the first `n` pages have the first `n` frames
  have hfirst : ∀ i, i < n → (s.vm.paging.pages (base + 4 * i)).frame = i := by
    intro i hi
    rw [hb.pages i hi]
    rfl
  by_cases hin : i < n
  · by_cases hjn : j < n
    · rw [hfirst i hin, hfirst j hjn] at heq
      exact heq
    · have hnz := (hb.present j (by omega) hj).mp hpj
      have hhigh := hb.held_high j (by omega) hj hnz
      rw [hfirst i hin] at heq
      omega
  · have hnz := (hb.present i (by omega) hi).mp hpi
    by_cases hjn : j < n
    · have hhigh := hb.held_high i (by omega) hi hnz
      rw [hfirst j hjn] at heq
      omega
    · exact hb.held_once i j (by omega) hi (by omega) hj hnz heq

/-- **The kernel's addresses stand for different memory.** After `paging_finalize`, when it leaves a
    frame free, and any run of clones, pages and calls of `alloc_page` and `free_page` for addresses
    behind those of the start, no two addresses of the kernel's half are translated to the same
    physical address, whatever two directories they are used in. -/
theorem kernel_addresses_apart {s₀ : Vm} {stop : Nat} {calls : List SpaceCall} {t : Spaces}
    (hgrants : GrantsOk s₀) (hheap : s₀.kheap = 0)
    (hstop : stop = ((pageDirSize, true) :: List.replicate 256 (pageTableSize, true)).foldl bump
      s₀.placementAddress)
    (hfit : stop ≤ kheapStart) (hmem : stop ≤ kernelVoffset + 4096 * s₀.paging.pool.nframes)
    (hnframes : s₀.paging.pool.nframes ≤ 2 ^ 20) (hfin : pagingFinalize s₀ = some vm)
    (hfree : ∃ g < vm.paging.pool.nframes, isUsed vm.paging.pool g = false)
    (hcalls : Each SpaceCall.exec (fun s c => c.Ok s ∧ c.Behind vm s) (Spaces.start vm) calls)
    (ht : execAll SpaceCall.exec (Spaces.start vm) calls = some t) {dir dir' : Nat}
    (hdir : dir ∈ t.existing) (hdir' : dir' ∈ t.existing) {v v' x : Nat}
    (hv : kernelVoffset ≤ v ∧ v < 2 ^ 32) (hv' : kernelVoffset ≤ v' ∧ v' < 2 ^ 32)
    (hx : translate t.vm dir v = some x) (hx' : translate t.vm dir' v' = some x) : v = v' := by
  obtain ⟨hcovered, hkheap⟩ := pagingFinalize_covered hfin
  obtain ⟨base, n, htables, hplace, -, hb⟩ :=
    pagingFinalize_backed hgrants hheap hstop hfit hmem hnframes hfin hfree
  have hstep : ∀ (s : Spaces) (c : SpaceCall) (s' : Spaces),
      HalfOk vm s ∧ Backed base n s.vm.paging → c.Ok s ∧ c.Behind vm s → c.exec s = some s' →
      HalfOk vm s' ∧ Backed base n s'.vm.paging := by
    intro s c s' h hc hs'
    obtain ⟨s'', hs'', h'⟩ := h.1.exec hc.1
    obtain rfl : s'' = s' := Option.some.inj (hs''.symm.trans hs')
    exact ⟨h', Backed.spaceCall h.1 htables hcovered hkheap hplace h.2 hc.1 hc.2 hs'⟩
  obtain ⟨h, hb⟩ := inv_of_execAll hstep ⟨halfOk_start hcovered hkheap, hb⟩ hcalls ht
  have hentry : ∀ {dir v}, dir ∈ t.existing → kernelVoffset ≤ v ∧ v < 2 ^ 32 →
      translate t.vm dir v = some x →
      (t.vm.paging.pages (base + 4 * kernelPage v)).present = true ∧
        x = (t.vm.paging.pages (base + 4 * kernelPage v)).frame * 4096 + v % 4096 := by
    intro dir v hdir hv hx
    rw [h.translate_pages htables hdir hv.1 hv.2] at hx
    simp only at hx
    split at hx
    case isTrue hpresent => exact ⟨hpresent, (Option.some.inj hx).symm⟩
    case isFalse => exact absurd hx (by simp)
  obtain ⟨hpv, hxv⟩ := hentry hdir hv hx
  obtain ⟨hpv', hxv'⟩ := hentry hdir' hv' hx'
  have hpage : kernelPage v = kernelPage v' :=
    hb.apart (kernelPage_lt hv.2) (kernelPage_lt hv'.2) hpv hpv' (by omega)
  rw [kernelPage, kernelPage] at hpage
  rw [kernelVoffset] at hpage hv hv'
  omega

end

/-- Of the 8192 frames of a machine of 32 MiB, 771 lie behind the kernel and 256 behind the heap. -/
theorem smallVm_free : ∃ s, pagingFinalize smallVm = some s ∧ s.paging.pool.nframes = 8192 ∧
    FreeFrom 1027 s.paging.pool := by
  obtain ⟨s, base, n, hfin, -, -, hnframes, -⟩ :=
    pagingFinalize_spec smallVm_grants rfl smallVm_stop (by decide) (by decide)
  obtain ⟨base', m, t₁, t₂, t₃, hloops, hm, hs⟩ :=
    pagingFinalize_loops smallVm_grants rfl smallVm_stop (by decide) (by decide) hfin
  have hclear : FreeFrom 0 smallVm.paging.pool := by
    intro f _
    simp only [smallVm]
    rw [isUsed_pagingInit_eq]
    simp
  refine ⟨s, hfin, hnframes.trans (by decide), fun f hf => ?_⟩
  rw [hs]
  exact hloops.freeFrom hclear f (by rw [kernelVoffset] at hm; omega)

/-- Frames are left there. -/
theorem kernel_addresses_apart_small : ∃ s, pagingFinalize smallVm = some s ∧
    ∀ v v' x, kernelVoffset ≤ v ∧ v < 2 ^ 32 → kernelVoffset ≤ v' ∧ v' < 2 ^ 32 →
      translate s s.kernelDirectory v = some x → translate s s.kernelDirectory v' = some x →
      v = v' := by
  obtain ⟨s, hfin, hnframes, hfrom⟩ := smallVm_free
  have hleft : ∃ g < s.paging.pool.nframes, isUsed s.paging.pool g = false :=
    ⟨8191, by omega, hfrom 8191 (by omega)⟩
  have hcalls : Each SpaceCall.exec (fun t c => c.Ok t ∧ c.Behind s t) (Spaces.start s) [] :=
    trivial
  have hdir : s.kernelDirectory ∈ (Spaces.start s).existing := List.mem_singleton.mpr rfl
  refine ⟨s, hfin, fun v v' x hv hv' hx hx' => ?_⟩
  exact kernel_addresses_apart smallVm_grants rfl smallVm_stop (by decide) (by decide) (by decide)
    hfin hleft hcalls rfl hdir hdir hv hv' hx hx'

end Toutatis
