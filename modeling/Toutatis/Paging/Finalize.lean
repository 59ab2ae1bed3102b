import Toutatis.Paging.Bitmap
import Toutatis.Paging.Words

/-!
# `paging_finalize` in one memory

The bitmap lies in front of the directory of the kernel and the tables of its half, and all of them
below `placement_address`. As long as every bit that is set or cleared is one of the bitmap, they
stay apart: `EntryCall.Inside` is this condition for the calls on entries, and `TablesAt` says what
the words of the directory hold.

## Key results

- `EntryCall.word_run`: the words that a call on an entry leaves as they are
- `pagingFinalize_ready`: what `paging_finalize` leaves, when there is memory enough
-/

namespace Toutatis

open ByteMem

/-! ## Calls that stay in the bitmap -/

/-- The number of frames whose bits lie in whole words of the bitmap. -/
def PagedMem.bits (s : PagedMem) : Nat := s.nframes / 32 * 32

/-- Every bit that the call sets or clears is one of the bitmap. -/
def EntryCall.Inside (s : PagedMem) : EntryCall → Prop
  | .alloc page _ _ => (s.pte page).frame = 0 → ∃ f < s.bits, isUsed s.pool f = false
  | .map _ _ _ phys => phys / frameSize < s.bits ∨ s.nframes ≤ phys / frameSize
  | .free page => (s.pte page).frame % 32 = 0 → (s.pte page).frame < s.bits

/-- The word at an address is none of the bitmap. -/
def PagedMem.OffBitmap (s : PagedMem) (a : Nat) : Prop :=
  a / 4 < s.frames / 4 ∨ s.frames / 4 + s.nframes / 32 ≤ a / 4

section

variable {s t : PagedMem} {a f page : Nat}

/-- A frame below another one that is free in the bitmap is found. -/
theorem firstFreeFrame_bits (h : ∃ f < s.bits, isUsed s.pool f = false) :
    ∃ f, firstFreeFrame s.pool = some f ∧ f < s.bits ∧ isUsed s.pool f = false := by
  obtain ⟨g, hg, hfree⟩ := h
  have hlt : g < s.pool.nframes := by
    show g < s.nframes
    rw [PagedMem.bits] at hg
    omega
  obtain ⟨f, hf, -, hfu, hbelow⟩ := firstFreeFrame_of_free hlt hfree
  refine ⟨f, hf, ?_, hfu⟩
  by_contra hge
  have hused := hbelow g (by omega)
  rw [hfree] at hused
  exact absurd hused (by decide)

theorem PagedMem.OffBitmap.ne (h : s.OffBitmap a) (hf : f < s.bits) :
    a / 4 ≠ s.frames / 4 + f / 32 := by
  rw [OffBitmap] at h
  rw [bits] at hf
  omega

/-- A call whose bits are those of the bitmap keeps every word but its entry and those of the
    bitmap. -/
theorem EntryCall.word_run {c : EntryCall} (hin : c.Inside s) (hpage : a / 4 ≠ c.page / 4)
    (hoff : s.OffBitmap a) : (c.run s).word a = s.word a := by
  have hstore : ∀ (t : PagedMem) (p : Pte), (t.storePte c.page p).word a = t.word a :=
    fun t p => PagedMem.word_store_of_ne hpage
  cases c with
  | alloc page k w =>
    rw [run, PagedMem.allocPage]
    by_cases h0 : (s.pte page).frame = 0
    · obtain ⟨f, hf, hlt, -⟩ := firstFreeFrame_bits (hin h0)
      rw [if_neg fun hne => hne h0, hf]
      exact (hstore _ _).trans (PagedMem.word_setFrame (hoff.ne hlt))
    · rw [if_pos h0]
      exact hstore _ _
  | map page k w phys =>
    rw [run, PagedMem.mapPage]
    split
    case isTrue hlt =>
      -- the frame is below `nframes`, and so one with a bit in the bitmap
      have hbits : phys / frameSize < s.bits := hin.resolve_right fun hge => absurd hlt hge.not_gt
      have hword := PagedMem.word_setFrame
        (s := s.storePte page ⟨true, w, !k, phys / frameSize⟩) (hoff.ne hbits)
      exact hword.trans (hstore _ _)
    case isFalse => exact hstore _ _
  | free page =>
    rw [run, PagedMem.freePage]
    split
    · exact (hstore _ _).trans (PagedMem.word_clearFrame fun hmod => hoff.ne (hin hmod))
    · exact hstore _ _

/-- A frame's bit is read from one word. -/
theorem isUsed_congr (hframes : t.frames = s.frames)
    (hword : t.word (s.frames + 4 * (f / 32)) = s.word (s.frames + 4 * (f / 32))) :
    isUsed t.pool f = isUsed s.pool f := by
  rw [PagedMem.word, PagedMem.word, PagedMem.bit_word] at hword
  rw [isUsed, isUsed, PagedMem.pool, PagedMem.pool]
  simp only [hframes, hword]

/-- The fields of an entry outside of the bitmap are written. -/
theorem isUsed_storePte (hoff : s.OffBitmap page) (hf : f < s.bits) (p : Pte) :
    isUsed (s.storePte page p).pool f = isUsed s.pool f := by
  have hne := (hoff.ne hf).symm
  rw [← PagedMem.bit_word] at hne
  exact isUsed_congr rfl (PagedMem.word_store_of_ne hne)

/-- **`map_page`** of a frame with a bit in the bitmap, on an entry outside of it. -/
theorem mapPage_spec (hoff : s.OffBitmap page) {phys : Nat} (hbits : phys / frameSize < s.bits)
    (k w : Bool) :
    (s.mapPage page k w phys).pte page = ⟨true, w, !k, phys / frameSize % 2 ^ 20⟩ ∧
      ∀ f < s.bits, isUsed (s.mapPage page k w phys).pool f =
        (isUsed s.pool f || decide (f = phys / frameSize)) := by
  have hlt : phys / frameSize < s.nframes := by
    rw [PagedMem.bits] at hbits
    omega
  have heq : s.mapPage page k w phys =
      (s.storePte page ⟨true, w, !k, phys / frameSize⟩).setFrame (phys / frameSize) := if_pos hlt
  rw [heq]
  constructor
  · have hword := PagedMem.word_setFrame
      (s := s.storePte page ⟨true, w, !k, phys / frameSize⟩) (hoff.ne hbits)
    rw [PagedMem.pte, hword]
    exact PagedMem.pte_storePte _ _ _
  · intro f hf
    rw [PagedMem.pool_setFrame, isUsed_setFrame, isUsed_storePte hoff hf]

/-- **`alloc_page`** on an empty entry outside of the bitmap, while a frame of it is free. -/
theorem allocPage_spec (hoff : s.OffBitmap page) (h0 : (s.pte page).frame = 0)
    (hfree : ∃ f < s.bits, isUsed s.pool f = false) (k w : Bool) :
    ∃ g < s.bits, isUsed s.pool g = false ∧
      (s.allocPage page k w).pte page = ⟨true, w, !k, g % 2 ^ 20⟩ ∧
      ∀ f < s.bits, isUsed (s.allocPage page k w).pool f = (isUsed s.pool f || decide (f = g)) := by
  obtain ⟨g, hg, hlt, hused⟩ := firstFreeFrame_bits hfree
  have heq : s.allocPage page k w = (s.setFrame g).storePte page ⟨true, w, !k, g⟩ := by
    rw [PagedMem.allocPage, if_neg fun hne => hne h0, hg]
  have hsame := PagedMem.SameVars.setFrame s g
  refine ⟨g, hlt, hused, ?_, fun f hf => ?_⟩
  · rw [heq, PagedMem.pte_storePte]
  · have hoff' : (s.setFrame g).OffBitmap page := by
      rwa [PagedMem.OffBitmap, hsame.frames, hsame.nframes]
    have hf' : f < (s.setFrame g).bits := by rwa [PagedMem.bits, hsame.nframes]
    rw [heq, isUsed_storePte hoff' hf', PagedMem.pool_setFrame, isUsed_setFrame]

end

/-! ## The tables of the kernel's half -/

/-- The first `k` tables of the kernel's half are made, from `base` on. The directory lies below
    them, and the bitmap below the directory. -/
structure TablesAt (s : PagedMem) (base k : Nat) : Prop where
  low : kernelVoffset ≤ s.frames
  bitmap : s.frames + s.nframes / 8 ≤ s.kernelDirectory
  dir_mod : s.kernelDirectory % 4096 = 0
  base_eq : base = s.kernelDirectory + 0x3000
  fit : base + 0x100000 ≤ kheapStart
  le : k ≤ 256
  made : ∀ i < k, s.table s.kernelDirectory (768 + i) = base + 4096 * i ∧
    s.entry s.kernelDirectory (768 + i) =
      ⟨true, true, true, (base + 4096 * i - kernelVoffset) / 4096⟩
  absent : ∀ i, k ≤ i → i < 256 → s.table s.kernelDirectory (768 + i) = 0

section

variable {s t : PagedMem} {base k j a : Nat}

/-- The directory is all that matters. -/
theorem TablesAt.congr (h : TablesAt s base k) (hv : s.SameVars t)
    (hdir : ∀ a, s.kernelDirectory ≤ a → a < s.kernelDirectory + pageDirSize →
      t.word a = s.word a) : TablesAt t base k := by
  have htable : ∀ i < 1024, t.table s.kernelDirectory i = s.table s.kernelDirectory i := by
    intro i hi
    rw [PagedMem.table, PagedMem.table,
      hdir _ (by rw [tableAt]; omega) (by rw [tableAt, pageDirSize]; omega)]
  have hentry : ∀ i < 1024, t.entry s.kernelDirectory i = s.entry s.kernelDirectory i := by
    intro i hi
    rw [PagedMem.entry, PagedMem.entry,
      hdir _ (by rw [entryAt]; omega) (by rw [entryAt, pageDirSize]; omega)]
  constructor
  · rw [hv.frames]
    exact h.low
  · rw [hv.frames, hv.nframes, hv.kernelDirectory]
    exact h.bitmap
  · rw [hv.kernelDirectory]
    exact h.dir_mod
  · rw [hv.kernelDirectory]
    exact h.base_eq
  · exact h.fit
  · exact h.le
  · -- the tables that are made
    intro i hi
    have hle := h.le
    rw [hv.kernelDirectory, htable _ (by omega), hentry _ (by omega)]
    exact h.made i hi
  · -- the slots that are still empty
    intro i hki hi
    rw [hv.kernelDirectory, htable _ (by omega)]
    exact h.absent i hki hi

/-- What lies behind the directory is not the bitmap. -/
theorem TablesAt.offBitmap (h : TablesAt s base k) (ha : s.kernelDirectory ≤ a) : s.OffBitmap a := by
  have hbitmap := h.bitmap
  rw [PagedMem.OffBitmap]
  omega

/-- `get_page` for a page whose table is made. -/
theorem TablesAt.getPage_made (h : TablesAt s base k) (hj : j < 2 ^ 18) (hk : j / 1024 < k)
    (make : Bool) (heapAddr : Nat) :
    s.getPage (kernelVoffset + 4096 * j) make s.kernelDirectory heapAddr =
      some (base + 4 * j, s) := by
  have hbase := h.base_eq
  have hlow := h.low
  have hbitmap := h.bitmap
  rw [kernelVoffset] at hlow
  obtain ⟨hdir, htable⟩ := kernel_index hj
  have hmade := (h.made _ hk).1
  rw [PagedMem.getPage, if_neg (by omega)]
  simp only [hdir, htable, hmade]
  rw [if_pos (by omega), Option.some.injEq, Prod.mk.injEq]
  exact ⟨by omega, rfl⟩

/-- Memory handed out before there is a heap, when the address does not wrap. -/
theorem kmallocInt_bump (h0 : s.kheap = 0) (size : Nat) (wantPhys : Bool)
    (hlow : kernelVoffset ≤ s.placementAddress)
    (hfit : alignUp s.placementAddress true + size < 2 ^ 32) :
    s.kmallocInt size frameSize wantPhys 0 =
      some (alignUp s.placementAddress true, alignUp s.placementAddress true - kernelVoffset,
        { s with placementAddress := alignUp s.placementAddress true + size }) := by
  have halign : (if frameSize ≠ 0 ∧ s.placementAddress % frameSize ≠ 0 then
      add32 (sub32 s.placementAddress (s.placementAddress % frameSize)) frameSize
      else s.placementAddress) = alignUp s.placementAddress true := by
    rw [alignUp, if_pos rfl] at hfit ⊢
    rw [frameSize]
    by_cases hmod : s.placementAddress % 4096 = 0
    · -- aligned already
      rw [if_neg fun h => h.2 hmod]
      omega
    · -- rounded up to the next page
      rw [if_pos ⟨by decide, hmod⟩, sub32_of_le (by omega) (by omega), add32_of_lt (by omega)]
      omega
  have hle := le_alignUp s.placementAddress true
  rw [PagedMem.kmallocInt, if_neg fun hne => hne h0]
  simp only [halign]
  rw [add32_of_lt hfit, sub32_of_le (by omega) (by omega)]

/-- **`get_page` for the first page whose table is not made.** Only the directory and the new table
    change. -/
theorem TablesAt.getPage_make (h : TablesAt s base k) (h0 : s.kheap = 0)
    (hp : alignUp s.placementAddress true = base + 4096 * k) (hj : j = 1024 * k) (hk : k < 256)
    (hzero : ∀ i < 1024 * k, s.word (base + 4 * i) = 0#32) :
    ∃ t, s.getPage (kernelVoffset + 4096 * j) true s.kernelDirectory 0 = some (base + 4 * j, t) ∧
      TablesAt t base (k + 1) ∧
      PagedMem.SameVars { s with placementAddress := base + 4096 * (k + 1) } t ∧
      (∀ i < 1024 * (k + 1), t.word (base + 4 * i) = 0#32) ∧
      ∀ a < s.kernelDirectory, t.word a = s.word a := by
  obtain ⟨hlow, hbitmap, hdmod, hbase, hfit, -, hmade, habsent⟩ := h
  have hlow' := hlow
  rw [kernelVoffset] at hlow'
  have hfit' := hfit
  rw [kheapStart] at hfit'
  obtain ⟨hdir, htable⟩ := kernel_index (j := j) (by omega)
  rw [show j / 1024 = k by omega] at hdir
  rw [show j % 1024 = 0 by omega] at htable
  let s₁ : PagedMem := { s with placementAddress := base + 4096 * k + pageTableSize }
  have hmalloc : s.kmallocInt pageTableSize frameSize true 0 =
      some (base + 4096 * k, base + 4096 * k - kernelVoffset, s₁) := by
    have halign := hp
    rw [alignUp, if_pos rfl] at halign
    have hbump := kmallocInt_bump h0 pageTableSize true (by rw [kernelVoffset]; omega)
      (by rw [hp, pageTableSize]; omega)
    rwa [hp] at hbump
  let s₂ := s₁.store (tableAt s.kernelDirectory (768 + k)) (BitVec.ofNat 32 (base + 4096 * k))
  have htable₂ : s₂.table s.kernelDirectory (768 + k) = base + 4096 * k := by
    rw [PagedMem.table, PagedMem.word_store_self, BitVec.toNat_ofNat]
    exact Nat.mod_eq_of_lt (by omega)
  let s₃ := s₂.memset (s₂.table s.kernelDirectory (768 + k)) pageTableSize
  have hs₃ : s₃ = s₂.memset (base + 4096 * k) pageTableSize := by simp only [s₃, htable₂]
  let t := s₃.store (entryAt s.kernelDirectory (768 + k))
    (withPde (s₃.word (entryAt s.kernelDirectory (768 + k)))
      ⟨true, true, true, (base + 4096 * k - kernelVoffset) >>> 12⟩)
  -- three stores: the pointer, the table and the entry
  have hcleared : ∀ a, a / 4 ≠ entryAt s.kernelDirectory (768 + k) / 4 → t.word a = s₃.word a :=
    fun a => PagedMem.word_store_of_ne
  have hstored : ∀ a, a / 4 < (base + 4096 * k) / 4 ∨ base + 4096 * k + pageTableSize ≤ a / 4 * 4 →
      s₃.word a = s₂.word a := by
    intro a ha
    rw [hs₃]
    exact PagedMem.word_memset_of_ne ha
  have hfirst : ∀ a, a / 4 ≠ tableAt s.kernelDirectory (768 + k) / 4 → s₂.word a = s.word a :=
    fun a => PagedMem.word_store_of_ne
  have htable_t : t.table s.kernelDirectory (768 + k) = base + 4096 * k := by
    rw [PagedMem.table, hcleared _ (by rw [tableAt, entryAt]; omega),
      hstored _ (by rw [tableAt]; omega)]
    exact htable₂
  have hentry_t : t.entry s.kernelDirectory (768 + k) =
      ⟨true, true, true, (base + 4096 * k - kernelVoffset) / 4096⟩ := by
    have hlt : (base + 4096 * k - kernelVoffset) / 2 ^ 12 < 2 ^ 20 := by
      rw [kernelVoffset]
      omega
    rw [PagedMem.entry, PagedMem.word_store_self, pdeOf_withPde, Nat.shiftRight_eq_div_pow]
    show Pde.mk true true true ((base + 4096 * k - kernelVoffset) / 2 ^ 12 % 2 ^ 20) = _
    rw [Nat.mod_eq_of_lt hlt]
    rfl
  have hkd : t.kernelDirectory = s.kernelDirectory := rfl
  have hframes : t.frames = s.frames ∧ t.nframes = s.nframes := ⟨rfl, rfl⟩
  refine ⟨t, ?_, ⟨?_, ?_, ?_, ?_, hfit, hk, fun i hi => ?_, fun i hki hi => ?_⟩,
    ⟨rfl, rfl, rfl, ?_, rfl⟩, fun i hi => ?_, fun a ha => ?_⟩
  · rw [PagedMem.getPage, if_neg (by omega)]
    simp only [hdir, htable]
    rw [if_neg fun hne => hne (habsent k (le_refl k) hk), if_pos trivial, hmalloc, Option.bind_some]
    simp only
    rw [if_neg (by omega)]
    show some (t.table s.kernelDirectory (768 + k) + 4 * 0, t) = some (base + 4 * j, t)
    rw [htable_t, hj]
    congr 2
    omega
  · rwa [hframes.1]
  · rwa [hframes.1, hframes.2, hkd]
  · rwa [hkd]
  · rwa [hkd]
  · rw [hkd]
    by_cases hik : i = k
    · rw [hik]
      exact ⟨htable_t, hentry_t⟩
    · obtain ⟨htab, hent⟩ := hmade i (by omega)
      constructor
      · rw [← htab, PagedMem.table, PagedMem.table, hcleared _ (by rw [tableAt, entryAt]; omega),
          hstored _ (by rw [tableAt]; omega), hfirst _ (by rw [tableAt, tableAt]; omega)]
      · rw [← hent, PagedMem.entry, PagedMem.entry, hcleared _ (by rw [entryAt, entryAt]; omega),
          hstored _ (by rw [entryAt]; omega), hfirst _ (by rw [tableAt, entryAt]; omega)]
  · rw [hkd]
    rw [← habsent i (by omega) hi, PagedMem.table, PagedMem.table,
      hcleared _ (by rw [tableAt, entryAt]; omega), hstored _ (by rw [tableAt]; omega),
      hfirst _ (by rw [tableAt, tableAt]; omega)]
  · show base + 4096 * k + pageTableSize = base + 4096 * (k + 1)
    rw [pageTableSize]
    omega
  · rw [hcleared _ (by rw [entryAt]; omega)]
    by_cases hik : i < 1024 * k
    · rw [hstored _ (by omega), hfirst _ (by rw [tableAt]; omega)]
      exact hzero i hik
    · rw [hs₃]
      exact PagedMem.word_memset_zero (by omega) (by rw [pageTableSize]; omega)
  · rw [hcleared _ (by rw [entryAt]; omega), hstored _ (by omega),
      hfirst _ (by rw [tableAt]; omega)]

/-- The page behind a page of the kernel's half. -/
theorem add32_page (hj : j + 1 < 2 ^ 18) :
    add32 (kernelVoffset + 4096 * j) frameSize = kernelVoffset + 4096 * (j + 1) := by
  rw [add32_of_lt (by rw [kernelVoffset, frameSize]; omega), frameSize]
  omega

/-- **The loop that makes the tables**, from the page `j` on. What lies below the directory is not
    changed, and the tables are clear. -/
theorem TablesAt.tableLoop (fuel : Nat) (h : TablesAt s base ((j + 1023) / 1024))
    (h0 : s.kheap = 0) (hj : j < 2 ^ 18)
    (hp : alignUp s.placementAddress true = base + 4096 * ((j + 1023) / 1024))
    (hplace : 0 < j → s.placementAddress = base + 4096 * ((j + 1023) / 1024))
    (hzero : ∀ i < 1024 * ((j + 1023) / 1024), s.word (base + 4 * i) = 0#32)
    (hfuel : 2 ^ 18 ≤ fuel + j) :
    ∃ t, PagedMem.tableLoop fuel (kernelVoffset + 4096 * j) s = some t ∧ TablesAt t base 256 ∧
      PagedMem.SameVars { s with placementAddress := base + 4096 * 256 } t ∧
      (∀ i < 2 ^ 18, t.word (base + 4 * i) = 0#32) ∧
      ∀ a < s.kernelDirectory, t.word a = s.word a := by
  induction fuel generalizing s j with
  | zero => omega
  | succ fuel ih =>
    rw [PagedMem.tableLoop]
    by_cases hlast : j = 2 ^ 18 - 1
    · -- the last page of the address space has the table of the page before it
      have hk : (j + 1023) / 1024 = 256 := by omega
      rw [hk] at h hplace hzero
      rw [if_neg (by rw [kernelVoffset]; omega)]
      exact ⟨s, rfl, h, ⟨rfl, rfl, rfl, hplace (by omega), rfl⟩, hzero, fun _ _ => rfl⟩
    · rw [if_pos (by rw [kernelVoffset]; omega), add32_page (by omega)]
      by_cases hmade : j / 1024 < (j + 1023) / 1024
      · -- the table is there, from an earlier page
        rw [h.getPage_made hj hmade, Option.bind_some]
        have hk : (j + 1 + 1023) / 1024 = (j + 1023) / 1024 := by omega
        have hpos : 0 < j := by
          by_contra hzero
          obtain rfl : j = 0 := by omega
          exact absurd hmade (by decide)
        have hpl := hplace hpos
        rw [← hk] at h hp hpl hzero
        exact ih h h0 (by omega) hp (fun _ => hpl) hzero (by omega)
      · -- the first page of its table: `get_page` makes it
        obtain ⟨s₁, hs₁, h₁, hv, hzero₁, hbelow⟩ := h.getPage_make (j := j) h0 hp (by omega)
          (by omega) hzero
        have hk : (j + 1 + 1023) / 1024 = (j + 1023) / 1024 + 1 := by omega
        have hmod : base % 4096 = 0 := by
          have hbase := h.base_eq
          have hdir := h.dir_mod
          omega
        have hpl : s₁.placementAddress = base + 4096 * ((j + 1 + 1023) / 1024) := by
          rw [hk]
          exact hv.placementAddress
        rw [← hk] at h₁ hzero₁
        rw [hs₁, Option.bind_some]
        obtain ⟨t, ht, hok, hv', hzero', hbelow'⟩ := ih (s := s₁) h₁ (hv.kheap.trans h0) (by omega)
          (by
            rw [hpl, alignUp, if_pos rfl]
            omega)
          (fun _ => hpl) hzero₁ (by omega)
        refine ⟨t, ht, hok, ⟨?_, ?_, ?_, hv'.placementAddress, ?_⟩, hzero', fun a ha => ?_⟩
        · exact hv'.frames.trans hv.frames
        · exact hv'.nframes.trans hv.nframes
        · exact hv'.kernelDirectory.trans hv.kernelDirectory
        · exact hv'.kheap.trans hv.kheap
        · rw [hbelow' a (by rw [hv.kernelDirectory]; exact ha), hbelow a ha]

/-! ## The mapping of what has been handed out -/

/-- The frames from `lo` on that are free in the bitmap. -/
def freeBits (s : PagedMem) (lo : Nat) : Finset Nat :=
  (Finset.Ico lo s.bits).filter fun f => isUsed s.pool f = false

/-- The first `n` pages of the kernel's half are mapped to the first `n` frames, which are marked. -/
structure MappedIn (s : PagedMem) (base n : Nat) : Prop where
  pages : ∀ i < n, s.pte (base + 4 * i) = mappedPte i
  used : ∀ i < n, isUsed s.pool i = true

/-- A call on the entry of a page keeps the entries of all others. -/
theorem TablesAt.pte_run (h : TablesAt s base 256) {i : Nat} {c : EntryCall} (hin : c.Inside s)
    (hc : c.page = base + 4 * j) (hij : i ≠ j) :
    (c.run s).word (base + 4 * i) = s.word (base + 4 * i) := by
  have hbase := h.base_eq
  have hmod := h.dir_mod
  exact EntryCall.word_run hin (by rw [hc]; omega) (h.offBitmap (by omega))

/-- A call on the entry of a page keeps the directory. -/
theorem TablesAt.run (h : TablesAt s base k) {c : EntryCall} (hin : c.Inside s)
    (hc : base ≤ c.page) : TablesAt (c.run s) base k := by
  have hbase := h.base_eq
  have hmod := h.dir_mod
  apply h.congr (c.sameVars_run s)
  intro a ha hlt
  rw [pageDirSize] at hlt
  exact EntryCall.word_run hin (by omega) (h.offBitmap ha)

/-- **The loop that maps the pages** below `placement_address`, from the page `j` on. -/
theorem TablesAt.mapLoop (fuel : Nat) {n : Nat} (h : TablesAt s base 256)
    (hplace : s.placementAddress = kernelVoffset + 4096 * n) (hn : n ≤ 2 ^ 16) (hbits : n ≤ s.bits)
    (hm : MappedIn s base j) (hj : j ≤ n) (hfuel : n < fuel + j)
    (hzero : ∀ i, j ≤ i → i < 2 ^ 18 → s.word (base + 4 * i) = 0#32) :
    ∃ t, PagedMem.mapLoop fuel (kernelVoffset + 4096 * j) (4096 * j) s = some t ∧
      TablesAt t base 256 ∧ s.SameVars t ∧ MappedIn t base n ∧
      (∀ i, n ≤ i → i < 2 ^ 18 → t.word (base + 4 * i) = 0#32) ∧ freeBits t n = freeBits s n := by
  induction fuel generalizing s j with
  | zero => omega
  | succ fuel ih =>
    rw [PagedMem.mapLoop, hplace]
    by_cases hlast : j = n
    · rw [hlast] at hm hzero ⊢
      rw [if_neg (by omega)]
      exact ⟨s, rfl, h, ⟨rfl, rfl, rfl, rfl, rfl⟩, hm, hzero, rfl⟩
    · have hphys : add32 (4096 * j) frameSize = 4096 * (j + 1) := by
        rw [add32_of_lt (by rw [frameSize]; omega), frameSize]
        omega
      have hframe : 4096 * j / frameSize = j := by
        rw [frameSize]
        omega
      have hbase := h.base_eq
      rw [if_pos (by omega), h.getPage_made (by omega) (by omega), Option.bind_some,
        add32_page (by omega), hphys]
      let c : EntryCall := .map (base + 4 * j) false false (4096 * j)
      have hin : c.Inside s := Or.inl (by rw [hframe]; omega)
      have hv : s.SameVars (c.run s) := c.sameVars_run s
      have hoff : s.OffBitmap (base + 4 * j) := h.offBitmap (by omega)
      have hlt : 4096 * j / frameSize < s.bits := by
        rw [hframe]
        omega
      obtain ⟨hpte, hused⟩ := mapPage_spec hoff hlt false false
      rw [hframe, Nat.mod_eq_of_lt (by omega)] at hpte
      rw [hframe] at hused
      have hbits₁ : (c.run s).bits = s.bits := by rw [PagedMem.bits, PagedMem.bits, hv.nframes]
      -- the entry of the page `j` gets the frame `j`, and those before it keep theirs
      have hm₁ : MappedIn (c.run s) base (j + 1) := by
        constructor
        · intro i hi
          by_cases hij : i = j
          · rw [hij]
            exact hpte
          · rw [PagedMem.pte, h.pte_run hin rfl hij]
            exact hm.pages i (by omega)
        · intro i hi
          show isUsed (s.mapPage (base + 4 * j) false false (4096 * j)).pool i = true
          rw [hused i (by omega), Bool.or_eq_true, decide_eq_true_eq]
          by_cases hij : i = j
          · exact Or.inr hij
          · exact Or.inl (hm.used i (by omega))
      have hfree₁ : freeBits (c.run s) n = freeBits s n := by
        rw [freeBits, freeBits, hbits₁]
        apply Finset.filter_congr
        intro f hf
        obtain ⟨hlow, hlt⟩ := Finset.mem_Ico.mp hf
        show isUsed (s.mapPage (base + 4 * j) false false (4096 * j)).pool f = false ↔ _
        rw [hused f hlt, decide_eq_false (by omega), Bool.or_false]
      obtain ⟨t, ht, hok, hv', hm', hzero', hfree'⟩ := ih (s := c.run s) (j := j + 1)
        (h.run hin (Nat.le_add_right base _)) (hv.placementAddress.trans hplace)
        (by rw [hbits₁]; exact hbits) hm₁ (by omega) (by omega)
        (fun i hi hlt => by
          rw [h.pte_run hin rfl (by omega)]
          exact hzero i (by omega) hlt)
      exact ⟨t, ht, hok, hv.trans hv', hm', hzero', hfree'.trans hfree₁⟩

/-! ## The pages of the heap -/

/-- The pages that are present have frames of their own, and these are marked. -/
structure OwnFrames (s : PagedMem) (base : Nat) : Prop where
  marked : ∀ i < 2 ^ 18, (s.pte (base + 4 * i)).present = true →
    (s.pte (base + 4 * i)).frame < s.bits ∧ isUsed s.pool (s.pte (base + 4 * i)).frame = true
  apart : ∀ i < 2 ^ 18, ∀ j < 2 ^ 18, (s.pte (base + 4 * i)).present = true →
    (s.pte (base + 4 * j)).present = true →
    (s.pte (base + 4 * i)).frame = (s.pte (base + 4 * j)).frame → i = j

/-- The frame that an allocation takes is no longer free. -/
theorem freeBits_erase {g n : Nat} (hbits : t.bits = s.bits)
    (hused : ∀ f < s.bits, isUsed t.pool f = (isUsed s.pool f || decide (f = g))) :
    freeBits t n = (freeBits s n).erase g := by
  ext f
  simp only [freeBits, Finset.mem_filter, Finset.mem_erase, Finset.mem_Ico, hbits]
  constructor
  · rintro ⟨⟨hlow, hlt⟩, hclear⟩
    rw [hused f hlt, Bool.or_eq_false_iff, decide_eq_false_iff_not] at hclear
    exact ⟨hclear.2, ⟨hlow, hlt⟩, hclear.1⟩
  · rintro ⟨hne, ⟨hlow, hlt⟩, hclear⟩
    refine ⟨⟨hlow, hlt⟩, ?_⟩
    rw [hused f hlt, hclear, decide_eq_false hne]
    rfl

/-- `alloc_page` on an empty entry takes a frame that no page has. -/
theorem OwnFrames.alloc (ho : OwnFrames s base) (h : TablesAt s base 256) (hn : s.nframes ≤ 2 ^ 20)
    (hj : j < 2 ^ 18) (h0 : (s.pte (base + 4 * j)).frame = 0)
    (hfree : ∃ f < s.bits, isUsed s.pool f = false) (k w : Bool) :
    OwnFrames (s.allocPage (base + 4 * j) k w) base ∧
      ((s.allocPage (base + 4 * j) k w).pte (base + 4 * j)).present = true ∧
      ∀ n, (freeBits s n).card ≤ (freeBits (s.allocPage (base + 4 * j) k w) n).card + 1 := by
  have hbase := h.base_eq
  let c : EntryCall := .alloc (base + 4 * j) k w
  have hin : c.Inside s := fun _ => hfree
  have hv : s.SameVars (c.run s) := c.sameVars_run s
  have hbits : (c.run s).bits = s.bits := by rw [PagedMem.bits, PagedMem.bits, hv.nframes]
  have hle : s.bits ≤ 2 ^ 20 := by
    rw [PagedMem.bits]
    omega
  have hoff : s.OffBitmap (base + 4 * j) := h.offBitmap (by omega)
  obtain ⟨g, hg, hgfree, hpte, hused⟩ := allocPage_spec hoff h0 hfree k w
  rw [Nat.mod_eq_of_lt (by omega)] at hpte
  have hother : ∀ i, i ≠ j → (c.run s).pte (base + 4 * i) = s.pte (base + 4 * i) := by
    intro i hij
    rw [PagedMem.pte, h.pte_run hin rfl hij, PagedMem.pte]
  -- no page has the frame that was free
  have hnew : ∀ i < 2 ^ 18, (s.pte (base + 4 * i)).present = true →
      (s.pte (base + 4 * i)).frame ≠ g := by
    intro i hi hpresent heq
    have hmarked := (ho.marked i hi hpresent).2
    rw [heq, hgfree] at hmarked
    exact absurd hmarked (by decide)
  refine ⟨⟨fun i hi hpresent => ?_, fun i hi l hl hpi hpl heq => ?_⟩, ?_, fun n => ?_⟩
  · change (c.run s).pte (base + 4 * j) = _ at hpte
    change (((c.run s).pte (base + 4 * i)).present) = true at hpresent
    change ((c.run s).pte (base + 4 * i)).frame < (c.run s).bits ∧
      isUsed (c.run s).pool ((c.run s).pte (base + 4 * i)).frame = true
    by_cases hij : i = j
    · rw [hij, hpte, hbits]
      refine ⟨hg, ?_⟩
      show isUsed (s.allocPage (base + 4 * j) k w).pool g = true
      rw [hused g hg, decide_eq_true rfl, Bool.or_true]
    · rw [hother i hij] at hpresent ⊢
      obtain ⟨hlt, hmarked⟩ := ho.marked i hi hpresent
      rw [hbits]
      refine ⟨hlt, ?_⟩
      show isUsed (s.allocPage (base + 4 * j) k w).pool _ = true
      rw [hused _ hlt, hmarked, Bool.true_or]
  · change (c.run s).pte (base + 4 * j) = _ at hpte
    change (((c.run s).pte (base + 4 * i)).present) = true at hpi
    change (((c.run s).pte (base + 4 * l)).present) = true at hpl
    change ((c.run s).pte (base + 4 * i)).frame = ((c.run s).pte (base + 4 * l)).frame at heq
    by_cases hij : i = j
    · by_cases hlj : l = j
      · rw [hij, hlj]
      · rw [hij, hpte, hother l hlj] at heq
        rw [hother l hlj] at hpl
        exact absurd heq.symm (hnew l hl hpl)
    · rw [hother i hij] at hpi heq
      by_cases hlj : l = j
      · rw [hlj, hpte] at heq
        exact absurd heq (hnew i hi hpi)
      · rw [hother l hlj] at hpl heq
        exact ho.apart i hi l hl hpi hpl heq
  · rw [hpte]
  · have herase : freeBits (s.allocPage (base + 4 * j) k w) n = (freeBits s n).erase g :=
      freeBits_erase hbits hused
    rw [herase]
    have hcard := Finset.pred_card_le_card_erase (s := freeBits s n) (a := g)
    omega

/-- **The loop that allocates the pages of the heap**, from its page `j` on. -/
theorem TablesAt.heapLoop (fuel : Nat) {n : Nat} (h : TablesAt s base 256)
    (hnf : s.nframes ≤ 2 ^ 20) (hn : n ≤ 2 ^ 16) (hpages : ∀ i < n, s.pte (base + 4 * i) = mappedPte i)
    (ho : OwnFrames s base) (hfree : 256 ≤ (freeBits s n).card + j) (hj : j ≤ 256)
    (hheap : ∀ i < j, (s.pte (base + 4 * (2 ^ 16 + i))).present = true)
    (hzero : ∀ i, j ≤ i → i < 256 → s.word (base + 4 * (2 ^ 16 + i)) = 0#32)
    (hfuel : 256 < fuel + j) :
    ∃ t, PagedMem.heapLoop fuel (kernelVoffset + 4096 * (2 ^ 16 + j)) s = some t ∧
      TablesAt t base 256 ∧ s.SameVars t ∧ (∀ i < n, t.pte (base + 4 * i) = mappedPte i) ∧
      OwnFrames t base ∧ ∀ i < 256, (t.pte (base + 4 * (2 ^ 16 + i))).present = true := by
  induction fuel generalizing s j with
  | zero => omega
  | succ fuel ih =>
    rw [PagedMem.heapLoop]
    by_cases hlast : j = 256
    · rw [if_neg (by rw [hlast, kernelVoffset, kheapStart, kheapInitialSize]; decide)]
      rw [hlast] at hheap
      exact ⟨s, rfl, h, ⟨rfl, rfl, rfl, rfl, rfl⟩, hpages, ho, hheap⟩
    -- the heap starts 2 ^ 16 pages above the kernel, and its last page is still below 4 GiB
    · rw [if_pos (by simp only [kernelVoffset, kheapStart, kheapInitialSize]; omega),
        h.getPage_made (by omega) (by omega), Option.bind_some, add32_page (by omega)]
      let c : EntryCall := .alloc (base + 4 * (2 ^ 16 + j)) false true
      have h0 : (s.pte (base + 4 * (2 ^ 16 + j))).frame = 0 := by
        rw [PagedMem.pte, hzero j (le_refl j) (by omega)]
        decide
      have hex : ∃ f < s.bits, isUsed s.pool f = false := by
        obtain ⟨f, hf⟩ := Finset.card_pos.mp (show 0 < (freeBits s n).card by omega)
        obtain ⟨hf, hclear⟩ := Finset.mem_filter.mp hf
        exact ⟨f, (Finset.mem_Ico.mp hf).2, hclear⟩
      have hin : c.Inside s := fun _ => hex
      have hv : s.SameVars (c.run s) := c.sameVars_run s
      obtain ⟨ho₁, hpresent, hcard⟩ := ho.alloc h hnf (j := 2 ^ 16 + j) (by omega) h0 hex false true
      have hother : ∀ i, i ≠ 2 ^ 16 + j → (c.run s).word (base + 4 * i) = s.word (base + 4 * i) :=
        fun i hij => h.pte_run hin rfl hij
      have hfree₁ := hcard n
      obtain ⟨t, ht, hok, hv', hpages', ho', hheap'⟩ := ih (s := c.run s) (j := j + 1)
        (h.run hin (Nat.le_add_right base _)) (by rw [hv.nframes]; exact hnf)
        (fun i hi => by
          rw [PagedMem.pte, hother i (by omega)]
          exact hpages i hi)
        ho₁
        (by
          change _ ≤ (freeBits (s.allocPage (base + 4 * (2 ^ 16 + j)) false true) n).card + _
          omega)
        (by omega)
        (fun i hi => by
          by_cases hij : i = j
          · rw [hij]
            exact hpresent
          · rw [PagedMem.pte, hother _ (by omega)]
            exact hheap i (by omega))
        (fun i hi hlt => by
          rw [hother _ (by omega)]
          exact hzero i (by omega) hlt)
        (by omega)
      exact ⟨t, ht, hok, hv.trans hv', hpages', ho', hheap'⟩

end

/-! ## The start -/

/-- `placement_address` behind the tables. -/
def PagedMem.finalEnd (s : PagedMem) : Nat := alignUp s.placementAddress true + 0x103000

/-- The state in which `paging_finalize` is called. The bitmap lies behind the kernel, the tables
    fit below the heap, and the bitmap has the frames of all that is handed out, and behind them 256
    free ones for the heap. -/
structure PagedMem.Ready (s : PagedMem) : Prop where
  kheap : s.kheap = 0
  low : kernelVoffset ≤ s.frames
  bitmap : s.frames + s.nframes / 8 ≤ s.placementAddress
  nframes_le : s.nframes ≤ 2 ^ 20
  fit : s.finalEnd ≤ kheapStart
  mem : s.finalEnd ≤ kernelVoffset + 4096 * s.bits
  free : 256 ≤ (freeBits s ((s.finalEnd - kernelVoffset) / 4096)).card

/-- What `paging_finalize` leaves: all tables of the kernel's half, from `base` on, its first `n`
    pages mapped to the first `n` frames, and the pages of the heap, with frames of their own. -/
structure FinalizedMem (s : PagedMem) (base n : Nat) : Prop where
  tables : TablesAt s base 256
  ends : base + 0x100000 = kernelVoffset + 4096 * n
  pages : ∀ i < n, s.pte (base + 4 * i) = mappedPte i
  own : OwnFrames s base
  heap : ∀ i < 256, (s.pte (base + 4 * (2 ^ 16 + i))).present = true
  kheap : s.kheap ≠ 0

section

variable {s t : PagedMem} {base n : Nat}

/-- The pages that are mapped in the beginning have frames of their own. -/
theorem MappedIn.ownFrames (h : MappedIn s base n) (hbits : n ≤ s.bits)
    (hzero : ∀ i, n ≤ i → i < 2 ^ 18 → s.word (base + 4 * i) = 0#32) : OwnFrames s base := by
  have hlow : ∀ i < 2 ^ 18, (s.pte (base + 4 * i)).present = true → i < n := by
    intro i hi hpresent
    by_contra hge
    rw [PagedMem.pte, hzero i (by omega) hi] at hpresent
    exact absurd hpresent (by decide)
  have hframe : ∀ i < 2 ^ 18, (s.pte (base + 4 * i)).present = true →
      (s.pte (base + 4 * i)).frame = i := by
    intro i hi hpresent
    rw [h.pages i (hlow i hi hpresent), mappedPte]
  constructor
  · intro i hi hpresent
    have hin := hlow i hi hpresent
    rw [hframe i hi hpresent]
    exact ⟨by omega, h.used i hin⟩
  · intro i hi j hj hpi hpj heq
    rwa [hframe i hi hpi, hframe j hj hpj] at heq

/-- The words of the directory as `paging_finalize` clears it. -/
theorem table_memset_zero (dir i : Nat) (hmod : dir % 4096 = 0) (hi : i < 1024) (phys : BitVec 32) :
    ((s.memset dir pageDirSize).store (physAddrAt dir) phys).table dir i = 0 := by
  rw [PagedMem.table, PagedMem.word_store_of_ne (by rw [tableAt, physAddrAt]; omega),
    PagedMem.word_memset_zero (by rw [tableAt]; omega) (by rw [tableAt, pageDirSize]; omega)]
  rfl

/-- The directory that `paging_finalize` allocates at `dir` and clears. -/
def PagedMem.withDirectory (s : PagedMem) (dir : Nat) : PagedMem :=
  (PagedMem.memset
    { s.setFrame 0 with
      placementAddress := dir + pageDirSize
      kernelDirectory := dir } dir pageDirSize).store
    (physAddrAt dir) (BitVec.ofNat 32 (dir - kernelVoffset))

/-- It lies behind the bitmap, and has no table. -/
theorem PagedMem.Ready.withDirectory (h : s.Ready) {dir : Nat}
    (hdir : dir = alignUp s.placementAddress true) :
    (s.setFrame 0).kmallocInt pageDirSize frameSize true 0 =
        some (dir, dir - kernelVoffset,
          { s.setFrame 0 with placementAddress := dir + pageDirSize }) ∧
      TablesAt (s.withDirectory dir) (dir + 0x3000) 0 ∧
      ∀ a < dir, (s.withDirectory dir).word a = (s.setFrame 0).word a := by
  obtain ⟨hheap, hlow, hbitmap, hnf, hfit, hmem, -⟩ := h
  rw [PagedMem.finalEnd] at hfit hmem
  have hle := le_alignUp s.placementAddress true
  have hmod : alignUp s.placementAddress true % 4096 = 0 := by
    rw [alignUp, if_pos rfl]
    exact Nat.mul_mod_left _ _
  have hlow' := hlow
  have hfit' := hfit
  rw [kernelVoffset] at hlow'
  rw [kheapStart] at hfit'
  rw [← hdir] at hfit hfit' hle hmod
  have hv := PagedMem.SameVars.setFrame s 0
  refine ⟨?_, ⟨?_, ?_, ?_, ?_, ?_, Nat.zero_le 256, fun i hi => absurd hi (Nat.not_lt_zero i),
    fun i _ hi => ?_⟩, fun a ha => ?_⟩
  · have hbump := kmallocInt_bump (hv.kheap.trans hheap) pageDirSize true
      (by rw [hv.placementAddress, kernelVoffset]; omega)
      (by rw [hv.placementAddress, ← hdir, pageDirSize]; omega)
    rwa [hv.placementAddress, ← hdir] at hbump
  · exact hv.frames.symm ▸ hlow
  · change (s.setFrame 0).frames + (s.setFrame 0).nframes / 8 ≤ dir
    rw [hv.frames, hv.nframes]
    omega
  · exact hmod
  · rfl
  · exact (Nat.add_assoc dir 0x3000 0x100000).trans_le hfit
  · exact table_memset_zero dir (768 + i) hmod (by omega) _
  · exact (PagedMem.word_store_of_ne (by rw [physAddrAt]; omega)).trans
      (PagedMem.word_memset_of_ne (by omega))

/-- **`paging_finalize`**, when there is memory enough. -/
theorem pagingFinalize_ready (h : s.Ready) :
    ∃ t base n, s.pagingFinalize = some t ∧ FinalizedMem t base n ∧
      t.kernelDirectory = alignUp s.placementAddress true ∧
      base = alignUp s.placementAddress true + 0x3000 ∧
      t.frames = s.frames ∧ t.nframes = s.nframes := by
  -- `set_frame(0)`, and the directory
  obtain ⟨dir, hdir⟩ : ∃ dir, dir = alignUp s.placementAddress true := ⟨_, rfl⟩
  obtain ⟨hmalloc, h₄, hbelow₄⟩ := h.withDirectory hdir
  obtain ⟨hheap, hlow, hbitmap, hnf, hfit, hmem, hfree⟩ := h
  rw [PagedMem.finalEnd] at hfit hmem hfree
  have hle := le_alignUp s.placementAddress true
  have hlow' := hlow
  have hfit' := hfit
  have hmem' := hmem
  rw [kernelVoffset] at hlow' hmem'
  rw [kheapStart] at hfit'
  have hmod := h₄.dir_mod
  change dir % 4096 = 0 at hmod
  rw [← hdir] at hfit hfit' hmem' hle hfree
  let s₁ := s.setFrame 0
  have hv₁ : s.SameVars s₁ := PagedMem.SameVars.setFrame s 0
  let s₄ := s.withDirectory dir
  have hframes₄ : s₄.frames = s.frames := hv₁.frames
  have hnframes₄ : s₄.nframes = s.nframes := hv₁.nframes
  have hkheap₄ : s₄.kheap = 0 := hv₁.kheap.trans hheap
  have hkd₄ : s₄.kernelDirectory = dir := rfl
  have hplace₄ : s₄.placementAddress = dir + pageDirSize := rfl
  -- the tables
  obtain ⟨s₅, hs₅, h₅, hv₅, hzero₅, hbelow₅⟩ := h₄.tableLoop (j := 0) (2 ^ 20) hkheap₄ (by decide)
    (by
      rw [hplace₄, alignUp, if_pos rfl, pageDirSize]
      omega)
    (fun h => absurd h (by decide)) (fun i hi => absurd hi (by omega)) (by decide)
  rw [Nat.mul_zero, Nat.add_zero] at hs₅
  have hplace₅ : s₅.placementAddress = dir + 0x3000 + 4096 * 256 := hv₅.placementAddress
  have hframes₅ : s₅.frames = s₁.frames := hv₅.frames
  have hnframes₅ : s₅.nframes = s.nframes := hv₅.nframes.trans hnframes₄
  have hbits₅ : s₅.bits = s.bits := by rw [PagedMem.bits, PagedMem.bits, hnframes₅]
  -- the mapping
  obtain ⟨n, hn⟩ : ∃ n, dir + 0x103000 = kernelVoffset + 4096 * n := by
    refine ⟨(dir + 0x103000 - kernelVoffset) / 4096, ?_⟩
    rw [kernelVoffset]
    omega
  have hn' := hn
  rw [kernelVoffset] at hn'
  rw [show (dir + 0x103000 - kernelVoffset) / 4096 = n by rw [hn]; omega] at hfree
  obtain ⟨s₆, hs₆, h₆, hv₆, hm₆, hzero₆, hfree₆⟩ := h₅.mapLoop (j := 0) (n := n) (2 ^ 20)
    (hplace₅.trans ((Nat.add_assoc dir 0x3000 (4096 * 256)).trans hn)) (by omega)
    (by rw [hbits₅]; omega)
    ⟨fun i hi => absurd hi (Nat.not_lt_zero i), fun i hi => absurd hi (Nat.not_lt_zero i)⟩
    (Nat.zero_le n) (by omega) (fun i _ hi => hzero₅ i hi)
  rw [Nat.mul_zero, Nat.add_zero] at hs₆
  have hbits₆ : s₆.bits = s.bits := by rw [PagedMem.bits, hv₆.nframes, ← hbits₅, PagedMem.bits]
  have hsame : freeBits s₆ n = freeBits s n := by
    rw [hfree₆, freeBits, freeBits, hbits₅]
    apply Finset.filter_congr
    intro f hf
    obtain ⟨hlow, hlt⟩ := Finset.mem_Ico.mp hf
    rw [PagedMem.bits] at hlt
    -- the word of the frame lies below the directory
    have hbit : isUsed s₅.pool f = isUsed s₁.pool f := by
      apply isUsed_congr hframes₅
      rw [hv₁.frames]
      rw [hbelow₅ _ (by rw [hkd₄]; omega), hbelow₄ _ (by omega)]
    rw [hbit, PagedMem.pool_setFrame, isUsed_setFrame, decide_eq_false (by omega), Bool.or_false]
  -- the heap
  let s₇ : PagedMem := { s₆ with currentDirectory := dir }
  have h₇ : TablesAt s₇ (dir + 0x3000) 256 :=
    h₆.congr ⟨rfl, rfl, rfl, rfl, rfl⟩ fun _ _ _ => rfl
  have ho₆ := hm₆.ownFrames (by rw [hbits₆]; omega) hzero₆
  have ho₇ : OwnFrames s₇ (dir + 0x3000) := ⟨ho₆.marked, ho₆.apart⟩
  have hnframes₇ : s₇.nframes = s.nframes := hv₆.nframes.trans hnframes₅
  obtain ⟨s₈, hs₈, h₈, hv₈, hpages₈, ho₈, hheap₈⟩ := h₇.heapLoop (j := 0) (n := n) (2 ^ 20)
    (by rwa [hnframes₇]) (by omega) hm₆.pages ho₇ (by rw [Nat.add_zero]; exact hsame ▸ hfree)
    (Nat.zero_le 256) (fun i hi => absurd hi (Nat.not_lt_zero i))
    (fun i _ hi => hzero₆ _ (by omega) (by omega)) (by decide)
  let t : PagedMem := { s₈ with kheap := kheapStart }
  refine ⟨t, dir + 0x3000, n, ?_, ⟨⟨h₈.low, h₈.bitmap, h₈.dir_mod, h₈.base_eq, h₈.fit, h₈.le,
    h₈.made, h₈.absent⟩, ?_, hpages₈, ⟨ho₈.marked, ho₈.apart⟩, hheap₈,
    show kheapStart ≠ 0 by decide⟩, ?_, ?_, ?_, ?_⟩
  · have hstart : kernelVoffset + 4096 * (2 ^ 16 + 0) = kheapStart := rfl
    rw [hstart] at hs₈
    have hswitch : s₆.switchPageDirectory dir = s₇ := if_neg (by omega)
    rw [PagedMem.pagingFinalize]
    change (s₁.kmallocInt pageDirSize frameSize true 0).bind _ = _
    rw [hmalloc, Option.bind_some]
    simp only
    rw [if_neg (by omega)]
    change (PagedMem.tableLoop (2 ^ 20) kernelVoffset s₄).bind _ = _
    rw [hs₅, Option.bind_some, hs₆, Option.bind_some, hswitch, hs₈]
    rfl
  · exact (Nat.add_assoc dir 0x3000 0x100000).trans hn
  · rw [← hdir]
    exact hv₈.kernelDirectory.trans (hv₆.kernelDirectory.trans (hv₅.kernelDirectory.trans hkd₄))
  · rw [hdir]
  · exact hv₈.frames.trans (hv₆.frames.trans (hframes₅.trans hv₁.frames))
  · exact hv₈.nframes.trans hnframes₇

end

end Toutatis
