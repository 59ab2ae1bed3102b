import Toutatis.Paging.Accounts
import Toutatis.Paging.Finalize
import Toutatis.Paging.Isolation

/-!
# The kernel's half of the directories

`paging_finalize` makes all 256 page tables of the kernel's half, so that no directory entry of it
has to change later and every clone of a directory can share them. The directory lies in memory
behind the bitmap, though, where `free_page` clears the bit of a frame that has none in the bitmap.

## Key results

- `PagedMem.clonePageDirectory_spec`: a clone links the tables
- `kernel_half_shared`: all directories have the kernel's half that `paging_finalize` made, in every
  run whose calls stay in the bitmap
- `kernel_half_differs`: a frame outside of it is freed
- `phys_reported`: the physical address that `kmalloc_p` reports is that of the processor
-/

namespace Toutatis

open ByteMem Run

/-! ## Clones -/

namespace PagedMem

section

variable {s t : PagedMem} {dir clone : Nat}

/-- Two directories do not overlap. -/
def DirsApart (d e : Nat) : Prop := e + pageDirSize ≤ d ∨ d + pageDirSize ≤ e

/-- The directory has only tables that it shares with `kernel_directory`. -/
def OnlyShared (s : PagedMem) (dir : Nat) : Prop :=
  ∀ i < 1024, s.table dir i = 0 ∨ s.table s.kernelDirectory i = s.table dir i

/-- The slot `i` of the directory `clone` in `t` is that of `dir` in `s`. -/
def LinkedSlot (s t : PagedMem) (dir clone i : Nat) : Prop :=
  t.word (tableAt clone i) = s.word (tableAt dir i) ∧
    t.word (entryAt clone i) = s.word (entryAt dir i)

/-- One pass of the loop: a shared table is linked, and no other word changes. -/
theorem cloneStep_spec {i : Nat} (hmod : clone % 4096 = 0) (hdmod : dir % 4096 = 0)
    (hshared : s.table dir i = 0 ∨ s.table s.kernelDirectory i = s.table dir i) (heapAddr : Nat) :
    ∃ t, s.cloneStep dir clone heapAddr i = some t ∧ s.SameVars t ∧
      (∀ a, a / 4 ≠ tableAt clone i / 4 → a / 4 ≠ entryAt clone i / 4 → t.word a = s.word a) ∧
      (s.table dir i ≠ 0 → LinkedSlot s t dir clone i) := by
  rw [cloneStep]
  by_cases h0 : s.table dir i = 0
  · -- the directory has no table here
    rw [if_pos h0]
    exact ⟨s, rfl, ⟨rfl, rfl, rfl, rfl, rfl⟩, fun _ _ _ => rfl, fun hne => absurd h0 hne⟩
  · rw [if_neg h0, if_pos (hshared.resolve_left h0)]
    refine ⟨_, rfl, ⟨rfl, rfl, rfl, rfl, rfl⟩, fun a ht he => ?_, fun _ => ⟨?_, ?_⟩⟩
    · -- two words are written
      rw [word_store_of_ne he, word_store_of_ne ht]
    · -- the slot for the table
      rw [word_store_of_ne (by rw [tableAt, entryAt]; omega), word_store_self]
    · -- the entry behind it
      rw [word_store_self, word_store_of_ne (by rw [tableAt, entryAt]; omega)]

/-- The words outside of a directory. -/
def OffDir (clone a : Nat) : Prop := a / 4 < clone / 4 ∨ clone + pageDirSize ≤ a / 4 * 4

/-- What lies in one directory does not lie in the other. -/
theorem OffDir.of_apart {i : Nat} (hi : i < 1024) (hmod : clone % 4096 = 0) (hdmod : dir % 4096 = 0)
    (hdir : DirsApart dir clone) : OffDir clone (tableAt dir i) ∧ OffDir clone (entryAt dir i) := by
  rw [DirsApart, pageDirSize] at hdir
  simp only [OffDir, tableAt, entryAt, pageDirSize]
  omega

/-- The loop links every shared table that is left, and keeps the slots before. -/
theorem cloneLoop_spec (hmod : clone % 4096 = 0) (hdmod : dir % 4096 = 0)
    (hkmod : s.kernelDirectory % 4096 = 0) (hdir : DirsApart dir clone)
    (hkd : DirsApart s.kernelDirectory clone) (hshared : s.OnlyShared dir) {left : Nat}
    (hleft : left ≤ 1024) (heap : Nat → Nat) :
    ∃ t, cloneLoop dir clone heap left s = some t ∧ s.SameVars t ∧
      (∀ a, OffDir clone a → t.word a = s.word a) ∧
      (∀ i, 1024 - left ≤ i → i < 1024 → s.table dir i ≠ 0 → LinkedSlot s t dir clone i) ∧
      ∀ i < 1024 - left, LinkedSlot s t clone clone i := by
  induction left generalizing s with
  | zero =>
    exact ⟨s, rfl, ⟨rfl, rfl, rfl, rfl, rfl⟩, fun _ _ => rfl, fun i h1 h2 => by omega,
      fun _ _ => ⟨rfl, rfl⟩⟩
  | succ left ih =>
    have hi : 1023 - left < 1024 := by omega
    obtain ⟨s₁, hs₁, hv₁, hkeep₁, hlink₁⟩ := cloneStep_spec hmod hdmod (hshared _ hi)
      (heap (1023 - left))
    -- neither the directory that is cloned nor the kernel's is changed
    have hoff₁ : ∀ a, OffDir clone a → s₁.word a = s.word a := by
      intro a ha
      rw [OffDir, pageDirSize] at ha
      exact hkeep₁ a (by rw [tableAt]; omega) (by rw [entryAt]; omega)
    have hsame : ∀ i < 1024, s₁.word (tableAt dir i) = s.word (tableAt dir i) ∧
        s₁.word (entryAt dir i) = s.word (entryAt dir i) := by
      intro i hi
      obtain ⟨ht, he⟩ := OffDir.of_apart hi hmod hdmod hdir
      exact ⟨hoff₁ _ ht, hoff₁ _ he⟩
    have htable : ∀ i < 1024, s₁.table dir i = s.table dir i := by
      intro i hi
      rw [table, table, (hsame i hi).1]
    have hshared₁ : s₁.OnlyShared dir := by
      intro i hi
      have hk : s₁.table s.kernelDirectory i = s.table s.kernelDirectory i := by
        rw [table, table, hoff₁ _ (OffDir.of_apart hi hmod hkmod hkd).1]
      rw [hv₁.kernelDirectory, htable i hi, hk]
      exact hshared i hi
    obtain ⟨t, ht, hv, hoff, hlink, hbefore⟩ := ih (s := s₁) (by rwa [hv₁.kernelDirectory])
      (by rwa [hv₁.kernelDirectory]) hshared₁ (by omega)
    refine ⟨t, ?_, hv₁.trans hv, fun a ha => (hoff a ha).trans (hoff₁ a ha), fun i hlow hlt h0 => ?_,
      fun i hi => ?_⟩
    · rw [cloneLoop, hs₁, Option.bind_some, ht]
    · by_cases hilast : i = 1023 - left
      · -- the slot of this pass, which the later passes keep
        obtain ⟨htab, hent⟩ := hbefore i (by omega)
        rw [← hilast] at hlink₁
        obtain ⟨htab₁, hent₁⟩ := hlink₁ h0
        exact ⟨htab.trans htab₁, hent.trans hent₁⟩
      · obtain ⟨htab, hent⟩ := hlink i (by omega) hlt (by rwa [htable i hlt])
        exact ⟨htab.trans (hsame i hlt).1, hent.trans (hsame i hlt).2⟩
    · obtain ⟨htab, hent⟩ := hbefore i (by omega)
      have hne : i ≠ 1023 - left := by omega
      refine ⟨htab.trans (hkeep₁ _ ?_ ?_), hent.trans (hkeep₁ _ ?_ ?_)⟩
      · rw [tableAt, tableAt]
        omega
      · rw [tableAt, entryAt]
        omega
      · rw [entryAt, tableAt]
        omega
      · rw [entryAt, entryAt]
        omega

/-- **`clone_page_directory`** of a directory that has no tables of its own: every table is linked,
    and no word outside of the clone changes. -/
theorem clonePageDirectory_spec (hkheap : s.kheap ≠ 0) {phys : Nat}
    (hphys : s.physOf clone = some phys) (hclone : clone ≠ 0) (hmod : clone % 4096 = 0)
    (hdmod : dir % 4096 = 0) (hkmod : s.kernelDirectory % 4096 = 0) (hdir : DirsApart dir clone)
    (hkd : DirsApart s.kernelDirectory clone) (hshared : s.OnlyShared dir) (heap : Nat → Nat) :
    ∃ t, s.clonePageDirectory dir clone heap = some (clone, t) ∧ s.SameVars t ∧
      (∀ a, OffDir clone a → t.word a = s.word a) ∧
      ∀ i < 1024, s.table dir i ≠ 0 → LinkedSlot s t dir clone i := by
  have hmalloc : s.kmallocInt pageDirSize frameSize true clone = some (clone, phys, s) := by
    rw [kmallocInt, if_pos hkheap, if_pos rfl, hphys]
    rfl
  let s₁ := (s.memset clone pageDirSize).store (physAddrAt clone) (BitVec.ofNat 32 phys)
  have hoff₁ : ∀ a, OffDir clone a → s₁.word a = s.word a := by
    intro a ha
    have hne : a / 4 ≠ physAddrAt clone / 4 := by
      rw [OffDir, pageDirSize] at ha
      rw [physAddrAt]
      omega
    exact (word_store_of_ne hne).trans (word_memset_of_ne ha)
  have htable : ∀ d, d % 4096 = 0 → DirsApart d clone → ∀ i < 1024, s₁.table d i = s.table d i := by
    intro d hd hapart i hi
    rw [table, table, hoff₁ _ (OffDir.of_apart hi hmod hd hapart).1]
  have hshared₁ : s₁.OnlyShared dir := by
    intro i hi
    have hsame := hshared i hi
    rw [← htable dir hdmod hdir i hi, ← htable _ hkmod hkd i hi] at hsame
    exact hsame
  obtain ⟨t, ht, hv, hoff, hlink, -⟩ := cloneLoop_spec (s := s₁) hmod hdmod hkmod hdir hkd hshared₁
    (le_refl 1024) heap
  refine ⟨t, ?_, ⟨hv.frames, hv.nframes, hv.kernelDirectory, hv.placementAddress, hv.kheap⟩,
    fun a ha => (hoff a ha).trans (hoff₁ a ha), fun i hi h0 => ?_⟩
  · rw [clonePageDirectory, hmalloc, Option.bind_some]
    simp only
    rw [if_neg hclone]
    change (cloneLoop dir clone heap 1024 s₁).map _ = _
    rw [ht]
    rfl
  · obtain ⟨htab, hent⟩ := hlink i (by omega) hi (by rwa [htable dir hdmod hdir i hi])
    obtain ⟨ht, he⟩ := OffDir.of_apart hi hmod hdmod hdir
    exact ⟨htab.trans (hoff₁ _ ht), hent.trans (hoff₁ _ he)⟩

end

end PagedMem

/-! ## Runs -/

/-- The state of a run after `paging_finalize`, with the directories that exist, and the addresses
    for which `get_page` has returned an entry, with the entries. -/
structure SharedSpaces where
  mem : PagedMem
  existing : List Nat
  got : List (Nat × Nat)

/-- The call of `clone_page_directory`, of `get_page` or one on an entry, or a word that the heap or
    one of its clients stores. What the heap returns is an argument; when it grows it makes calls of
    the other kinds first. -/
inductive SharedCall where
  | clone (dir heapAddr : Nat) (heap : Nat → Nat)
  | page (virt : Nat) (make : Bool) (dir heapAddr : Nat)
  | entry (c : EntryCall)
  | write (a : Nat) (w : BitVec 32)

/-- One call. -/
def SharedCall.exec (s : SharedSpaces) : SharedCall → Option SharedSpaces
  | .clone dir heapAddr heap =>
    (s.mem.clonePageDirectory dir heapAddr heap).map fun (d, mem) =>
      { s with mem := mem, existing := d :: s.existing }
  | .page virt make dir heapAddr =>
    (s.mem.getPage virt make dir heapAddr).map fun (p, mem) =>
      { s with mem := mem, got := (virt, p) :: s.got }
  | .entry c => some { s with mem := c.run s.mem }
  | .write a w => some { s with mem := s.mem.store a w }

namespace SharedSpaces

/-- The byte at an address is part of the bitmap, of a directory or of a table of the kernel's
    half. -/
def Part (s : SharedSpaces) (x : Nat) : Prop :=
  (s.mem.frames ≤ x ∧ x < s.mem.frames + s.mem.nframes / 8) ∨
    (∃ d ∈ s.existing, d ≤ x ∧ x < d + pageDirSize) ∨
      ∃ i, 768 ≤ i ∧ i < 1024 ∧ s.mem.table s.mem.kernelDirectory i ≤ x ∧
        x < s.mem.table s.mem.kernelDirectory i + pageTableSize

/-- One of these parts lies on the page of the address. -/
def Held (s : SharedSpaces) (v : Nat) : Prop := ∃ x, x / frameSize = v / frameSize ∧ s.Part x

/-- The frame is the one of such a page. -/
def Backs (s : SharedSpaces) (f : Nat) : Prop :=
  ∃ v phys, s.Held v ∧ s.mem.translate s.mem.kernelDirectory v = some phys ∧ phys / frameSize = f

/-- The page of the address has a frame of its own. -/
def Sole (s : SharedSpaces) (x : Nat) : Prop :=
  ∃ phys, s.mem.translate s.mem.kernelDirectory x = some phys ∧
    ∀ y q, kernelVoffset ≤ y → y < 2 ^ 32 →
      s.mem.translate s.mem.kernelDirectory y = some q → q / frameSize = phys / frameSize →
      y / frameSize = x / frameSize

/-- What the heap returns for a directory: a part of the heap that no directory uses, on pages with
    frames of their own. -/
structure Fresh (s : SharedSpaces) (a : Nat) : Prop where
  low : kheapStart ≤ a
  high : a + pageDirSize ≤ 2 ^ 32
  aligned : a % 4096 = 0
  dirs : ∀ d ∈ s.existing, PagedMem.DirsApart d a
  sole : ∀ x, a ≤ x → x < a + pageDirSize → s.Sole x

/-- No frame that the call gives to the entry, or takes from it, backs the bitmap, a directory or a
    table. -/
def Spares (s : SharedSpaces) : EntryCall → Prop
  | .alloc page _ _ => (s.mem.pte page).frame = 0 →
      ∀ f < s.mem.bits, isUsed s.mem.pool f = false → ¬s.Backs f
  | .map _ _ _ phys => ¬s.Backs (phys / frameSize)
  | .free page => ¬s.Backs (s.mem.pte page).frame

/-- The state in which `paging_finalize` leaves the directories. -/
def start (mem : PagedMem) : SharedSpaces := ⟨mem, [mem.kernelDirectory], []⟩

end SharedSpaces

/-- The calls of a run: clones of directories that have no tables of their own in the lower half,
    pages of the kernel's half, and calls on entries that `get_page` has returned. The bits that
    these set or clear are bits of the bitmap, and the pages on which the bitmap, the directories
    and the tables lie keep their frames for themselves. -/
def SharedCall.Ok (s : SharedSpaces) : SharedCall → Prop
  | .clone dir heapAddr _ => dir ∈ s.existing ∧ s.Fresh heapAddr ∧
      ∀ i < 768, s.mem.table dir i = 0 ∨
        s.mem.table s.mem.kernelDirectory i = s.mem.table dir i
  | .page virt _ dir _ => dir ∈ s.existing ∧ kernelVoffset ≤ virt ∧ virt < 2 ^ 32
  | .entry c => (∃ v, (v, c.page) ∈ s.got ∧ ¬s.Held v) ∧ c.Inside s.mem ∧ s.Spares c
  | .write a _ => kernelVoffset ≤ a ∧ a % 4 = 0 ∧ ¬s.Part a

/-- Every directory has the kernel's half that `paging_finalize` made. -/
structure SharedOk (s₁ : PagedMem) (base : Nat) (s : SharedSpaces) : Prop where
  vars : s₁.SameVars s.mem
  kernel_mem : s₁.kernelDirectory ∈ s.existing
  place : ∀ d ∈ s.existing, d % 4096 = 0 ∧ (d = s₁.kernelDirectory ∨ kheapStart ≤ d)
  shared : ∀ d ∈ s.existing, ∀ i, 768 ≤ i → i < 1024 →
    PagedMem.LinkedSlot s₁ s.mem s₁.kernelDirectory d i
  got : ∀ p ∈ s.got, ∃ j < 2 ^ 18, p.2 = base + 4 * j

section

variable {s₁ : PagedMem} {base n : Nat} {s : SharedSpaces} {dir virt a v : Nat}

/-- The slots of the kernel's half are those of the start. -/
theorem SharedOk.slot (h : SharedOk s₁ base s) (hdir : dir ∈ s.existing) {i : Nat} (hi : 768 ≤ i)
    (hlt : i < 1024) : s.mem.table dir i = s₁.table s₁.kernelDirectory i ∧
      s.mem.entry dir i = s₁.entry s₁.kernelDirectory i := by
  obtain ⟨htable, hentry⟩ := h.shared dir hdir i hi hlt
  rw [PagedMem.table, htable, PagedMem.entry, hentry]
  exact ⟨rfl, rfl⟩

/-- The tables lie one behind the other. -/
theorem SharedOk.made (h : SharedOk s₁ base s) (hs : FinalizedMem s₁ base n) (hdir : dir ∈ s.existing)
    {i : Nat} (hi : 768 ≤ i) (hlt : i < 1024) :
    s.mem.table dir i = base + 4096 * (i - 768) ∧
      s.mem.entry dir i = ⟨true, true, true, (base + 4096 * (i - 768) - kernelVoffset) / 4096⟩ := by
  obtain ⟨htable, hentry⟩ := h.slot hdir hi hlt
  have hmade := hs.tables.made (i - 768) (by omega)
  rw [Nat.add_sub_cancel' hi] at hmade
  rw [htable, hentry]
  exact hmade

/-- A directory of a run lies neither in the bitmap nor in the tables. -/
theorem SharedOk.dir_place (h : SharedOk s₁ base s) (hs : FinalizedMem s₁ base n)
    (hdir : dir ∈ s.existing) :
    s₁.kernelDirectory ≤ dir ∧ (dir + pageDirSize ≤ base ∨ base + 0x100000 ≤ dir) := by
  have hbase := hs.tables.base_eq
  have hfit := hs.tables.fit
  rw [pageDirSize]
  obtain rfl | hheap := (h.place dir hdir).2
  · omega
  · omega

/-- `get_page` in the kernel's half changes nothing. -/
theorem SharedOk.getPage_eq (h : SharedOk s₁ base s) (hs : FinalizedMem s₁ base n)
    (hdir : dir ∈ s.existing) (hlow : kernelVoffset ≤ virt) (hvirt : virt < 2 ^ 32) (make : Bool) :
    s.mem.getPage virt make dir a = some (base + 4 * kernelPage virt, s.mem) := by
  have hbase := hs.tables.base_eq
  have hframes := hs.tables.low
  have hbitmap := hs.tables.bitmap
  have hplace := (h.dir_place hs hdir).1
  rw [kernelVoffset] at hframes
  have hpage := kernelPage_lt hvirt
  obtain ⟨hidx, htab⟩ := kernelPage_index hlow hvirt
  have hmade := (h.made hs hdir (i := 768 + kernelPage virt / 1024) (by omega) (by omega)).1
  rw [Nat.add_sub_cancel_left] at hmade
  rw [PagedMem.getPage, if_neg (by omega)]
  simp only [hidx, htab, hmade]
  rw [if_pos (by omega), Option.some.injEq, Prod.mk.injEq]
  exact ⟨by omega, rfl⟩

/-- Two states in which the directories hold the same words in the kernel's half. -/
theorem SharedOk.congr (h : SharedOk s₁ base s) {mem : PagedMem} (hv : s.mem.SameVars mem)
    (hwords : ∀ d ∈ s.existing, ∀ i < 1024, PagedMem.LinkedSlot s.mem mem d d i) :
    SharedOk s₁ base { s with mem := mem } := by
  refine ⟨h.vars.trans hv, h.kernel_mem, h.place, fun d hd i hi hlt => ?_, h.got⟩
  obtain ⟨htable, hentry⟩ := hwords d hd i hlt
  obtain ⟨htable', hentry'⟩ := h.shared d hd i hi hlt
  exact ⟨htable.trans htable', hentry.trans hentry'⟩

/-- A clone has the same kernel's half. -/
theorem SharedOk.clone (h : SharedOk s₁ base s) (hs : FinalizedMem s₁ base n) (hdir : dir ∈ s.existing)
    (hfresh : s.Fresh a) (hlower : ∀ i < 768, s.mem.table dir i = 0 ∨
      s.mem.table s.mem.kernelDirectory i = s.mem.table dir i) (heap : Nat → Nat) :
    ∃ mem, SharedCall.exec s (.clone dir a heap) = some ⟨mem, a :: s.existing, s.got⟩ ∧
      SharedOk s₁ base ⟨mem, a :: s.existing, s.got⟩ ∧
      ∀ x, PagedMem.OffDir a x → mem.word x = s.mem.word x := by
  have hbase := hs.tables.base_eq
  have hframes := hs.tables.low
  have hbitmap := hs.tables.bitmap
  have hkd := h.vars.kernelDirectory
  have hmem : s.mem.kernelDirectory ∈ s.existing := by
    rw [hkd]
    exact h.kernel_mem
  obtain ⟨hlow, hhigh, halign, hdirs, -⟩ := hfresh
  rw [kheapStart] at hlow
  rw [pageDirSize] at hhigh
  have hlow' : kernelVoffset ≤ a := by
    rw [kernelVoffset]
    omega
  have hshared : s.mem.OnlyShared dir := by
    intro i hi
    by_cases hhalf : i < 768
    · exact hlower i hhalf
    · right
      rw [(h.slot hdir (by omega) hi).1, (h.slot hmem (by omega) hi).1]
  have hphys : ∃ phys, s.mem.physOf a = some phys := by
    obtain ⟨hidx, hlt⟩ := kernel_directory_index hlow' (by omega)
    have hmade := (h.made hs hmem hidx hlt).1
    have hplace := (h.dir_place hs hmem).1
    rw [kernelVoffset] at hframes
    rw [PagedMem.physOf, hmade, if_neg (by omega)]
    exact ⟨_, rfl⟩
  obtain ⟨phys, hphys⟩ := hphys
  obtain ⟨t, ht, hv, hoff, hlink⟩ := PagedMem.clonePageDirectory_spec (h.vars.kheap.trans_ne hs.kheap)
    hphys (by omega) halign (h.place dir hdir).1 (h.place _ hmem).1 (hdirs dir hdir) (hdirs _ hmem)
    hshared heap
  refine ⟨t, ?_, ⟨h.vars.trans hv, List.mem_cons_of_mem _ h.kernel_mem, fun d hd => ?_,
    fun d hd i hi hlt => ?_, h.got⟩, hoff⟩
  · rw [SharedCall.exec, ht]
    rfl
  · obtain rfl | hd := List.mem_cons.mp hd
    · exact ⟨halign, Or.inr (by rw [kheapStart]; omega)⟩
    · exact h.place d hd
  · obtain rfl | hd := List.mem_cons.mp hd
    · -- the slot of the clone is that of the directory it is made from
      have hmade := (h.made hs hdir hi hlt).1
      obtain ⟨htable, hentry⟩ := hlink i hlt (by rw [kernelVoffset] at hframes; omega)
      obtain ⟨htable', hentry'⟩ := h.shared dir hdir i hi hlt
      exact ⟨htable.trans htable', hentry.trans hentry'⟩
    · obtain ⟨ht, he⟩ := PagedMem.OffDir.of_apart hlt halign (h.place d hd).1 (hdirs d hd)
      obtain ⟨htable, hentry⟩ := h.shared d hd i hi hlt
      exact ⟨(hoff _ ht).trans htable, (hoff _ he).trans hentry⟩

/-- A call on an entry keeps every directory, when its bits are those of the bitmap. -/
theorem SharedOk.entry (h : SharedOk s₁ base s) (hs : FinalizedMem s₁ base n) {c : EntryCall}
    (hgot : (v, c.page) ∈ s.got) (hin : c.Inside s.mem) :
    SharedOk s₁ base { s with mem := c.run s.mem } := by
  apply h.congr (c.sameVars_run s.mem)
  intro d hd i hi
  obtain ⟨j, hj, hpage⟩ := h.got _ hgot
  have hpage' : c.page = base + 4 * j := hpage
  have hbase := hs.tables.base_eq
  have hdmod := hs.tables.dir_mod
  have hbitmap := hs.tables.bitmap
  have hmod := (h.place d hd).1
  obtain ⟨hplace, htables⟩ := h.dir_place hs hd
  rw [pageDirSize] at htables
  -- the words of the directory lie behind the bitmap, and the entry in a table
  have hoff : ∀ a, d ≤ a → s.mem.OffBitmap a := by
    intro a ha
    rw [PagedMem.OffBitmap, h.vars.frames, h.vars.nframes]
    omega
  constructor
  · apply EntryCall.word_run hin
    · rw [tableAt, hpage']
      omega
    · exact hoff _ (by rw [tableAt]; omega)
  · apply EntryCall.word_run hin
    · rw [entryAt, hpage']
      omega
    · exact hoff _ (by rw [entryAt]; omega)

/-- Every call returns and keeps the kernel's half. -/
theorem SharedOk.exec {c : SharedCall} (h : SharedOk s₁ base s) (hs : FinalizedMem s₁ base n)
    (hc : c.Ok s) : ∃ t, SharedCall.exec s c = some t ∧ SharedOk s₁ base t := by
  cases c with
  | clone dir a heap =>
    obtain ⟨hdir, hfresh, hlower⟩ := hc
    obtain ⟨mem, ht, hok, -⟩ := h.clone hs hdir hfresh hlower heap
    exact ⟨_, ht, hok⟩
  | page virt make dir a =>
    obtain ⟨hdir, hlow, hvirt⟩ := hc
    have hpage := h.getPage_eq hs hdir hlow hvirt make (a := a)
    refine ⟨{ s with got := (virt, base + 4 * kernelPage virt) :: s.got }, ?_, h.vars, h.kernel_mem,
      h.place, h.shared, fun p hp => ?_⟩
    · rw [SharedCall.exec, hpage]
      rfl
    · obtain rfl | hp := List.mem_cons.mp hp
      · exact ⟨kernelPage virt, kernelPage_lt hvirt, rfl⟩
      · exact h.got p hp
  | entry c =>
    obtain ⟨⟨v, hgot, -⟩, hin, -⟩ := hc
    exact ⟨_, rfl, h.entry hs hgot hin⟩
  | write a w =>
    obtain ⟨-, hamod, hpart⟩ := hc
    refine ⟨_, rfl, h.congr ⟨rfl, rfl, rfl, rfl, rfl⟩ fun d hd i hi => ?_⟩
    have hmod := (h.place d hd).1
    -- the word is none of the directory
    have hout : a < d ∨ d + pageDirSize ≤ a := by
      by_contra hcon
      exact hpart (Or.inr (Or.inl ⟨d, hd, by omega, by omega⟩))
    rw [pageDirSize] at hout
    constructor
    · exact PagedMem.word_store_of_ne (by rw [tableAt]; omega)
    · exact PagedMem.word_store_of_ne (by rw [entryAt]; omega)

/-- Only the directory of the kernel exists in the beginning. -/
theorem sharedOk_start (hs : FinalizedMem s₁ base n) : SharedOk s₁ base (SharedSpaces.start s₁) := by
  refine ⟨⟨rfl, rfl, rfl, rfl, rfl⟩, List.mem_singleton.mpr rfl, fun d hd => ?_,
    fun d hd i _ _ => ?_, fun p hp => absurd hp List.not_mem_nil⟩
  · rw [List.mem_singleton.mp hd]
    exact ⟨hs.tables.dir_mod, Or.inl rfl⟩
  · rw [List.mem_singleton.mp hd]
    exact ⟨rfl, rfl⟩

/-- The walk of the processor, whatever the directory. -/
theorem SharedOk.translate_eq (h : SharedOk s₁ base s) (hs : FinalizedMem s₁ base n)
    (hdir : dir ∈ s.existing) (hlow : kernelVoffset ≤ v) (hv : v < 2 ^ 32) :
    s.mem.translate dir v =
      let pte := s.mem.pte (base + 4 * kernelPage v)
      if pte.present then some (pte.frame * frameSize + v % frameSize) else none := by
  have hbase := hs.tables.base_eq
  have hmod := hs.tables.dir_mod
  have hframes := hs.tables.low
  have hbitmap := hs.tables.bitmap
  have hpage := kernelPage_lt hv
  obtain ⟨hidx, htab⟩ := kernelPage_index hlow hv
  have hentry := (h.made hs hdir (i := 768 + kernelPage v / 1024) (by omega) (by omega)).2
  rw [Nat.add_sub_cancel_left] at hentry
  have haddr : (base + 4096 * (kernelPage v / 1024) - kernelVoffset) / 4096 * frameSize +
      kernelVoffset + 4 * (kernelPage v % 1024) = base + 4 * kernelPage v := by
    rw [kernelVoffset] at hframes
    rw [kernelVoffset, frameSize]
    omega
  rw [PagedMem.translate]
  simp only [hidx, htab, hentry, haddr, true_and]

/-- The walk of the kernel. -/
theorem SharedOk.physOf_eq (h : SharedOk s₁ base s) (hs : FinalizedMem s₁ base n)
    (hlow : kernelVoffset ≤ v) (hv : v < 2 ^ 32) :
    s.mem.physOf v =
      some ((s.mem.pte (base + 4 * kernelPage v)).frame * frameSize + v % frameSize) := by
  have hkd := h.vars.kernelDirectory
  have hmem : s.mem.kernelDirectory ∈ s.existing := by
    rw [hkd]
    exact h.kernel_mem
  have hbase := hs.tables.base_eq
  have hframes := hs.tables.low
  have hbitmap := hs.tables.bitmap
  rw [kernelVoffset] at hframes
  have hpage := kernelPage_lt hv
  obtain ⟨hidx, htab⟩ := kernelPage_index hlow hv
  have hmade := (h.made hs hmem (i := 768 + kernelPage v / 1024) (by omega) (by omega)).1
  rw [Nat.add_sub_cancel_left] at hmade
  have hmask : v &&& 0xfff = v % frameSize := Nat.and_two_pow_sub_one_eq_mod v 12
  rw [PagedMem.physOf]
  simp only [hidx, htab, hmade, hmask]
  rw [if_neg (by rw [hkd]; omega), show base + 4096 * (kernelPage v / 1024) +
    4 * (kernelPage v % 1024) = base + 4 * kernelPage v by omega]

/-- **The shared kernel's half.** With memory enough, `paging_finalize` makes every table of it, and
    then every sequence of clones, of calls of `get_page` for the kernel's half and of calls on the
    entries it has returned goes through, as long as the bits that are set or cleared are bits of
    the bitmap, and the pages of bitmap, directories and tables keep their frames for themselves.
    All directories then have the tables and entries of the kernel's half that `paging_finalize`
    made, and translate every address of it alike. -/
theorem kernel_half_shared {s₀ : PagedMem} (hready : s₀.Ready) :
    ∃ s, s₀.pagingFinalize = some s ∧
      (∀ i, 768 ≤ i → i < 1024 → s.table s.kernelDirectory i ≠ 0 ∧
        (s.entry s.kernelDirectory i).present = true) ∧
      ∀ calls, Each SharedCall.exec SharedCall.Ok (SharedSpaces.start s) calls →
        ∃ t, execAll SharedCall.exec (SharedSpaces.start s) calls = some t ∧ ∀ dir ∈ t.existing,
          (∀ i, 768 ≤ i → i < 1024 → t.mem.table dir i = s.table s.kernelDirectory i ∧
            t.mem.entry dir i = s.entry s.kernelDirectory i) ∧
          ∀ v, kernelVoffset ≤ v → v < 2 ^ 32 →
            t.mem.translate dir v = t.mem.translate t.mem.kernelDirectory v := by
  obtain ⟨s, base, n, hfin, hs, -⟩ := pagingFinalize_ready hready
  have hstart := sharedOk_start hs
  refine ⟨s, hfin, fun i hi hlt => ?_, fun calls hcalls => ?_⟩
  · have hbase := hs.tables.base_eq
    have hframes := hs.tables.low
    have hbitmap := hs.tables.bitmap
    rw [kernelVoffset] at hframes
    obtain ⟨htable, hentry⟩ := hstart.made hs (List.mem_singleton.mpr rfl) hi hlt
    change s.table s.kernelDirectory i = _ at htable
    change s.entry s.kernelDirectory i = _ at hentry
    rw [htable, hentry]
    exact ⟨by omega, rfl⟩
  · obtain ⟨t, ht, hok⟩ := exists_execAll (I := SharedOk s base)
      (fun s c h hc => h.exec hs hc) hstart hcalls
    refine ⟨t, ht, fun dir hdir => ⟨fun i hi hlt => hok.slot hdir hi hlt, fun v hlow hv => ?_⟩⟩
    have hmem : t.mem.kernelDirectory ∈ t.existing := by
      rw [hok.vars.kernelDirectory]
      exact hok.kernel_mem
    rw [hok.translate_eq hs hdir hlow hv, hok.translate_eq hs hmem hlow hv]

/-- **The physical addresses that are reported.** In every such run `kmalloc_p` and `kmalloc_ap`
    report for an address that the heap returns the address to which the tables translate it, in
    every directory; and up to the end of its page the memory behind it follows. -/
theorem phys_reported {s₀ s : PagedMem} (hready : s₀.Ready) (hfin : s₀.pagingFinalize = some s)
    {calls : List SharedCall} {t : SharedSpaces}
    (hcalls : Each SharedCall.exec SharedCall.Ok (SharedSpaces.start s) calls)
    (ht : execAll SharedCall.exec (SharedSpaces.start s) calls = some t) (hdir : dir ∈ t.existing)
    {phys : Nat} (hlow : kernelVoffset ≤ v) (hv : v < 2 ^ 32)
    (hphys : t.mem.translate dir v = some phys) :
    (∀ size alignment, t.mem.kmallocInt size alignment true v = some (v, phys, t.mem)) ∧
      ∀ d, v % frameSize + d < frameSize → t.mem.translate dir (v + d) = some (phys + d) := by
  obtain ⟨s', base, n, hfin', hs, -⟩ := pagingFinalize_ready hready
  obtain rfl : s' = s := Option.some.inj (hfin'.symm.trans hfin)
  obtain ⟨t', ht', h⟩ := exists_execAll (I := SharedOk s' base)
    (fun s c h hc => h.exec hs hc) (sharedOk_start hs) hcalls
  obtain rfl : t' = t := Option.some.inj (ht'.symm.trans ht)
  have hwalk := h.translate_eq hs hdir hlow hv
  rw [hphys] at hwalk
  simp only at hwalk
  split at hwalk
  case isFalse => exact absurd hwalk (by simp)
  case isTrue hpresent =>
    obtain rfl := Option.some.inj hwalk
    constructor
    · intro size alignment
      rw [PagedMem.kmallocInt, if_pos (h.vars.kheap.trans_ne hs.kheap), if_pos rfl,
        h.physOf_eq hs hlow hv]
      rfl
    · intro d hd
      rw [frameSize] at hd
      -- the address is in the same page
      have hsame : kernelPage (v + d) = kernelPage v := by
        rw [kernelPage, kernelPage]
        rw [kernelVoffset] at hlow ⊢
        omega
      rw [h.translate_eq hs hdir (by omega) (by omega), hsame]
      simp only
      rw [if_pos hpresent, Option.some.injEq, frameSize]
      omega

end

/-! ## A machine of 32 MiB -/

/-- The bitmap of this machine ends at `0xc0200400`, and its 8192 frames are free. -/
theorem smallMem_ready : ∃ s, (filledMem 0).pagingInit 0x2000000 = some s ∧ s.Ready ∧
    s.frames = 0xc0200000 ∧ s.nframes = 8192 ∧ alignUp s.placementAddress true = 0xc0201000 := by
  obtain ⟨s, hs, hkheap, hframes, hplace⟩ : ∃ s, (filledMem 0).pagingInit 0x2000000 = some s ∧
      s.kheap = 0 ∧ s.frames = 0xc0200000 ∧ s.placementAddress = 0xc0200400 := ⟨_, rfl, rfl, rfl, rfl⟩
  have hpool := PagedMem.pool_pagingInit hs
  have hnframes : s.nframes = 8192 := by
    have heq : s.pool.nframes = 8192 := by
      rw [hpool]
      rfl
    exact heq
  have hbits : s.bits = 8192 := by rw [PagedMem.bits, hnframes]
  have hdir : alignUp s.placementAddress true = 0xc0201000 := by rw [hplace, alignUp, if_pos rfl]
  have hend : s.finalEnd = 0xc0304000 := by rw [PagedMem.finalEnd, hdir]
  have hall : freeBits s 772 = Finset.Ico 772 8192 := by
    rw [freeBits, hbits]
    apply Finset.filter_true_of_mem
    intro f hf
    have hlt := (Finset.mem_Ico.mp hf).2
    rw [hpool, isUsed_pagingInit_eq, decide_eq_false (by rw [frameSize]; omega), Bool.false_and]
  refine ⟨s, hs, ⟨hkheap, ?_, ?_, ?_, ?_, ?_, ?_⟩, hframes, hnframes, hdir⟩
  · -- the bitmap lies in the kernel's half
    rw [hframes]
    decide
  · rw [hframes, hnframes, hplace]
  · rw [hnframes]
    decide
  · rw [hend]
    decide
  · rw [hend, hbits]
    decide
  · -- enough frames are free behind the tables
    rw [hend, show (0xc0304000 - kernelVoffset) / 4096 = 772 by decide, hall, Nat.card_Ico]
    decide

section

variable {s : PagedMem} {base n x : Nat}

/-- The pages that are present in the beginning have frames of their own. -/
theorem FinalizedMem.sole (hs : FinalizedMem s base n) (hlow : kernelVoffset ≤ x) (hx : x < 2 ^ 32)
    (hpresent : (s.pte (base + 4 * kernelPage x)).present = true) :
    (SharedSpaces.start s).Sole x := by
  have hstart := sharedOk_start hs
  have hmem : s.kernelDirectory ∈ (SharedSpaces.start s).existing := List.mem_singleton.mpr rfl
  have hwalk : ∀ v, kernelVoffset ≤ v → v < 2 ^ 32 → s.translate s.kernelDirectory v =
      if (s.pte (base + 4 * kernelPage v)).present then
        some ((s.pte (base + 4 * kernelPage v)).frame * frameSize + v % frameSize) else none :=
    fun v hlow hv => hstart.translate_eq hs hmem hlow hv
  refine ⟨_, (hwalk x hlow hx).trans (if_pos hpresent), fun y q hy hlt hq hframe => ?_⟩
  change s.translate s.kernelDirectory y = some q at hq
  rw [hwalk y hy hlt] at hq
  split at hq
  case isFalse => exact absurd hq (by simp)
  case isTrue hpresent' =>
    obtain rfl := Option.some.inj hq
    have heq := hs.own.apart (kernelPage y) (kernelPage_lt hlt) (kernelPage x) (kernelPage_lt hx)
      hpresent' hpresent (by rw [frameSize] at hframe; omega)
    rw [kernelPage, kernelPage, kernelVoffset] at heq
    rw [kernelVoffset] at hlow hy
    rw [frameSize]
    omega

/-- The heap begins with memory for a directory. -/
theorem FinalizedMem.fresh (hs : FinalizedMem s base n) : (SharedSpaces.start s).Fresh 0xd0001000 := by
  have hbase := hs.tables.base_eq
  have hfit := hs.tables.fit
  rw [kheapStart] at hfit
  refine ⟨by decide, by decide, by decide, fun d hd => Or.inr ?_, fun x hlow hlt => ?_⟩
  · rw [List.mem_singleton.mp hd, pageDirSize]
    omega
  · rw [pageDirSize] at hlt
    apply hs.sole (by rw [kernelVoffset]; omega) (by omega)
    have hheap := hs.heap (kernelPage x - 2 ^ 16) (by rw [kernelPage, kernelVoffset]; omega)
    rwa [Nat.add_sub_cancel' (by rw [kernelPage, kernelVoffset]; omega)] at hheap

/-- The first calls: the kernel's directory is cloned, and a page of the kernel's half is got. -/
def firstCalls (kernelDirectory : Nat) : List SharedCall :=
  [.clone kernelDirectory 0xd0001000 fun _ => 0, .page 0xc0000000 true kernelDirectory 0]

/-- The first calls go through. The words outside of the clone are those of the start. -/
theorem FinalizedMem.exec_firstCalls (hs : FinalizedMem s base n) : ∃ mem,
    execAll SharedCall.exec (SharedSpaces.start s) (firstCalls s.kernelDirectory) =
        some ⟨mem, [0xd0001000, s.kernelDirectory], [(0xc0000000, base)]⟩ ∧
      Each SharedCall.exec SharedCall.Ok (SharedSpaces.start s) (firstCalls s.kernelDirectory) ∧
      SharedOk s base ⟨mem, [0xd0001000, s.kernelDirectory], [(0xc0000000, base)]⟩ ∧
      ∀ x, PagedMem.OffDir 0xd0001000 x → mem.word x = s.word x := by
  have hkernel : s.kernelDirectory ∈ [s.kernelDirectory] := List.mem_singleton.mpr rfl
  obtain ⟨mem, hclone, h, hoff⟩ := (sharedOk_start hs).clone hs hkernel hs.fresh
    (fun i _ => Or.inr rfl) fun _ => 0
  have hpage := h.getPage_eq hs (a := 0) (List.mem_cons_of_mem _ hkernel)
    (by decide : kernelVoffset ≤ 0xc0000000) (by decide) true
  rw [show base + 4 * kernelPage 0xc0000000 = base from rfl] at hpage
  refine ⟨mem, ?_, ?_, ⟨h.vars, h.kernel_mem, h.place, h.shared, fun p hp => ?_⟩, hoff⟩
  · -- the clone, then an entry of the new directory
    rw [firstCalls, execAll_cons_some hclone, execAll, SharedCall.exec]
    change (((mem.getPage 0xc0000000 true s.kernelDirectory 0).map _).bind _) = _
    rw [hpage]
    rfl
  · rw [firstCalls, each_cons_some hclone]
    exact ⟨⟨hkernel, hs.fresh, fun i _ => Or.inr rfl⟩, ⟨List.mem_cons_of_mem _ hkernel, by decide,
      by decide⟩, fun _ _ => trivial⟩
  · -- the entry lies in the first table
    rw [List.mem_singleton.mp hp]
    exact ⟨0, by decide, rfl⟩

/-- After the first calls the page may be mapped to a frame beyond the memory. -/
theorem FinalizedMem.mapCall_ok (hs : FinalizedMem s 0xc0204000 n) (hn : s.nframes = 8192)
    (hframes : s.frames = 0xc0200000) {mem : PagedMem} (h : SharedOk s 0xc0204000
      ⟨mem, [0xd0001000, s.kernelDirectory], [(0xc0000000, 0xc0204000)]⟩)
    (hoff : ∀ x, PagedMem.OffDir 0xd0001000 x → mem.word x = s.word x) :
    SharedCall.Ok ⟨mem, [0xd0001000, s.kernelDirectory], [(0xc0000000, 0xc0204000)]⟩
      (.entry (.map 0xc0204000 true true 0x0e000000)) := by
  have hbase := hs.tables.base_eq
  have hkd : mem.kernelDirectory = s.kernelDirectory := h.vars.kernelDirectory
  have hkernel : mem.kernelDirectory ∈ [0xd0001000, s.kernelDirectory] := by simp [hkd]
  have hn' : mem.nframes = 8192 := h.vars.nframes.trans hn
  have hframes' : mem.frames = 0xc0200000 := h.vars.frames.trans hframes
  -- bitmap, directories and tables lie from `0xc0200000` on
  have hheld : ∀ v, SharedSpaces.Held
      ⟨mem, [0xd0001000, s.kernelDirectory], [(0xc0000000, 0xc0204000)]⟩ v →
        0xc0200000 ≤ v ∧ v < 2 ^ 32 := by
    rintro v ⟨x, hx, hpart⟩
    have hbounds : 0xc0200000 ≤ x ∧ x < 0xd0010000 := by
      obtain ⟨hlow, hlt⟩ | ⟨d, hd, hlow, hlt⟩ | ⟨i, hi, hi', hlow, hlt⟩ := hpart
      · rw [hframes', hn'] at hlt
        rw [hframes'] at hlow
        omega
      · rw [pageDirSize] at hlt
        obtain rfl | hd := List.mem_cons.mp hd
        · omega
        · obtain rfl := List.mem_singleton.mp hd
          omega
      · have hmade := (h.made hs hkernel hi hi').1
        simp only [hmade, pageTableSize] at hlow hlt
        omega
    rw [frameSize] at hx
    omega
  refine ⟨⟨0xc0000000, List.mem_singleton.mpr rfl, fun hv => ?_⟩, Or.inr ?_, ?_⟩
  · exact absurd (hheld _ hv).1 (by decide)
  · rw [hn']
    decide
  · rintro ⟨v, phys, hv, hwalk, hframe⟩
    obtain ⟨hlow, hlt⟩ := hheld v hv
    have hpage := kernelPage_lt hlt
    rw [h.translate_eq hs hkernel (le_trans (by decide) hlow) hlt] at hwalk
    simp only at hwalk
    split at hwalk
    case isFalse => exact absurd hwalk (by simp)
    case isTrue hpresent =>
      -- the frames of the pages that are present have a bit in the bitmap
      obtain rfl := Option.some.inj hwalk
      have hword : mem.pte (0xc0204000 + 4 * kernelPage v) =
          s.pte (0xc0204000 + 4 * kernelPage v) := by
        rw [PagedMem.pte, hoff _ (by rw [PagedMem.OffDir]; omega), PagedMem.pte]
      rw [hword] at hpresent hframe
      have hmarked := (hs.own.marked _ hpage hpresent).1
      rw [PagedMem.bits, hn] at hmarked
      rw [frameSize] at hframe
      omega

/-- **The half that is not shared.** On this machine the bit of the frame `0xe000` is the lowest one
    of `kernel_directory->entries[768]`. A page of the kernel's half is mapped to that frame and
    freed again: the directory of the kernel has lost the entry, and its clone has not. -/
theorem kernel_half_differs : ∃ s₀ s t, (filledMem 0).pagingInit 0x2000000 = some s₀ ∧
    s₀.pagingFinalize = some s ∧ execAll SharedCall.exec (SharedSpaces.start s)
      (firstCalls s.kernelDirectory ++
        [.entry (.map 0xc0204000 true true 0x0e000000), .entry (.free 0xc0204000)]) = some t ∧
    t.existing = [0xd0001000, s.kernelDirectory] ∧ t.got = [(0xc0000000, 0xc0204000)] ∧
    t.mem.translate s.kernelDirectory 0xc0001000 = none ∧
    t.mem.translate 0xd0001000 0xc0001000 = some 0x1000 := by
  obtain ⟨s₀, hinit, hready, hframes₀, hnframes₀, hdir₀⟩ := smallMem_ready
  obtain ⟨s, base, n, hfin, hs, hkd, hbase, hframes, hnframes⟩ := pagingFinalize_ready hready
  rw [hdir₀] at hkd hbase
  rw [hframes₀] at hframes
  rw [hnframes₀] at hnframes
  obtain rfl : base = 0xc0204000 := hbase
  obtain ⟨m₁, hrun, -, h₁, hoff⟩ := hs.exec_firstCalls
  have hv₁ := h₁.vars
  -- the frame is beyond the memory, so only the entry is written
  let m₂ := m₁.storePte 0xc0204000 ⟨true, true, false, 0xe000⟩
  have hmap : m₁.mapPage 0xc0204000 true true 0x0e000000 = m₂ := by
    rw [PagedMem.mapPage]
    apply if_neg
    change ¬_ < m₁.nframes
    rw [hv₁.nframes, hnframes]
    decide
  have hpte : m₂.pte 0xc0204000 = ⟨true, true, false, 0xe000⟩ :=
    PagedMem.pte_storePte m₁ 0xc0204000 _
  let m₃ := m₂.clearFrame 0xe000
  have hv₃ : m₂.SameVars m₃ := PagedMem.SameVars.clearFrame m₂ 0xe000
  let p : Pte := { m₃.pte 0xc0204000 with present := false, frame := 0 }
  have hfree : m₂.freePage 0xc0204000 = m₃.storePte 0xc0204000 p := by
    rw [PagedMem.freePage, hpte]
    rfl
  have hframes₂ : m₂.frames = 0xc0200000 := hv₁.frames.trans hframes
  have hframes₃ : m₃.frames = 0xc0200000 := hv₃.frames.trans hframes₂
  -- the words that the calls on the entry leave as they are
  have hwords : ∀ a, a / 4 ≠ 0xc0204000 / 4 → a / 4 ≠ 0xc0200000 / 4 + 0xe000 / 32 →
      (m₃.storePte 0xc0204000 p).word a = m₁.word a := by
    intro a hpage hbit
    have hclear : m₃.word a = m₂.word a :=
      PagedMem.word_clearFrame fun _ => by rw [hframes₂]; exact hbit
    exact (PagedMem.word_store_of_ne hpage).trans (hclear.trans (PagedMem.word_store_of_ne hpage))
  refine ⟨s₀, s, ⟨m₃.storePte 0xc0204000 p, [0xd0001000, s.kernelDirectory],
    [(0xc0000000, 0xc0204000)]⟩, hinit, hfin, ?_, rfl, rfl, ?_, ?_⟩
  · rw [execAll_append, hrun, Option.bind_some]
    simp only [execAll, SharedCall.exec, EntryCall.run, Option.bind_some, hmap, hfree]
  · -- the bit of the frame is the flag `present`
    have hclear : isUsed m₃.pool 0xe000 = false := by
      rw [PagedMem.pool_clearFrame, isUsed_clearFrame]
      simp
    have hword : (m₃.word 0xc0201c00).getLsbD 0 = false := by
      rw [isUsed, PagedMem.pool] at hclear
      simp only [hframes₃] at hclear
      exact hclear
    have hsame : (m₃.storePte 0xc0204000 p).word 0xc0201c00 = m₃.word 0xc0201c00 :=
      PagedMem.word_store_of_ne (by decide)
    have hpresent : ((m₃.storePte 0xc0204000 p).entry 0xc0201000 768).present = false := by
      rw [PagedMem.entry, show entryAt 0xc0201000 768 = 0xc0201c00 from rfl, hsame]
      exact hword
    rw [hkd, PagedMem.translate, show pageDirectoryIndex 0xc0001000 = 768 by decide]
    simp only [hpresent]
    simp
  · have hentry : (m₃.storePte 0xc0204000 p).entry 0xd0001000 768 = ⟨true, true, true, 0x204⟩ := by
      rw [PagedMem.entry, hwords _ (by decide) (by decide)]
      exact (h₁.made hs List.mem_cons_self (i := 768) (by decide) (by decide)).2
    have hpage : (m₃.storePte 0xc0204000 p).pte 0xc0204004 = ⟨true, false, true, 1⟩ := by
      have hends := hs.ends
      rw [kernelVoffset] at hends
      rw [PagedMem.pte, hwords _ (by decide) (by decide),
        hoff _ (by rw [PagedMem.OffDir]; exact Or.inl (by decide))]
      exact hs.pages 1 (by omega)
    rw [PagedMem.translate, show pageDirectoryIndex 0xc0001000 = 768 by decide, hentry]
    simp only
    rw [show 0x204 * frameSize + kernelVoffset + 4 * pageTableIndex 0xc0001000 = 0xc0204004 by decide,
      hpage]
    rfl

/-- The run of this machine up to the call that frees the page. -/
theorem kernel_half_shared_small : ∃ s₀ s t, (filledMem 0).pagingInit 0x2000000 = some s₀ ∧
    s₀.pagingFinalize = some s ∧ execAll SharedCall.exec (SharedSpaces.start s)
      (firstCalls s.kernelDirectory ++ [.entry (.map 0xc0204000 true true 0x0e000000)]) = some t ∧
    0xd0001000 ∈ t.existing ∧ ∀ v, kernelVoffset ≤ v → v < 2 ^ 32 →
      t.mem.translate 0xd0001000 v = t.mem.translate t.mem.kernelDirectory v := by
  obtain ⟨s₀, hinit, hready, hframes₀, hnframes₀, hdir₀⟩ := smallMem_ready
  obtain ⟨s, base, n, hfin, hs, -, hbase, hframes, hnframes⟩ := pagingFinalize_ready hready
  rw [hdir₀] at hbase
  obtain rfl : base = 0xc0204000 := hbase
  obtain ⟨m, hrun, hok, h, hoff⟩ := hs.exec_firstCalls
  have hmap := hs.mapCall_ok (hnframes.trans hnframes₀) (hframes.trans hframes₀) h hoff
  have hcalls : Each SharedCall.exec SharedCall.Ok (SharedSpaces.start s)
      (firstCalls s.kernelDirectory ++ [.entry (.map 0xc0204000 true true 0x0e000000)]) := by
    refine each_append.mpr ⟨hok, fun s₁ hs₁ => ?_⟩
    obtain rfl := Option.some.inj (hrun.symm.trans hs₁)
    exact ⟨hmap, fun _ _ => trivial⟩
  obtain ⟨s', hfin', -, hall⟩ := kernel_half_shared hready
  obtain rfl : s' = s := Option.some.inj (hfin'.symm.trans hfin)
  obtain ⟨t, ht, hshared⟩ := hall _ hcalls
  have hclone : 0xd0001000 ∈ t.existing := by
    have hlast := ht
    rw [execAll_append, hrun, Option.bind_some] at hlast
    obtain rfl := Option.some.inj hlast
    exact List.mem_cons_self
  exact ⟨s₀, s', t, hinit, hfin, ht, hclone, (hshared _ hclone).2⟩

/-- The directory of the kernel has the physical address `0x201000`, and the tables of the clone
    translate to it. -/
theorem phys_reported_directory : ∃ s₀ s t, (filledMem 0).pagingInit 0x2000000 = some s₀ ∧
    s₀.pagingFinalize = some s ∧
    execAll SharedCall.exec (SharedSpaces.start s) (firstCalls s.kernelDirectory) = some t ∧
    t.mem.translate 0xd0001000 0xc0201000 = some 0x201000 ∧
    t.mem.kmallocInt 8 0 true 0xc0201000 = some (0xc0201000, 0x201000, t.mem) := by
  obtain ⟨s₀, hinit, hready, -, -, hdir₀⟩ := smallMem_ready
  obtain ⟨s, base, n, hfin, hs, -, hbase, -⟩ := pagingFinalize_ready hready
  rw [hdir₀] at hbase
  obtain rfl : base = 0xc0204000 := hbase
  obtain ⟨m, hrun, hok, h, hoff⟩ := hs.exec_firstCalls
  have hphys : m.translate 0xd0001000 0xc0201000 = some 0x201000 := by
    have hends := hs.ends
    rw [kernelVoffset] at hends
    have hwalk := h.translate_eq hs (List.mem_cons_self) (by decide : kernelVoffset ≤ 0xc0201000)
      (by decide)
    have hpte : m.pte (0xc0204000 + 4 * 0x201) = mappedPte 0x201 := by
      rw [PagedMem.pte, hoff _ (by rw [PagedMem.OffDir]; exact Or.inl (by decide))]
      exact hs.pages 0x201 (by omega)
    rw [show kernelPage 0xc0201000 = 0x201 by decide] at hwalk
    simp only [hpte] at hwalk
    exact hwalk
  exact ⟨s₀, s, _, hinit, hfin, hrun, hphys, (phys_reported hready hfin hok hrun
    List.mem_cons_self (by decide) (by decide) hphys).1 8 0⟩

end

end Toutatis
