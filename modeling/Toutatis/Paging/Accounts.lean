import Toutatis.Paging.Bitmap
import Toutatis.Paging.Words

/-!
# The two accounts of used memory

`memory_used` counts the bits of `nframes` words, of which the bitmap fills one in 32. What lies in
the others belongs to the account as well: on a machine of 32 MiB the directory of the kernel and
its first page tables do. `used_frames` is counted by `set_frame` and `clear_frame`.

## Key results

- `accounts_agree`: runs along which `memory_used` and `used_frames` agree
- `accounts_differ`: what follows the bitmap is counted as well
-/

namespace Toutatis

open ByteMem Run

/-! ## Calls -/

/-- A call of the frame pool, on a frame or on a page-table entry. -/
inductive FrameCall where
  | set (frame : Nat)
  | clear (frame : Nat)
  | reserve (address : Nat)
  | entry (call : EntryCall)

/-- One call. -/
def FrameCall.exec (s : PagedMem) : FrameCall → Option PagedMem
  | .set frame => some (s.setFrame frame)
  | .clear frame => some (s.clearFrame frame)
  | .reserve address => some (s.pagingMarkReserved address)
  | .entry call => some (call.run s)

/-- The word at an address is one of those that `memory_used` counts. -/
def PagedMem.Counted (s : PagedMem) (a : Nat) : Prop :=
  s.frames / 4 ≤ a / 4 ∧ a / 4 < s.frames / 4 + s.nframes

/-- The call is about a frame below `nframes`, and about an entry that is not counted; a frame is
    only asked for while one below `nframes` is free. `map_page` makes the test itself. -/
def FrameCall.Below (s : PagedMem) : FrameCall → Prop
  | .set frame => frame < s.nframes
  | .clear frame => frame < s.nframes
  | .reserve address => address / frameSize < s.nframes
  | .entry (.alloc page _ _) => ¬s.Counted page ∧
      ((s.pte page).frame = 0 → ∃ f < s.nframes, isUsed s.pool f = false)
  | .entry (.map page ..) => ¬s.Counted page
  | .entry (.free page) => ¬s.Counted page ∧ (s.pte page).frame < s.nframes

/-! ## What every call keeps -/

section

variable {s : FramePool}

/-- The counter counts the marks, and all of them are marks of frames. -/
structure AccountsOk (s : FramePool) : Prop where
  nframes_lt : s.nframes < 2 ^ 20
  count : s.usedFrames = usedCount s
  outside : ∀ f, s.nframes ≤ f → f < s.nframes * 32 → isUsed s f = false

/-- Taking a frame keeps the accounts. -/
theorem AccountsOk.setFrame (h : AccountsOk s) {f : Nat} (hf : f < s.nframes) :
    AccountsOk (setFrame s f) := by
  have hle := usedCount_le s
  have hlt := h.nframes_lt
  refine ⟨by rw [nframes_setFrame]; exact hlt, ?_, fun g h1 h2 => ?_⟩
  · rw [usedFrames_setFrame]
    -- the frame was counted already
    by_cases hu : isUsed s f = true
    · have hsame : Toutatis.setFrame s f = s := by
        rw [Toutatis.setFrame, if_neg]
        rw [(testFrame_iff s f).1, hu]
        simp
      rw [if_pos hu, h.count, hsame]
    · rw [if_neg hu, h.count, usedCount_setFrame hf (by simpa using hu), add32_of_lt (by omega)]
  · -- the bits behind the bitmap are not touched
    rw [nframes_setFrame] at h1 h2
    rw [isUsed_setFrame, h.outside g h1 h2]
    simp
    omega

/-- Giving back a frame keeps the accounts. -/
theorem AccountsOk.clearFrame (h : AccountsOk s) {f : Nat} (hf : f < s.nframes) :
    AccountsOk (clearFrame s f) := by
  have hle := usedCount_le s
  have hlt := h.nframes_lt
  refine ⟨by rw [nframes_clearFrame]; exact hlt, ?_, fun g h1 h2 => ?_⟩
  · rw [usedFrames_clearFrame]
    -- the frame was counted, and its bit is found
    by_cases hu : isUsed s f = true ∧ f % 32 = 0
    · have hcount := usedCount_clearFrame hf hu.1 hu.2
      rw [if_pos hu, h.count, sub32_of_le (by omega) (by omega)]
      omega
    · -- otherwise nothing happens
      have hsame : Toutatis.clearFrame s f = s := by
        rw [Toutatis.clearFrame, if_neg]
        rwa [(testFrame_iff s f).2]
      rw [if_neg hu, h.count, hsame]
  · rw [nframes_clearFrame] at h1 h2
    rw [isUsed_clearFrame, h.outside g h1 h2]
    rfl

/-- Only the words that are counted matter. -/
theorem AccountsOk.congr {s' : FramePool} (h : AccountsOk s) (hn : s'.nframes = s.nframes)
    (hused : s'.usedFrames = s.usedFrames) (hwords : ∀ i < s.nframes, s'.frames i = s.frames i) :
    AccountsOk s' := by
  have hbit : ∀ f < s.nframes * 32, isUsed s' f = isUsed s f := by
    intro f hf
    rw [isUsed, isUsed, hwords (f / 32) (by omega)]
  refine ⟨by rw [hn]; exact h.nframes_lt, ?_, fun f h1 h2 => ?_⟩
  · rw [hused, h.count, usedCount, usedCount, hn]
    congr 1
    apply Finset.filter_congr
    intro f hf
    rw [hbit f (by have := Finset.mem_range.mp hf; omega)]
  · rw [hn] at h1 h2
    rw [hbit f h2]
    exact h.outside f h1 h2

/-- The two counts of the used memory agree. -/
theorem AccountsOk.agree (h : AccountsOk s) :
    memoryUsed s = s.usedFrames * frameSize ∧ memoryUsed s ≤ memoryTotal s := by
  have hlt := h.nframes_lt
  have hle := usedCount_le s
  have hout : bitCount s s.nframes (s.nframes * 32) = 0 := by
    rw [bitCount, Finset.card_eq_zero, Finset.filter_eq_empty_iff]
    intro f hf
    rw [Finset.mem_Ico] at hf
    simp [h.outside f hf.1 hf.2]
  have hin : bitCount s 0 s.nframes = usedCount s := by
    rw [bitCount, usedCount, ← Finset.range_eq_Ico]
  rw [memoryUsed_eq hlt, bitCount_add (Nat.zero_le s.nframes) (by omega), hin, hout, h.count,
    memoryTotal, frameSize]
  omega

end

section

variable {s : PagedMem}

/-- The fields of an entry that is not counted are written. -/
theorem AccountsOk.storePte (h : AccountsOk s.pool) {page : Nat} (hpage : ¬s.Counted page)
    (p : Pte) : AccountsOk (s.storePte page p).pool := by
  have hwords : ∀ i < s.nframes, (s.storePte page p).pool.frames i = s.pool.frames i := by
    intro i hi
    have hne : s.frames / 4 + i ≠ page / 4 := by
      intro heq
      exact hpage ⟨by omega, by omega⟩
    exact Function.update_of_ne hne _ _
  exact h.congr rfl rfl hwords

/-- One call. -/
theorem AccountsOk.exec {c : FrameCall} (h : AccountsOk s.pool) (hc : c.Below s) :
    ∃ s', c.exec s = some s' ∧ AccountsOk s'.pool := by
  have hset : ∀ f < s.nframes, AccountsOk (s.setFrame f).pool := by
    intro f hf
    rw [PagedMem.pool_setFrame]
    exact h.setFrame hf
  have hclear : ∀ f < s.nframes, AccountsOk (s.clearFrame f).pool := by
    intro f hf
    rw [PagedMem.pool_clearFrame]
    exact h.clearFrame hf
  cases c with
  | set frame => exact ⟨_, rfl, hset frame hc⟩
  | clear frame => exact ⟨_, rfl, hclear frame hc⟩
  | reserve address => exact ⟨_, rfl, hset _ hc⟩
  | entry call =>
    refine ⟨_, rfl, ?_⟩
    cases call with
    | alloc page k w =>
      obtain ⟨hpage, hfree⟩ := hc
      rw [EntryCall.run, PagedMem.allocPage]
      by_cases h0 : (s.pte page).frame = 0
      -- the frame that is found lies inside of the pool, since one is free there
      · obtain ⟨g, hg, hfree⟩ := hfree h0
        obtain ⟨f, hf, hlt, -⟩ := firstFreeFrame_of_free (s := s.pool) hg hfree
        rw [if_neg fun hne => hne h0, hf]
        have hsame := PagedMem.SameVars.setFrame s f
        apply (hset f hlt).storePte
        rwa [PagedMem.Counted, hsame.frames, hsame.nframes]
      · rw [if_pos h0]
        exact h.storePte hpage _
    | map page k w phys =>
      rw [EntryCall.run, PagedMem.mapPage]
      have hstore := h.storePte hc ⟨true, w, !k, phys / frameSize⟩
      split
      case isTrue hlt =>
        rw [PagedMem.pool_setFrame]
        exact hstore.setFrame hlt
      case isFalse => exact hstore
    | free page =>
      obtain ⟨hpage, hlt⟩ := hc
      rw [EntryCall.run, PagedMem.freePage]
      by_cases h0 : (s.pte page).frame = 0
      · rw [if_neg fun hne => hne h0]
        exact h.storePte hpage _
      · rw [if_pos h0]
        have hsame := PagedMem.SameVars.clearFrame s (s.pte page).frame
        apply (hclear _ hlt).storePte
        rwa [PagedMem.Counted, hsame.frames, hsame.nframes]

end

/-! ## The accounts -/

/-- **The two accounts.** From `paging_init` on, if no bit is set in what follows the bitmap, up
    to where the loop reads, then along every run of calls on frames below `nframes` and on entries
    that lie elsewhere, in which a frame is asked for only while one is free, `memory_used` is what
    `used_frames` says, and at most `memory_total`. -/
theorem accounts_agree {memSize : Nat} (hm : memSize < 2 ^ 32) {s₀ s : PagedMem}
    (hinit : s₀.pagingInit memSize = some s)
    (hrest : ∀ f, memSize / frameSize / 8 * 8 ≤ f → f < memSize / frameSize * 32 →
      isUsed s.pool f = false)
    {calls : List FrameCall} (hcalls : Each FrameCall.exec FrameCall.Below s calls) :
    ∃ t, execAll FrameCall.exec s calls = some t ∧
      memoryUsed t.pool = t.usedFrames * frameSize ∧ memoryUsed t.pool ≤ memoryTotal t.pool := by
  have hpool := PagedMem.pool_pagingInit hinit
  have hnframes : s.pool.nframes = memSize / frameSize := by rw [hpool, pagingInit]
  -- paging_init clears the bitmap, and behind it no bit is set by the hypothesis
  have hclear : ∀ f < memSize / frameSize * 32, isUsed s.pool f = false := by
    intro f hf
    by_cases h : memSize / frameSize / 8 * 8 ≤ f
    · exact hrest f h hf
    · rw [hpool, isUsed_pagingInit_eq, decide_eq_false h, Bool.false_and]
  have hok : AccountsOk s.pool := by
    refine ⟨?_, ?_, fun f _ h2 => hclear f (by rwa [hnframes] at h2)⟩
    · rw [hnframes, frameSize]
      omega
    · have hused : s.pool.usedFrames = 0 := by rw [hpool, pagingInit]
      rw [hused, eq_comm, usedCount, Finset.card_eq_zero, Finset.filter_eq_empty_iff]
      intro f hf
      have hlt := Finset.mem_range.mp hf
      rw [hnframes] at hlt
      rw [hclear f (by omega)]
      simp
  obtain ⟨t, ht, hok'⟩ := exists_execAll (I := fun s => AccountsOk s.pool)
    (fun s c h hc => h.exec hc) hok hcalls
  exact ⟨t, ht, hok'.agree⟩

/-- A machine before `paging_init`; all its memory holds the same word. -/
def filledMem (w : BitVec 32) : PagedMem where
  mem _ := w
  frames := 0
  nframes := 0
  usedFrames := 0
  kernelDirectory := 0
  currentDirectory := 0
  placementAddress := 0xc0200000
  kheap := 0

/-- A frame is marked and cleared again, and one is allocated, in a pool of 32 frames with clear
    memory behind it. -/
theorem accounts_agree_small : ∃ s t, (filledMem 0).pagingInit 0x20000 = some s ∧
    execAll FrameCall.exec s [.set 5, .clear 5, .entry (.alloc 0xc0300000 false true)] = some t ∧
    memoryUsed t.pool = t.usedFrames * frameSize ∧ memoryUsed t.pool ≤ memoryTotal t.pool := by
  obtain ⟨s, hs, hframes⟩ : ∃ s, (filledMem 0).pagingInit 0x20000 = some s ∧
      s.frames = 0xc0200000 := ⟨_, rfl, rfl⟩
  have hpool := PagedMem.pool_pagingInit hs
  have hnframes : s.pool.nframes = 32 := by rw [hpool]; rfl
  have hclear : ∀ f, isUsed s.pool f = false := by
    intro f
    rw [hpool, isUsed_pagingInit_eq]
    simp [filledMem]
  have hset := PagedMem.SameVars.setFrame s 5
  have hboth := hset.trans (PagedMem.SameVars.clearFrame (s.setFrame 5) 5)
  have hcalls : Each FrameCall.exec FrameCall.Below s
      [.set 5, .clear 5, .entry (.alloc 0xc0300000 false true)] := by
    refine ⟨show 5 < s.pool.nframes by rw [hnframes]; decide, fun s₁ h₁ => ?_⟩
    cases h₁
    refine ⟨show 5 < (s.setFrame 5).nframes from ?_, fun s₂ h₂ => ?_⟩
    · rw [hset.nframes]
      show 5 < s.pool.nframes
      rw [hnframes]
      decide
    cases h₂
    refine ⟨⟨fun hcounted => ?_, fun _ => ⟨0, ?_, ?_⟩⟩, fun _ _ => trivial⟩
    · -- the entry does not lie in the words that are counted
      have hlt := hcounted.2
      rw [hboth.frames, hboth.nframes, hframes] at hlt
      change _ < _ + s.pool.nframes at hlt
      rw [hnframes] at hlt
      exact absurd hlt (by decide)
    · rw [hboth.nframes]
      show 0 < s.pool.nframes
      rw [hnframes]
      decide
    · -- frame 0 is free
      rw [PagedMem.pool_clearFrame, isUsed_clearFrame, PagedMem.pool_setFrame, isUsed_setFrame,
        hclear 0]
      rfl
  obtain ⟨t, ht, hagree⟩ := accounts_agree (by decide) hs (fun f _ _ => hclear f) hcalls
  exact ⟨s, t, hs, ht, hagree⟩

/-- After `paging_init` for 32 frames nothing is used, but with the memory behind the bitmap
    full of ones the 31 words there are counted too. -/
theorem accounts_differ : ∃ s, (filledMem 0xffffffff#32).pagingInit 0x20000 = some s ∧
    s.usedFrames = 0 ∧ memoryUsed s.pool = 31 * 32 * frameSize ∧
    memoryTotal s.pool = 32 * frameSize := by
  refine ⟨_, rfl, rfl, ?_, ?_⟩
  · decide +kernel
  · decide +kernel

end Toutatis
