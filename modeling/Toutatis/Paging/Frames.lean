import Mathlib.Data.Finset.Card
import Toutatis.Lib.Memory

/-!
# Physical frames and pages

A shallow embedding of the frame pool of `kernel/paging.c`: the bitmap `frames`,
searched word by word, the counter `used_frames`, and page-table entries whose
`frame` field is `0` while they hold none. Entries are named by a number.

`test_frame` returns the masked word, not a Boolean: `set_frame` compares it with
`0`, `clear_frame` with `1`.

## Key results

- `firstFreeFrame_spec`: the search returns the first free frame
- `isUsed_setFrame` / `isUsed_clearFrame`: the bits after `set_frame` and
  `clear_frame`
-/

namespace Toutatis

open ByteMem

/-- The address of `kernel_voffset`. -/
def kernelVoffset : Nat := 0xc0000000

/-- `FRAME_SIZE`. -/
def frameSize : Nat := 0x1000

/-- `pte_t`, as far as it is used here; `frame` has 20 bits. -/
structure Pte where
  present : Bool
  readWrite : Bool
  userSupervisor : Bool
  frame : Nat

/-- The static variables of `paging.c`. -/
structure FramePool where
  frames : Nat → BitVec 32
  nframes : Nat
  usedFrames : Nat

/-- The frame pool and all page-table entries. -/
structure Paging where
  pool : FramePool
  pages : Nat → Pte

/-! ## The bitmap -/

/-- `test_frame`: the bit of the frame, at its place in the word. -/
def testFrame (s : FramePool) (frame : Nat) : BitVec 32 :=
  s.frames (frame / 32) &&& (1#32 <<< (frame % 32))

/-- `set_frame`. -/
def setFrame (s : FramePool) (frame : Nat) : FramePool :=
  if testFrame s frame = 0#32 then
    { s with
      frames := Function.update s.frames (frame / 32)
        (s.frames (frame / 32) ||| (1#32 <<< (frame % 32)))
      usedFrames := add32 s.usedFrames 1 }
  else s

/-- `clear_frame`. -/
def clearFrame (s : FramePool) (frame : Nat) : FramePool :=
  if testFrame s frame = 1#32 then
    { s with
      frames := Function.update s.frames (frame / 32)
        (s.frames (frame / 32) &&& ~~~(1#32 <<< (frame % 32)))
      usedFrames := sub32 s.usedFrames 1 }
  else s

/-- `for (count = 1; count < num; ++count)`: whether the loop runs to its end;
    `left` passes are left. -/
def countLoop (s : FramePool) (start : Nat) : (left count : Nat) → Bool
  | 0, _ => true
  | left + 1, count =>
    if testFrame s (add32 start count) ≠ 0#32 then false else countLoop s start left (count + 1)

/-- `for (j = 0; j < 32; ++j)` in word `i`; `left` passes are left. -/
def bitLoop (s : FramePool) (num i : Nat) : (left : Nat) → Option Nat
  | 0 => none
  | left + 1 =>
    if s.frames i &&& (1#32 <<< (31 - left)) = 0#32 ∧
        countLoop s (i * 32 + (31 - left)) (num - 1) 1 then some (i * 32 + (31 - left))
    else bitLoop s num i left

/-- `for (i = 0; i < nframes; ++i)`; `left` passes are left. -/
def wordLoop (s : FramePool) (num : Nat) : (left i : Nat) → Option Nat
  | 0, _ => none
  | left + 1, i =>
    if s.frames i ≠ 0xffffffff#32 then
      match bitLoop s num i 32 with
      | some frame => some frame
      | none => wordLoop s num left (i + 1)
    else wordLoop s num left (i + 1)

/-- `first_free_frames`; `none` is `-1`. The outer loop counts words up to `nframes`,
    32 times the length of the bitmap. -/
def firstFreeFrames (s : FramePool) (num : Nat) : Option Nat :=
  if num = 0 then none else wordLoop s num s.nframes 0

/-- `first_free_frame`. -/
def firstFreeFrame (s : FramePool) : Option Nat := firstFreeFrames s 1

/-! ## Pages -/

/-- `paging_init`: the bitmap of `nframes / 8` bytes is cleared; `rest` is what memory
    holds behind it. -/
def pagingInit (memSize : Nat) (rest : Nat → BitVec 32) : FramePool where
  frames i := rest i &&& (0xffffffff#32 <<< (8 * (memSize / frameSize / 8 - 4 * i)))
  nframes := memSize / frameSize
  usedFrames := 0

/-- `paging_mark_reserved`. -/
def pagingMarkReserved (s : FramePool) (address : Nat) : FramePool :=
  setFrame s (address / frameSize)

/-- `alloc_page`. -/
def allocPage (s : Paging) (page : Nat) (isKernel isWriteable : Bool) : Paging :=
  let mapped (frame : Nat) : Pte := ⟨true, isWriteable, !isKernel, frame⟩
  if (s.pages page).frame ≠ 0 then
    { s with pages := Function.update s.pages page (mapped (s.pages page).frame) }
  else
    match firstFreeFrame s.pool with
    | none => s
    | some frame =>
      { pool := setFrame s.pool frame
        pages := Function.update s.pages page (mapped (frame % 2 ^ 20)) }

/-- `free_page`. -/
def freePage (s : Paging) (page : Nat) : Paging :=
  let entry := s.pages page
  { pool := if entry.frame ≠ 0 then clearFrame s.pool entry.frame else s.pool
    pages := Function.update s.pages page { entry with present := false, frame := 0 } }

/-! ## Bits -/

/-- Whether the bit of a frame is set. -/
def isUsed (s : FramePool) (frame : Nat) : Bool :=
  (s.frames (frame / 32)).getLsbD (frame % 32)

section

variable {s : FramePool} {f g : Nat}

/-- The two tests of a bit, against 0 and against 1. -/
private theorem mask_eq (w : BitVec 32) {k : Nat} (hk : k < 32) :
    (w &&& (1#32 <<< k) = 0#32 ↔ w.getLsbD k = false) ∧
      (w &&& (1#32 <<< k) = 1#32 ↔ w.getLsbD k = true ∧ k = 0) := by
  rw [← BitVec.twoPow_eq, BitVec.and_twoPow]
  -- the mask is a power of two, equal to 1 for bit 0 only
  have hbit : ∀ j, (BitVec.twoPow 32 k).getLsbD j = decide (k = j) := by
    intro j
    rw [BitVec.getLsbD_twoPow]
    simp [hk]
  have h0 : BitVec.twoPow 32 k ≠ 0#32 := by
    intro h
    have := congrArg (fun b => b.getLsbD k) h
    simp [hk] at this
  have h1 : BitVec.twoPow 32 k = 1#32 ↔ k = 0 := by
    constructor
    · intro h
      have := congrArg (fun b => b.getLsbD 0) h
      simpa [hbit, eq_comm] using this
    · rintro rfl
      rfl
  cases hw : w.getLsbD k
  · simp
  · simp [h0, h1]

/-- What the two comparisons of `test_frame` decide. -/
theorem testFrame_iff (s : FramePool) (f : Nat) :
    (testFrame s f = 0#32 ↔ isUsed s f = false) ∧
      (testFrame s f = 1#32 ↔ isUsed s f = true ∧ f % 32 = 0) :=
  mask_eq _ (Nat.mod_lt _ (by decide))

/-- The bits after an update of one word. -/
private theorem isUsed_update {w : BitVec 32} {n : Nat} :
    isUsed { s with frames := Function.update s.frames (f / 32) w, usedFrames := n } g =
      if g / 32 = f / 32 then w.getLsbD (g % 32) else isUsed s g := by
  by_cases h : g / 32 = f / 32
  · simp [isUsed, h]
  · simp [isUsed, h]

/-- `set_frame` sets the bit of its frame. -/
theorem isUsed_setFrame : isUsed (setFrame s f) g = (isUsed s g || decide (g = f)) := by
  have hmod := Nat.mod_lt f (show 0 < 32 by decide)
  by_cases ht : testFrame s f = 0#32
  · rw [setFrame, if_pos ht, isUsed_update, ← BitVec.twoPow_eq]
    by_cases h : g / 32 = f / 32
    · rw [if_pos h, BitVec.getLsbD_or, BitVec.getLsbD_twoPow, isUsed, h]
      congr 1
      simp only [hmod, decide_true, Bool.true_and, decide_eq_decide]
      omega
    · have hgf : g ≠ f := fun hgf => h (by rw [hgf])
      rw [if_neg h]
      simp [hgf]
  · rw [setFrame, if_neg ht]
    rw [(testFrame_iff s f).1, Bool.not_eq_false] at ht
    by_cases hgf : g = f
    · rw [hgf, ht]; rfl
    · simp [hgf]

/-- `set_frame` counts a frame that was free. -/
theorem usedFrames_setFrame :
    (setFrame s f).usedFrames =
      if isUsed s f then s.usedFrames else add32 s.usedFrames 1 := by
  rw [setFrame]
  by_cases h : isUsed s f = true
  · rw [if_neg (fun h0 => by rw [(testFrame_iff s f).1, h] at h0; exact absurd h0 (by simp)),
      if_pos h]
  · rw [if_pos ((testFrame_iff s f).1.mpr (by simpa using h)), if_neg h]

/-- `set_frame` keeps the number of frames. -/
@[simp] theorem nframes_setFrame : (setFrame s f).nframes = s.nframes := by
  rw [setFrame]; split <;> rfl

/-- `clear_frame` clears the bit of its frame when that is the lowest of its word. -/
theorem isUsed_clearFrame :
    isUsed (clearFrame s f) g = (isUsed s g && !(decide (g = f) && decide (f % 32 = 0))) := by
  -- test_frame returns the bit where it stands, and clear_frame compares it with 1
  by_cases ht : testFrame s f = 1#32
  · rw [clearFrame, if_pos ht, isUsed_update, ← BitVec.twoPow_eq]
    rw [(testFrame_iff s f).2] at ht
    by_cases h : g / 32 = f / 32
    · rw [if_pos h, BitVec.getLsbD_and, BitVec.getLsbD_not, BitVec.getLsbD_twoPow, isUsed, h]
      congr 1
      have hg := Nat.mod_lt g (show 0 < 32 by decide)
      have hgf : decide (f % 32 = g % 32) = decide (g = f) := by
        rw [decide_eq_decide]; omega
      simp [hg, ht.2, ← hgf]
    · have hgf : g ≠ f := fun hgf => h (by rw [hgf])
      rw [if_neg h]
      simp [hgf]
  · rw [clearFrame, if_neg ht]
    rw [(testFrame_iff s f).2] at ht
    by_cases hgf : g = f
    · subst hgf
      by_cases hu : isUsed s g = true
      · have : g % 32 ≠ 0 := fun h0 => ht ⟨hu, h0⟩
        simp [this]
      · simp [Bool.eq_false_iff.mpr hu]
    · simp [hgf]

/-- `clear_frame` counts a frame only when its bit is the lowest of its word. -/
theorem usedFrames_clearFrame :
    (clearFrame s f).usedFrames =
      if isUsed s f ∧ f % 32 = 0 then sub32 s.usedFrames 1 else s.usedFrames := by
  rw [clearFrame]
  by_cases h : isUsed s f = true ∧ f % 32 = 0
  · rw [if_pos ((testFrame_iff s f).2.mpr h), if_pos h]
  · rw [if_neg (fun h1 => h ((testFrame_iff s f).2.mp h1)), if_neg h]

/-- `clear_frame` keeps the number of frames. -/
@[simp] theorem nframes_clearFrame : (clearFrame s f).nframes = s.nframes := by
  rw [clearFrame]; split <;> rfl

/-! ## The search -/

/-- The inner loop finds the first free frame of its word. -/
private theorem bitLoop_spec (s : FramePool) (i : Nat) {left : Nat} (hl : left ≤ 32)
    (hpast : ∀ k < 32 - left, isUsed s (i * 32 + k) = true) :
    (∃ f, bitLoop s 1 i left = some f ∧ isUsed s f = false ∧ f / 32 = i ∧
      ∀ k < f % 32, isUsed s (i * 32 + k) = true) ∨
    bitLoop s 1 i left = none ∧ ∀ k < 32, isUsed s (i * 32 + k) = true := by
  induction left with
  | zero => exact Or.inr ⟨rfl, hpast⟩
  | succ left ih =>
    -- the bit that is tested is number 31 - left of its word
    have hdiv : (i * 32 + (31 - left)) / 32 = i := by omega
    have hmod : (i * 32 + (31 - left)) % 32 = 31 - left := by omega
    have htest := (testFrame_iff s (i * 32 + (31 - left))).1
    rw [testFrame, hdiv, hmod] at htest
    rw [bitLoop]
    by_cases hfree : isUsed s (i * 32 + (31 - left)) = false
    · left
      refine ⟨i * 32 + (31 - left), if_pos ⟨htest.mpr hfree, rfl⟩, hfree, hdiv, ?_⟩
      intro k hk
      exact hpast k (by omega)
    · rw [if_neg (fun h => hfree (htest.mp h.1))]
      refine ih (by omega) fun k hk => ?_
      by_cases hk' : k = 31 - left
      · subst hk'
        simpa using hfree
      · exact hpast k (by omega)

/-- The search finds the first free frame, or all frames of the words that it reads are used. -/
private theorem wordLoop_spec (s : FramePool) (left : Nat) {i : Nat}
    (hpast : ∀ g < i * 32, isUsed s g = true) :
    (∃ f, wordLoop s 1 left i = some f ∧ isUsed s f = false ∧ ∀ g < f, isUsed s g = true) ∨
    wordLoop s 1 left i = none ∧ ∀ g < (i + left) * 32, isUsed s g = true := by
  induction left generalizing i with
  | zero => exact Or.inr ⟨rfl, by simpa using hpast⟩
  | succ left ih =>
    rw [wordLoop]
    -- a word without a free frame is passed
    have hnext : (∀ k < 32, isUsed s (i * 32 + k) = true) →
        ∀ g < (i + 1) * 32, isUsed s g = true := by
      intro hword g hg
      by_cases hgi : g < i * 32
      · exact hpast g hgi
      · have h := hword (g - i * 32) (by omega)
        rwa [Nat.add_sub_cancel' (by omega)] at h
    have hshift : (i + (left + 1)) * 32 = (i + 1 + left) * 32 := by omega
    rw [hshift]
    by_cases hfull : s.frames i = 0xffffffff#32
    · rw [if_neg (fun h => h hfull)]
      refine ih (hnext fun k hk => ?_)
      have hdiv : (i * 32 + k) / 32 = i := by omega
      have hmod : (i * 32 + k) % 32 = k := by omega
      have hones : (0xffffffff#32).getLsbD k = true := by
        rw [show 0xffffffff#32 = BitVec.allOnes 32 from rfl, BitVec.getLsbD_allOnes]
        simpa using hk
      rw [isUsed, hdiv, hmod, hfull, hones]
    · rw [if_pos hfull]
      rcases bitLoop_spec s i (Nat.le_refl 32) (by simp) with
        ⟨f, hf, hfree, hdiv, hbelow⟩ | ⟨hn, hword⟩
      · rw [hf]
        refine Or.inl ⟨f, rfl, hfree, fun g hg => ?_⟩
        by_cases hgi : g < i * 32
        · exact hpast g hgi
        · have h := hbelow (g - i * 32) (by omega)
          rwa [Nat.add_sub_cancel' (by omega)] at h
      · rw [hn]
        exact ih (hnext hword)

/-- **The search** returns the first free frame, or `-1` when there is none in the
    words it looks at. -/
theorem firstFreeFrame_spec (s : FramePool) :
    (∃ f, firstFreeFrame s = some f ∧ isUsed s f = false ∧ ∀ g < f, isUsed s g = true) ∨
    firstFreeFrame s = none ∧ ∀ g < s.nframes * 32, isUsed s g = true := by
  have h := wordLoop_spec s s.nframes (i := 0) (by simp)
  rw [Nat.zero_add] at h
  exact h

/-- While a frame below `nframes` is free, the search finds one there. -/
theorem firstFreeFrame_of_free (hg : g < s.nframes) (hfree : isUsed s g = false) :
    ∃ f, firstFreeFrame s = some f ∧ f < s.nframes ∧ isUsed s f = false ∧
      ∀ k < f, isUsed s k = true := by
  rcases firstFreeFrame_spec s with ⟨f, hf, hfu, hbelow⟩ | ⟨-, hall⟩
  · refine ⟨f, hf, ?_, hfu, hbelow⟩
    by_contra hle
    have := hbelow g (by omega)
    rw [hfree] at this
    exact absurd this (by simp)
  · have := hall g (by omega)
    rw [hfree] at this
    exact absurd this (by simp)

end

end Toutatis
