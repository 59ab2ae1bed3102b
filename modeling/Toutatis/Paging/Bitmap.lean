import Toutatis.Paging.BootMemory
import Toutatis.Paging.Reserve

/-!
# The bounds of the frame bitmap

The bitmap has `nframes / 8` bytes. The loops over its words run up to `nframes`, 32 times as
far, and `test_frame`, `set_frame` and `clear_frame` take any frame number. This module says
when a search stays inside, what the recount of `memory_used` counts, and which calls keep the
accesses to single frames inside the bitmap.

## Key results

- `first_free_frames_iff`: when the search for free frames is right
- `memoryUsed_eq`: what `memory_used` counts
- `bitmap_bounds_iff`: when all accesses of a run lie in the bitmap
-/

namespace Toutatis

open ByteMem Run

/-! ## The words that a search reads -/

/-- The words that the innermost loop of `first_free_frames` reads. -/
def countReads (s : FramePool) (start : Nat) : (left count : Nat) → List Nat
  | 0, _ => []
  | left + 1, count =>
    add32 start count / 32 ::
      if testFrame s (add32 start count) ≠ 0#32 then [] else countReads s start left (count + 1)

/-- The words that the loop over the bits of word `i` reads. -/
def bitReads (s : FramePool) (num i : Nat) : (left : Nat) → List Nat
  | 0 => []
  | left + 1 =>
    i :: if s.frames i &&& (1#32 <<< (31 - left)) = 0#32 then
      countReads s (i * 32 + (31 - left)) (num - 1) 1 ++
        if countLoop s (i * 32 + (31 - left)) (num - 1) 1 then [] else bitReads s num i left
    else bitReads s num i left

/-- The words that the loop over the words reads. -/
def wordReads (s : FramePool) (num : Nat) : (left i : Nat) → List Nat
  | 0, _ => []
  | left + 1, i =>
    i :: if s.frames i ≠ 0xffffffff#32 then
      bitReads s num i 32 ++
        match bitLoop s num i 32 with
        | some _ => []
        | none => wordReads s num left (i + 1)
    else wordReads s num left (i + 1)

/-- The words that `first_free_frames` reads, in order. -/
def firstFreeReads (s : FramePool) (num : Nat) : List Nat :=
  if num = 0 then [] else wordReads s num s.nframes 0

/-- `num` free frames from `start` on, all below `nframes`. -/
def FreeRun (s : FramePool) (num start : Nat) : Prop :=
  start + num ≤ s.nframes ∧ ∀ k < num, isUsed s (start + k) = false

section Search

variable {s : FramePool} {num start : Nat}

/-- The inner loop finds all frames behind the first one free. -/
theorem countLoop_iff (s : FramePool) (start left count : Nat) :
    countLoop s start left count = true ↔
      ∀ k, count ≤ k → k < count + left → isUsed s (add32 start k) = false := by
  induction left generalizing count with
  | zero => exact iff_of_true rfl fun k h1 h2 => by omega
  | succ left ih =>
    rw [countLoop]
    by_cases hu : isUsed s (add32 start count) = false
    · rw [if_neg (fun h => h ((testFrame_iff s _).1.mpr hu)), ih]
      refine ⟨fun h k h1 h2 => ?_, fun h k h1 h2 => h k (by omega) (by omega)⟩
      rcases Nat.eq_or_lt_of_le h1 with rfl | h1
      · exact hu
      · exact h k h1 (by omega)
    · rw [if_pos (fun h => hu ((testFrame_iff s _).1.mp h))]
      exact iff_of_false (by simp) fun h => hu (h count (Nat.le_refl _) (by omega))

/-- The words that the inner loop reads. -/
theorem mem_countReads {w left count : Nat} (h : w ∈ countReads s start left count) :
    ∃ k, count ≤ k ∧ k < count + left ∧ w = add32 start k / 32 := by
  induction left generalizing count with
  | zero => exact absurd h List.not_mem_nil
  | succ left ih =>
    rw [countReads, List.mem_cons] at h
    rcases h with rfl | h
    · exact ⟨count, Nat.le_refl _, by omega, rfl⟩
    · split at h
      · exact absurd h List.not_mem_nil
      · obtain ⟨k, h1, h2, h3⟩ := ih h
        exact ⟨k, by omega, by omega, h3⟩

/-- A run that is accepted has been read to its end. -/
theorem countReads_of_countLoop {left count k : Nat} (h : countLoop s start left count = true)
    (h1 : count ≤ k) (h2 : k < count + left) : add32 start k / 32 ∈ countReads s start left count := by
  induction left generalizing count with
  | zero => omega
  | succ left ih =>
    rw [countLoop] at h
    split at h
    · exact absurd h (by simp)
    · rename_i ht
      rw [countReads, if_neg ht]
      rcases Nat.eq_or_lt_of_le h1 with rfl | h1
      · exact List.mem_cons_self
      · exact List.mem_cons_of_mem _ (ih h h1 (by omega))

/-- The test of one bit in the loop over a word. -/
private theorem bit_free_iff (s : FramePool) (i : Nat) {left : Nat} (hl : left < 32) :
    s.frames i &&& (1#32 <<< (31 - left)) = 0#32 ↔ isUsed s (i * 32 + (31 - left)) = false := by
  have hdiv : (i * 32 + (31 - left)) / 32 = i := by omega
  have hmod : (i * 32 + (31 - left)) % 32 = 31 - left := by omega
  have htest := (testFrame_iff s (i * 32 + (31 - left))).1
  rwa [testFrame, hdiv, hmod] at htest

/-- A start before the first free run is not accepted. -/
private theorem countLoop_before {f g limit : Nat} (hnum : 1 ≤ num) (hlim : limit ≤ 2 ^ 32)
    (hend : f + num ≤ limit) (hfirst : ∀ g < f, ¬∀ k < num, isUsed s (g + k) = false) (hg : g < f)
    (hfree : isUsed s g = false) : countLoop s g (num - 1) 1 = false := by
  rw [Bool.eq_false_iff]
  intro hloop
  refine hfirst g hg fun k hk => ?_
  rcases Nat.eq_zero_or_pos k with rfl | hk0
  · exact hfree
  · have h := (countLoop_iff s g (num - 1) 1).mp hloop k hk0 (by omega)
    rwa [add32_of_lt (by omega)] at h

/-- Below a limit that ends a word, the inner loop reads no word behind it. -/
private theorem countReads_lt {f g limit w : Nat} (hnum : 1 ≤ num) (hlim : limit ≤ 2 ^ 32)
    (h32 : limit % 32 = 0) (hend : f + num ≤ limit) (hg : g ≤ f)
    (hw : w ∈ countReads s g (num - 1) 1) : w * 32 + 32 ≤ limit := by
  obtain ⟨k, h1, h2, rfl⟩ := mem_countReads hw
  rw [add32_of_lt (by omega)]
  omega

/-- The loop over the bits of a word, when the first free run starts there or later. -/
private theorem bitLoop_first {f limit i left : Nat} (hnum : 1 ≤ num) (hlim : limit ≤ 2 ^ 32)
    (h32 : limit % 32 = 0) (hend : f + num ≤ limit) (hrun : ∀ k < num, isUsed s (f + k) = false)
    (hfirst : ∀ g < f, ¬∀ k < num, isUsed s (g + k) = false) (hl : left ≤ 32)
    (hpos : i * 32 + (32 - left) ≤ f) :
    bitLoop s num i left = (if f < (i + 1) * 32 then some f else none) ∧
      ∀ w ∈ bitReads s num i left, w * 32 + 32 ≤ limit := by
  induction left with
  | zero =>
    rw [bitLoop, if_neg (by omega)]
    exact ⟨rfl, fun w hw => absurd hw List.not_mem_nil⟩
  | succ left ih =>
    have hbit := bit_free_iff s i (show left < 32 by omega)
    rw [bitLoop, bitReads]
    rcases Nat.eq_or_lt_of_le hpos with heq | hlt
    · -- the run starts here
      have hpf : i * 32 + (31 - left) = f := by omega
      rw [hpf] at hbit ⊢
      have hfree := hbit.mpr (hrun 0 hnum)
      -- and is counted to its end
      have hloop : countLoop s f (num - 1) 1 = true := by
        rw [countLoop_iff]
        intro k h1 h2
        rw [add32_of_lt (by omega)]
        exact hrun k (by omega)
      rw [if_pos ⟨hfree, hloop⟩, if_pos hfree, if_pos hloop, if_pos (by omega), List.append_nil]
      refine ⟨rfl, fun w hw => ?_⟩
      rcases List.mem_cons.mp hw with rfl | hw
      · omega
      · exact countReads_lt hnum hlim h32 hend (Nat.le_refl f) hw
    · obtain ⟨hres, hreads⟩ := ih (by omega) (by omega)
      by_cases hfree : isUsed s (i * 32 + (31 - left)) = false
      · -- a shorter run in front of it, which is counted and given up
        have hloop := countLoop_before hnum hlim hend hfirst
          (show i * 32 + (31 - left) < f by omega) hfree
        rw [if_neg (fun h => by rw [hloop] at h; exact absurd h.2 (by simp)),
          if_pos (hbit.mpr hfree), hloop, if_neg Bool.false_ne_true]
        refine ⟨hres, fun w hw => ?_⟩
        rcases List.mem_cons.mp hw with rfl | hw
        · omega
        · rcases List.mem_append.mp hw with hw | hw
          · exact countReads_lt hnum hlim h32 hend (show i * 32 + (31 - left) ≤ f by omega) hw
          · exact hreads w hw
      · rw [if_neg (fun h => hfree (hbit.mp h.1)), if_neg (fun h => hfree (hbit.mp h))]
        refine ⟨hres, fun w hw => ?_⟩
        rcases List.mem_cons.mp hw with rfl | hw
        · omega
        · exact hreads w hw

/-- The loop over the words, when the first free run is still to come. -/
private theorem wordLoop_first {f limit i left : Nat} (hnum : 1 ≤ num) (hlim : limit ≤ 2 ^ 32)
    (h32 : limit % 32 = 0) (hend : f + num ≤ limit) (hrun : ∀ k < num, isUsed s (f + k) = false)
    (hfirst : ∀ g < f, ¬∀ k < num, isUsed s (g + k) = false) (hpos : i * 32 ≤ f)
    (hin : f < (i + left) * 32) :
    wordLoop s num left i = some f ∧ ∀ w ∈ wordReads s num left i, w * 32 + 32 ≤ limit := by
  induction left generalizing i with
  | zero => omega
  | succ left ih =>
    rw [wordLoop, wordReads]
    obtain ⟨hbits, hreads⟩ := bitLoop_first hnum hlim h32 hend hrun hfirst (Nat.le_refl 32)
      (show i * 32 + (32 - 32) ≤ f by omega)
    by_cases hfull : s.frames i = 0xffffffff#32
    · -- no free frame in this word
      have hnext : (i + 1) * 32 ≤ f := by
        by_contra hlt
        have h0 := hrun 0 hnum
        have hones : (0xffffffff#32).getLsbD (f % 32) = true := by
          rw [show 0xffffffff#32 = BitVec.allOnes 32 from rfl, BitVec.getLsbD_allOnes]
          simpa using Nat.mod_lt f (show 0 < 32 by decide)
        have hdiv : f / 32 = i := by omega
        rw [Nat.add_zero, isUsed, hdiv, hfull, hones] at h0
        exact absurd h0 (by simp)
      obtain ⟨hres, hrest⟩ := ih hnext (by omega)
      rw [if_neg (fun h => h hfull), if_neg (fun h => h hfull)]
      refine ⟨hres, fun w hw => ?_⟩
      rcases List.mem_cons.mp hw with rfl | hw
      · omega
      · exact hrest w hw
    · rw [if_pos hfull, if_pos hfull]
      by_cases hhere : f < (i + 1) * 32
      · -- the run starts in this word
        rw [if_pos hhere] at hbits
        rw [hbits, List.append_nil]
        refine ⟨rfl, fun w hw => ?_⟩
        rcases List.mem_cons.mp hw with rfl | hw
        · omega
        · exact hreads w hw
      · -- the free bits of this word start shorter runs
        rw [if_neg hhere] at hbits
        obtain ⟨hres, hrest⟩ := ih (i := i + 1) (by omega) (by omega)
        rw [hbits]
        refine ⟨hres, fun w hw => ?_⟩
        rcases List.mem_cons.mp hw with rfl | hw
        · omega
        · rcases List.mem_append.mp hw with hw | hw
          · exact hreads w hw
          · exact hrest w hw

/-- What the loop over the bits returns has been read to its end. -/
private theorem bitReads_of_some {f i left : Nat} (hl : left ≤ 32)
    (h : bitLoop s num i left = some f) :
    f / 32 ∈ bitReads s num i left ∧
      ∀ k, 1 ≤ k → k < num → add32 f k / 32 ∈ bitReads s num i left := by
  induction left with
  | zero => exact absurd h (by simp [bitLoop])
  | succ left ih =>
    rw [bitLoop] at h
    rw [bitReads]
    split at h
    -- the run starts at this bit: its word has been read, and the words of the run by the inner
    -- loop
    · rename_i hyes
      obtain rfl := Option.some.inj h
      rw [if_pos hyes.1]
      have hdiv : (i * 32 + (31 - left)) / 32 = i := by omega
      refine ⟨by rw [hdiv]; exact List.mem_cons_self, fun k h1 h2 => ?_⟩
      refine List.mem_cons_of_mem _ (List.mem_append_left _ ?_)
      exact countReads_of_countLoop hyes.2 h1 (by omega)
    · rename_i hno
      obtain ⟨h0, hk⟩ := ih (by omega) h
      -- the reads of the rest are among those of this turn, whether the bit was set or the run too
      -- short
      have hsub : ∀ w ∈ bitReads s num i left, w ∈ i ::
          if s.frames i &&& (1#32 <<< (31 - left)) = 0#32 then
            countReads s (i * 32 + (31 - left)) (num - 1) 1 ++
              if countLoop s (i * 32 + (31 - left)) (num - 1) 1 then [] else bitReads s num i left
          else bitReads s num i left := by
        intro w hw
        refine List.mem_cons_of_mem _ ?_
        split
        · rename_i hbit
          rw [if_neg (fun hc => hno ⟨hbit, hc⟩)]
          exact List.mem_append_right _ hw
        · exact hw
      exact ⟨hsub _ h0, fun k h1 h2 => hsub _ (hk k h1 h2)⟩

/-- The words of the frames that were found have been read. -/
private theorem wordReads_of_some {f i left : Nat} (h : wordLoop s num left i = some f) :
    f / 32 ∈ wordReads s num left i ∧
      ∀ k, 1 ≤ k → k < num → add32 f k / 32 ∈ wordReads s num left i := by
  induction left generalizing i with
  | zero => exact absurd h (by simp [wordLoop])
  | succ left ih =>
    rw [wordLoop] at h
    rw [wordReads]
    split at h
    · rename_i hfull
      rw [if_pos hfull]
      -- either the run starts in this word, or all that was read here stays read
      cases hb : bitLoop s num i 32 with
      | some g =>
        rw [hb] at h
        obtain rfl := Option.some.inj h
        obtain ⟨h0, hk⟩ := bitReads_of_some (Nat.le_refl 32) hb
        rw [List.append_nil]
        exact ⟨List.mem_cons_of_mem _ h0, fun k h1 h2 => List.mem_cons_of_mem _ (hk k h1 h2)⟩
      | none =>
        rw [hb] at h
        obtain ⟨h0, hk⟩ := ih h
        exact ⟨List.mem_cons_of_mem _ (List.mem_append_right _ h0),
          fun k h1 h2 => List.mem_cons_of_mem _ (List.mem_append_right _ (hk k h1 h2))⟩
    · rename_i hfull
      rw [if_neg hfull]
      obtain ⟨h0, hk⟩ := ih h
      exact ⟨List.mem_cons_of_mem _ h0, fun k h1 h2 => List.mem_cons_of_mem _ (hk k h1 h2)⟩

/-- A search without result has read all words it may read. -/
private theorem wordReads_of_none {i left : Nat} (h : wordLoop s num left i = none) :
    ∀ w, i ≤ w → w < i + left → w ∈ wordReads s num left i := by
  induction left generalizing i with
  | zero =>
    intro w h1 h2
    omega
  | succ left ih =>
    intro w h1 h2
    rw [wordReads]
    -- the word of this turn, or one that the rest of the loop reads
    rcases Nat.eq_or_lt_of_le h1 with rfl | h1
    · exact List.mem_cons_self
    · refine List.mem_cons_of_mem _ ?_
      rw [wordLoop] at h
      split at h
      · rename_i hfull
        rw [if_pos hfull]
        cases hb : bitLoop s num i 32 with
        | some g =>
          rw [hb] at h
          exact absurd h (by simp)
        | none =>
          rw [hb] at h
          exact List.mem_append_right _ (ih h w h1 (by omega))
      · rename_i hfull
        rw [if_neg hfull]
        exact ih h w h1 (by omega)

/-- **The search for free frames.** `first_free_frames` reads only bits of frames below
    `nframes`, returns the first run of free frames below `nframes`, and `-1` just when there is
    none, if and only if there are no frames at all or some run of free frames lies in the
    words of the bitmap whose bits all stand for frames. -/
theorem first_free_frames_iff (s : FramePool) (hn : s.nframes < 2 ^ 32) {num : Nat}
    (hnum : 1 ≤ num) :
    ((∀ w ∈ firstFreeReads s num, ∀ b < 32, w * 32 + b < s.nframes) ∧
      (∀ f, firstFreeFrames s num = some f ↔ IsLeast {g | FreeRun s num g} f) ∧
      (firstFreeFrames s num = none ↔ ¬∃ g, FreeRun s num g)) ↔
    (s.nframes = 0 ∨
      ∃ start, start + num ≤ s.nframes / 32 * 32 ∧ ∀ k < num, isUsed s (start + k) = false) := by
  have hne : num ≠ 0 := by omega
  rw [firstFreeReads, firstFreeFrames, if_neg hne, if_neg hne]
  constructor
  · rintro ⟨hreads, hsome, hnone⟩
    by_cases h0 : s.nframes = 0
    · exact Or.inl h0
    right
    cases hr : wordLoop s num s.nframes 0 with
    | none =>
      -- the last word that is read lies far behind the bitmap
      have hlast := wordReads_of_none hr (s.nframes - 1) (by omega) (by omega)
      have := hreads _ hlast 31 (by decide)
      omega
    | some f =>
      obtain ⟨⟨hend, hfree⟩, -⟩ := (hsome f).mp hr
      obtain ⟨hread0, hreadk⟩ := wordReads_of_some hr
      refine ⟨f, ?_, hfree⟩
      have hlast : (f + (num - 1)) / 32 ∈ wordReads s num s.nframes 0 := by
        rcases Nat.eq_or_lt_of_le hnum with h1 | h1
        · subst h1
          exact hread0
        · have h := hreadk (num - 1) (by omega) (by omega)
          rwa [add32_of_lt (by omega)] at h
      have := hreads _ hlast 31 (by decide)
      omega
  · rintro (h0 | ⟨start, hend, hfree⟩)
    · have hno : ∀ g, ¬FreeRun s num g := fun g hg => by
        have := hg.1
        omega
      rw [h0]
      refine ⟨fun w hw => absurd hw List.not_mem_nil, fun f => ?_, ?_⟩
      · exact iff_of_false (by simp [wordLoop]) fun h => hno f h.1
      · exact iff_of_true rfl (not_exists.mpr hno)
    · -- the first run of all
      classical
      have hex : ∃ g, ∀ k < num, isUsed s (g + k) = false := ⟨start, hfree⟩
      obtain ⟨f, hrun, hfirst, hle⟩ : ∃ f, (∀ k < num, isUsed s (f + k) = false) ∧
          (∀ g < f, ¬∀ k < num, isUsed s (g + k) = false) ∧ f ≤ start :=
        ⟨Nat.find hex, Nat.find_spec hex, fun g hg => Nat.find_min hex hg, Nat.find_le hfree⟩
      obtain ⟨hres, hreads⟩ : wordLoop s num s.nframes 0 = some f ∧
          ∀ w ∈ wordReads s num s.nframes 0, w * 32 + 32 ≤ s.nframes / 32 * 32 := wordLoop_first hnum
        (show s.nframes / 32 * 32 ≤ 2 ^ 32 by omega) (by omega) (show f + num ≤ _ by omega) hrun
        hfirst (by omega) (by omega)
      have hleast : IsLeast {g | FreeRun s num g} f := by
        refine ⟨⟨by omega, hrun⟩, fun g hg => ?_⟩
        by_contra hlt
        exact hfirst g (by omega) hg.2
      refine ⟨fun w hw b hb => ?_, fun g => ?_, ?_⟩
      · have := hreads w hw
        omega
      · rw [hres, Option.some.injEq]
        constructor
        · rintro rfl
          exact hleast
        · exact fun h => hleast.unique h
      · rw [hres]
        exact iff_of_false (by simp) fun h => h ⟨f, hleast.1⟩

/-- A pool of 32 frames whose bitmap is full, with a clear word behind it. -/
def fullPool : FramePool := ⟨fun i => if i = 0 then 0xffffffff#32 else 0#32, 32, 32⟩

/-- The search in a pool of 64 free frames. -/
theorem first_free_frames_iff_empty :
    firstFreeFrames ⟨fun _ => 0#32, 64, 0⟩ 33 = none ↔
      ¬∃ g, FreeRun ⟨fun _ => 0#32, 64, 0⟩ 33 g :=
  ((first_free_frames_iff ⟨fun _ => 0#32, 64, 0⟩ (by decide) (by decide)).mpr
    (Or.inr ⟨0, by decide, fun _ _ => by simp [isUsed]⟩)).2.2

/-- In the full pool the search returns frame 32, which does not exist. -/
theorem full_pool_finds_frame :
    firstFreeFrames fullPool 1 = some 32 ∧ ¬∃ g, FreeRun fullPool 1 g := by
  refine ⟨by decide, ?_⟩
  rintro ⟨g, hend, hfree⟩
  have h0 := hfree 0 (by decide)
  have hg : g < 32 := by
    have : fullPool.nframes = 32 := rfl
    omega
  interval_cases g <;> exact absurd h0 (by decide)

end Search

/-! ## The recount of used memory -/

/-- The loop over the bits of word `i` in `memory_used`; `left` passes are left. -/
def usedBitLoop (s : FramePool) (i : Nat) : (left count : Nat) → Nat
  | 0, count => count
  | left + 1, count =>
    usedBitLoop s i left
      (if s.frames i &&& (1#32 <<< (31 - left)) ≠ 0#32 then add32 count 1 else count)

/-- The loop over the words in `memory_used`; `left` passes are left. -/
def usedWordLoop (s : FramePool) : (left i count : Nat) → Nat
  | 0, _, count => count
  | left + 1, i, count => usedWordLoop s left (i + 1) (usedBitLoop s i 32 count)

/-- `memory_used`. -/
def memoryUsed (s : FramePool) : Nat := usedWordLoop s s.nframes 0 0 * frameSize % 2 ^ 32

/-- `memory_total`. -/
def memoryTotal (s : FramePool) : Nat := s.nframes * frameSize % 2 ^ 32

/-- The number of set bits of the frames from `lo` up to `hi`. -/
def bitCount (s : FramePool) (lo hi : Nat) : Nat :=
  ((Finset.Ico lo hi).filter fun f => isUsed s f = true).card

section Recount

variable {s : FramePool}

/-- A stretch of bits, counted from the first one. -/
theorem bitCount_succ {lo hi : Nat} (h : lo < hi) :
    bitCount s lo hi = (if isUsed s lo = true then 1 else 0) + bitCount s (lo + 1) hi := by
  rw [bitCount, bitCount, ← Finset.insert_Ico_add_one_left_eq_Ico h, Finset.filter_insert]
  split
  · rw [Finset.card_insert_of_notMem (by simp)]
    omega
  · omega

/-- Two stretches of bits that follow each other. -/
theorem bitCount_add {lo mid hi : Nat} (h1 : lo ≤ mid) (h2 : mid ≤ hi) :
    bitCount s lo hi = bitCount s lo mid + bitCount s mid hi := by
  rw [bitCount, bitCount, bitCount, ← Finset.Ico_union_Ico_eq_Ico h1 h2, Finset.filter_union,
    Finset.card_union_of_disjoint]
  exact Finset.disjoint_filter_filter (Finset.Ico_disjoint_Ico_consecutive lo mid hi)

/-- The loop over the bits of a word counts those that are set. -/
private theorem usedBitLoop_eq (i : Nat) {left count : Nat} (hl : left ≤ 32)
    (hbound : count + left < 2 ^ 32) :
    usedBitLoop s i left count = count + bitCount s (i * 32 + (32 - left)) (i * 32 + 32) := by
  induction left generalizing count with
  | zero => simp [usedBitLoop, bitCount]
  | succ left ih =>
    have hbit := bit_free_iff s i (show left < 32 by omega)
    have hpos : i * 32 + (32 - (left + 1)) = i * 32 + (31 - left) := by omega
    have hnext : i * 32 + (31 - left) + 1 = i * 32 + (32 - left) := by omega
    rw [usedBitLoop, hpos, bitCount_succ (by omega), hnext]
    by_cases hfree : isUsed s (i * 32 + (31 - left)) = false
    · -- a free frame is not counted
      rw [if_neg (fun h => h (hbit.mpr hfree)), if_neg (by simp [hfree]), ih (by omega) (by omega)]
      omega
    · -- a used one is
      rw [if_pos (fun h => hfree (hbit.mp h)), if_pos (by simpa using hfree),
        add32_of_lt (by omega), ih (by omega) (by omega)]
      omega

/-- The loop over the words counts the bits of all of them. -/
private theorem usedWordLoop_eq {left i count : Nat} (hbound : count + left * 32 < 2 ^ 32) :
    usedWordLoop s left i count = count + bitCount s (i * 32) ((i + left) * 32) := by
  induction left generalizing i count with
  | zero => simp [usedWordLoop, bitCount]
  | succ left ih =>
    have hword : usedBitLoop s i 32 count =
        count + bitCount s (i * 32 + (32 - 32)) (i * 32 + 32) :=
      usedBitLoop_eq i (Nat.le_refl 32) (by omega)
    rw [Nat.sub_self, Nat.add_zero] at hword
    have hcard : bitCount s (i * 32) (i * 32 + 32) ≤ 32 := by
      rw [bitCount]
      refine (Finset.card_filter_le _ _).trans ?_
      rw [Nat.card_Ico]
      omega
    rw [usedWordLoop, hword, ih (by omega), bitCount_add (show i * 32 ≤ i * 32 + 32 by omega)
      (show i * 32 + 32 ≤ (i + (left + 1)) * 32 by omega)]
    have h1 : (i + 1) * 32 = i * 32 + 32 := by omega
    have h2 : (i + 1 + left) * 32 = (i + (left + 1)) * 32 := by omega
    rw [h1, h2]
    omega

/-- What `memory_used` counts: the bits of all words that its loop reads. -/
theorem memoryUsed_eq (hn : s.nframes < 2 ^ 20) :
    memoryUsed s = bitCount s 0 (s.nframes * 32) * frameSize % 2 ^ 32 := by
  rw [memoryUsed, usedWordLoop_eq (by omega), Nat.zero_add, Nat.zero_mul, Nat.zero_add]

/-- The bits that `paging_init` clears. -/
theorem isUsed_pagingInit_eq (memSize : Nat) (rest : Nat → BitVec 32) (f : Nat) :
    isUsed (pagingInit memSize rest) f =
      (decide (memSize / frameSize / 8 * 8 ≤ f) && (rest (f / 32)).getLsbD (f % 32)) := by
  have hmod := Nat.mod_lt f (show 0 < 32 by decide)
  have hones : ∀ k, (0xffffffff#32).getLsbD k = decide (k < 32) := fun k => by
    rw [show 0xffffffff#32 = BitVec.allOnes 32 from rfl, BitVec.getLsbD_allOnes]
  rw [isUsed, pagingInit, BitVec.getLsbD_and, BitVec.getLsbD_shiftLeft, hones]
  rw [Bool.and_comm]
  congr 1
  by_cases h : memSize / frameSize / 8 * 8 ≤ f
  · simp [hmod, h]
    omega
  · simp [h]
    omega

end Recount

/-! ## Accesses to single frames -/

/-- The word of the frame lies in the `nframes / 8` bytes of the bitmap. -/
def InBitmap (nframes frame : Nat) : Prop := 4 * (frame / 32) + 4 ≤ nframes / 8

/-- The frames whose word lies in the bitmap. -/
theorem inBitmap_iff (nframes frame : Nat) :
    InBitmap nframes frame ↔ frame < nframes / 32 * 32 := by
  rw [InBitmap]
  omega

/-- The frames that the loop over a region gives to `set_frame`. -/
def reserveFrames (addr length : Nat) : (fuel i : Nat) → List Nat
  | 0, _ => []
  | fuel + 1, i =>
    if i < length then
      ((addr + i) % 2 ^ 64 &&& 0xfffff000) / frameSize ::
        reserveFrames addr length fuel ((i + frameSize) % 2 ^ 64)
    else []

/-- The entries that the loop over the map visits. -/
def mmapWalk (m : Mem) (stop : Nat) : (fuel mmap : Nat) → List MmapEntry
  | 0, _ => []
  | fuel + 1, mmap =>
    if mmap < stop then
      readEntry m mmap :: mmapWalk m stop fuel (add32 (add32 mmap (readEntry m mmap).size) 4)
    else []

/-- The frames that the body of this loop gives to `set_frame`. -/
def entryFrames (e : MmapEntry) : List Nat :=
  if e.type = 2 then reserveFrames e.addr e.length (2 ^ 52 + 1) 0 else []

/-- The entries of the memory map, as `main` walks over it. -/
def mainEntries (m : Mem) (mbi : MultibootInfo) : List MmapEntry :=
  let mmap := add32 mbi.mmapAddr kernelVoffset
  mmapWalk m (add32 mmap mbi.mmapLength) (2 ^ 32) mmap

/-- The frames that `main` gives to `set_frame` before paging starts. -/
def mainFrames (m : Mem) (mbi : MultibootInfo) : List Nat :=
  mbiFrame mbi :: (mainEntries m mbi).flatMap entryFrames

/-- The frames that a call gives to `set_frame` or `clear_frame`. -/
def EntryCall.frames (s : Paging) : EntryCall → List Nat
  | .alloc page _ _ => if (s.pages page).frame ≠ 0 then [] else (firstFreeFrame s.pool).toList
  | .map _ _ _ phys => if phys / frameSize < s.pool.nframes then [phys / frameSize] else []
  | .free page => if (s.pages page).frame ≠ 0 then [(s.pages page).frame] else []

section Bounds

variable {m : Mem} {mbi : MultibootInfo} {rest : Nat → BitVec 32}

/-- The loop over a range reserves its frames one by one. -/
theorem reserveLoop_eq_foldl {addr length fuel i : Nat} {s s' : FramePool}
    (h : reserveLoop addr length fuel i s = some s') :
    s' = (reserveFrames addr length fuel i).foldl setFrame s := by
  induction fuel generalizing i s with
  | zero => exact absurd h (by simp [reserveLoop])
  | succ fuel ih =>
    rw [reserveLoop] at h
    rw [reserveFrames]
    split at h
    · rename_i hlt
      rw [if_pos hlt, List.foldl_cons]
      exact ih h
    · rename_i hlt
      rw [if_neg hlt]
      exact (Option.some.inj h).symm

/-- The walk over the memory map reserves the frames of its entries. -/
theorem mmapLoop_eq_foldl {stop fuel p : Nat} {s s' : FramePool}
    (h : mmapLoop m stop fuel p s = some s') :
    s' = ((mmapWalk m stop fuel p).flatMap entryFrames).foldl setFrame s := by
  induction fuel generalizing p s with
  | zero => exact absurd h (by simp [mmapLoop])
  | succ fuel ih =>
    rw [mmapLoop] at h
    rw [mmapWalk]
    split at h
    · rename_i hlt
      rw [if_pos hlt, List.flatMap_cons, List.foldl_append]
      obtain ⟨s₁, hs₁, hrest⟩ := Option.bind_eq_some_iff.mp h
      -- the walk that lists the entries stops where the loop does
      have h₁ : s₁ = (entryFrames (readEntry m p)).foldl setFrame s := by
        rw [reserveEntry] at hs₁
        rw [entryFrames]
        split at hs₁
        · rename_i htype
          rw [if_pos htype]
          exact reserveLoop_eq_foldl hs₁
        · rename_i htype
          rw [if_neg htype]
          exact (Option.some.inj hs₁).symm
      rw [← h₁]
      exact ih hrest
    · rename_i hlt
      rw [if_neg hlt]
      exact (Option.some.inj h).symm

/-- All that `main` does to the pool before paging starts is to mark these frames. -/
theorem mainReserve_eq_foldl {s : FramePool} (h : mainReserve m mbi rest = some s) :
    s = (mainFrames m mbi).foldl setFrame (initPool mbi rest) := by
  rw [mainFrames, List.foldl_cons]
  exact mmapLoop_eq_foldl h

/-- Reserving keeps the number of frames. -/
theorem nframes_foldl (L : List Nat) (s : FramePool) :
    (L.foldl setFrame s).nframes = s.nframes := by
  induction L generalizing s with
  | nil => rfl
  | cons f L ih => rw [List.foldl_cons, ih, nframes_setFrame]

/-- The frames of a region are consecutive, up to the end of the 32-bit address space. -/
theorem mem_reserveFrames {addr length fuel k f : Nat} (hfuel : 2 ^ 52 < fuel + k)
    (hk : k ≤ 2 ^ 52) :
    (∃ j, k ≤ j ∧ j < 2 ^ 52 ∧ frameSize * j < length ∧ (addr / frameSize + j) % 2 ^ 20 = f) →
      f ∈ reserveFrames addr length fuel (frameSize * k) := by
  rintro ⟨j, hj, hj52, hjl, hf⟩
  induction fuel generalizing k with
  | zero => omega
  | succ fuel ih =>
    rw [frameSize] at *
    rw [reserveFrames, if_pos (by omega)]
    rcases Nat.eq_or_lt_of_le hj with rfl | hlt
    · -- the frame of this pass
      refine List.mem_cons.mpr (Or.inl ?_)
      rw [and_mask_div]
      omega
    · -- a later frame
      refine List.mem_cons_of_mem _ ?_
      have hnext : (0x1000 * k + frameSize) % 2 ^ 64 = 0x1000 * (k + 1) := by
        rw [frameSize]
        omega
      rw [hnext]
      exact ih (by omega) (by omega) hlt

/-- The frames of a range, in the arithmetic of 32 bits. -/
theorem of_mem_reserveFrames {addr length fuel i f : Nat} (hi : i % frameSize = 0)
    (h : f ∈ reserveFrames addr length fuel i) :
    ∃ j, frameSize * j < length ∧ (addr / frameSize + j) % 2 ^ 20 = f := by
  induction fuel generalizing i with
  | zero => exact absurd h List.not_mem_nil
  | succ fuel ih =>
    rw [reserveFrames] at h
    split at h
    · rename_i hlt
      rw [frameSize] at hi
      rcases List.mem_cons.mp h with rfl | h
      · -- the frame of this pass
        refine ⟨i / frameSize, ?_, ?_⟩
        · rw [frameSize]
          omega
        · rw [and_mask_div, frameSize]
          omega
      · -- a later frame
        refine ih ?_ h
        rw [frameSize]
        omega
    · exact absurd h List.not_mem_nil

/-- The frames of a region stay below a limit just when its last one does. -/
theorem entryFrames_lt_iff {e : MmapEntry} {limit : Nat} (hlen : e.length < 2 ^ 64)
    (hlim : limit < 2 ^ 20) (htype : e.type = 2) :
    (∀ f ∈ entryFrames e, f < limit) ↔ e.length = 0 ∨
      e.addr / frameSize % 2 ^ 20 + (e.length + (frameSize - 1)) / frameSize ≤ limit := by
  rw [entryFrames, if_pos htype]
  constructor
  · intro hall
    by_cases h0 : e.length = 0
    · exact Or.inl h0
    right
    by_contra hgt
    -- the frame at the limit, or the first one when that is above it already
    have hout : ∀ j, frameSize * j < e.length →
        (e.addr / frameSize + j) % 2 ^ 20 < limit := fun j hj =>
      hall _ (mem_reserveFrames (k := 0) (by omega) (by omega)
        ⟨j, Nat.zero_le _, by rw [frameSize] at hj; omega, hj, rfl⟩)
    have hfirst := hout 0 (by omega)
    have hnext := hout (limit - e.addr / frameSize % 2 ^ 20) (by
      rw [frameSize] at *
      omega)
    omega
  · rintro (h0 | hle) f hf
    · rw [h0] at hf
      exact absurd hf (by simp [reserveFrames])
    · obtain ⟨j, hj, rfl⟩ := of_mem_reserveFrames (Nat.zero_mod _) hf
      rw [frameSize] at *
      omega

/-- What a call needs so that its accesses stay inside: `map_page` no frame of the last word, if
    that is cut off, `alloc_page` a free frame before it or none at all, and `free_page` an
    entry without a frame from there on. -/
def EntryCall.Stays (s : Paging) : EntryCall → Prop
  | .alloc page _ _ => (s.pages page).frame = 0 →
      (∃ f < s.pool.nframes / 32 * 32, isUsed s.pool f = false) ∨
        ∀ f < s.pool.nframes * 32, isUsed s.pool f = true
  | .map _ _ _ phys =>
      phys / frameSize < s.pool.nframes / 32 * 32 ∨ s.pool.nframes ≤ phys / frameSize
  | .free page => (s.pages page).frame = 0 ∨ (s.pages page).frame < s.pool.nframes / 32 * 32

/-- What the loop over the bits finds lies in its word. -/
private theorem bitLoop_div {s : FramePool} {num i f left : Nat} (hl : left ≤ 32)
    (h : bitLoop s num i left = some f) : f / 32 = i := by
  induction left with
  | zero => exact absurd h (by simp [bitLoop])
  | succ left ih =>
    rw [bitLoop] at h
    split at h
    · obtain rfl := Option.some.inj h
      omega
    · exact ih (by omega) h

/-- A frame that is found lies in a word that the search may read. -/
private theorem wordLoop_lt {s : FramePool} {num i f left : Nat}
    (h : wordLoop s num left i = some f) : f < (i + left) * 32 := by
  induction left generalizing i with
  | zero => exact absurd h (by simp [wordLoop])
  | succ left ih =>
    rw [wordLoop] at h
    split at h
    · cases hb : bitLoop s num i 32 with
      | some g =>
        -- found in this word
        rw [hb] at h
        obtain rfl := Option.some.inj h
        have := bitLoop_div (Nat.le_refl 32) hb
        omega
      | none =>
        -- not in this word
        rw [hb] at h
        have := ih h
        omega
    · -- the word is full
      have := ih h
      omega

/-- When the accesses of a call stay inside. -/
theorem EntryCall.stays_iff (s : Paging) (c : EntryCall) :
    (∀ f ∈ c.frames s, InBitmap s.pool.nframes f) ↔ c.Stays s := by
  cases c with
  | alloc page k w =>
    rw [EntryCall.frames, EntryCall.Stays]
    by_cases h0 : (s.pages page).frame = 0
    · -- the first free frame lies in the bitmap when any frame of it is free
      rw [if_neg (fun h => h h0)]
      rcases firstFreeFrame_spec s.pool with ⟨f, hf, hfree, hbelow⟩ | ⟨hn, hall⟩
      · rw [hf]
        simp only [Option.mem_toList, Option.some.injEq, forall_eq', h0,
          forall_const, inBitmap_iff]
        constructor
        · intro hlt
          exact Or.inl ⟨f, hlt, hfree⟩
        · rintro (⟨g, hg, hgfree⟩ | hall)
          · by_contra hle
            rw [hbelow g (by omega)] at hgfree
            exact absurd hgfree (by simp)
          · have hlt : f < s.pool.nframes * 32 := by
              have := wordLoop_lt hf
              omega
            rw [hall f hlt] at hfree
            exact absurd hfree (by simp)
      · rw [hn]
        exact iff_of_true (by simp) fun _ => Or.inr hall
    · rw [if_pos h0]
      exact iff_of_true (by simp) fun h => absurd h h0
  | map page k w phys =>
    rw [EntryCall.frames, EntryCall.Stays]
    by_cases hlt : phys / frameSize < s.pool.nframes
    · rw [if_pos hlt]
      simp only [List.mem_singleton, forall_eq, inBitmap_iff]
      omega
    · rw [if_neg hlt]
      exact iff_of_true (by simp) (Or.inr (by omega))
  | free page =>
    rw [EntryCall.frames, EntryCall.Stays]
    by_cases h0 : (s.pages page).frame = 0
    · rw [if_neg (fun h => h h0)]
      exact iff_of_true (by simp) (Or.inl h0)
    · rw [if_pos h0]
      simp only [List.mem_singleton, forall_eq, inBitmap_iff, h0, false_or]

/-- There are fewer than `2 ^ 20` frames. -/
theorem nframes_initPool_lt (mbi : MultibootInfo) (rest : Nat → BitVec 32) :
    (initPool mbi rest).nframes < 2 ^ 20 := by
  show (mbi.memLower + mbi.memUpper) * 1024 % 2 ^ 32 / frameSize < 2 ^ 20
  rw [frameSize]
  omega

/-- The length of an entry has 64 bits. -/
theorem length_lt_of_mem_mmapWalk {stop fuel p : Nat} {e : MmapEntry}
    (h : e ∈ mmapWalk m stop fuel p) : e.length < 2 ^ 64 := by
  induction fuel generalizing p with
  | zero => exact absurd h List.not_mem_nil
  | succ fuel ih =>
    rw [mmapWalk] at h
    split at h
    · rcases List.mem_cons.mp h with rfl | h
      · have h1 := load32_lt m (p + 12)
        have h2 := load32_lt m (p + 16)
        simp only [readEntry]
        omega
      · exact ih h
    · exact absurd h List.not_mem_nil

/-- The calls keep the number of frames. -/
theorem EntryCall.exec_nframes {s s' : Paging} {c : EntryCall} (h : c.exec s = some s') :
    s'.pool.nframes = s.pool.nframes := by
  cases c with
  | alloc page k w =>
    obtain rfl := Option.some.inj h
    rcases allocPage_cases s page k w with ⟨-, he⟩ | ⟨-, -, he⟩ | ⟨f, -, -, -, he⟩ <;> rw [he]
    exact nframes_setFrame
  | map page k w phys =>
    obtain rfl := Option.some.inj h
    exact nframes_mapPage s page phys k w
  | free page =>
    obtain rfl := Option.some.inj h
    rw [freePage]
    by_cases h0 : (s.pages page).frame ≠ 0
    · -- a frame was held
      simp only [if_pos h0]
      exact nframes_clearFrame
    · simp only [if_neg h0]

/-- **Bitmap bounds.** All accesses that `set_frame`, `clear_frame` and `test_frame` make, while
    `main` marks the reserved frames and in any run of calls on page-table entries after that,
    lie in the bitmap if and only if the multiboot structure and all reserved regions lie below
    the last word of the bitmap that is there as a whole, and every call keeps below it. -/
theorem bitmap_bounds_iff (m : Mem) (mbi : MultibootInfo) (rest : Nat → BitVec 32)
    (pages : Nat → Pte) (calls : List EntryCall) :
    ((∀ f ∈ mainFrames m mbi, InBitmap (initPool mbi rest).nframes f) ∧
      ∀ s, mainReserve m mbi rest = some s → ∀ pre c post, calls = pre ++ c :: post →
        ∀ s', execAll EntryCall.exec ⟨s, pages⟩ pre = some s' →
          ∀ f ∈ c.frames s', InBitmap (initPool mbi rest).nframes f) ↔
    (mbiFrame mbi < (initPool mbi rest).nframes / 32 * 32 ∧
      (∀ e ∈ mainEntries m mbi, e.type = 2 → e.length = 0 ∨
        e.addr / frameSize % 2 ^ 20 + (e.length + (frameSize - 1)) / frameSize ≤
          (initPool mbi rest).nframes / 32 * 32) ∧
      ∀ s, mainReserve m mbi rest = some s →
        Each EntryCall.exec EntryCall.Stays ⟨s, pages⟩ calls) := by
  have hn := nframes_initPool_lt mbi rest
  generalize hlimit : (initPool mbi rest).nframes / 32 * 32 = limit
  -- the frames that `main` marks itself
  have hmain : (∀ f ∈ mainFrames m mbi, InBitmap (initPool mbi rest).nframes f) ↔
      mbiFrame mbi < limit ∧ ∀ e ∈ mainEntries m mbi, e.type = 2 → e.length = 0 ∨
        e.addr / frameSize % 2 ^ 20 + (e.length + (frameSize - 1)) / frameSize ≤ limit := by
    simp only [mainFrames, List.mem_cons, forall_eq_or_imp, List.mem_flatMap, inBitmap_iff, hlimit]
    refine and_congr_right fun _ => ⟨fun hall e he htype => ?_, ?_⟩
    · exact (entryFrames_lt_iff (length_lt_of_mem_mmapWalk he) (by omega) htype).mp
        fun f hf => hall f ⟨e, he, hf⟩
    · rintro hall f ⟨e, he, hf⟩
      by_cases htype : e.type = 2
      · exact (entryFrames_lt_iff (length_lt_of_mem_mmapWalk he) (by omega) htype).mpr
          (hall e he htype) f hf
      · rw [entryFrames, if_neg htype] at hf
        exact absurd hf List.not_mem_nil
  rw [hmain, and_assoc]
  refine and_congr_right fun _ => and_congr_right fun _ => forall_congr' fun s =>
    imp_congr_right fun hs => ?_
  -- the calls behind it: no call changes the size of the bitmap
  have hnf : s.nframes = (initPool mbi rest).nframes := by
    rw [mainReserve_eq_foldl hs, nframes_foldl]
  have hok : Each EntryCall.exec (fun _ _ => True) ⟨s, pages⟩ calls :=
    each_of_forall fun _ _ _ => trivial
  have hsplit : _ ↔ Each EntryCall.exec (fun s' c => c.Stays s') ⟨s, pages⟩ calls := forall_split_iff
    (P := fun s' => s'.pool.nframes = (initPool mbi rest).nframes)
    (I := fun s' => s'.pool.nframes = (initPool mbi rest).nframes)
    (Q := fun s' c => ∀ f ∈ c.frames s', InBitmap (initPool mbi rest).nframes f) (fun _ h => h)
    (fun _ _ _ h _ _ hexec => (EntryCall.exec_nframes hexec).trans h)
    (fun s' c h _ hc => by rw [← h]; exact (c.stays_iff s').mpr hc)
    (fun s' c h _ hQ _ => (c.stays_iff s').mp (by rw [h]; exact hQ)) hnf hok
  rw [← hsplit]
  constructor
  · intro hall pre post hpost s' hs'
    refine ⟨?_, fun c next hnext => hall pre c next (by rw [hpost, hnext]) s' hs'⟩
    have hok : Each EntryCall.exec (fun _ _ => True) ⟨s, pages⟩ pre :=
      each_of_forall fun _ _ _ => trivial
    exact inv_of_execAll (I := fun s' => s'.pool.nframes = (initPool mbi rest).nframes)
      (fun _ _ _ h _ hexec => (EntryCall.exec_nframes hexec).trans h) hnf hok hs'
  · intro hall pre c post hpost s' hs'
    exact (hall pre (c :: post) hpost s' hs').2 c post rfl

/-- A page that maps a device above the memory of 32 MiB: `map_page` does not mark its frame, but
    `free_page` clears a bit far behind the bitmap. -/
theorem device_frame_outside :
    ∃ s s', mainReserve (fun _ => 0) (smallMachine 0) (fun _ => 0) = some s ∧
      execAll EntryCall.exec ⟨s, fun _ => zeroPte⟩ [.map 7 true true 0xfee00000] = some s' ∧
      0xfee00 ∈ (EntryCall.free 7).frames s' ∧ s'.pool.nframes = 0x2000 ∧
      ¬InBitmap 0x2000 0xfee00 := by
  have hs : mainReserve (fun _ => 0) (smallMachine 0) (fun _ => 0) =
      some (setFrame (initPool (smallMachine 0) fun _ => 0) (mbiFrame (smallMachine 0))) := by
    have hempty : MapAt (fun _ => 0) (add32 (add32 0x500 kernelVoffset) 0)
        (add32 0x500 kernelVoffset) [] := Nat.le_of_eq (by decide)
    exact mmapLoop_eq hempty (by omega) (by decide) _
  refine ⟨_, _, hs, rfl, ?_, ?_, by rw [inBitmap_iff]; decide⟩
  · simp [EntryCall.frames, mapPage, frameSize]
  · show (mapPage _ 7 true true 0xfee00000).pool.nframes = 0x2000
    rw [nframes_mapPage]
    exact nframes_setFrame

end Bounds

end Toutatis
