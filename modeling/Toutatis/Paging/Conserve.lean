import Toutatis.Lib.Run
import Toutatis.Paging.Frames

/-!
# Conservation of frames

Runs of `alloc_page` and `free_page` over any page-table entries. `HeldOk` is what every
run keeps: no frame is held twice, none is reserved, every held frame is marked, and
`used_frames` counts the marks. `Conserved` adds the converse, that a mark stands for a
reserved or a held frame; since `clear_frame` only clears the lowest bit of a word, it
survives `free_page` for the frames that are multiples of 32 only.

## Key results

- `frames_distinct`: `HeldOk` after the reservations and any run
- `conserved_iff`: which runs conserve the pool
-/

namespace Toutatis

open ByteMem Run

/-! ## Calls -/

/-- A call on a page-table entry. -/
inductive PageCall where
  | alloc (page : Nat) (isKernel isWriteable : Bool)
  | free (page : Nat)

/-- One call. -/
def PageCall.exec (s : Paging) : PageCall → Option Paging
  | .alloc page isKernel isWriteable => some (allocPage s page isKernel isWriteable)
  | .free page => some (freePage s page)

/-- The number of set bits of the bitmap. -/
def usedCount (s : FramePool) : Nat :=
  ((Finset.range s.nframes).filter fun f => isUsed s f = true).card

/-- What every run keeps. `reserved` are the frames marked before it. -/
structure HeldOk (reserved : Nat → Prop) (s : Paging) : Prop where
  zero : reserved 0
  nframes_le : s.pool.nframes ≤ 2 ^ 20
  reserved_used : ∀ f, reserved f → isUsed s.pool f = true
  held_lt : ∀ p, (s.pages p).frame ≠ 0 → (s.pages p).frame < s.pool.nframes
  held_used : ∀ p, (s.pages p).frame ≠ 0 → isUsed s.pool (s.pages p).frame = true
  held_unreserved : ∀ p, (s.pages p).frame ≠ 0 → ¬ reserved (s.pages p).frame
  held_once : ∀ p q, (s.pages p).frame ≠ 0 → (s.pages p).frame = (s.pages q).frame → p = q
  count : s.pool.usedFrames = usedCount s.pool

/-- A bit is set only for a frame that is reserved or held. -/
structure Conserved (reserved : Nat → Prop) (s : Paging) : Prop extends HeldOk reserved s where
  used_cases : ∀ f < s.pool.nframes, isUsed s.pool f = true →
    reserved f ∨ ∃ p, (s.pages p).frame = f

section

variable {s : FramePool} {f : Nat}

/-- No more frames are used than there are. -/
theorem usedCount_le (s : FramePool) : usedCount s ≤ s.nframes := by
  rw [usedCount]
  exact (Finset.card_filter_le _ _).trans (by simp)

/-- Taking a free frame adds one to the count. -/
theorem usedCount_setFrame (hf : f < s.nframes) (hfree : isUsed s f = false) :
    usedCount (setFrame s f) = usedCount s + 1 := by
  have hset : (Finset.range (setFrame s f).nframes).filter
      (fun g => isUsed (setFrame s f) g = true) =
      insert f ((Finset.range s.nframes).filter fun g => isUsed s g = true) := by
    ext g
    simp only [Finset.mem_filter, Finset.mem_range, Finset.mem_insert, isUsed_setFrame,
      nframes_setFrame, Bool.or_eq_true, decide_eq_true_eq]
    constructor
    · -- a used frame was used before, or is the new one
      rintro ⟨hg, hu | rfl⟩
      · exact Or.inr ⟨hg, hu⟩
      · exact Or.inl rfl
    · -- conversely
      rintro (rfl | ⟨hg, hu⟩)
      · exact ⟨hf, Or.inr rfl⟩
      · exact ⟨hg, Or.inl hu⟩
  rw [usedCount, hset, Finset.card_insert_of_notMem (by simp [hfree])]
  rfl

/-- Giving back a frame whose bit is the lowest of its word takes one from the count. -/
theorem usedCount_clearFrame (hf : f < s.nframes) (hused : isUsed s f = true)
    (hlow : f % 32 = 0) : usedCount (clearFrame s f) + 1 = usedCount s := by
  have hset : (Finset.range (clearFrame s f).nframes).filter
      (fun g => isUsed (clearFrame s f) g = true) =
      ((Finset.range s.nframes).filter fun g => isUsed s g = true).erase f := by
    ext g
    simp only [Finset.mem_filter, Finset.mem_range, Finset.mem_erase, isUsed_clearFrame,
      nframes_clearFrame, hlow, decide_true, Bool.and_true, Bool.and_eq_true,
      Bool.not_eq_true', decide_eq_false_iff_not]
    tauto
  have hmem : f ∈ (Finset.range s.nframes).filter fun g => isUsed s g = true := by
    simp [hf, hused]
  rw [usedCount, hset]
  exact Finset.card_erase_add_one hmem

end

/-! ## One call -/

section Calls

variable {reserved : Nat → Prop} {s : Paging} {p : Nat}

/-- The three things `alloc_page` can do: keep the frame, find none, take the first
    free one. -/
theorem allocPage_cases (s : Paging) (p : Nat) (k w : Bool) :
    ((s.pages p).frame ≠ 0 ∧ allocPage s p k w =
      { s with pages := Function.update s.pages p ⟨true, w, !k, (s.pages p).frame⟩ }) ∨
    ((s.pages p).frame = 0 ∧ firstFreeFrame s.pool = none ∧ allocPage s p k w = s) ∨
    ∃ f, (s.pages p).frame = 0 ∧ firstFreeFrame s.pool = some f ∧ isUsed s.pool f = false ∧
      allocPage s p k w = ⟨setFrame s.pool f,
        Function.update s.pages p ⟨true, w, !k, f % 2 ^ 20⟩⟩ := by
  by_cases h0 : (s.pages p).frame = 0
  · right
    rcases firstFreeFrame_spec s.pool with ⟨f, hf, hfree, -⟩ | ⟨hn, -⟩
    · exact Or.inr ⟨f, h0, hf, hfree, by rw [allocPage]; simp [h0, hf]⟩
    · exact Or.inl ⟨h0, hn, by rw [allocPage]; simp [h0, hn]⟩
  · exact Or.inl ⟨h0, by rw [allocPage]; simp [h0]⟩

/-- `alloc_page` writes its own entry only. -/
theorem allocPage_pages_of_ne {q : Nat} {k w : Bool} (hq : q ≠ p) :
    (allocPage s p k w).pages q = s.pages q := by
  rcases allocPage_cases s p k w with ⟨-, he⟩ | ⟨-, -, he⟩ | ⟨f, -, -, -, he⟩ <;> rw [he]
  · simp [hq]
  · simp [hq]

/-- The frame that an allocation finds lies below `nframes`. -/
def PageCall.Below (s : Paging) : PageCall → Prop
  | .alloc page _ _ => (s.pages page).frame = 0 →
      ∀ f, firstFreeFrame s.pool = some f → f < s.pool.nframes
  | .free _ => True

/-- An entry that is freed holds no frame or one that is a multiple of 32. -/
def PageCall.LowBit (s : Paging) : PageCall → Prop
  | .alloc _ _ _ => True
  | .free page => (s.pages page).frame % 32 = 0

/-- The invariant is about the pool and the frames of the entries only. -/
private theorem HeldOk.congr {s' : Paging} (h : HeldOk reserved s)
    (hframe : ∀ q, (s'.pages q).frame = (s.pages q).frame) (hpool : s'.pool = s.pool) :
    HeldOk reserved s' := by
  refine ⟨h.zero, ?_, ?_, ?_, ?_, ?_, ?_, ?_⟩ <;> simp only [hframe, hpool]
  · exact h.nframes_le
  · exact h.reserved_used
  · exact h.held_lt
  · exact h.held_used
  · exact h.held_unreserved
  · exact h.held_once
  · exact h.count

/-- `alloc_page` keeps apart the frames that are held. -/
theorem HeldOk.alloc (h : HeldOk reserved s) {k w : Bool} (hb : PageCall.Below s (.alloc p k w)) :
    HeldOk reserved (allocPage s p k w) := by
  rcases allocPage_cases s p k w with ⟨h0, he⟩ | ⟨-, -, he⟩ | ⟨f, h0, hf, hfree, he⟩
  · -- the entry keeps its frame, so every entry does
    have hframe : ∀ q, ((allocPage s p k w).pages q).frame = (s.pages q).frame := by
      intro q
      rw [he]
      by_cases hq : q = p
      · subst hq; simp
      · simp [hq]
    exact h.congr hframe (by rw [he])
  · rwa [he]
  · -- the entry gets the frame `f`, which no other entry holds
    have hlt := hb h0 f hf
    have hmod : f % 2 ^ 20 = f := Nat.mod_eq_of_lt (by have := h.nframes_le; omega)
    rw [hmod] at he
    have hframe : ∀ q, ((allocPage s p k w).pages q).frame =
        if q = p then f else (s.pages q).frame := by
      intro q
      rw [he]
      by_cases hq : q = p
      · subst hq; simp
      · simp [hq]
    have hother : ∀ q, (s.pages q).frame ≠ 0 → (s.pages q).frame ≠ f := by
      intro q hq hqf
      have := h.held_used q hq
      rw [hqf, hfree] at this
      exact absurd this (by simp)
    have hpool : (allocPage s p k w).pool = setFrame s.pool f := by rw [he]
    refine ⟨h.zero, ?_, ?_, ?_, ?_, ?_, ?_, ?_⟩ <;>
      simp only [hframe, hpool, nframes_setFrame, isUsed_setFrame]
    · exact h.nframes_le
    · intro g hg
      simp [h.reserved_used g hg]
    · intro q hq
      split at hq
      · rwa [if_pos ‹_›]
      · rw [if_neg ‹_›]; exact h.held_lt q hq
    · intro q hq
      split at hq
      · simp [*]
      · rw [if_neg ‹_›]; simp [h.held_used q hq]
    · intro q hq hres
      split at hres
      · -- reserved frames are used, and `f` was free
        have := h.reserved_used f hres
        rw [hfree] at this
        exact absurd this (by simp)
      · rw [if_neg ‹_›] at hq
        exact h.held_unreserved q hq hres
    · intro q r hq hqr
      by_cases hqp : q = p <;> by_cases hrp : r = p
      · rw [hqp, hrp]
      · rw [if_pos hqp, if_neg hrp] at hqr
        rw [if_pos hqp] at hq
        exact absurd hqr.symm (hother r (hqr ▸ hq))
      · rw [if_neg hqp, if_pos hrp] at hqr
        rw [if_neg hqp] at hq
        exact absurd hqr (hother q hq)
      · rw [if_neg hqp, if_neg hrp] at hqr
        rw [if_neg hqp] at hq
        exact h.held_once q r hq hqr
    · have hcount := usedCount_le s.pool
      have hle := h.nframes_le
      have hadd : add32 (usedCount s.pool) 1 = usedCount s.pool + 1 := add32_of_lt (by omega)
      rw [usedFrames_setFrame, if_neg (by simp [hfree]), usedCount_setFrame hlt hfree, h.count,
        hadd]

/-- `free_page` keeps apart the frames that are held. -/
theorem HeldOk.free (h : HeldOk reserved s) (p : Nat) : HeldOk reserved (freePage s p) := by
  have hframe : ∀ q, ((freePage s p).pages q).frame = if q = p then 0 else (s.pages q).frame := by
    intro q
    by_cases hq : q = p
    · subst hq; simp [freePage]
    · simp [freePage, hq]
  by_cases h0 : (s.pages p).frame = 0
  · -- without a frame the entry stays empty
    have hpool : (freePage s p).pool = s.pool := by simp [freePage, h0]
    have hsame : ∀ q, ((freePage s p).pages q).frame = (s.pages q).frame := by
      intro q
      rw [hframe]
      split
      · rw [‹q = p›, h0]
      · rfl
    exact h.congr hsame hpool
  · -- the other entries hold other frames, which stay used
    have hpool : (freePage s p).pool = clearFrame s.pool (s.pages p).frame := by
      simp [freePage, h0]
    refine ⟨h.zero, ?_, ?_, ?_, ?_, ?_, ?_, ?_⟩ <;>
      simp only [hframe, hpool, nframes_clearFrame]
    · exact h.nframes_le
    · intro f hf
      have hne : f ≠ (s.pages p).frame := fun hfe => h.held_unreserved p h0 (hfe ▸ hf)
      simp [isUsed_clearFrame, hne, h.reserved_used f hf]
    · intro q hq
      by_cases hqp : q = p
      · exact absurd (if_pos hqp) hq
      · rw [if_neg hqp] at hq ⊢
        exact h.held_lt q hq
    · intro q hq
      by_cases hqp : q = p
      · exact absurd (if_pos hqp) hq
      · rw [if_neg hqp] at hq ⊢
        have hne : (s.pages q).frame ≠ (s.pages p).frame := fun he => hqp (h.held_once q p hq he)
        simp [isUsed_clearFrame, hne, h.held_used q hq]
    · intro q hq
      by_cases hqp : q = p
      · exact absurd (if_pos hqp) hq
      · rw [if_neg hqp] at hq ⊢
        exact h.held_unreserved q hq
    · intro q r hq hqr
      by_cases hqp : q = p
      · exact absurd (if_pos hqp) hq
      · rw [if_neg hqp] at hq hqr
        by_cases hrp : r = p
        · rw [if_pos hrp] at hqr
          exact absurd hqr hq
        · rw [if_neg hrp] at hqr
          exact h.held_once q r hq hqr
    · have hlt := h.held_lt p h0
      have hused := h.held_used p h0
      rw [usedFrames_clearFrame, h.count]
      -- `clear_frame` does something for multiples of 32 only
      by_cases hlow : (s.pages p).frame % 32 = 0
      · have hcount := usedCount_clearFrame hlt hused hlow
        have hle := usedCount_le s.pool
        have hn := h.nframes_le
        have hsub : sub32 (usedCount s.pool) 1 = usedCount s.pool - 1 :=
          sub32_of_le (by omega) (by omega)
        rw [if_pos ⟨hused, hlow⟩, hsub]
        omega
      · rw [if_neg fun h => hlow h.2]
        have hsame : clearFrame s.pool (s.pages p).frame = s.pool := by
          rw [clearFrame, if_neg]
          rw [(testFrame_iff _ _).2]
          exact fun h => hlow h.2
        rw [hsame]

/-- `free_page` on a multiple of 32 gives the frame back. -/
theorem HeldOk.freePage_free (h : HeldOk reserved s) (h0 : (s.pages p).frame ≠ 0) :
    (isUsed (freePage s p).pool (s.pages p).frame = false ∧
      (freePage s p).pool.usedFrames + 1 = s.pool.usedFrames) ↔ (s.pages p).frame % 32 = 0 := by
  have hused := h.held_used p h0
  have hpool : (freePage s p).pool = clearFrame s.pool (s.pages p).frame := by
    simp [freePage, h0]
  rw [hpool, isUsed_clearFrame, usedFrames_clearFrame]
  by_cases hlow : (s.pages p).frame % 32 = 0
  · -- the bit is found, and the frame counted
    have hcount := usedCount_clearFrame (h.held_lt p h0) hused hlow
    have hle := usedCount_le s.pool
    have hn := h.nframes_le
    have hsub : sub32 (usedCount s.pool) 1 = usedCount s.pool - 1 :=
      sub32_of_le (by omega) (by omega)
    rw [if_pos ⟨hused, hlow⟩, h.count, hsub]
    refine iff_of_true ⟨by simp [hlow], by omega⟩ hlow
  · -- the bit is not found: the frame stays in use
    simp [hused, hlow]

/-- `alloc_page` takes a frame for every bit that it sets. -/
theorem Conserved.alloc (h : Conserved reserved s) {k w : Bool}
    (hb : PageCall.Below s (.alloc p k w)) : Conserved reserved (allocPage s p k w) := by
  refine ⟨h.toHeldOk.alloc hb, ?_⟩
  rcases allocPage_cases s p k w with ⟨-, he⟩ | ⟨-, -, he⟩ | ⟨f, h0, hf, -, he⟩
  · rw [he]
    intro g hg hu
    refine (h.used_cases g hg hu).imp_right fun ⟨q, hq⟩ => ⟨q, ?_⟩
    by_cases hqp : q = p
    · subst hqp; simpa using hq
    · simpa [hqp] using hq
  · rw [he]
    exact h.used_cases
  · have hlt := hb h0 f hf
    have hmod : f % 2 ^ 20 = f := Nat.mod_eq_of_lt (by have := h.nframes_le; omega)
    rw [hmod] at he
    rw [he]
    intro g hg hu
    rw [nframes_setFrame] at hg
    rw [isUsed_setFrame, Bool.or_eq_true, decide_eq_true_eq] at hu
    rcases hu with hu | rfl
    · by_cases hres : reserved g
      · exact Or.inl hres
      · obtain ⟨q, hq⟩ := (h.used_cases g hg hu).resolve_left hres
        -- the entry that holds `g` is not the one that was empty
        have hqp : q ≠ p := by
          rintro rfl
          rw [h0] at hq
          exact hres (hq ▸ h.zero)
        exact Or.inr ⟨q, by simpa [hqp] using hq⟩
    · exact Or.inr ⟨p, by simp⟩

/-- `free_page` gives back the frame of its entry, if its bit is the lowest of its word. -/
theorem Conserved.free (h : Conserved reserved s) (hlow : PageCall.LowBit s (.free p)) :
    Conserved reserved (freePage s p) := by
  refine ⟨h.toHeldOk.free p, fun g hg hu => ?_⟩
  have hn : (freePage s p).pool.nframes = s.pool.nframes := by
    simp only [freePage]
    split
    · exact nframes_clearFrame
    · rfl
  rw [hn] at hg
  by_cases h0 : (s.pages p).frame = 0
  -- an entry without a frame is left alone
  · have hpool : (freePage s p).pool = s.pool := by simp [freePage, h0]
    rw [hpool] at hu
    refine (h.used_cases g hg hu).imp_right fun ⟨q, hq⟩ => ⟨q, ?_⟩
    by_cases hqp : q = p
    · subst hqp; simpa [freePage, h0] using hq
    · simpa [freePage, hqp] using hq
  -- otherwise its frame is free again, and every other frame is held as before
  · have hfreed := ((h.freePage_free h0).mpr hlow).1
    have hne : g ≠ (s.pages p).frame := by
      rintro rfl
      rw [hfreed] at hu
      exact absurd hu (by simp)
    have hu' : isUsed s.pool g = true := by
      simpa [freePage, h0, isUsed_clearFrame, hne] using hu
    refine (h.used_cases g hg hu').imp_right fun ⟨q, hq⟩ => ⟨q, ?_⟩
    have hqp : q ≠ p := by
      rintro rfl
      exact hne hq.symm
    simpa [freePage, hqp] using hq

/-- An allocation and the release of the same entry leave every free frame free. -/
theorem HeldOk.isUsed_free_alloc (h : HeldOk reserved s) {k w : Bool}
    (hb : PageCall.Below s (.alloc p k w))
    (hlow : PageCall.LowBit (allocPage s p k w) (.free p)) {g : Nat}
    (hfree : isUsed s.pool g = false) :
    isUsed (freePage (allocPage s p k w) p).pool g = false := by
  -- the release clears at most one bit
  have hclear : ∀ (t : Paging), isUsed t.pool g = false →
      isUsed (freePage t p).pool g = false := by
    intro t ht
    simp only [freePage]
    split
    · simp [isUsed_clearFrame, ht]
    · exact ht
  rcases allocPage_cases s p k w with ⟨-, he⟩ | ⟨-, -, he⟩ | ⟨f, h0, hf, -, he⟩
  · rw [he]
    exact hclear _ hfree
  · rw [he]
    exact hclear _ hfree
  -- only the frame that was handed out changed; it is not frame 0, which is reserved, so the
  -- release does clear its bit
  · by_cases hgf : g = f
    · subst hgf
      have hlt := hb h0 g hf
      have hmod : g % 2 ^ 20 = g := Nat.mod_eq_of_lt (by have := h.nframes_le; omega)
      have hg0 : g ≠ 0 := by
        rintro rfl
        rw [h.reserved_used 0 h.zero] at hfree
        exact absurd hfree (by simp)
      rw [he, PageCall.LowBit] at hlow
      simp only [Function.update_self, hmod] at hlow
      rw [he]
      simp only [freePage, Function.update_self, hmod]
      simp [hg0, isUsed_clearFrame, hlow]
    · rw [he]
      refine hclear _ ?_
      simp [isUsed_setFrame, hfree, hgf]

end Calls

/-! ## Runs -/

section Runs

variable {reserved : Nat → Prop} {s : Paging} {calls : List PageCall}

/-- In a whole run no two pages hold the same frame. -/
theorem HeldOk.execAll (h : HeldOk reserved s) (hb : Each PageCall.exec PageCall.Below s calls) :
    ∃ s', Run.execAll PageCall.exec s calls = some s' ∧ HeldOk reserved s' := by
  refine exists_execAll (fun t c ht hc => ?_) h hb
  cases c with
  | alloc p k w => exact ⟨_, rfl, ht.alloc hc⟩
  | free p => exact ⟨_, rfl, ht.free p⟩

/-- The pool in a state of a run: a bit is set exactly for the reserved and the held
    frames, and the next call, if it frees a page, gives its frame back. -/
def Conserving (reserved : Nat → Prop) (s : Paging) (next : List PageCall) : Prop :=
  (∀ f < s.pool.nframes, isUsed s.pool f = true ↔ reserved f ∨ ∃ p, (s.pages p).frame = f) ∧
  ∀ p rest, next = .free p :: rest → (s.pages p).frame ≠ 0 →
    isUsed (freePage s p).pool (s.pages p).frame = false ∧
      (freePage s p).pool.usedFrames + 1 = s.pool.usedFrames

/-- The used frames are the reserved ones and those that a page holds. -/
theorem Conserved.used_iff (h : Conserved reserved s) {f : Nat} (hf : f < s.pool.nframes) :
    isUsed s.pool f = true ↔ reserved f ∨ ∃ p, (s.pages p).frame = f := by
  refine ⟨h.used_cases f hf, ?_⟩
  rintro (hres | ⟨p, rfl⟩)
  · exact h.reserved_used f hres
  · by_cases h0 : (s.pages p).frame = 0
    · rw [h0]; exact h.reserved_used 0 h.zero
    · exact h.held_used p h0

/-- In a whole run no frame is lost. -/
theorem Conserved.execAll (h : Conserved reserved s)
    (hb : Each PageCall.exec PageCall.Below s calls)
    (hlow : Each PageCall.exec PageCall.LowBit s calls) :
    ∃ s', Run.execAll PageCall.exec s calls = some s' ∧ Conserved reserved s' := by
  induction calls generalizing s with
  | nil => exact ⟨s, rfl, h⟩
  | cons c calls ih =>
    cases c with
    | alloc p k w => exact ih (h.alloc hb.1) (hb.2 _ rfl) (hlow.2 _ rfl)
    | free p => exact ih (h.free hlow.1) (hb.2 _ rfl) (hlow.2 _ rfl)

/-- Entries that are allocated and freed one after the other. -/
def alternate (pages : List (Nat × Bool × Bool)) : List PageCall :=
  pages.flatMap fun (p, k, w) => [.alloc p k w, .free p]

/-- Taking and giving back by turns uses up no frame. -/
theorem HeldOk.alternate (h : HeldOk reserved s) {pages : List (Nat × Bool × Bool)}
    (hb : Each PageCall.exec PageCall.Below s (alternate pages))
    (hlow : Each PageCall.exec PageCall.LowBit s (alternate pages)) :
    ∃ s', Run.execAll PageCall.exec s (Toutatis.alternate pages) = some s' ∧
      ∀ f, isUsed s.pool f = false → isUsed s'.pool f = false := by
  induction pages generalizing s with
  | nil => exact ⟨s, rfl, fun f hf => hf⟩
  | cons a pages ih =>
    obtain ⟨p, k, w⟩ := a
    obtain ⟨hb₁, hb⟩ := hb
    obtain ⟨-, hb⟩ := hb _ rfl
    obtain ⟨-, hlow⟩ := hlow
    obtain ⟨hlow₁, hlow⟩ := hlow _ rfl
    obtain ⟨s', hs', hfree⟩ := ih ((h.alloc hb₁).free p) (hb _ rfl) (hlow _ rfl)
    exact ⟨s', hs', fun f hf => hfree f (h.isUsed_free_alloc hb₁ hlow₁ hf)⟩

/-- **Conservation of frames.** A run conserves the pool in all its states if and only
    if every entry it frees holds a multiple of 32 (or nothing); and while this is so,
    allocating and freeing in turn does not use up a free frame. -/
theorem conserved_iff (h : Conserved reserved s)
    (hb : Each PageCall.exec PageCall.Below s calls) :
    ((∀ pre post, calls = pre ++ post → ∃ s', Run.execAll PageCall.exec s pre = some s' ∧
        Conserving reserved s' post) ↔
      Each PageCall.exec PageCall.LowBit s calls) ∧
    ∀ pages, calls = alternate pages → Each PageCall.exec PageCall.LowBit s calls →
      ∃ s', Run.execAll PageCall.exec s calls = some s' ∧
        ∀ f, isUsed s.pool f = false → isUsed s'.pool f = false := by
  refine ⟨⟨fun hall => ?_, fun hlow pre post hsplit => ?_⟩, ?_⟩
  · -- a release that does not give its frame back is seen right behind it
    induction calls generalizing s with
    | nil => trivial
    | cons c calls ih =>
      have hlow : PageCall.LowBit s c := by
        cases c with
        | alloc p k w => trivial
        | free p =>
          by_cases h0 : (s.pages p).frame = 0
          · rw [PageCall.LowBit, h0]
          · obtain ⟨s', hs', hcons⟩ := hall [] _ rfl
            cases hs'
            exact (h.freePage_free h0).mp (hcons.2 p calls rfl h0)
      refine ⟨hlow, fun t ht => ?_⟩
      have hcons : Conserved reserved t := by
        cases c with
        | alloc p k w => cases ht; exact h.alloc hb.1
        | free p => cases ht; exact h.free hlow
      refine ih hcons (hb.2 t ht) fun pre post hsplit => ?_
      obtain ⟨s', hs', hc⟩ := hall (c :: pre) post (by rw [hsplit]; rfl)
      rw [Run.execAll, ht] at hs'
      exact ⟨s', hs', hc⟩
  · rw [hsplit] at hlow hb
    rw [each_append] at hlow hb
    obtain ⟨s', hs', hc⟩ := h.execAll hb.1 hlow.1
    refine ⟨s', hs', fun f hf => hc.used_iff hf, fun p rest hnext h0 => ?_⟩
    have hlow' := hlow.2 s' hs'
    rw [hnext] at hlow'
    exact (hc.freePage_free h0).mpr hlow'.1
  · rintro pages rfl hlow
    exact h.toHeldOk.alternate hb hlow

end Runs

/-! ## From the cleared bitmap -/

section Boot

variable {memSize : Nat} {rest : Nat → BitVec 32} {addrs : List Nat}

/-- After `paging_init` and some calls of `paging_mark_reserved`, with entries that are
    all zero. -/
def reservedPaging (memSize : Nat) (rest : Nat → BitVec 32) (addrs : List Nat) : Paging where
  pool := addrs.foldl pagingMarkReserved (pagingInit memSize rest)
  pages _ := ⟨false, false, false, 0⟩

/-- The bitmap of a whole number of words is cleared. -/
theorem isUsed_pagingInit (h32 : memSize / frameSize % 32 = 0) {f : Nat}
    (hf : f < memSize / frameSize) : isUsed (pagingInit memSize rest) f = false := by
  have hshift : 32 ≤ 8 * (memSize / frameSize / 8 - 4 * (f / 32)) := by omega
  have hbit : f % 32 < 8 * (memSize / frameSize / 8 - 4 * (f / 32)) := by omega
  simp [isUsed, pagingInit, hbit]

/-- The pool after some reservations. -/
private theorem marked_spec (addrs : List Nat) (s : FramePool) (hn : s.nframes ≤ 2 ^ 20)
    (hlt : ∀ a ∈ addrs, a / frameSize < s.nframes) (hcount : s.usedFrames = usedCount s) :
    let s' := addrs.foldl pagingMarkReserved s
    s'.nframes = s.nframes ∧ s'.usedFrames = usedCount s' ∧
      ∀ f, isUsed s' f = true ↔ isUsed s f = true ∨ ∃ a ∈ addrs, a / frameSize = f := by
  induction addrs generalizing s with
  | nil => simp [hcount]
  | cons a addrs ih =>
    have ha := hlt a (by simp)
    -- used_frames counts a frame once, however often it is reserved
    have hcount' : (pagingMarkReserved s a).usedFrames = usedCount (pagingMarkReserved s a) := by
      have hle := usedCount_le s
      have hadd : add32 (usedCount s) 1 = usedCount s + 1 := add32_of_lt (by omega)
      rw [pagingMarkReserved]
      by_cases hu : isUsed s (a / frameSize) = true
      · have hsame : setFrame s (a / frameSize) = s := by
          rw [setFrame, if_neg]
          rw [(testFrame_iff _ _).1, hu]
          exact Bool.noConfusion
        rw [hsame, hcount]
      · rw [usedFrames_setFrame, if_neg hu, usedCount_setFrame ha (by simpa using hu), hcount, hadd]
    have hrec := ih (pagingMarkReserved s a) (by rw [pagingMarkReserved, nframes_setFrame]; exact hn)
      (fun b hb => by
        rw [pagingMarkReserved, nframes_setFrame]
        exact hlt b (List.mem_cons_of_mem a hb)) hcount'
    obtain ⟨h1, h2, h3⟩ := hrec
    refine ⟨by rw [List.foldl_cons, h1, pagingMarkReserved, nframes_setFrame], h2, fun f => ?_⟩
    rw [List.foldl_cons, h3, pagingMarkReserved, isUsed_setFrame]
    simp only [Bool.or_eq_true, decide_eq_true_eq, List.exists_mem_cons_iff]
    constructor
    · rintro ((h | h) | h)
      · exact Or.inl h
      · exact Or.inr (Or.inl h.symm)
      · exact Or.inr (Or.inr h)
    · rintro (h | h | h)
      · exact Or.inl (Or.inl h)
      · exact Or.inl (Or.inr h.symm)
      · exact Or.inr h

/-- The state behind the reservations conserves the frames. -/
theorem conserved_reservedPaging (hm : memSize < 2 ^ 32) (h32 : memSize / frameSize % 32 = 0)
    (haddr : ∀ a ∈ addrs, a < memSize / frameSize * frameSize)
    (hzero : ∃ a ∈ addrs, a / frameSize = 0) :
    Conserved (fun f => ∃ a ∈ addrs, a / frameSize = f) (reservedPaging memSize rest addrs) := by
  have hn : memSize / frameSize ≤ 2 ^ 20 := by
    rw [frameSize]
    omega
  -- no frame is used behind paging_init, and used_frames is 0
  have hcount : (pagingInit memSize rest).usedFrames = usedCount (pagingInit memSize rest) := by
    have hnone : (Finset.range (pagingInit memSize rest).nframes).filter
        (fun f => isUsed (pagingInit memSize rest) f = true) = ∅ := by
      rw [Finset.filter_eq_empty_iff]
      intro f hf
      rw [isUsed_pagingInit h32 (Finset.mem_range.mp hf)]
      exact Bool.noConfusion
    rw [usedCount, hnone]
    rfl
  obtain ⟨h1, h2, h3⟩ := marked_spec addrs (pagingInit memSize rest) hn
    (fun a ha => Nat.div_lt_of_lt_mul (by rw [Nat.mul_comm]; exact haddr a ha)) hcount
  refine ⟨⟨hzero, ?_, fun f hf => (h3 f).mpr (Or.inr hf), fun _ hp => absurd rfl hp,
    fun _ hp => absurd rfl hp, fun _ hp => absurd rfl hp, fun _ _ hp => absurd rfl hp, h2⟩, ?_⟩
  · rw [reservedPaging, h1]
    exact hn
  · intro f hf hu
    rw [reservedPaging] at hf hu
    rw [h1] at hf
    refine ((h3 f).mp hu).elim (fun hu => ?_) Or.inl
    rw [isUsed_pagingInit h32 hf] at hu
    exact absurd hu (by simp)

/-- At an allocating call some frame below `nframes` is free. -/
def PageCall.SomeFree (s : Paging) : PageCall → Prop
  | .alloc page _ _ => (s.pages page).frame = 0 → ∃ f < s.pool.nframes, isUsed s.pool f = false
  | .free _ => True

/-- While a frame is free, `first_free_frame` finds one below `nframes`. -/
theorem PageCall.SomeFree.below {s : Paging} {c : PageCall} (h : c.SomeFree s) : c.Below s := by
  cases c with
  | alloc p k w =>
    intro h0 f hf
    obtain ⟨g, hg, hfree⟩ := h h0
    obtain ⟨f', hf', hlt, -⟩ := firstFreeFrame_of_free hg hfree
    rw [hf, Option.some.injEq] at hf'
    rwa [hf']
  | free p => trivial

/-- **No frame is handed out twice.** After the reservations and any run, while a frame
    is free at each allocating call: no two entries hold one frame, none holds a
    reserved frame, held frames are marked, an entry keeps the frame it has, and
    `used_frames` is the number of set bits. -/
theorem frames_distinct (hm : memSize < 2 ^ 32) (h32 : memSize / frameSize % 32 = 0)
    (haddr : ∀ a ∈ addrs, a < memSize / frameSize * frameSize)
    (hzero : ∃ a ∈ addrs, a / frameSize = 0) (calls : List PageCall)
    (hfree : Each PageCall.exec PageCall.SomeFree (reservedPaging memSize rest addrs) calls) :
    ∃ s, execAll PageCall.exec (reservedPaging memSize rest addrs) calls = some s ∧
      (∀ p q, p ≠ q → (s.pages p).frame ≠ 0 → (s.pages p).frame ≠ (s.pages q).frame) ∧
      (∀ p, (s.pages p).frame ≠ 0 → ∀ a ∈ addrs, a / frameSize ≠ (s.pages p).frame) ∧
      (∀ p, (s.pages p).frame ≠ 0 → isUsed s.pool (s.pages p).frame = true) ∧
      (∀ p k w, (s.pages p).frame ≠ 0 →
        ((allocPage s p k w).pages p).frame = (s.pages p).frame) ∧
      s.pool.usedFrames = usedCount s.pool := by
  obtain ⟨s, hs, h⟩ := (conserved_reservedPaging hm h32 haddr hzero).toHeldOk.execAll
    (hfree.imp fun _ _ => PageCall.SomeFree.below)
  refine ⟨s, hs, fun p q hpq hp he => hpq (h.held_once p q hp he),
    fun p hp a ha hap => h.held_unreserved p hp ⟨a, ha, hap⟩, h.held_used, fun p k w hp => ?_,
    h.count⟩
  rw [allocPage, if_pos hp]
  simp

/-- A memory of 32 frames with frame 0 reserved. -/
def smallPaging : Paging := reservedPaging 0x20000 (fun _ => 0) [0]

/-- Two entries get frames, which differ, and a third one gets the frame that none of them has. -/
theorem frames_distinct_small : ∃ s,
    execAll PageCall.exec smallPaging
      [.alloc 7 true true, .alloc 9 false true, .free 7, .alloc 8 true false] = some s ∧
      (s.pages 8).frame ≠ 0 ∧ (s.pages 9).frame ≠ 0 ∧ (s.pages 8).frame ≠ (s.pages 9).frame ∧
      s.pool.usedFrames = usedCount s.pool := by
  have hfree : Each PageCall.exec PageCall.SomeFree smallPaging
      [.alloc 7 true true, .alloc 9 false true, .free 7, .alloc 8 true false] := by
    refine ⟨fun _ => ⟨1, by decide, by decide⟩, fun s₁ hs₁ => ?_⟩
    obtain rfl := Option.some.inj hs₁
    refine ⟨fun _ => ⟨2, by decide, by decide +kernel⟩, fun s₂ hs₂ => ?_⟩
    obtain rfl := Option.some.inj hs₂
    refine ⟨trivial, fun s₃ hs₃ => ?_⟩
    obtain rfl := Option.some.inj hs₃
    exact ⟨fun _ => ⟨3, by decide +kernel, by decide +kernel⟩, fun _ _ => trivial⟩
  obtain ⟨s, hs, hdistinct, -, -, -, hcount⟩ := frames_distinct (show 0x20000 < 2 ^ 32 by decide)
    (by decide) (by decide) ⟨0, by decide⟩ _ hfree
  have hframes : (s.pages 8).frame ≠ 0 ∧ (s.pages 9).frame ≠ 0 := by
    obtain rfl := Option.some.inj hs
    decide +kernel
  exact ⟨s, hs, hframes.1, hframes.2, hdistinct 8 9 (by decide) hframes.1, hcount⟩

/-- A memory of 64 frames with the first 32 reserved. -/
def wordPaging : Paging :=
  reservedPaging 0x40000 (fun _ => 0) ((List.range 32).map fun f => f * frameSize)

/-- The first word of the bitmap reserved, everything else free. -/
theorem conserved_wordPaging : Conserved
    (fun f => ∃ a ∈ (List.range 32).map fun f => f * frameSize, a / frameSize = f) wordPaging :=
  conserved_reservedPaging (by decide) (by decide) (by decide) ⟨0, by decide⟩

/-- Frame 32 is allocated first there, and its release conserves the pool. -/
theorem conserved_iff_word :
    Each PageCall.exec PageCall.Below wordPaging [.alloc 7 true true, .free 7] ∧
    ∀ pre post, [.alloc 7 true true, .free 7] = pre ++ post →
      ∃ s', execAll PageCall.exec wordPaging pre = some s' ∧
        Conserving (fun f => ∃ a ∈ (List.range 32).map fun f => f * frameSize, a / frameSize = f)
          s' post := by
  have hbelow : Each PageCall.exec PageCall.Below wordPaging [.alloc 7 true true, .free 7] :=
    ⟨PageCall.SomeFree.below fun _ => ⟨32, by decide +kernel, by decide +kernel⟩,
      fun _ _ => ⟨trivial, fun _ _ => trivial⟩⟩
  refine ⟨hbelow, (conserved_iff conserved_wordPaging hbelow).1.mpr ⟨trivial, ?_⟩⟩
  intro s hs
  have hframe : ((allocPage wordPaging 7 true true).pages 7).frame % 32 = 0 := by decide +kernel
  rw [PageCall.exec, Option.some.injEq] at hs
  rw [← hs]
  exact ⟨hframe, fun _ _ => trivial⟩

/-- In the memory of 32 frames, frame 1 is allocated first, and it stays marked when it
    is freed. -/
theorem frame_one_lost :
    Conserved (fun f => ∃ a ∈ [0], a / frameSize = f) smallPaging ∧
    ∃ s, execAll PageCall.exec smallPaging [.alloc 7 true true, .free 7] = some s ∧
      1 < s.pool.nframes ∧ isUsed s.pool 1 = true ∧ (¬ ∃ a ∈ [0], a / frameSize = 1) ∧
      ∀ p, (s.pages p).frame ≠ 1 := by
  refine ⟨conserved_reservedPaging (by decide) (by decide) (by decide) ⟨0, by decide⟩, _, rfl,
    by decide, by decide, by decide, fun p => ?_⟩
  by_cases hp : p = 7
  · subst hp; decide
  · rw [freePage]
    simp [hp, allocPage_pages_of_ne, smallPaging, reservedPaging]

end Boot

end Toutatis
