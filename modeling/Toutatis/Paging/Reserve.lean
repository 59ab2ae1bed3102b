import Toutatis.Paging.Frames

/-!
# Reserved memory

The part of `main` that marks frames before paging starts: the frame of the multiboot
structure, and those of the reserved regions of the memory map. The map lies in memory, one
entry behind the other.

The inner loop advances by whole frames from the start of a region, which need not be the
start of a frame, and cuts the address to 32 bits. So the frame of the last bytes of a region
can be missed, and a region above 4 GiB marks frames that it has nothing to do with.

## Key results

- `reserveLoop_spec`: the frames that the inner loop marks
- `mainReserve_eq`: the walk over the map is a fold over its entries
- `reserved_exact_iff`: when exactly the frames of reserved regions are marked
-/

namespace Toutatis

open ByteMem

/-- `mmap_entry_t`. -/
structure MmapEntry where
  size : Nat
  addr : Nat
  length : Nat
  type : Nat
  deriving DecidableEq

/-- The entry at address `p`. -/
def readEntry (m : Mem) (p : Nat) : MmapEntry where
  size := load32 m p
  addr := load32 m (p + 4) + 2 ^ 32 * load32 m (p + 8)
  length := load32 m (p + 12) + 2 ^ 32 * load32 m (p + 16)
  type := load32 m (p + 20)

/-- The fields of `struct multiboot_info` that are used here, and its address. -/
structure MultibootInfo where
  address : Nat
  memLower : Nat
  memUpper : Nat
  mmapLength : Nat
  mmapAddr : Nat

/-- `for (uint64_t i = 0; i < mmap->length; i += FRAME_SIZE)`; `none` when the fuel is used
    up. -/
def reserveLoop (addr length : Nat) : (fuel i : Nat) → FramePool → Option FramePool
  | 0, _, _ => none
  | fuel + 1, i, s =>
    if i < length then
      reserveLoop addr length fuel ((i + frameSize) % 2 ^ 64)
        (pagingMarkReserved s ((addr + i) % 2 ^ 64 &&& 0xfffff000))
    else some s

/-- The body of the loop over the map. There are `2 ^ 52` values that `i` can take; a loop
    that runs longer does not end. -/
def reserveEntry (s : FramePool) (e : MmapEntry) : Option FramePool :=
  if e.type = 2 then reserveLoop e.addr e.length (2 ^ 52 + 1) 0 s else some s

/-- The loop over the map, up to the address `stop`; `none` when the fuel is used up. -/
def mmapLoop (m : Mem) (stop : Nat) : (fuel mmap : Nat) → FramePool → Option FramePool
  | 0, _, _ => none
  | fuel + 1, mmap, s =>
    if mmap < stop then
      (reserveEntry s (readEntry m mmap)).bind
        (mmapLoop m stop fuel (add32 (add32 mmap (readEntry m mmap).size) 4))
    else some s

/-- `main` from `paging_init` up to `paging_finalize`. -/
def mainReserve (m : Mem) (mbi : MultibootInfo) (rest : Nat → BitVec 32) : Option FramePool :=
  let s := pagingInit ((mbi.memLower + mbi.memUpper) * 1024 % 2 ^ 32) rest
  let s := pagingMarkReserved s (sub32 mbi.address kernelVoffset)
  let mmap := add32 mbi.mmapAddr kernelVoffset
  mmapLoop m (add32 mmap mbi.mmapLength) (2 ^ 32) mmap s

/-! ## The inner loop -/

/-- The frame of an address cut to 32 bits. -/
theorem and_mask_div (x : Nat) : (x &&& 0xfffff000) / frameSize = x / 4096 % 2 ^ 20 := by
  have hshift : ∀ y : Nat, y / 4096 = y >>> 12 := fun y => (Nat.shiftRight_eq_div_pow y 12).symm
  rw [frameSize, hshift, Nat.shiftRight_and_distrib, hshift,
    show 0xfffff000 >>> 12 = 2 ^ 20 - 1 by decide, Nat.and_two_pow_sub_one_eq_mod]

/-- The frames that the inner loop marks. -/
def MmapEntry.Marks (e : MmapEntry) (f : Nat) : Prop :=
  ∃ j, frameSize * j < e.length ∧ (e.addr / frameSize + j) % 2 ^ 20 = f

/-- **The inner loop**, from its pass `k` on. -/
theorem reserveLoop_spec {e : MmapEntry} (hlen : e.length ≤ 2 ^ 64 - frameSize) (fuel k : Nat)
    (hfuel : 2 ^ 52 < fuel + k) (hk : k ≤ 2 ^ 52 - 1) (s : FramePool) :
    ∃ s', reserveLoop e.addr e.length fuel (frameSize * k) s = some s' ∧
      s'.nframes = s.nframes ∧
      ∀ f, isUsed s' f = true ↔ isUsed s f = true ∨
        ∃ j, k ≤ j ∧ frameSize * j < e.length ∧ (e.addr / frameSize + j) % 2 ^ 20 = f := by
  rw [frameSize] at *
  induction fuel generalizing k s with
  | zero => omega
  | succ fuel ih =>
    rw [reserveLoop]
    by_cases hlt : 0x1000 * k < e.length
    · have hnext : (0x1000 * k + frameSize) % 2 ^ 64 = 0x1000 * (k + 1) := by
        rw [frameSize]
        omega
      have hframe : ((e.addr + 0x1000 * k) % 2 ^ 64 &&& 0xfffff000) / frameSize =
          (e.addr / 0x1000 + k) % 2 ^ 20 := by
        rw [and_mask_div]
        omega
      rw [if_pos hlt, hnext]
      obtain ⟨s', hs', hn, hused⟩ := ih (k := k + 1) (by omega) (by omega)
        (pagingMarkReserved s ((e.addr + 0x1000 * k) % 2 ^ 64 &&& 0xfffff000))
      refine ⟨s', hs', by rw [hn, pagingMarkReserved, nframes_setFrame], fun f => ?_⟩
      rw [hused, pagingMarkReserved, hframe, isUsed_setFrame, Bool.or_eq_true, decide_eq_true_iff,
        or_assoc]
      -- this frame is the one of step `k`, the others come later
      refine or_congr_right ⟨?_, ?_⟩
      · rintro (rfl | ⟨j, hj, hjl, rfl⟩)
        · exact ⟨k, le_refl k, hlt, rfl⟩
        · exact ⟨j, by omega, hjl, rfl⟩
      · rintro ⟨j, hj, hjl, rfl⟩
        rcases Nat.eq_or_lt_of_le hj with rfl | hj
        · exact Or.inl rfl
        · exact Or.inr ⟨j, hj, hjl, rfl⟩
    · rw [if_neg hlt]
      refine ⟨s, rfl, rfl, fun f => ⟨Or.inl, ?_⟩⟩
      rintro (h | ⟨j, hj, hjl, -⟩)
      · exact h
      · omega

/-- A region that reaches into the last frame below 2^64 keeps the loop going for ever. -/
theorem reserveLoop_eq_none {e : MmapEntry} (hlen : 2 ^ 64 - frameSize < e.length) (fuel : Nat)
    {i : Nat} (hi : i % frameSize = 0) (hlt : i < 2 ^ 64) (s : FramePool) :
    reserveLoop e.addr e.length fuel i s = none := by
  induction fuel generalizing i s with
  | zero => rfl
  | succ fuel ih =>
    rw [frameSize] at hi hlen
    rw [reserveLoop, if_pos (by omega)]
    refine ih ?_ (Nat.mod_lt _ (by decide)) _
    rw [frameSize]
    omega

/-! ## The memory map -/

/-- The entries of the map from address `p` on, laid out one behind the other up to `stop`. -/
def MapAt (m : Mem) (stop : Nat) : Nat → List MmapEntry → Prop
  | p, [] => stop ≤ p
  | p, e :: es => p < stop ∧ readEntry m p = e ∧ 20 ≤ e.size ∧ p + e.size + 4 < 2 ^ 32 ∧
      MapAt m stop (p + e.size + 4) es

/-- The walk over the map visits its entries in turn. -/
theorem mmapLoop_eq {m : Mem} {stop p fuel : Nat} {es : List MmapEntry} (h : MapAt m stop p es)
    (hfuel : 2 ^ 32 ≤ fuel + p) (hp : p < 2 ^ 32) (s : FramePool) :
    mmapLoop m stop fuel p s = es.foldlM reserveEntry s := by
  induction es generalizing fuel p s with
  | nil =>
    obtain ⟨fuel, rfl⟩ : ∃ n, fuel = n + 1 := ⟨fuel - 1, by omega⟩
    rw [mmapLoop, if_neg (Nat.not_lt.mpr h)]
    rfl
  | cons e es ih =>
    obtain ⟨hlt, rfl, hsize, hle, hrest⟩ := h
    obtain ⟨fuel, rfl⟩ : ∃ n, fuel = n + 1 := ⟨fuel - 1, by omega⟩
    have hnext : add32 (add32 p (readEntry m p).size) 4 = p + (readEntry m p).size + 4 := by
      simp only [add32]
      omega
    rw [mmapLoop, if_pos hlt, hnext, List.foldlM_cons]
    exact congrArg _ (funext fun s' => ih hrest (by omega) hle s')

/-- The frame of the multiboot structure. -/
def mbiFrame (mbi : MultibootInfo) : Nat := sub32 mbi.address kernelVoffset / frameSize

/-- The frame overlaps the region of the entry. -/
def MmapEntry.Overlaps (e : MmapEntry) (f : Nat) : Prop :=
  0 < e.length ∧ frameSize * f < e.addr + e.length ∧ e.addr < frameSize * f + frameSize

/-- The loop ends before the frame of the last byte: the first and the last byte lie so in
    their frames that the region touches one frame more than its length asks for. -/
def MmapEntry.CutOff (e : MmapEntry) : Prop :=
  0 < e.length ∧ frameSize ≤ e.addr % frameSize + (e.length - 1) % frameSize

/-- The frame of the last byte of the region. -/
def MmapEntry.lastFrame (e : MmapEntry) : Nat := (e.addr + e.length - 1) / frameSize

/-- The pool as `paging_init` leaves it. -/
def initPool (mbi : MultibootInfo) (rest : Nat → BitVec 32) : FramePool :=
  pagingInit ((mbi.memLower + mbi.memUpper) * 1024 % 2 ^ 32) rest

/-- The frames below `nframes` that are marked are those of the multiboot structure and of
    the reserved regions, and those that `paging_init` left marked. -/
def ReservedExact (m : Mem) (mbi : MultibootInfo) (rest : Nat → BitVec 32) (es : List MmapEntry) :
    Prop :=
  ∃ s, mainReserve m mbi rest = some s ∧ ∀ f < s.nframes,
    isUsed s f = true ↔ isUsed (initPool mbi rest) f = true ∨ f = mbiFrame mbi ∨
      ∃ e ∈ es, e.type = 2 ∧ e.Overlaps f

/-- The loops end, a frame that is cut off is marked for another reason, and so is a frame
    that a region above 4 GiB marks. -/
structure ReserveOk (mbi : MultibootInfo) (rest : Nat → BitVec 32) (es : List MmapEntry) :
    Prop where
  ends : ∀ e ∈ es, e.type = 2 → e.length ≤ 2 ^ 64 - frameSize
  cutOff : ∀ e ∈ es, e.type = 2 → e.CutOff → e.lastFrame < (initPool mbi rest).nframes →
    isUsed (initPool mbi rest) e.lastFrame = true ∨ e.lastFrame = mbiFrame mbi ∨
      ∃ d ∈ es, d.type = 2 ∧ d.Marks e.lastFrame
  high : ∀ e ∈ es, e.type = 2 → ∀ j, frameSize * j < e.length →
    2 ^ 20 ≤ e.addr / frameSize + j →
    (e.addr / frameSize + j) % 2 ^ 20 < (initPool mbi rest).nframes →
    isUsed (initPool mbi rest) ((e.addr / frameSize + j) % 2 ^ 20) = true ∨
      (e.addr / frameSize + j) % 2 ^ 20 = mbiFrame mbi ∨
      ∃ d ∈ es, d.type = 2 ∧ d.Overlaps ((e.addr / frameSize + j) % 2 ^ 20)

section

variable {es : List MmapEntry} {e : MmapEntry}

/-- What the walk over the map marks. -/
theorem foldlM_reserveEntry (hends : ∀ e ∈ es, e.type = 2 → e.length ≤ 2 ^ 64 - frameSize)
    (s : FramePool) :
    ∃ s', es.foldlM reserveEntry s = some s' ∧ s'.nframes = s.nframes ∧
      ∀ f, isUsed s' f = true ↔ isUsed s f = true ∨ ∃ e ∈ es, e.type = 2 ∧ e.Marks f := by
  induction es generalizing s with
  | nil => exact ⟨s, rfl, rfl, by simp⟩
  | cons e es ih =>
    have hes := fun e' he' => hends e' (List.mem_cons_of_mem _ he')
    rw [List.foldlM_cons]
    -- a region of another type marks nothing
    by_cases htype : e.type = 2
    · obtain ⟨s₁, hs₁, hn₁, hused₁⟩ := reserveLoop_spec (hends e List.mem_cons_self htype)
        (2 ^ 52 + 1) 0 (by omega) (by omega) s
      obtain ⟨s', hs', hn', hused'⟩ := ih hes s₁
      refine ⟨s', ?_, hn'.trans hn₁, fun f => ?_⟩
      · rw [reserveEntry, if_pos htype]
        rw [Nat.mul_zero] at hs₁
        rw [hs₁]
        exact hs'
      · rw [hused', hused₁, or_assoc]
        refine or_congr_right ?_
        simp only [List.mem_cons, exists_eq_or_imp, htype, true_and, MmapEntry.Marks, Nat.zero_le]
    · obtain ⟨s', hs', hn', hused'⟩ := ih hes s
      refine ⟨s', ?_, hn', fun f => ?_⟩
      · rw [reserveEntry, if_neg htype]
        exact hs'
      · rw [hused']
        simp [htype]

/-- A region whose loop does not end stops the walk. -/
theorem foldlM_reserveEntry_none (he : e ∈ es) (htype : e.type = 2)
    (hlen : 2 ^ 64 - frameSize < e.length) (s : FramePool) :
    es.foldlM reserveEntry s = none := by
  induction es generalizing s with
  | nil => exact absurd he List.not_mem_nil
  | cons d es ih =>
    rw [List.foldlM_cons]
    rcases List.mem_cons.mp he with rfl | he
    · rw [reserveEntry, if_pos htype, reserveLoop_eq_none hlen _ (by decide) (by decide)]
      rfl
    · cases hd : reserveEntry s d with
      | none => rfl
      | some s' => exact ih he s'

/-- A frame of a region is marked by its loop, or it is the last one and cut off. -/
theorem MmapEntry.Overlaps.marks_or {f : Nat} (h : e.Overlaps f) (hf : f < 2 ^ 20) :
    e.Marks f ∨ (e.CutOff ∧ e.lastFrame = f) := by
  obtain ⟨hpos, hlow, hhigh⟩ := h
  simp only [MmapEntry.Marks, MmapEntry.CutOff, MmapEntry.lastFrame, frameSize] at *
  by_cases hj : 0x1000 * (f - e.addr / 0x1000) < e.length
  · exact Or.inl ⟨_, hj, by omega⟩
  · exact Or.inr ⟨⟨hpos, by omega⟩, by omega⟩

/-- A frame that is marked belongs to the region if it lies below 4 GiB. -/
theorem MmapEntry.overlaps_of_step {j : Nat} (hj : frameSize * j < e.length) :
    e.Overlaps (e.addr / frameSize + j) := by
  simp only [MmapEntry.Overlaps, frameSize] at *
  omega

theorem MmapEntry.CutOff.overlaps (h : e.CutOff) : e.Overlaps e.lastFrame := by
  obtain ⟨hpos, -⟩ := h
  simp only [MmapEntry.Overlaps, MmapEntry.lastFrame, frameSize]
  omega

end

theorem nframes_initPool_le (mbi : MultibootInfo) (rest : Nat → BitVec 32) :
    (initPool mbi rest).nframes ≤ 2 ^ 20 := by
  simp only [initPool, pagingInit, frameSize]
  omega

/-- **Reserved memory.** For a memory map with the entries `es`, the loop of `main` ends and
    marks exactly the frames that overlap a reserved region, with the frame of the multiboot
    structure, if and only if no reserved region is so long that the loop does not end, and
    each frame that a region is cut off from, or that a region marks from above 4 GiB, is
    marked or reserved for another reason. -/
theorem reserved_exact_iff {m : Mem} {mbi : MultibootInfo} {rest : Nat → BitVec 32}
    {es : List MmapEntry}
    (hmap : MapAt m (add32 (add32 mbi.mmapAddr kernelVoffset) mbi.mmapLength)
      (add32 mbi.mmapAddr kernelVoffset) es) :
    ReservedExact m mbi rest es ↔ ReserveOk mbi rest es := by
  have hrun : mainReserve m mbi rest =
      es.foldlM reserveEntry (setFrame (initPool mbi rest) (mbiFrame mbi)) :=
    mmapLoop_eq hmap (Nat.le_add_right _ _) (add32_lt _ _) _
  have hle := nframes_initPool_le mbi rest
  by_cases hends : ∀ e ∈ es, e.type = 2 → e.length ≤ 2 ^ 64 - frameSize
  · -- the walk ends, and marks what the loops over the entries mark
    obtain ⟨s, hs, hn, hused⟩ :=
      foldlM_reserveEntry hends (setFrame (initPool mbi rest) (mbiFrame mbi))
    rw [nframes_setFrame] at hn
    have hmarked : ∀ f, isUsed s f = true ↔ isUsed (initPool mbi rest) f = true ∨
        f = mbiFrame mbi ∨ ∃ e ∈ es, e.type = 2 ∧ e.Marks f := fun f => by
      rw [hused, isUsed_setFrame, Bool.or_eq_true, decide_eq_true_iff, or_assoc]
    constructor
    · rintro ⟨s', hs', hexact⟩
      obtain rfl : s = s' := Option.some_injective _ (hs.symm.trans (hrun.symm.trans hs'))
      refine ⟨hends, fun e he htype hcut hlt => ?_, fun e he htype j hj hhigh hlt => ?_⟩
      · rw [← hmarked, hexact _ (by rw [hn]; exact hlt)]
        exact Or.inr (Or.inr ⟨e, he, htype, hcut.overlaps⟩)
      · rw [← hexact _ (by rw [hn]; exact hlt), hmarked]
        exact Or.inr (Or.inr ⟨e, he, htype, j, hj, rfl⟩)
    · intro hok
      refine ⟨s, hrun.trans hs, fun f hf => ?_⟩
      rw [hn] at hf
      rw [hmarked]
      constructor
      · rintro (h | h | ⟨e, he, htype, j, hj, rfl⟩)
        · exact Or.inl h
        · exact Or.inr (Or.inl h)
        · -- a frame number that does not fit into 20 bits marks another frame
          by_cases hhigh : 2 ^ 20 ≤ e.addr / frameSize + j
          · exact hok.high e he htype j hj hhigh hf
          · rw [Nat.mod_eq_of_lt (by omega)]
            exact Or.inr (Or.inr ⟨e, he, htype, MmapEntry.overlaps_of_step hj⟩)
      · rintro (h | h | ⟨e, he, htype, hover⟩)
        · exact Or.inl h
        · exact Or.inr (Or.inl h)
        · -- the loop has marked the frame, or it is the last one of its region
          rcases hover.marks_or (by omega) with hmark | ⟨hcut, rfl⟩
          · exact Or.inr (Or.inr ⟨e, he, htype, hmark⟩)
          · exact hok.cutOff e he htype hcut hf
  · -- the walk does not end
    refine iff_of_false ?_ fun hok => hends hok.ends
    rintro ⟨s, hs, -⟩
    push Not at hends
    obtain ⟨e, he, htype, hlen⟩ := hends
    rw [hrun, foldlM_reserveEntry_none he htype hlen] at hs
    simp at hs

/-- Memory that holds the words `ws` from `base` on. -/
def memOfWords (base : Nat) (ws : List Nat) : Mem := fun x =>
  UInt8.ofNat (ws.getD ((x - base) / 4) 0 / 256 ^ ((x - base) % 4))

/-- A machine with 32 MiB and a map of `n` bytes at `0x500`. -/
def smallMachine (n : Nat) : MultibootInfo := ⟨0xc0009400, 0x280, 0x7d80, n, 0x500⟩

/-- Low memory, and the two regions of the firmware. -/
theorem reserved_exact_bios :
    ReservedExact
      (memOfWords 0xc0000500 [20, 0, 0, 0x9fc00, 0, 1, 20, 0x9fc00, 0, 0x400, 0, 2,
        20, 0xf0000, 0, 0x10000, 0, 2])
      (smallMachine 72) (fun _ => 0)
      [⟨20, 0, 0x9fc00, 1⟩, ⟨20, 0x9fc00, 0x400, 2⟩, ⟨20, 0xf0000, 0x10000, 2⟩] := by
  refine (reserved_exact_iff ?_).mpr ⟨?_, ?_, ?_⟩
  · refine ⟨by decide, by decide, by decide, by decide, by decide, by decide, by decide, by decide,
      by decide, by decide, by decide, by decide, ?_⟩
    simp only [MapAt]
    decide
  · decide
  -- all three regions start at a frame
  · intro e he htype hcut
    simp only [List.mem_cons, List.not_mem_nil, or_false] at he
    rcases he with rfl | rfl | rfl
    · exact absurd htype (by decide)
    · exact absurd hcut.2 (by decide)
    · exact absurd hcut.2 (by decide)
  · intro e he htype j hj hhigh
    simp only [List.mem_cons, List.not_mem_nil, or_false] at he
    rcases he with rfl | rfl | rfl
    · exact absurd htype (by decide)
    · simp only [frameSize] at hj hhigh
      omega
    · simp only [frameSize] at hj hhigh
      omega

/-- A region that starts in the middle of a frame loses its last frame, and one above 4 GiB
    marks frame 0. -/
theorem reserved_region_missed :
    ¬ ReservedExact (memOfWords 0xc0000500 [20, 0x9f800, 0, 0x1000, 0, 2]) (smallMachine 24)
      (fun _ => 0) [⟨20, 0x9f800, 0x1000, 2⟩] ∧
    ¬ ReservedExact (memOfWords 0xc0000500 [20, 0, 1, 0x1000, 0, 2]) (smallMachine 24)
      (fun _ => 0) [⟨20, 0x100000000, 0x1000, 2⟩] := by
  constructor
  -- frame 0xa0 overlaps the region and is not marked
  · rintro ⟨s, hs, hexact⟩
    have hval := congrArg (Option.map fun s => (s.nframes, isUsed s 0xa0)) hs
    have heval : (mainReserve (memOfWords 0xc0000500 [20, 0x9f800, 0, 0x1000, 0, 2])
        (smallMachine 24) (fun _ => 0)).map (fun s => (s.nframes, isUsed s 0xa0)) =
          some (0x2000, false) := by
      decide
    rw [heval, Option.map_some, Option.some.injEq, Prod.mk.injEq] at hval
    have hover := (hexact 0xa0 (by rw [← hval.1]; decide)).mpr (Or.inr (Or.inr
      ⟨_, List.mem_cons_self, rfl, by decide, by decide, by decide⟩))
    rw [← hval.2] at hover
    exact absurd hover (by decide)
  · rintro ⟨s, hs, hexact⟩
    have hval := congrArg (Option.map fun s => (s.nframes, isUsed s 0)) hs
    have heval : (mainReserve (memOfWords 0xc0000500 [20, 0, 1, 0x1000, 0, 2])
        (smallMachine 24) (fun _ => 0)).map (fun s => (s.nframes, isUsed s 0)) =
          some (0x2000, true) := by
      decide
    rw [heval, Option.map_some, Option.some.injEq, Prod.mk.injEq] at hval
    rcases (hexact 0 (by rw [← hval.1]; decide)).mp hval.2.symm with
      hinit | hmbi | ⟨e, he, -, hover⟩
    · exact absurd hinit (by decide)
    · exact absurd hmbi (by decide)
    · rw [List.mem_singleton.mp he] at hover
      exact absurd hover.2.2 (by decide)

end Toutatis
