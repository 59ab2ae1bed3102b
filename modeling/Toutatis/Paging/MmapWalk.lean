import Toutatis.Paging.Reserve

/-!
# Walks over the memory map

`print_mmap` of `kernel/main.c` next to the loop of `main` over the same map. What it prints is a
list of lines here, with the arguments of `kprintf`; a name that is read outside of `memory_types`
is not known.

Each walk has a way not to end. `print_mmap` goes on with the same entry when its type is above 4,
and the loop of `main` over the frames of a reserved region does not end when the region is longer
than `2 ^ 64` bytes less a frame.

## Key results

- `printMmapLoop_eq` and `printMmapLoop_eq_none`: the walk of `print_mmap`
- `mainReserve_isSome_iff`: when the walk of `main` ends
- `walks_end_iff`: the maps at whose end both walks arrive
-/

namespace Toutatis

open ByteMem

/-! ## The function -/

/-- `memory_types` -/
def memoryTypes : List String := ["Available", "Reserved", "ACPI Reclaim", "ACPI NVS Memory"]

/-- `memory_types[type - 1]` -/
def memoryName (type : Nat) : Option String :=
  if type = 0 then none else memoryTypes[type - 1]?

/-- The arguments of the line of an entry. -/
structure MmapLine where
  index : Nat
  first : Nat
  last : Nat
  amount : Nat
  unit : String
  type : Nat
  name : Option String
deriving DecidableEq

/-- The line of the entry `e`, which is the one with the number `i`. -/
def mmapLine (i : Nat) (e : MmapEntry) : MmapLine :=
  let size := e.length / 1024 % 2 ^ 32
  { index := i
    first := e.addr % 2 ^ 32
    last := (e.addr + e.length + (2 ^ 64 - 1)) % 2 ^ 64 % 2 ^ 32
    amount :=
      if size > 1024 then
        if size / 1024 > 1024 then size / 1024 / 1024 else size / 1024
      else size
    unit := if size > 1024 then (if size / 1024 > 1024 then "GB" else "MB") else "KB"
    type := e.type
    name := memoryName e.type }

/-- The loop of `print_mmap` up to the address `stop`; `none` when the fuel is used up. -/
def printMmapLoop (m : Mem) (stop : Nat) : (fuel mmap i : Nat) → Option (List MmapLine)
  | 0, _, _ => none
  | fuel + 1, mmap, i =>
    if mmap < stop then
      let e := readEntry m mmap
      -- `continue`, and `mmap` has not moved
      if e.type > 4 then printMmapLoop m stop fuel mmap i
      else
        (printMmapLoop m stop fuel (add32 (add32 mmap e.size) 4) (add32 i 1)).map
          (mmapLine i e :: ·)
    else some []

/-- The lower and the upper memory, and the lines. -/
structure MmapPrint where
  lower : Nat
  upper : Nat
  lines : List MmapLine
deriving DecidableEq

/-- `print_mmap` -/
def printMmap (m : Mem) (mbi : MultibootInfo) : Option MmapPrint :=
  let mmap := add32 mbi.mmapAddr kernelVoffset
  (printMmapLoop m (add32 mmap mbi.mmapLength) (2 ^ 32) mmap 1).map fun lines =>
    ⟨mbi.memLower, mbi.memUpper / 1024, lines⟩

/-! ## The walk -/

section

variable {m : Mem} {stop p fuel i : Nat} {es : List MmapEntry} {e : MmapEntry}
  {mbi : MultibootInfo} {rest : Nat → BitVec 32}

/-- An entry of a type above 4 is met for ever. -/
theorem printMmapLoop_stuck (hp : p < stop) (htype : (readEntry m p).type > 4) (fuel i : Nat) :
    printMmapLoop m stop fuel p i = none := by
  induction fuel with
  | zero => rfl
  | succ fuel ih =>
    unfold printMmapLoop
    rw [if_pos hp]
    simp only
    rw [if_pos htype]
    exact ih

/-- The address of the next entry. -/
theorem add32_entry (hle : p + e.size + 4 < 2 ^ 32) :
    add32 (add32 p e.size) 4 = p + e.size + 4 := by
  rw [add32_of_lt (show p + e.size < 2 ^ 32 by omega), add32_of_lt hle]

/-- A map whose types are known is printed entry by entry. -/
theorem printMmapLoop_eq (h : MapAt m stop p es) (htypes : ∀ e ∈ es, e.type ≤ 4)
    (hfuel : 2 ^ 32 ≤ fuel + p) (hp : p < 2 ^ 32) (hi : i ≤ p + 1) :
    printMmapLoop m stop fuel p i = some (es.mapIdx fun k e => mmapLine (i + k) e) := by
  induction es generalizing fuel p i with
  | nil =>
    -- the end of the map; there is fuel left for the last test
    cases fuel with
    | zero => omega
    | succ fuel =>
      unfold printMmapLoop
      rw [if_neg (Nat.not_lt.mpr h)]
      rfl
  | cons e es ih =>
    obtain ⟨hlt, hread, hsize, hle, hrest⟩ := h
    have htail : ∀ e' ∈ es, e'.type ≤ 4 := fun e' he' => htypes e' (List.mem_cons_of_mem _ he')
    cases fuel with
    | zero => omega
    | succ fuel =>
      unfold printMmapLoop
      rw [if_pos hlt]
      simp only
      rw [hread, if_neg (Nat.not_lt.mpr (htypes e List.mem_cons_self)), add32_entry hle,
        add32_of_lt (by omega), ih hrest htail (by omega) hle (by omega), Option.map_some,
        List.mapIdx_cons]
      -- the lines of the tail are numbered from `i + 1` on
      have hshift : ∀ k, i + 1 + k = i + (k + 1) := fun k => by omega
      simp only [hshift]
      rfl

/-- One entry of a type above 4 is enough, with any fuel. -/
theorem printMmapLoop_eq_none (h : MapAt m stop p es) (he : e ∈ es) (htype : e.type > 4)
    (fuel i : Nat) : printMmapLoop m stop fuel p i = none := by
  induction es generalizing fuel p i with
  | nil => exact absurd he List.not_mem_nil
  | cons d es ih =>
    obtain ⟨hlt, hread, -, hle, hrest⟩ := h
    by_cases hd : d.type > 4
    · apply printMmapLoop_stuck hlt
      rw [hread]
      exact hd
    · -- this entry is passed, and the one that is not comes later
      have hmem : e ∈ es := by
        cases List.mem_cons.mp he with
        | inl heq =>
          rw [heq] at htype
          exact absurd htype hd
        | inr hmem => exact hmem
      cases fuel with
      | zero => rfl
      | succ fuel =>
        unfold printMmapLoop
        rw [if_pos hlt]
        simp only
        rw [hread, if_neg hd, add32_entry hle, ih hrest hmem]
        rfl

/-! ## Both walks -/

/-- The start and the end of the map. -/
def MultibootInfo.mapStart (mbi : MultibootInfo) : Nat := add32 mbi.mmapAddr kernelVoffset

@[inherit_doc MultibootInfo.mapStart]
def MultibootInfo.mapStop (mbi : MultibootInfo) : Nat := add32 mbi.mapStart mbi.mmapLength

/-- The reservations end exactly when the counter does not wrap around for any range. -/
theorem mainReserve_isSome_iff (hmap : MapAt m mbi.mapStop mbi.mapStart es) :
    (mainReserve m mbi rest).isSome ↔ ∀ e ∈ es, e.type = 2 → e.length ≤ 2 ^ 64 - frameSize := by
  -- the walk itself always ends, and each of its entries may not
  have hrun : mainReserve m mbi rest =
      es.foldlM reserveEntry (setFrame (initPool mbi rest) (mbiFrame mbi)) :=
    mmapLoop_eq hmap (Nat.le_add_right _ _) (add32_lt _ _) _
  constructor
  · intro hsome e he htype
    by_contra hlong
    rw [hrun, foldlM_reserveEntry_none he htype (by omega)] at hsome
    exact absurd hsome (by decide)
  · intro hends
    obtain ⟨s', hs', -⟩ := foldlM_reserveEntry hends (setFrame (initPool mbi rest) (mbiFrame mbi))
    rw [hrun, hs']
    rfl

/-- The lines for the entries of the map, in its order. -/
theorem printMmap_eq (hmap : MapAt m mbi.mapStop mbi.mapStart es) (htypes : ∀ e ∈ es, e.type ≤ 4) :
    printMmap m mbi =
      some ⟨mbi.memLower, mbi.memUpper / 1024, es.mapIdx fun k e => mmapLine (1 + k) e⟩ := by
  have hlines := printMmapLoop_eq hmap htypes (Nat.le_add_right _ _) (add32_lt _ _)
    (Nat.le_add_left 1 _)
  unfold printMmap
  show (printMmapLoop m mbi.mapStop (2 ^ 32) mbi.mapStart 1).map _ = _
  rw [hlines]
  rfl

/-- A type behind the table of names is read past its end. -/
theorem printMmap_eq_none (hmap : MapAt m mbi.mapStop mbi.mapStart es) (he : e ∈ es)
    (htype : e.type > 4) : printMmap m mbi = none := by
  unfold printMmap
  show (printMmapLoop m mbi.mapStop (2 ^ 32) mbi.mapStart 1).map _ = _
  rw [printMmapLoop_eq_none hmap he htype]
  rfl

/-- Both walks arrive at the end of the map, and `print_mmap` has printed a line for each of its
    entries, in their order. -/
def WalksEnd (m : Mem) (mbi : MultibootInfo) (rest : Nat → BitVec 32) (es : List MmapEntry) :
    Prop :=
  (mainReserve m mbi rest).isSome ∧
    printMmap m mbi =
      some ⟨mbi.memLower, mbi.memUpper / 1024, es.mapIdx fun k e => mmapLine (1 + k) e⟩

/-- The types that have a name. -/
theorem memoryName_isSome_iff (type : Nat) : (memoryName type).isSome ↔ 1 ≤ type ∧ type ≤ 4 := by
  unfold memoryName
  by_cases hzero : type = 0
  · rw [if_pos hzero]
    simp [hzero]
  · rw [if_neg hzero, isSome_getElem?]
    show type - 1 < 4 ↔ _
    omega

/-- **The walks over the memory map** arrive at its end if and only if no entry has a type above 4,
    and no reserved region is longer than `2 ^ 64` bytes less a frame. All names are read inside of
    `memory_types` when no entry has the type 0 either. -/
theorem walks_end_iff (hmap : MapAt m mbi.mapStop mbi.mapStart es) :
    (WalksEnd m mbi rest es ↔
      ∀ e ∈ es, e.type ≤ 4 ∧ (e.type = 2 → e.length ≤ 2 ^ 64 - frameSize)) ∧
    (WalksEnd m mbi rest es ∧ (∀ e ∈ es, (memoryName e.type).isSome) ↔
      ∀ e ∈ es, 1 ≤ e.type ∧ e.type ≤ 4 ∧ (e.type = 2 → e.length ≤ 2 ^ 64 - frameSize)) := by
  -- each of the two walks has its own condition on the entries
  have hends : WalksEnd m mbi rest es ↔
      ∀ e ∈ es, e.type ≤ 4 ∧ (e.type = 2 → e.length ≤ 2 ^ 64 - frameSize) := by
    constructor
    · intro h e he
      refine ⟨?_, (mainReserve_isSome_iff hmap).mp h.1 e he⟩
      by_contra htype
      have hprint := h.2
      rw [printMmap_eq_none hmap he (by omega)] at hprint
      exact absurd hprint (by simp)
    · intro h
      exact ⟨(mainReserve_isSome_iff hmap).mpr fun e he => (h e he).2,
        printMmap_eq hmap fun e he => (h e he).1⟩
  refine ⟨hends, ?_⟩
  rw [hends]
  constructor
  · intro h e he
    exact ⟨((memoryName_isSome_iff _).mp (h.2 e he)).1, h.1 e he⟩
  · intro h
    exact ⟨fun e he => (h e he).2,
      fun e he => (memoryName_isSome_iff _).mpr ⟨(h e he).1, (h e he).2.1⟩⟩

end

/-- Available memory and a reserved region: both walks end, with two lines. -/
theorem walks_end_iff_bios :
    WalksEnd (memOfWords 0xc0000500 [20, 0, 0, 0x9fc00, 0, 1, 20, 0x9fc00, 0, 0x400, 0, 2])
      (smallMachine 48) (fun _ => 0) [⟨20, 0, 0x9fc00, 1⟩, ⟨20, 0x9fc00, 0x400, 2⟩] := by
  have hmap : MapAt (memOfWords 0xc0000500 [20, 0, 0, 0x9fc00, 0, 1, 20, 0x9fc00, 0, 0x400, 0, 2])
      (smallMachine 48).mapStop (smallMachine 48).mapStart
      [⟨20, 0, 0x9fc00, 1⟩, ⟨20, 0x9fc00, 0x400, 2⟩] := by
    refine ⟨by decide, by decide, by decide, by decide, by decide, by decide, by decide, by decide,
      ?_⟩
    simp only [MapAt]
    decide
  exact (walks_end_iff hmap).1.mpr (by decide)

/-- An entry of type 5, for bad memory: `print_mmap` does not end. -/
theorem print_mmap_stuck :
    ¬ WalksEnd (memOfWords 0xc0000500 [20, 0, 0, 0x9fc00, 0, 5]) (smallMachine 24) (fun _ => 0)
      [⟨20, 0, 0x9fc00, 5⟩] ∧
    ∀ fuel i, printMmapLoop (memOfWords 0xc0000500 [20, 0, 0, 0x9fc00, 0, 5])
      (smallMachine 24).mapStop fuel (smallMachine 24).mapStart i = none := by
  have hstuck : ∀ fuel i, printMmapLoop (memOfWords 0xc0000500 [20, 0, 0, 0x9fc00, 0, 5])
      (smallMachine 24).mapStop fuel (smallMachine 24).mapStart i = none :=
    printMmapLoop_stuck (by decide) (by decide)
  refine ⟨fun h => ?_, hstuck⟩
  have hprint := h.2
  unfold printMmap at hprint
  rw [Option.map_eq_some_iff] at hprint
  obtain ⟨lines, hlines, -⟩ := hprint
  have hnone := hstuck (2 ^ 32) 1
  exact absurd (hnone.symm.trans hlines) (by simp)

end Toutatis
