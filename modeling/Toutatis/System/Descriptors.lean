import Mathlib.Data.BitVec
import Mathlib.Data.List.Basic

/-!
# Segments and gates

A shallow embedding of `kernel/gdt.c`, `kernel/idt.c`, `irq_gates` of `kernel/pic.c` and the
stubs of `kernel/interrupts.s`. The two tables hold addresses and limits in pieces, which the
processor puts together again.

The limit of the task state segment is computed as its end, and a descriptor has room for the
low 20 bits of that.

## Key results

- `segment_gdtSetGate` / `handler_idtSetGate`: what is taken apart is put together again
- `segments_written`: the segments after any sequence of calls
- `selectors_flat`: the selectors that the kernel loads
- `vectors_dispatched`: the way from a vector to the row of its handlers
-/

namespace Toutatis

/-! ## The segments -/

/-- `gdt_entry_t`. -/
structure GdtEntry where
  limitLow : BitVec 16
  baseLow : BitVec 16
  baseMiddle : BitVec 8
  access : BitVec 8
  flags : BitVec 8
  baseHigh : BitVec 8

/-- The arguments of `gdt_set_gate`. -/
structure GdtCall where
  index : Nat
  base : BitVec 32
  limit : BitVec 32
  access : BitVec 8
  flags : BitVec 8

/-- `gdt_set_gate`. -/
def gdtSetGate (t : Nat → GdtEntry) (c : GdtCall) : Nat → GdtEntry :=
  Function.update t c.index
    { baseLow := (c.base &&& 0xffff).setWidth 16
      baseMiddle := (c.base >>> 16 &&& 0xff).setWidth 8
      baseHigh := (c.base >>> 24 &&& 0xff).setWidth 8
      limitLow := (c.limit &&& 0xffff).setWidth 16
      flags := (c.flags &&& 0xf0) ||| (c.limit >>> 16 &&& 0x0f).setWidth 8
      access := c.access }

/-- `ACCESS_KCODE`, `ACCESS_UCODE`, `ACCESS_KDATA`, `ACCESS_UDATA`. -/
def accessKcode : BitVec 8 := 0x80 ||| 0x00 ||| 0x10 ||| 0x02 ||| 0x08

@[inherit_doc accessKcode]
def accessUcode : BitVec 8 := 0x80 ||| 0x60 ||| 0x10 ||| 0x02 ||| 0x08

@[inherit_doc accessKcode]
def accessKdata : BitVec 8 := 0x80 ||| 0x00 ||| 0x10 ||| 0x02

@[inherit_doc accessKcode]
def accessUdata : BitVec 8 := 0x80 ||| 0x60 ||| 0x10 ||| 0x02

/-- `GDT_FLAGS`. -/
def gdtFlags : BitVec 8 := 0x80 ||| 0x40

/-- `sizeof(tss_entry_t)`. -/
def tssSize : Nat := 108

/-- The calls of `gdt_init`, the last one from `write_tss`; `tss` is the address of
    `tss_entry`. -/
def gdtCalls (tss : BitVec 32) : List GdtCall :=
  [⟨0, 0, 0, 0, 0⟩, ⟨1, 0, 0xffffffff, accessKcode, gdtFlags⟩,
    ⟨3, 0, 0xffffffff, accessUcode, gdtFlags⟩, ⟨2, 0, 0xffffffff, accessKdata, gdtFlags⟩,
    ⟨4, 0, 0xffffffff, accessUdata, gdtFlags⟩, ⟨5, tss, tss + BitVec.ofNat 32 tssSize, 0xe9, 0⟩]

/-- `gdt_init`. -/
def gdtInit (t : Nat → GdtEntry) (tss : BitVec 32) : Nat → GdtEntry :=
  (gdtCalls tss).foldl gdtSetGate t

/-- What the processor makes of an entry. -/
@[ext]
structure Segment where
  base : BitVec 32
  limit : BitVec 20
  access : BitVec 8
  granular : Bool
  wide : Bool
deriving DecidableEq

def GdtEntry.segment (e : GdtEntry) : Segment :=
  { base := e.baseHigh ++ e.baseMiddle ++ e.baseLow
    limit := e.flags.setWidth 4 ++ e.limitLow
    access := e.access
    granular := e.flags.getLsbD 7
    wide := e.flags.getLsbD 6 }

/-- The last byte of a segment, in bytes or in pages. -/
def Segment.lastByte (s : Segment) : Nat :=
  if s.granular then s.limit.toNat * 4096 + 4095 else s.limit.toNat

def Segment.present (s : Segment) : Bool := s.access.getLsbD 7

/-- The ring that the segment belongs to. -/
def Segment.ring (s : Segment) : Nat := (s.access >>> 5 &&& 3).toNat

/-- The segment that a call asks for. -/
def GdtCall.segment (c : GdtCall) : Segment :=
  { base := c.base
    limit := c.limit.setWidth 20
    access := c.access
    granular := c.flags.getLsbD 7
    wide := c.flags.getLsbD 6 }

section

variable {x : BitVec 32} {t : Nat → GdtEntry}

theorem setWidth_mask (x : BitVec 32) (k : Nat) :
    (x &&& BitVec.ofNat 32 (2 ^ k - 1)).setWidth k = x.setWidth k := by
  apply BitVec.eq_of_getLsbD_eq
  intro i hi
  rw [BitVec.getLsbD_setWidth, BitVec.getLsbD_setWidth, BitVec.getLsbD_and, BitVec.getLsbD_ofNat,
    Nat.testBit_two_pow_sub_one]
  by_cases hlt : i < 32
  · simp [hi, hlt]
  · rw [BitVec.getLsbD_of_ge x i (by omega)]
    simp

/-- The three pieces of a base. -/
theorem append_base (x : BitVec 32) :
    (x >>> 24 &&& 0xff).setWidth 8 ++ (x >>> 16 &&& 0xff).setWidth 8 ++
      (x &&& 0xffff).setWidth 16 = x := by
  have h8 : ∀ y : BitVec 32, (y &&& 0xff).setWidth 8 = y.setWidth 8 := fun y => setWidth_mask y 8
  have h16 : (x &&& 0xffff).setWidth 16 = x.setWidth 16 := setWidth_mask x 16
  rw [h8, h8, h16]
  apply BitVec.eq_of_getLsbD_eq
  intro i hi
  simp only [BitVec.getLsbD_append, BitVec.getLsbD_setWidth, BitVec.getLsbD_ushiftRight]
  by_cases h1 : i < 16
  · simp [h1]
  · by_cases h2 : i - 16 < 8
    · simp [h1, h2, show 16 + (i - 16) = i by omega]
    · simp [h1, h2, show i - 16 - 8 < 8 by omega, show 24 + (i - 16 - 8) = i by omega]

/-- A byte of which the high half is that of `flags` and the low half that of `y`. -/
theorem nibbles (flags : BitVec 8) (y : BitVec 32) :
    ((flags &&& 0xf0) ||| (y &&& 0x0f).setWidth 8).setWidth 4 = y.setWidth 4 ∧
      ∀ i, 4 ≤ i → ((flags &&& 0xf0) ||| (y &&& 0x0f).setWidth 8).getLsbD i = flags.getLsbD i := by
  have hbit : ∀ i, (y &&& 0x0f).getLsbD i = (decide (i < 4) && y.getLsbD i) := by
    intro i
    have hmask : ((0x0f : BitVec 32)).getLsbD i = decide (i < 4) := by
      show (BitVec.ofNat 32 (2 ^ 4 - 1)).getLsbD i = _
      rw [BitVec.getLsbD_ofNat, Nat.testBit_two_pow_sub_one, Bool.and_eq_right_iff_imp]
      simp only [decide_eq_true_eq]
      omega
    rw [BitVec.getLsbD_and, hmask, Bool.and_comm]
  have hhigh : ∀ i : Fin 8, (0xf0 : BitVec 8).getLsbD i = decide (4 ≤ i.val) := by decide
  constructor
  · -- the four low bits come from `y`
    apply BitVec.eq_of_getLsbD_eq
    intro i hi
    have h4 := hhigh ⟨i, by omega⟩
    simp only at h4
    simp only [BitVec.getLsbD_setWidth, BitVec.getLsbD_or, BitVec.getLsbD_and, h4, hbit] at *
    simp [show ¬ 4 ≤ i by omega, show i < 8 by omega, hi]
  · -- the four high ones from the flags
    intro i hi
    by_cases hlt : i < 8
    · have h4 := hhigh ⟨i, hlt⟩
      simp only at h4
      simp only [BitVec.getLsbD_setWidth, BitVec.getLsbD_or, BitVec.getLsbD_and, h4, hbit]
      simp [hi, show ¬ i < 4 by omega]
    · rw [BitVec.getLsbD_of_ge _ _ (by omega), BitVec.getLsbD_of_ge _ _ (by omega)]

/-- The two pieces of a limit, of which the high 12 bits are lost. -/
theorem append_limit (flags : BitVec 8) (x : BitVec 32) :
    ((flags &&& (0xf0 : BitVec 8)) ||| (x >>> 16 &&& 0x0f).setWidth 8).setWidth 4 ++
      (x &&& 0xffff).setWidth 16 = x.setWidth 20 := by
  have h16 : (x &&& 0xffff).setWidth 16 = x.setWidth 16 := setWidth_mask x 16
  rw [(nibbles flags _).1, h16]
  apply BitVec.eq_of_getLsbD_eq
  intro i hi
  simp only [BitVec.getLsbD_append, BitVec.getLsbD_setWidth, BitVec.getLsbD_ushiftRight]
  by_cases h1 : i < 16
  · simp [h1, show i < 20 by omega]
  · simp [h1, show i - 16 < 4 by omega, show 16 + (i - 16) = i by omega, show i < 20 by omega]

/-- **The processor puts together** what `gdt_set_gate` takes apart, and no other entry
    changes. -/
theorem segment_gdtSetGate (t : Nat → GdtEntry) (c : GdtCall) (i : Nat) :
    (gdtSetGate t c i).segment = if i = c.index then c.segment else (t i).segment := by
  unfold gdtSetGate
  by_cases hi : i = c.index
  · rw [if_pos hi, hi, Function.update_self]
    have hbits := (nibbles c.flags (c.limit >>> 16)).2
    exact Segment.ext (append_base c.base) (append_limit c.flags c.limit) rfl
      (hbits 7 (by decide)) (hbits 6 (by decide))
  · rw [if_neg hi, Function.update_of_ne hi]

/-- **The table of segments.** After any sequence of calls each entry has the segment that the
    last call for it asked for: the whole base, and the limit up to its high 12 bits. -/
theorem segments_written (t : Nat → GdtEntry) (calls : List GdtCall) (i : Nat) :
    ((calls.foldl gdtSetGate t) i).segment =
      ((calls.reverse.find? fun c => c.index = i).map GdtCall.segment).getD (t i).segment := by
  induction calls using List.reverseRecOn with
  | nil => rfl
  | append_singleton calls c ih =>
    rw [List.foldl_append, List.foldl_cons, List.foldl_nil, segment_gdtSetGate, List.reverse_append,
      List.reverse_singleton, List.singleton_append, List.find?_cons]
    by_cases hi : i = c.index
    · rw [if_pos hi]
      simp [hi]
    · rw [if_neg hi, ih]
      simp [Ne.symm hi]

/-- The entry that a selector names; its low bits are the ring that is asked for. -/
def selected (t : Nat → GdtEntry) (selector : Nat) : Segment := (t (selector / 8)).segment

/-- All 4 GiB, as readable code or writable data of the ring of the selector. -/
structure Flat (s : Segment) (selector : Nat) (code : Bool) : Prop where
  base : s.base = 0
  last : s.lastByte = 2 ^ 32 - 1
  present : s.present = true
  memory : s.access.getLsbD 4 = true
  executable : s.access.getLsbD 3 = code
  upwards : s.access.getLsbD 2 = false
  usable : s.access.getLsbD 1 = true
  wide : s.wide = true
  ring : s.ring = selector % 4

instance (s : Segment) (selector : Nat) (code : Bool) : Decidable (Flat s selector code) :=
  decidable_of_iff (s.base = 0 ∧ s.lastByte = 2 ^ 32 - 1 ∧ s.present = true ∧
      s.access.getLsbD 4 = true ∧ s.access.getLsbD 3 = code ∧ s.access.getLsbD 2 = false ∧
      s.access.getLsbD 1 = true ∧ s.wide = true ∧ s.ring = selector % 4)
    ⟨fun h => ⟨h.1, h.2.1, h.2.2.1, h.2.2.2.1, h.2.2.2.2.1, h.2.2.2.2.2.1, h.2.2.2.2.2.2.1,
      h.2.2.2.2.2.2.2.1, h.2.2.2.2.2.2.2.2⟩, fun h => ⟨h.1, h.2, h.3, h.4, h.5, h.6, h.7, h.8, h.9⟩⟩

/-- The selectors of segments that the kernel loads: code and data of the kernel in the gates and
    the stubs, and of both kinds of threads in the frames of `create_thread`. -/
def loadedSelectors : List (Nat × Bool) := [(0x08, true), (0x10, false), (0x1b, true), (0x23, false)]

/-- **The selectors.** After `gdt_init` every selector that the kernel loads names a flat segment of
    its ring, and that of `tss_flush` the task state segment. The limit of the last one is its end
    up to 20 bits, so it has all of the segment except when it lies at the end of a MiB. -/
theorem selectors_flat (t : Nat → GdtEntry) (tss : BitVec 32) :
    (∀ r ∈ loadedSelectors, Flat (selected (gdtInit t tss) r.1) r.1 r.2) ∧
      (selected (gdtInit t tss) 0x2b).base = tss ∧
      (selected (gdtInit t tss) 0x2b).present = true ∧
      (selected (gdtInit t tss) 0x2b).access &&& 0x1f = 9 ∧
      (tssSize - 1 ≤ (selected (gdtInit t tss) 0x2b).lastByte ↔
        tss.toNat % 2 ^ 20 < 2 ^ 20 - tssSize ∨ tss.toNat % 2 ^ 20 = 2 ^ 20 - 1) := by
  have hseg : ∀ selector, selected (gdtInit t tss) selector =
      (((gdtCalls tss).reverse.find? fun c => c.index = selector / 8).map GdtCall.segment).getD
        (t (selector / 8)).segment := fun selector => segments_written t (gdtCalls tss) _
  have htss : selected (gdtInit t tss) 0x2b =
      ⟨tss, (tss + BitVec.ofNat 32 tssSize).setWidth 20, 0xe9, false, false⟩ := by
    rw [hseg]
    simp [gdtCalls, GdtCall.segment]
  refine ⟨fun r hr => ?_, ?_⟩
  · -- the four selectors of code and data
    simp only [loadedSelectors, List.mem_cons, List.not_mem_nil, or_false] at hr
    rcases hr with rfl | rfl | rfl | rfl
    · have hcode : selected (gdtInit t tss) 0x08 = ⟨0, 0xfffff, 0x9a, true, true⟩ := hseg 0x08
      rw [hcode]
      decide
    · have hdata : selected (gdtInit t tss) 0x10 = ⟨0, 0xfffff, 0x92, true, true⟩ := hseg 0x10
      rw [hdata]
      decide
    · have hcode : selected (gdtInit t tss) 0x1b = ⟨0, 0xfffff, 0xfa, true, true⟩ := hseg 0x1b
      rw [hcode]
      decide
    · have hdata : selected (gdtInit t tss) 0x23 = ⟨0, 0xfffff, 0xf2, true, true⟩ := hseg 0x23
      rw [hdata]
      decide
  · -- the task state segment, whose limit is its end cut to 20 bits
    rw [htss]
    have hpresent : (0xe9 : BitVec 8).getLsbD 7 = true := by decide
    have htype : (0xe9 : BitVec 8) &&& 0x1f = 9 := by decide
    refine ⟨rfl, hpresent, htype, ?_⟩
    have hlast : (⟨tss, (tss + BitVec.ofNat 32 tssSize).setWidth 20, 0xe9, false, false⟩ :
        Segment).lastByte = (tss.toNat + tssSize) % 2 ^ 20 := by
      simp only [Segment.lastByte, BitVec.toNat_setWidth, BitVec.toNat_add, BitVec.toNat_ofNat,
        tssSize]
      have hlt := tss.isLt
      rw [if_neg (by decide)]
      omega
    rw [hlast]
    simp only [tssSize]
    omega

end

/-! ## The gates -/

/-- `idt_entry_t`. -/
structure IdtEntry where
  baseLow : BitVec 16
  selector : BitVec 16
  zero : BitVec 8
  flags : BitVec 8
  baseHigh : BitVec 16

/-- `idt_set_gate`. -/
def idtSetGate (t : Nat → IdtEntry) (index : Nat) (callback : BitVec 32) (selector : BitVec 16)
    (flags : BitVec 8) : Nat → IdtEntry :=
  Function.update t index
    { baseLow := (callback &&& 0xffff).setWidth 16
      baseHigh := (callback >>> 16 &&& 0xffff).setWidth 16
      selector := selector
      zero := 0
      flags := flags }

/-- The stubs `isr0` to `isr31`, `isr128` and `irq0` to `irq15`. -/
inductive Stub where
  | isr (n : Nat)
  | irq (n : Nat)
deriving DecidableEq

/-- `KCODE_SEL`, `IDT_FLAGS_RING0`, `IDT_FLAGS_RING3` and `SYSCALL_VECTOR`. -/
def kcodeSel : BitVec 16 := 0x08

@[inherit_doc kcodeSel]
def idtFlagsRing0 : BitVec 8 := 0x80 ||| 0x00 ||| 0x0e

@[inherit_doc kcodeSel]
def idtFlagsRing3 : BitVec 8 := 0x80 ||| 0x60 ||| 0x0e

@[inherit_doc kcodeSel]
def syscallVector : Nat := 0x80

/-- The calls of `idt_init` and `irq_gates`: the index, the stub and the flags. -/
def idtGates : List (Nat × Stub × BitVec 8) :=
  ([0, 1, 2, 3, 4, 5, 6, 7, 8, 9, 10, 11, 12, 13, 14, 16, 17, 18, 19, 20, 21, 22, 23, 24, 25, 26,
    27, 28, 29, 30, 31].map fun n => (n, Stub.isr n, idtFlagsRing0)) ++
    [(syscallVector, .isr 128, idtFlagsRing3)]

@[inherit_doc idtGates]
def irqGates : List (Nat × Stub × BitVec 8) :=
  [0, 1, 2, 3, 4, 5, 6, 7, 8, 9, 10, 11, 12, 13, 14, 15].map fun n =>
    (n + 0x20, Stub.irq n, idtFlagsRing0)

/-- Gates set one after the other; `addr` has the addresses of the stubs. -/
def setGates (addr : Stub → BitVec 32) (t : Nat → IdtEntry) (gates : List (Nat × Stub × BitVec 8)) :
    Nat → IdtEntry :=
  gates.foldl (fun t g => idtSetGate t g.1 (addr g.2.1) kcodeSel g.2.2) t

/-- `idt_init`, and later `irq_gates`. -/
def idtInit (addr : Stub → BitVec 32) : Nat → IdtEntry :=
  setGates addr (setGates addr (fun _ => ⟨0, 0, 0, 0, 0⟩) idtGates) irqGates

/-- The address that the processor jumps to. -/
def IdtEntry.handler (e : IdtEntry) : BitVec 32 := e.baseHigh ++ e.baseLow

/-- The gate is present, and open: to all but an `int` of a program in a ring with less
    privilege. -/
def IdtEntry.Takes (e : IdtEntry) (software : Bool) (ring : Nat) : Prop :=
  e.flags.getLsbD 7 = true ∧ (software = true → ring ≤ (e.flags >>> 5 &&& 3).toNat)

instance (e : IdtEntry) (software : Bool) (ring : Nat) : Decidable (e.Takes software ring) :=
  inferInstanceAs (Decidable (_ ∧ _))

/-- The exceptions for which the processor pushes an error code. -/
def errorVectors : List Nat := [8, 10, 11, 12, 13, 14, 17]

/-- What a stub pushes: `ISR_NOERRCODE`, `ISR_ERRCODE` and `IRQ`. -/
def Stub.pushes : Stub → List Nat
  | .isr n => if n ∈ [8, 10, 11, 12, 13, 14, 17] then [n] else [0, n]
  | .irq n => [0, n]

/-- The row of handlers that `isr_handler` and `irq_handler` look up for the number in the
    frame. -/
def Stub.row : Stub → Nat → Nat
  | .isr _, intNo => intNo
  | .irq _, intNo => intNo + 0x20

/-- The words on top of the frame when the handler is called: the error code, which the processor
    does not push for an `int`, and what the stub pushes. -/
def frameTop (vector error : Nat) (software : Bool) (st : Stub) : List Nat :=
  (if vector ∈ errorVectors ∧ software = false then [error] else []) ++ st.pushes

section

variable {addr : Stub → BitVec 32} {t : Nat → IdtEntry}

theorem append_halves (x : BitVec 32) :
    (x >>> 16 &&& 0xffff).setWidth 16 ++ (x &&& 0xffff).setWidth 16 = x := by
  have h16 : ∀ y : BitVec 32, (y &&& 0xffff).setWidth 16 = y.setWidth 16 := fun y =>
    setWidth_mask y 16
  rw [h16, h16]
  apply BitVec.eq_of_getLsbD_eq
  intro i hi
  simp only [BitVec.getLsbD_append, BitVec.getLsbD_setWidth, BitVec.getLsbD_ushiftRight]
  by_cases h1 : i < 16
  · simp [h1]
  · simp [h1, show i - 16 < 16 by omega, show 16 + (i - 16) = i by omega]

/-- What an entry holds: the address of a stub, the selector and the flags. -/
def Gate (e : IdtEntry) (handler : BitVec 32) (flags : BitVec 8) : Prop :=
  e.handler = handler ∧ e.selector = kcodeSel ∧ e.zero = 0 ∧ e.flags = flags

theorem gate_idtSetGate (t : Nat → IdtEntry) (i : Nat) (handler : BitVec 32) (flags : BitVec 8) :
    Gate (idtSetGate t i handler kcodeSel flags i) handler flags := by
  unfold idtSetGate
  rw [Function.update_self]
  exact ⟨append_halves handler, rfl, rfl, rfl⟩

/-- The last gate that is set for an index is the one that is there. -/
theorem gate_setGates (gates : List (Nat × Stub × BitVec 8)) (i : Nat) :
    match gates.reverse.find? fun g => g.1 = i with
    | some g => Gate (setGates addr t gates i) (addr g.2.1) g.2.2
    | none => setGates addr t gates i = t i := by
  induction gates using List.reverseRecOn with
  | nil => rfl
  | append_singleton gates g ih =>
    rw [List.reverse_append, List.reverse_singleton, List.singleton_append, List.find?_cons,
      setGates, List.foldl_append, List.foldl_cons, List.foldl_nil]
    by_cases hi : g.1 = i
    · -- the last call for this entry
      rw [decide_eq_true hi, ← hi]
      exact gate_idtSetGate _ _ _ _
    · -- a call for another entry
      rw [decide_eq_false hi]
      have hother : idtSetGate (setGates addr t gates) g.1 (addr g.2.1) kcodeSel g.2.2 i =
          setGates addr t gates i := Function.update_of_ne (Ne.symm hi) _ _
      rw [setGates] at hother
      rw [hother]
      exact ih

/-- The stub of a vector. -/
def stubOf (v : Nat) : Option Stub :=
  if v < 32 then (if v = 15 then none else some (.isr v))
  else if v < 48 then some (.irq (v - 32))
  else if v = 128 then some (.isr 128)
  else none

/-- What a vector has in the table. -/
theorem gate_idtInit (addr : Stub → BitVec 32) {v : Nat} (hv : v < 256) :
    match stubOf v with
    | some st => Gate (idtInit addr v) (addr st) (if v = 128 then idtFlagsRing3 else idtFlagsRing0)
    | none => idtInit addr v = ⟨0, 0, 0, 0, 0⟩ := by
  have hfind : ∀ i : Fin 256, ((idtGates ++ irqGates).reverse.find? fun g => g.1 = i.val) =
      (stubOf i).map fun st => (i.val, st, if i.val = 128 then idtFlagsRing3 else idtFlagsRing0) := by
    decide +kernel
  have hgate := @gate_setGates addr (fun _ => ⟨0, 0, 0, 0, 0⟩) (idtGates ++ irqGates) v
  rw [hfind ⟨v, hv⟩] at hgate
  have hinit : setGates addr (fun _ => ⟨0, 0, 0, 0, 0⟩) (idtGates ++ irqGates) = idtInit addr :=
    List.foldl_append
  rw [hinit] at hgate
  cases hst : stubOf v with
  -- no gate was set for this vector
  | none =>
    rw [hst] at hgate
    exact hgate
  | some st =>
    rw [hst] at hgate
    exact hgate

/-- The stub hands the frame over with one layout, but for an `int` to the vector of an exception
    with an error code, where one word is missing. Its number leads to the row of the vector. -/
theorem frameTop_stubOf {v : Nat} {st : Stub} (hst : stubOf v = some st) :
    ∃ n, (∀ error software, frameTop v error software st =
        if v ∈ errorVectors then (if software then [n] else [error, n]) else [0, n]) ∧
      st.row n = v := by
  unfold stubOf at hst
  split at hst
  · split at hst
    · exact absurd hst (by simp)
    · obtain rfl := Option.some.inj hst
      have hpushes : (Stub.isr v).pushes = if v ∈ errorVectors then [v] else [0, v] := rfl
      refine ⟨v, fun error software => ?_, rfl⟩
      rw [frameTop, hpushes]
      by_cases hmem : v ∈ errorVectors
      · rw [if_pos hmem, if_pos hmem]
        -- the processor pushes the error code, or nothing
        cases software with
        | false => simp [hmem]
        | true => simp
      · rw [if_neg hmem, if_neg hmem, if_neg fun h => hmem h.1]
        rfl
  · have hno : v ∉ errorVectors := by
      unfold errorVectors
      simp only [List.mem_cons, List.not_mem_nil, or_false]
      omega
    split at hst
    · obtain rfl := Option.some.inj hst
      refine ⟨v - 32, fun error software => ?_, ?_⟩
      · rw [frameTop, if_neg hno, if_neg fun h => hno h.1]
        rfl
      · show v - 32 + 0x20 = v
        omega
    · split at hst
      · rename_i h128
        obtain rfl := Option.some.inj hst
        refine ⟨128, fun error software => ?_, h128.symm⟩
        rw [frameTop, if_neg hno, if_neg fun h => hno h.1]
        rfl
      · exact absurd hst (by simp)

/-- Which gates are open. -/
theorem takes_iff {e : IdtEntry} {handler : BitVec 32} {v : Nat} (software : Bool) {ring : Nat}
    (hring : ring ≤ 3)
    (h : Gate e handler (if v = 128 then idtFlagsRing3 else idtFlagsRing0)) :
    e.Takes software ring ↔ v = 128 ∨ (software = true → ring = 0) := by
  obtain ⟨-, -, -, hflags⟩ := h
  unfold IdtEntry.Takes
  rw [hflags]
  by_cases h128 : v = 128
  · -- the gate of system calls is open to every ring
    have hpresent : idtFlagsRing3.getLsbD 7 = true := by decide
    have hdpl : (idtFlagsRing3 >>> 5 &&& 3).toNat = 3 := by decide
    rw [if_pos h128, hpresent, hdpl]
    exact iff_of_true ⟨rfl, fun _ => hring⟩ (Or.inl h128)
  · -- the others are open to ring 0 only
    have hpresent : idtFlagsRing0.getLsbD 7 = true := by decide
    have hdpl : (idtFlagsRing0 >>> 5 &&& 3).toNat = 0 := by decide
    rw [if_neg h128, hpresent, hdpl]
    simp [h128]

/-- **From the vector to the handlers.** After `idt_init` and `irq_gates` the processor takes the
    exceptions, the interrupts of the two controllers and system calls, and from user mode no other
    `int` than that of system calls. Where it jumps to is the stub that leaves one frame layout,
    with the number by which the handlers of this vector are found. Only an `int` to the vector of
    an exception with an error code, which needs ring 0, finds a stub that counts on a word that
    the processor has not pushed. -/
theorem vectors_dispatched (addr : Stub → BitVec 32) {v : Nat} (hv : v < 256) (software : Bool)
    {ring : Nat} (hring : ring ≤ 3) :
    ((idtInit addr v).Takes software ring ↔
      (v < 48 ∧ v ≠ 15 ∧ (software = true → ring = 0)) ∨ v = syscallVector) ∧
    ((idtInit addr v).Takes software ring → ∃ st n, (idtInit addr v).handler = addr st ∧
      (idtInit addr v).selector = kcodeSel ∧
      (v ∈ errorVectors → software = false → ∀ error, frameTop v error software st = [error, n]) ∧
      (v ∈ errorVectors → software = true →
        ring = 0 ∧ ∀ error, frameTop v error software st = [n]) ∧
      (v ∉ errorVectors → ∀ error, frameTop v error software st = [0, n]) ∧
      st.row n = v) := by
  have hgate := gate_idtInit addr hv
  cases hst : stubOf v with
  | none =>
    -- the entry is empty
    rw [hst] at hgate
    have hno : ¬ (idtInit addr v).Takes software ring := by
      rw [show idtInit addr v = ⟨0, 0, 0, 0, 0⟩ from hgate]
      exact fun h => absurd h.1 (by decide)
    refine ⟨iff_of_false hno ?_, fun h => absurd h hno⟩
    unfold stubOf at hst
    simp only [syscallVector]
    split at hst
    · split at hst
      · omega
      · exact absurd hst (by simp)
    · split at hst
      · exact absurd hst (by simp)
      · split at hst
        · exact absurd hst (by simp)
        · omega
  | some st =>
    rw [hst] at hgate
    obtain ⟨n, hframe, hrow⟩ := frameTop_stubOf hst
    refine ⟨?_, fun htakes => ⟨st, n, hgate.1, hgate.2.1, fun hmem hsoft error => ?_,
      fun hmem hsoft => ⟨?_, fun error => ?_⟩, fun hmem error => ?_, hrow⟩⟩
    · rw [takes_iff software hring hgate]
      have hcase : v < 48 ∧ v ≠ 15 ∨ v = 128 := by
        unfold stubOf at hst
        split at hst
        · split at hst
          · exact absurd hst (by simp)
          · omega
        · split at hst
          · omega
          · split at hst
            · omega
            · exact absurd hst (by simp)
      simp only [syscallVector]
      constructor
      · rintro (h128 | hring0)
        · exact Or.inr h128
        · rcases hcase with ⟨hlt, hne⟩ | h128
          · exact Or.inl ⟨hlt, hne, hring0⟩
          · exact Or.inr h128
      · rintro (⟨-, -, hring0⟩ | h128)
        · exact Or.inr hring0
        · exact Or.inl h128
    · rw [hframe, if_pos hmem, if_neg (by rw [hsoft]; decide)]
    · -- the gates of the exceptions are those of ring 0
      have hopen := (takes_iff software hring hgate).mp htakes
      have h128 : v ≠ 128 := by
        rintro rfl
        exact absurd hmem (by decide)
      exact hopen.resolve_left h128 hsoft
    · rw [hframe, if_pos hmem, if_pos hsoft]
    · rw [hframe, if_neg hmem]

/-- Stubs of 16 bytes. -/
def stubAddr : Stub → BitVec 32
  | .isr n => BitVec.ofNat 32 (0xc0101000 + 16 * n)
  | .irq n => BitVec.ofNat 32 (0xc0102000 + 16 * n)

/-- A program makes a system call, but it cannot raise the interrupt of the timer. -/
theorem vectors_dispatched_user : (idtInit stubAddr 0x80).Takes true 3 ∧
    ¬ (idtInit stubAddr 0x20).Takes true 3 :=
  ⟨(vectors_dispatched stubAddr (by decide) true (by decide)).1.mpr (Or.inr rfl), fun h =>
    absurd ((vectors_dispatched stubAddr (by decide) true (by decide)).1.mp h)
      (by simp [syscallVector])⟩

end

end Toutatis
