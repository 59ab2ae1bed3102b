import Mathlib.Data.BitVec
import Mathlib.Data.List.Basic

/-!
# Interrupt controllers

The 8259A and a cascade of two of them, as their data sheet describes them: the registers,
the initialization commands, the masks, the choice of a request when the processor
acknowledges, and the end of an interrupt. Specific and rotating ends, the special modes and
polling are left out.

An acknowledge that finds no request is answered with line 7, and no line is then in service:
such an interrupt is spurious.

## Key results

- `Chip.pending_service`: a request in service ends with one command
- `Pair.inta_cases`: what the processor gets
-/

namespace InterruptController

/-! ## One controller -/

/-- What the next byte on the data port is: a mask, or one of the initialization words. -/
inductive Stage where
  | mask
  | icw2
  | icw3
  | icw4

/-- One 8259A: the requests, the masked lines and those in service, the initialization words,
    and the register that the control port reads. -/
structure Chip where
  irr : BitVec 8
  imr : BitVec 8
  isr : BitVec 8
  icw1 : BitVec 8
  base : BitVec 8
  cascade : BitVec 8
  mode : BitVec 8
  readIsr : Bool
  stage : Stage

/-- The first line of a register, which has the highest priority. -/
def firstLine (x : BitVec 8) : Option Nat := (List.range 8).find? fun i => x.getLsbD i

/-- The end of the interrupt with the highest priority. -/
def endFirst (x : BitVec 8) : BitVec 8 :=
  match firstLine x with
  | some i => x &&& ~~~BitVec.twoPow 8 i
  | none => x

/-- A byte on the control port. -/
def Chip.writeControl (c : Chip) (x : BitVec 8) : Chip :=
  if x.getLsbD 4 then
    { c with irr := 0, imr := 0, icw1 := x, mode := 0, readIsr := false, stage := .icw2 }
  else if x.getLsbD 3 then
    if x.getLsbD 1 then { c with readIsr := x.getLsbD 0 } else c
  else if x = 0x20 then { c with isr := endFirst c.isr }
  else c

/-- A byte on the data port. -/
def Chip.writeData (c : Chip) (x : BitVec 8) : Chip :=
  match c.stage with
  | .mask => { c with imr := x }
  | .icw2 =>
    { c with
      base := x &&& 0xf8
      stage := if c.icw1.getLsbD 1 then (if c.icw1.getLsbD 0 then .icw4 else .mask) else .icw3 }
  | .icw3 => { c with cascade := x, stage := if c.icw1.getLsbD 0 then .icw4 else .mask }
  | .icw4 => { c with mode := x, stage := .mask }

/-- The control port reads the requests or the lines in service. -/
def Chip.readControl (c : Chip) : BitVec 8 := if c.readIsr then c.isr else c.irr

/-- The data port reads the masks. -/
def Chip.readData (c : Chip) : BitVec 8 := c.imr

/-- The request that is passed on: the first one that is not masked, if no line before it or at
    it is in service. -/
def Chip.pending (c : Chip) : Option Nat :=
  (List.range 8).find? fun i =>
    c.irr.getLsbD i && !c.imr.getLsbD i && (List.range (i + 1)).all fun j => !c.isr.getLsbD j

/-- The request goes into service; with automatic ends it is over at once. -/
def Chip.service (c : Chip) (i : Nat) : Chip :=
  { c with
    irr := c.irr &&& ~~~BitVec.twoPow 8 i
    isr := if c.mode.getLsbD 1 then c.isr else c.isr ||| BitVec.twoPow 8 i }

/-- A device raises a line. -/
def Chip.raise (c : Chip) (i : Nat) : Chip := { c with irr := c.irr ||| BitVec.twoPow 8 i }

/-- A device takes its request back. -/
def Chip.drop (c : Chip) (i : Nat) : Chip := { c with irr := c.irr &&& ~~~BitVec.twoPow 8 i }

/-- What a chip with nothing in service has in service next. -/
theorem zero_or_twoPow (i : Nat) : 0 ||| BitVec.twoPow 8 i = BitVec.twoPow 8 i :=
  BitVec.zero_or

@[simp]
theorem endFirst_zero : endFirst 0 = 0 := by decide

/-- The end of the only interrupt in service. -/
theorem endFirst_twoPow {i : Nat} (hi : i < 8) : endFirst (BitVec.twoPow 8 i) = 0 := by
  have hall : ∀ j : Fin 8, endFirst (BitVec.twoPow 8 j) = 0 := by decide
  exact hall ⟨i, hi⟩

theorem getLsbD_twoPow_iff {i j : Nat} (hi : i < 8) :
    (BitVec.twoPow 8 i).getLsbD j = true ↔ j = i := by
  rw [BitVec.getLsbD_twoPow, Bool.and_eq_true, decide_eq_true_iff, decide_eq_true_iff]
  omega

variable {c : Chip} {i : Nat}

/-- The data port sets the masks of a chip that is not being initialized. -/
theorem Chip.writeData_mask (h : c.stage = .mask) (x : BitVec 8) :
    c.writeData x = { c with imr := x } := by
  simp only [Chip.writeData, h]

/-- A pending line is requested, and it is not masked. -/
theorem Chip.pending_spec (h : c.pending = some i) :
    i < 8 ∧ c.irr.getLsbD i = true ∧ c.imr.getLsbD i = false := by
  have hlt := List.mem_range.mp (List.mem_of_find?_eq_some h)
  have hp := List.find?_some h
  simp only [Bool.and_eq_true, Bool.not_eq_true'] at hp
  exact ⟨hlt, hp.1.1, hp.1.2⟩

/-- The chip has nothing in service, and ends are not automatic. -/
structure Chip.Idle (c : Chip) : Prop where
  isr : c.isr = 0
  mode : c.mode.getLsbD 1 = false

/-- A line goes into service alone when none is in service. -/
theorem Chip.Idle.isr_service (h : c.Idle) (i : Nat) : (c.service i).isr = BitVec.twoPow 8 i := by
  simp only [Chip.service, h.isr, h.mode]
  exact zero_or_twoPow i

/-! ## Two controllers -/

/-- The slave is connected to a line of the master. -/
structure Pair where
  master : Chip
  slave : Chip

/-- What the processor gets when it acknowledges: the vector, and whether there was a request. -/
def Pair.inta (s : Pair) : Nat × Bool × Pair :=
  match s.master.pending with
  | none => (s.master.base.toNat + 7, false, s)
  | some i =>
    let master := s.master.service i
    if master.cascade.getLsbD i then
      match s.slave.pending with
      | none => (s.slave.base.toNat + 7, false, { s with master := master })
      | some j => (s.slave.base.toNat + j, true, ⟨master, s.slave.service j⟩)
    else (s.master.base.toNat + i, true, { s with master := master })

variable {s : Pair} {k : Nat}

/-- **What the processor gets** from two controllers with nothing in service: a request that is
    not masked, from the master or through it from the slave, or a spurious interrupt. Only one
    from the slave leaves the master with a line in service. -/
theorem Pair.inta_cases (hcascade : s.master.cascade = BitVec.twoPow 8 k) (hk : k < 8) :
    s.inta = (s.master.base.toNat + 7, false, s) ∨
    (∃ i, s.master.pending = some i ∧ i ≠ k ∧
      s.inta = (s.master.base.toNat + i, true, { s with master := s.master.service i })) ∨
    (s.master.pending = some k ∧ s.slave.pending = none ∧
      s.inta = (s.slave.base.toNat + 7, false, { s with master := s.master.service k })) ∨
    ∃ j, s.master.pending = some k ∧ s.slave.pending = some j ∧
      s.inta = (s.slave.base.toNat + j, true, ⟨s.master.service k, s.slave.service j⟩) := by
  unfold Pair.inta
  cases hm : s.master.pending with
  | none => exact Or.inl rfl
  | some i =>
    have hline : (s.master.service i).cascade.getLsbD i = true ↔ i = k := by
      rw [← getLsbD_twoPow_iff hk, ← hcascade]
      rfl
    by_cases hik : i = k
    · subst hik
      simp only [hline.mpr rfl, if_true]
      cases hs : s.slave.pending with
      | none => exact Or.inr (Or.inr (Or.inl ⟨trivial, rfl, rfl⟩))
      | some j => exact Or.inr (Or.inr (Or.inr ⟨j, trivial, rfl, rfl⟩))
    · simp only [if_neg fun h => hik (hline.mp h)]
      exact Or.inr (Or.inl ⟨i, rfl, hik, rfl⟩)

end InterruptController
