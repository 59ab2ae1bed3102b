import Toutatis.Lib.InterruptController
import Toutatis.Lib.Memory

/-!
# The interrupt controllers

A shallow embedding of `kernel/pic.c`, over the two controllers of the machine. The devices
raise lines and take their requests back at any time, so the processor may be told of an
interrupt that nobody requests any more: such a spurious interrupt is not in service, and
`pic_acknowledge` finds that out from the in-service registers.

`arrived` and `handled` are not in the source: they list the interrupts that came, with
whether they were real, and those that `irq_handler` went on with.

## Key results

- `picInit_ok`: the controllers after `pic_init`, from any state
- `PicOk.interrupt`: one interrupt, acknowledged
- `spurious_filtered`: what is handled are the real interrupts
- `masks_followed`: which interrupts come
-/

namespace Toutatis

open ByteMem InterruptController

/-! ## Ports -/

/-- `PIC1_CTRL`, `PIC2_CTRL`, `PIC1_DATA`, `PIC2_DATA`. -/
def pic1Ctrl : Nat := 0x20

@[inherit_doc pic1Ctrl]
def pic2Ctrl : Nat := 0xa0

@[inherit_doc pic1Ctrl]
def pic1Data : Nat := 0x21

@[inherit_doc pic1Ctrl]
def pic2Data : Nat := 0xa1

/-- `PIC_EOI`. -/
def picEoi : BitVec 8 := 0x20

/-- `PIC_READ_ISR`. -/
def picReadIsr : BitVec 16 := 0x0b

/-- `outb` to a port of the controllers. -/
def picOut (s : Pair) (port : Nat) (x : BitVec 8) : Pair :=
  if port = pic1Ctrl then { s with master := s.master.writeControl x }
  else if port = pic2Ctrl then { s with slave := s.slave.writeControl x }
  else if port = pic1Data then { s with master := s.master.writeData x }
  else if port = pic2Data then { s with slave := s.slave.writeData x }
  else s

/-- `inb` from a port of the controllers. -/
def picIn (s : Pair) (port : Nat) : BitVec 8 :=
  if port = pic1Ctrl then s.master.readControl
  else if port = pic2Ctrl then s.slave.readControl
  else if port = pic1Data then s.master.readData
  else s.slave.readData

/-! ## The driver -/

/-- `pic_remap`. -/
def picRemap (s : Pair) : Pair :=
  let mask : BitVec 32 := (picIn s pic1Data).setWidth 32 ||| (picIn s pic2Data).setWidth 32 <<< 8
  -- `ICW1_INIT | ICW1_ICW4`
  let s := picOut s pic1Ctrl (0x10 ||| 0x01)
  let s := picOut s pic2Ctrl (0x10 ||| 0x01)
  let s := picOut s pic1Data 0x20
  let s := picOut s pic2Data 0x28
  let s := picOut s pic1Data 4
  let s := picOut s pic2Data 2
  -- `ICW4_8086`
  let s := picOut s pic1Data 0x01
  let s := picOut s pic2Data 0x01
  let s := picOut s pic1Data (mask.setWidth 8)
  picOut s pic2Data ((mask >>> 8).setWidth 8)

/-- `pic_disable`. -/
def picDisable (s : Pair) : Pair := picOut (picOut s pic1Data 0xfb) pic2Data 0xff

/-- `pic_init`, without the gates. -/
def picInit (s : Pair) : Pair := picDisable (picRemap s)

/-- The port and the bit of a line, as both calls below choose them. -/
def portAndLine (irq : Nat) : Nat × Nat := if irq < 8 then (pic1Data, irq) else (pic2Data, irq - 8)

/-- `pic_disable_irq`. -/
def picDisableIrq (s : Pair) (irq : Nat) : Pair :=
  let p := portAndLine irq
  picOut s p.1 (picIn s p.1 ||| 1#8 <<< p.2)

/-- `pic_enable_irq`. -/
def picEnableIrq (s : Pair) (irq : Nat) : Pair :=
  let p := portAndLine irq
  picOut s p.1 (picIn s p.1 &&& ~~~(1#8 <<< p.2))

/-- `pic_get_irq_reg`. -/
def picGetIrqReg (s : Pair) (command : BitVec 16) : BitVec 16 × Pair :=
  let s := picOut s pic1Ctrl (command.setWidth 8)
  let s := picOut s pic2Ctrl (command.setWidth 8)
  ((picIn s pic2Ctrl).setWidth 16 <<< 8 ||| (picIn s pic1Ctrl).setWidth 16, s)

/-- `pic_get_isr`. -/
def picGetIsr (s : Pair) : BitVec 16 × Pair := picGetIrqReg s picReadIsr

/-- `pic_is_spurious_7`. -/
def picIsSpurious7 (s : Pair) : Bool × Pair :=
  let r := picGetIsr s
  (r.1 &&& 0x0080 = 0, r.2)

/-- `pic_is_spurious_15`. -/
def picIsSpurious15 (s : Pair) : Bool × Pair :=
  let r := picGetIsr s
  (r.1 &&& 0x8000 = 0, r.2)

/-- The end of the interrupt, behind the two tests. -/
def sendEoi (s : Pair) (irq : Nat) : Pair :=
  let s := if irq ≥ 8 then picOut s pic2Ctrl picEoi else s
  picOut s pic1Ctrl picEoi

/-- `pic_acknowledge`: whether the interrupt is spurious, and `bad_irqs`. -/
def picAcknowledge (s : Pair) (badIrqs irq : Nat) : Bool × Pair × Nat :=
  if irq = 7 then
    let (spurious, s) := picIsSpurious7 s
    if spurious then (true, s, add32 badIrqs 1) else (false, sendEoi s irq, badIrqs)
  else if irq = 15 then
    let (spurious, s) := picIsSpurious15 s
    if spurious then (true, picOut s pic1Ctrl picEoi, add32 badIrqs 1)
    else (false, sendEoi s irq, badIrqs)
  else (false, sendEoi s irq, badIrqs)

/-! ## Runs -/

/-- The controllers, `bad_irqs`, and what happened. -/
structure PicRun where
  pics : Pair
  badIrqs : Nat
  arrived : List (Nat × Bool)
  handled : List Nat

/-- What happens next: a device raises its line or takes the request back, the processor
    acknowledges an interrupt, `switch_next` raises the one of the timer, or a line is enabled
    or disabled. -/
inductive PicEvent where
  | raise (slave : Bool) (line : Nat)
  | drop (slave : Bool) (line : Nat)
  | interrupt
  | switchNext
  | enable (irq : Nat)
  | disable (irq : Nat)

/-- `irq_handler` up to the call of the handlers; `real` tells whether there was a request. -/
def PicRun.irqHandler (s : PicRun) (irq : Nat) (real : Bool) (pics : Pair) : PicRun :=
  let r := picAcknowledge pics s.badIrqs irq
  { pics := r.2.1
    badIrqs := r.2.2
    arrived := s.arrived ++ [(irq, real)]
    handled := if r.1 then s.handled else s.handled ++ [irq] }

/-- One event. The stub of the vector `0x20 + n` passes `n` on. -/
def PicEvent.exec (s : PicRun) : PicEvent → PicRun
  | .raise false line => { s with pics := { s.pics with master := s.pics.master.raise line } }
  | .raise true line => { s with pics := { s.pics with slave := s.pics.slave.raise line } }
  | .drop false line => { s with pics := { s.pics with master := s.pics.master.drop line } }
  | .drop true line => { s with pics := { s.pics with slave := s.pics.slave.drop line } }
  | .interrupt =>
    let r := s.pics.inta
    s.irqHandler (r.1 - 0x20) r.2.1 r.2.2
  | .switchNext => s.irqHandler 0 true s.pics
  | .enable irq => { s with pics := picEnableIrq s.pics irq }
  | .disable irq => { s with pics := picDisableIrq s.pics irq }

/-- `pic_index_t` has 16 values. -/
def PicEvent.Allowed : PicEvent → Prop
  | .enable irq => irq < 16
  | .disable irq => irq < 16
  | _ => True

/-- The kernel when `pic_init` has returned. -/
def picStart (s : Pair) : PicRun := ⟨picInit s, 0, [], []⟩

/-- A whole run. -/
def picRun (s : PicRun) (events : List PicEvent) : PicRun := events.foldl PicEvent.exec s

/-! ## The invariant -/

/-- The controllers take masks, ends are not automatic, and vectors start at `0x20`, with the
    slave at line 2. -/
structure PicSet (s : Pair) : Prop where
  masterMode : s.master.mode.getLsbD 1 = false
  slaveMode : s.slave.mode.getLsbD 1 = false
  masterStage : s.master.stage = .mask
  slaveStage : s.slave.stage = .mask
  masterBase : s.master.base = 0x20
  slaveBase : s.slave.base = 0x28
  cascade : s.master.cascade = BitVec.twoPow 8 2

/-- The controllers between two interrupts: nothing is in service. -/
structure PicOk (s : Pair) : Prop extends PicSet s where
  masterIsr : s.master.isr = 0
  slaveIsr : s.slave.isr = 0

/-- The line of an interrupt is masked. -/
def masked (s : Pair) (irq : Nat) : Bool :=
  if irq < 8 then s.master.imr.getLsbD irq else s.slave.imr.getLsbD (irq - 8)

/-- The lines that `pic_disable` masks. -/
def allButSlave (irq : Nat) : Bool := decide (irq < 16 ∧ irq ≠ 2)

section

variable {s : Pair} {irq i bad : Nat}

/-- A chip that has been initialized. -/
def initialized (c : Chip) (base cascade mask : BitVec 8) : Chip :=
  ⟨0, mask, c.isr, 0x11, base &&& 0xf8, cascade, 0x01, false, .mask⟩

/-- The four initialization words and two masks, from any stage. -/
theorem initialized_eq (c : Chip) (base cascade mask mask' : BitVec 8) :
    (((((c.writeControl (0x10 ||| 0x01)).writeData base).writeData cascade).writeData 0x01).writeData
      mask).writeData mask' = initialized c base cascade mask' := by
  simp [Chip.writeControl, Chip.writeData, initialized]

/-- The two controllers behind `pic_init`. -/
theorem picInit_eq (s : Pair) :
    picInit s = ⟨initialized s.master 0x20 4 0xfb, initialized s.slave 0x28 2 0xff⟩ := by
  have hmaster := initialized_eq s.master 0x20 4
  have hslave := initialized_eq s.slave 0x28 2
  rw [← hmaster, ← hslave]
  rfl

/-- **`pic_init`** from any state in which nothing is in service, also one in which an
    initialization was under way: all lines are masked but that of the slave. -/
theorem picInit_ok (hmaster : s.master.isr = 0) (hslave : s.slave.isr = 0) :
    PicOk (picInit s) ∧ masked (picInit s) = allButSlave := by
  rw [picInit_eq]
  have hmode : (0x01 : BitVec 8).getLsbD 1 = false := by decide
  refine ⟨⟨⟨hmode, hmode, rfl, rfl, rfl, rfl, rfl⟩, hmaster, hslave⟩, ?_⟩
  have hall : ∀ irq : Fin 16, (if irq.val < 8 then (0xfb : BitVec 8).getLsbD irq
      else (0xff : BitVec 8).getLsbD (irq - 8)) = allButSlave irq := by decide
  funext irq
  by_cases hlt : irq < 16
  · exact hall ⟨irq, hlt⟩
  · rw [masked, if_neg (by omega), BitVec.getLsbD_of_ge _ _ (by omega), allButSlave]
    simp [hlt]

/-- What the devices do keeps the invariant. -/
theorem PicOk.setIrr (h : PicOk s) (x y : BitVec 8) :
    PicOk ⟨{ s.master with irr := x }, { s.slave with irr := y }⟩ :=
  ⟨⟨h.masterMode, h.slaveMode, h.masterStage, h.slaveStage, h.masterBase, h.slaveBase, h.cascade⟩,
    h.masterIsr, h.slaveIsr⟩

/-! ## Masks -/

/-- What the two calls write to the data port. -/
theorem PicSet.picOut_data (h : PicSet s) (x : BitVec 8) :
    picOut s pic1Data x = { s with master := { s.master with imr := x } } ∧
      picOut s pic2Data x = { s with slave := { s.slave with imr := x } } := by
  constructor
  · show { s with master := s.master.writeData x } = _
    rw [Chip.writeData_mask h.masterStage]
  · show { s with slave := s.slave.writeData x } = _
    rw [Chip.writeData_mask h.slaveStage]

/-- Writing a mask keeps the invariant. -/
theorem PicOk.setImr (h : PicOk s) (x y : BitVec 8) :
    PicOk ⟨{ s.master with imr := x }, { s.slave with imr := y }⟩ :=
  ⟨⟨h.masterMode, h.slaveMode, h.masterStage, h.slaveStage, h.masterBase, h.slaveBase, h.cascade⟩,
    h.masterIsr, h.slaveIsr⟩

/-- A bit of a mask after one bit is set. -/
theorem getLsbD_or_shift {x : BitVec 8} {j : Nat} (hi : i < 8) :
    (x ||| 1#8 <<< i).getLsbD j = if j = i then true else x.getLsbD j := by
  rw [← BitVec.twoPow_eq, BitVec.getLsbD_or]
  by_cases hji : j = i
  · rw [if_pos hji, (getLsbD_twoPow_iff hi).mpr hji, Bool.or_true]
  · have hno := (getLsbD_twoPow_iff hi).not.mpr hji
    rw [if_neg hji, Bool.eq_false_iff.mpr hno, Bool.or_false]

/-- A bit of a mask after one bit is cleared. -/
theorem getLsbD_and_not_shift {x : BitVec 8} {j : Nat} (hi : i < 8) :
    (x &&& ~~~(1#8 <<< i)).getLsbD j = if j = i then false else x.getLsbD j := by
  rw [← BitVec.twoPow_eq, BitVec.getLsbD_and, BitVec.getLsbD_not]
  by_cases hji : j = i
  · rw [if_pos hji, (getLsbD_twoPow_iff hi).mpr hji]
    simp
  · have hno := (getLsbD_twoPow_iff hi).not.mpr hji
    rw [if_neg hji, Bool.eq_false_iff.mpr hno]
    by_cases hj : j < 8
    · simp [hj]
    · rw [BitVec.getLsbD_of_ge x j (by omega), Bool.false_and]

/-- Both calls read the masks of a chip and write them back with the bit of one line changed. -/
theorem PicOk.setLine (h : PicOk s) (hirq : irq < 16) {f : BitVec 8 → Nat → BitVec 8} {b : Bool}
    (hf : ∀ x i j, i < 8 → (f x i).getLsbD j = if j = i then b else x.getLsbD j) :
    PicOk (picOut s (portAndLine irq).1 (f (picIn s (portAndLine irq).1) (portAndLine irq).2)) ∧
      masked (picOut s (portAndLine irq).1
        (f (picIn s (portAndLine irq).1) (portAndLine irq).2)) =
          Function.update (masked s) irq b := by
  unfold portAndLine
  by_cases hlt : irq < 8
  · -- a line of the master
    simp only [if_pos hlt, (h.picOut_data _).1]
    refine ⟨h.setImr _ s.slave.imr, funext fun j => ?_⟩
    by_cases hj : j = irq
    · rw [hj, Function.update_self, masked, if_pos hlt]
      exact (hf _ _ _ hlt).trans (if_pos rfl)
    · rw [Function.update_of_ne hj, masked, masked]
      by_cases hj8 : j < 8
      · rw [if_pos hj8, if_pos hj8]
        exact (hf _ _ _ hlt).trans (if_neg hj)
      · rw [if_neg hj8, if_neg hj8]
  · -- a line of the slave
    simp only [if_neg hlt, (h.picOut_data _).2]
    refine ⟨h.setImr s.master.imr _, funext fun j => ?_⟩
    by_cases hj : j = irq
    · rw [hj, Function.update_self, masked, if_neg hlt]
      exact (hf _ _ _ (by omega)).trans (if_pos rfl)
    · rw [Function.update_of_ne hj, masked, masked]
      by_cases hj8 : j < 8
      · rw [if_pos hj8, if_pos hj8]
      · rw [if_neg hj8, if_neg hj8]
        exact (hf _ _ _ (by omega)).trans (if_neg (by omega))

/-- **One line** is masked; the others stay as they are. -/
theorem PicOk.disable (h : PicOk s) (hirq : irq < 16) :
    PicOk (picDisableIrq s irq) ∧
      masked (picDisableIrq s irq) = Function.update (masked s) irq true :=
  h.setLine (f := fun x i => x ||| 1#8 <<< i) hirq fun _ _ _ hi => getLsbD_or_shift hi

/-- One line is no longer masked. -/
theorem PicOk.enable (h : PicOk s) (hirq : irq < 16) :
    PicOk (picEnableIrq s irq) ∧
      masked (picEnableIrq s irq) = Function.update (masked s) irq false :=
  h.setLine (f := fun x i => x &&& ~~~(1#8 <<< i)) hirq fun _ _ _ hi => getLsbD_and_not_shift hi

/-! ## One interrupt -/

/-- The in-service registers are selected. -/
def readingIsr (s : Pair) : Pair :=
  ⟨{ s.master with readIsr := true }, { s.slave with readIsr := true }⟩

/-- `pic_get_isr` puts the two registers together, and leaves both chips reading them. -/
theorem picGetIsr_eq (s : Pair) :
    picGetIsr s = (s.slave.isr.setWidth 16 <<< 8 ||| s.master.isr.setWidth 16, readingIsr s) := by
  simp [picGetIsr, picGetIrqReg, picReadIsr, picOut, picIn, pic1Ctrl, pic2Ctrl, readingIsr,
    Chip.writeControl, Chip.readControl]

/-- The test of one bit. -/
theorem and_twoPow_eq_zero_iff (x : BitVec 16) {j : Nat} (hj : j < 16) :
    x &&& BitVec.twoPow 16 j = 0 ↔ x.getLsbD j = false := by
  rw [BitVec.and_twoPow]
  by_cases hx : x.getLsbD j = true
  · have hne : BitVec.twoPow 16 j ≠ 0 := by
      intro heq
      have hbit : (BitVec.twoPow 16 j).getLsbD j = true := by
        rw [BitVec.getLsbD_twoPow, Bool.and_eq_true, decide_eq_true_iff, decide_eq_true_iff]
        exact ⟨hj, rfl⟩
      rw [heq] at hbit
      simp at hbit
    rw [if_pos hx, hx]
    exact iff_of_false hne (by decide)
  · rw [if_neg hx]
    exact iff_of_true rfl (Bool.eq_false_iff.mpr hx)

/-- The tests look at line 7 of the master and of the slave. -/
theorem picIsSpurious7_eq (s : Pair) :
    picIsSpurious7 s = (!s.master.isr.getLsbD 7, readingIsr s) := by
  have hbit : (0x0080 : BitVec 16) = BitVec.twoPow 16 7 := by decide
  have hline : (s.slave.isr.setWidth 16 <<< 8 ||| s.master.isr.setWidth 16).getLsbD 7 =
      s.master.isr.getLsbD 7 := by
    simp
  simp only [picIsSpurious7, picGetIsr_eq, hbit, and_twoPow_eq_zero_iff _ (show 7 < 16 by decide),
    hline]
  cases s.master.isr.getLsbD 7 <;> rfl

/-- `pic_is_spurious_15` tests the highest bit of the slave. -/
theorem picIsSpurious15_eq (s : Pair) :
    picIsSpurious15 s = (!s.slave.isr.getLsbD 7, readingIsr s) := by
  have hbit : (0x8000 : BitVec 16) = BitVec.twoPow 16 15 := by decide
  have hline : (s.slave.isr.setWidth 16 <<< 8 ||| s.master.isr.setWidth 16).getLsbD 15 =
      s.slave.isr.getLsbD 7 := by
    simp
  simp only [picIsSpurious15, picGetIsr_eq, hbit,
    and_twoPow_eq_zero_iff _ (show 15 < 16 by decide), hline]
  cases s.slave.isr.getLsbD 7 <;> rfl

/-- The controllers after the ends of interrupts. -/
def ended (s : Pair) (isr isr' : BitVec 8) : Pair :=
  ⟨{ s.master with isr := isr }, { s.slave with isr := isr' }⟩

/-- The end of an interrupt, sent to one controller. -/
theorem picOut_eoi (s : Pair) :
    picOut s pic1Ctrl picEoi = ended s (endFirst s.master.isr) s.slave.isr ∧
      picOut s pic2Ctrl picEoi = ended s s.master.isr (endFirst s.slave.isr) := by
  constructor <;> simp [picOut, pic1Ctrl, pic2Ctrl, picEoi, Chip.writeControl, ended]

/-- The end of an interrupt, sent to the slave as well from line 8 on. -/
theorem sendEoi_eq (s : Pair) (irq : Nat) :
    sendEoi s irq = ended s (endFirst s.master.isr)
      (if irq ≥ 8 then endFirst s.slave.isr else s.slave.isr) := by
  unfold sendEoi
  by_cases hge : irq ≥ 8
  · rw [if_pos hge, if_pos hge, (picOut_eoi s).2, (picOut_eoi _).1]
    rfl
  · rw [if_neg hge, if_neg hge, (picOut_eoi s).1]

/-- Reading the registers changes no setting. -/
theorem PicSet.readingIsr (h : PicSet s) : PicSet (readingIsr s) :=
  ⟨h.masterMode, h.slaveMode, h.masterStage, h.slaveStage, h.masterBase, h.slaveBase, h.cascade⟩

/-- The end of the last interrupt leaves nothing in service. -/
theorem PicSet.ended (h : PicSet s) {isr isr' : BitVec 8} (hisr : isr = 0) (hisr' : isr' = 0) :
    PicOk (ended s isr isr') :=
  ⟨⟨h.masterMode, h.slaveMode, h.masterStage, h.slaveStage, h.masterBase, h.slaveBase, h.cascade⟩,
    hisr, hisr'⟩

/-- An interrupt in service changes no setting. -/
theorem PicSet.service (h : PicSet s) (k j : Nat) :
    PicSet { s with master := s.master.service k } ∧
      PicSet ⟨s.master.service k, s.slave.service j⟩ :=
  ⟨⟨h.masterMode, h.slaveMode, h.masterStage, h.slaveStage, h.masterBase, h.slaveBase, h.cascade⟩,
    ⟨h.masterMode, h.slaveMode, h.masterStage, h.slaveStage, h.masterBase, h.slaveBase, h.cascade⟩⟩

/-- The interrupt is found to be spurious or not, all is over with it, and the masks are as they
    were. -/
def Acknowledged (s : Pair) (bad irq : Nat) (spurious : Bool) : Prop :=
  ∃ s', picAcknowledge s bad irq = (spurious, s', if spurious then add32 bad 1 else bad) ∧
    PicOk s' ∧ masked s' = masked s

/-- An interrupt of the master, or one that the software raises when nothing is in service. -/
theorem PicSet.acknowledge_master (h : PicSet s) (hi : i < 8) (hslave : s.slave.isr = 0)
    (hmaster : s.master.isr = BitVec.twoPow 8 i ∨ s.master.isr = 0 ∧ i ≠ 7) :
    Acknowledged s bad i false := by
  have hend : endFirst s.master.isr = 0 := by
    -- at most one interrupt was in service, and its end is sent
    rcases hmaster with heq | ⟨heq, -⟩
    · rw [heq, endFirst_twoPow hi]
    · rw [heq, endFirst_zero]
  unfold Acknowledged picAcknowledge
  -- line 7 asks whether the interrupt is real
  by_cases h7 : i = 7
  · have hline : s.master.isr.getLsbD 7 = true := by
      rcases hmaster with heq | ⟨-, hne⟩
      · rw [heq, h7, getLsbD_twoPow_iff (by decide)]
      · exact absurd h7 hne
    rw [if_pos h7, picIsSpurious7_eq, hline]
    refine ⟨_, rfl, ?_, ?_⟩
    · rw [sendEoi_eq, if_neg (by omega)]
      exact h.readingIsr.ended hend hslave
    · rw [sendEoi_eq]
      rfl
  · -- no other line does
    rw [if_neg h7, if_neg (by omega)]
    refine ⟨_, rfl, ?_, ?_⟩
    · rw [sendEoi_eq, if_neg (by omega)]
      exact h.ended hend hslave
    · rw [sendEoi_eq]
      rfl

/-- An interrupt of the slave: both controllers are told of its end. -/
theorem PicSet.acknowledge_slave (h : PicSet s) (hi : i < 8)
    (hmaster : s.master.isr = BitVec.twoPow 8 2) (hslave : s.slave.isr = BitVec.twoPow 8 i) :
    Acknowledged s bad (i + 8) false := by
  have hend : endFirst s.master.isr = 0 := by rw [hmaster, endFirst_twoPow (by decide)]
  have hend' : endFirst s.slave.isr = 0 := by rw [hslave, endFirst_twoPow hi]
  unfold Acknowledged picAcknowledge
  rw [if_neg (show i + 8 ≠ 7 by omega)]
  -- line 15 asks whether the interrupt is real
  by_cases h15 : i + 8 = 15
  · have hline : s.slave.isr.getLsbD 7 = true := by
      rw [hslave, getLsbD_twoPow_iff hi]
      omega
    rw [if_pos h15, picIsSpurious15_eq, hline]
    refine ⟨_, rfl, ?_, ?_⟩
    · rw [sendEoi_eq, if_pos (by omega)]
      exact h.readingIsr.ended hend hend'
    · rw [sendEoi_eq]
      rfl
  · -- no other line does
    rw [if_neg h15]
    refine ⟨_, rfl, ?_, ?_⟩
    · rw [sendEoi_eq, if_pos (by omega)]
      exact h.ended hend hend'
    · rw [sendEoi_eq]
      rfl

/-- Line 7 of the master without a request. -/
theorem PicOk.acknowledge_spurious (h : PicOk s) : Acknowledged s bad 7 true := by
  have hline : s.master.isr.getLsbD 7 = false := by
    rw [h.masterIsr]
    rfl
  unfold Acknowledged picAcknowledge
  rw [if_pos rfl, picIsSpurious7_eq, hline]
  exact ⟨_, rfl, ⟨h.toPicSet.readingIsr, h.masterIsr, h.slaveIsr⟩, rfl⟩

/-- Line 7 of the slave without a request: the master has its line 2 in service. -/
theorem PicSet.acknowledge_spurious (h : PicSet s) (hmaster : s.master.isr = BitVec.twoPow 8 2)
    (hslave : s.slave.isr = 0) : Acknowledged s bad 15 true := by
  have hline : s.slave.isr.getLsbD 7 = false := by
    rw [hslave]
    rfl
  have hend : endFirst s.master.isr = 0 := by rw [hmaster, endFirst_twoPow (by decide)]
  unfold Acknowledged picAcknowledge
  rw [if_neg (by decide), if_pos rfl, picIsSpurious15_eq, hline]
  refine ⟨_, rfl, ?_, ?_⟩
  · rw [(picOut_eoi _).1]
    exact h.readingIsr.ended hend hslave
  · rw [(picOut_eoi _).1]
    rfl

/-- What the processor may get: a request that is not masked and from a line that devices have,
    or a spurious interrupt. -/
def Arrives (s : Pair) (irq : Nat) (real : Bool) : Prop :=
  irq < 16 ∧ irq ≠ 2 ∧
    (real = true → masked s irq = false ∧ (8 ≤ irq → masked s 2 = false))

/-- **One interrupt**: the test of `pic_acknowledge` finds out whether it is real. -/
theorem PicOk.interrupt (h : PicOk s) {vector : Nat} {real : Bool} {s' : Pair}
    (hinta : s.inta = (vector, real, s')) :
    32 ≤ vector ∧ Arrives s (vector - 32) real ∧ masked s' = masked s ∧
      ∀ bad, Acknowledged s' bad (vector - 32) (!real) := by
  have hidle : s.master.Idle := ⟨h.masterIsr, h.masterMode⟩
  have hidle' : s.slave.Idle := ⟨h.slaveIsr, h.slaveMode⟩
  rcases Pair.inta_cases h.cascade (by decide) with hcase | ⟨i, hi, hne, hcase⟩ |
    ⟨h2, -, hcase⟩ | ⟨j, h2, hj, hcase⟩
  · -- nothing is requested from the master
    rw [hcase, h.masterBase] at hinta
    obtain ⟨rfl, rfl, rfl⟩ := hinta
    exact ⟨by decide, ⟨by decide, by decide, by simp⟩, rfl, fun bad => h.acknowledge_spurious⟩
  · obtain ⟨hlt, -, hmask⟩ := Chip.pending_spec hi
    rw [hcase, h.masterBase] at hinta
    obtain ⟨rfl, rfl, rfl⟩ := hinta
    have hirq : (0x20 : BitVec 8).toNat + i - 32 = i := Nat.add_sub_cancel_left 32 i
    rw [hirq]
    refine ⟨Nat.le_add_right 32 i, ⟨by omega, hne, fun _ => ⟨?_, by omega⟩⟩, rfl, fun bad => ?_⟩
    · rw [masked, if_pos hlt, hmask]
    · exact (h.toPicSet.service i 0).1.acknowledge_master hlt h.slaveIsr
        (Or.inl (hidle.isr_service i))
  · -- the slave has no request left
    obtain ⟨-, -, hmask2⟩ := Chip.pending_spec h2
    rw [hcase, h.slaveBase] at hinta
    obtain ⟨rfl, rfl, rfl⟩ := hinta
    exact ⟨by decide, ⟨by decide, by decide, by simp⟩, rfl, fun bad =>
      (h.toPicSet.service 2 0).1.acknowledge_spurious (hidle.isr_service 2) h.slaveIsr⟩
  · obtain ⟨hlt, -, hmask⟩ := Chip.pending_spec hj
    obtain ⟨-, -, hmask2⟩ := Chip.pending_spec h2
    rw [hcase, h.slaveBase] at hinta
    obtain ⟨rfl, rfl, rfl⟩ := hinta
    have hbase : (0x28 : BitVec 8).toNat = 40 := rfl
    have hirq : (0x28 : BitVec 8).toNat + j - 32 = j + 8 := by omega
    rw [hirq]
    refine ⟨by omega, ⟨by omega, by omega, fun _ => ⟨?_, fun _ => hmask2⟩⟩, rfl, fun bad => ?_⟩
    · rw [masked, if_neg (by omega), Nat.add_sub_cancel, hmask]
    · exact (h.toPicSet.service 2 j).2.acknowledge_slave hlt (hidle.isr_service 2)
        (hidle'.isr_service j)

/-! ## Whole runs -/

/-- What a run has established: the real interrupts have been handled, the others counted. -/
structure PicRun.Ok (s : PicRun) : Prop where
  pics : PicOk s.pics
  handled : s.handled = (s.arrived.filter fun e => e.2).map Prod.fst
  bad : s.badIrqs = (s.arrived.countP fun e => !e.2) % 2 ^ 32

/-- The lines that are masked after a call. -/
def PicEvent.mask (m : Nat → Bool) : PicEvent → Nat → Bool
  | .enable irq => Function.update m irq false
  | .disable irq => Function.update m irq true
  | _ => m

/-- The lines that the kernel has masked. -/
def maskedLines (events : List PicEvent) : Nat → Bool := events.foldl PicEvent.mask allButSlave

variable {r : PicRun} {e : PicEvent} {events : List PicEvent}

/-- `irq_handler` for an interrupt that is acknowledged. -/
theorem PicRun.Ok.irqHandler (h : r.Ok) {real : Bool}
    (hack : ∀ bad, Acknowledged s bad irq (!real)) :
    (r.irqHandler irq real s).Ok ∧ masked (r.irqHandler irq real s).pics = masked s := by
  obtain ⟨s', hcall, hok, hmask⟩ := hack r.badIrqs
  simp only [PicRun.irqHandler, hcall]
  refine ⟨⟨hok, ?_, ?_⟩, hmask⟩
  · cases real <;> simp [h.handled]
  · cases real
    · simp [h.bad, add32, List.countP_append]
    · simp [h.bad, List.countP_append]

/-- **Every event** keeps what has been established, and masks the lines that it says. -/
theorem PicRun.Ok.exec (h : r.Ok) (hok : e.Allowed) :
    (e.exec r).Ok ∧ masked (e.exec r).pics = e.mask (masked r.pics) := by
  cases e with
  | raise slave line =>
    -- a request changes no mask and nothing in service
    cases slave with
    | false => exact ⟨⟨h.pics.setIrr _ r.pics.slave.irr, h.handled, h.bad⟩, rfl⟩
    | true => exact ⟨⟨h.pics.setIrr r.pics.master.irr _, h.handled, h.bad⟩, rfl⟩
  | drop slave line =>
    cases slave with
    | false => exact ⟨⟨h.pics.setIrr _ r.pics.slave.irr, h.handled, h.bad⟩, rfl⟩
    | true => exact ⟨⟨h.pics.setIrr r.pics.master.irr _, h.handled, h.bad⟩, rfl⟩
  | interrupt =>
    -- a real interrupt is acknowledged, a spurious one counted
    obtain ⟨-, -, hmask, hack⟩ := h.pics.interrupt (rfl : r.pics.inta = (_, _, _))
    obtain ⟨hrun, hsame⟩ := h.irqHandler hack
    exact ⟨hrun, hsame.trans hmask⟩
  | switchNext =>
    -- nothing is in service, so that the master is told the end of nothing
    exact h.irqHandler fun bad => h.pics.toPicSet.acknowledge_master (by decide) h.pics.slaveIsr
      (Or.inr ⟨h.pics.masterIsr, by decide⟩)
  | enable irq =>
    obtain ⟨hpics, hmask⟩ := h.pics.enable hok
    exact ⟨⟨hpics, h.handled, h.bad⟩, hmask⟩
  | disable irq =>
    obtain ⟨hpics, hmask⟩ := h.pics.disable hok
    exact ⟨⟨hpics, h.handled, h.bad⟩, hmask⟩

/-- In a whole run the masks are those that the calls have set. -/
theorem PicRun.Ok.run (h : r.Ok) (hok : ∀ e ∈ events, e.Allowed) :
    (picRun r events).Ok ∧
      masked (picRun r events).pics = events.foldl PicEvent.mask (masked r.pics) := by
  induction events generalizing r with
  | nil => exact ⟨h, rfl⟩
  | cons e events ih =>
    rw [List.forall_mem_cons] at hok
    obtain ⟨hexec, hmask⟩ := h.exec hok.1
    obtain ⟨hrun, hmasks⟩ := ih hexec hok.2
    refine ⟨hrun, ?_⟩
    rw [List.foldl_cons, ← hmask]
    exact hmasks

/-- **Spurious interrupts.** Whatever was in the controllers before but for interrupts in service,
    which `pic_init` does not end: in every run behind it the kernel handles exactly the real
    interrupts, in the order in which they came, it counts the others, and when it has done so
    nothing is left in service. -/
theorem spurious_filtered (hmaster : s.master.isr = 0) (hslave : s.slave.isr = 0)
    (hok : ∀ e ∈ events, e.Allowed) :
    (picRun (picStart s) events).handled =
        ((picRun (picStart s) events).arrived.filter fun e => e.2).map Prod.fst ∧
      (picRun (picStart s) events).badIrqs =
        ((picRun (picStart s) events).arrived.countP fun e => !e.2) % 2 ^ 32 ∧
      (picRun (picStart s) events).pics.master.isr = 0 ∧
      (picRun (picStart s) events).pics.slave.isr = 0 := by
  have hstart : (picStart s).Ok := ⟨(picInit_ok hmaster hslave).1, rfl, rfl⟩
  obtain ⟨hrun, -⟩ := hstart.run hok
  exact ⟨hrun.handled, hrun.bad, hrun.pics.masterIsr, hrun.pics.slaveIsr⟩

/-- **Masks.** With nothing in service before `pic_init`, in every run on lines 0 to 15 the masks
    are those that the calls of the kernel have set, whatever interrupts come in between, and the
    next interrupt is a spurious one or comes from a line that is not masked, from the slave only
    while line 2 of the master is not masked either. Its vector is one of those behind `0x20`. -/
theorem masks_followed (hmaster : s.master.isr = 0) (hslave : s.slave.isr = 0)
    (hok : ∀ e ∈ events, e.Allowed) {vector : Nat} {real : Bool} {s' : Pair}
    (hinta : (picRun (picStart s) events).pics.inta = (vector, real, s')) :
    masked (picRun (picStart s) events).pics = maskedLines events ∧
      ∃ irq < 16, vector = 0x20 + irq ∧ irq ≠ 2 ∧
        (real = true → maskedLines events irq = false ∧
          (8 ≤ irq → maskedLines events 2 = false)) := by
  obtain ⟨hpics, hinit⟩ := picInit_ok hmaster hslave
  have hstart : (picStart s).Ok := ⟨hpics, rfl, rfl⟩
  obtain ⟨hrun, hmasks⟩ := hstart.run hok
  have hmasked : masked (picRun (picStart s) events).pics = maskedLines events := by
    rw [hmasks, maskedLines, ← hinit]
    rfl
  obtain ⟨hge, ⟨hlt, hne, hreal⟩, -⟩ := hrun.pics.interrupt hinta
  rw [hmasked] at hreal
  exact ⟨hmasked, vector - 32, hlt, by omega, hne, hreal⟩

/-- Two chips with whatever in their registers, but nothing in service. -/
def coldPics : Pair :=
  ⟨⟨0xff, 0x55, 0, 0, 0x08, 0, 0, true, .icw3⟩, ⟨0, 0xaa, 0, 0, 0x70, 0, 0, false, .mask⟩⟩

/-- The keyboard's interrupt, and then one that nobody requests. -/
def keyEvents : List PicEvent := [.enable 1, .raise false 1, .interrupt, .interrupt]

/-- A key and a spurious interrupt. -/
theorem spurious_filtered_keys : (picRun (picStart coldPics) keyEvents).handled = [1] ∧
    (picRun (picStart coldPics) keyEvents).badIrqs = 1 := by
  obtain ⟨hhandled, hbad, -⟩ := @spurious_filtered coldPics keyEvents rfl rfl
    (by simp [keyEvents, PicEvent.Allowed])
  have harrived : (picRun (picStart coldPics) keyEvents).arrived = [(1, true), (7, false)] := by
    decide
  rw [harrived] at hhandled hbad
  exact ⟨hhandled, hbad⟩

/-- The line of the keyboard is enabled, that of the timer is not. -/
theorem masks_followed_keys : masked (picRun (picStart coldPics) keyEvents).pics 1 = false ∧
    masked (picRun (picStart coldPics) keyEvents).pics 0 = true := by
  obtain ⟨hmasks, -⟩ := @masks_followed coldPics keyEvents rfl rfl
    (by simp [keyEvents, PicEvent.Allowed]) _ _ _ (rfl : Pair.inta _ = (_, _, _))
  rw [hmasks]
  decide

end

end Toutatis
