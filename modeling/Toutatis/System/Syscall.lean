import Toutatis.Console.Keyboard
import Toutatis.Console.Serial
import Toutatis.Console.Writers
import Toutatis.Sched.Context
import Toutatis.Strings.Itoa
import Toutatis.System.Descriptors

/-!
# System calls

A shallow embedding of `kernel/syscall.c` and of the way to it and back: the gate of vector `0x80`,
the stub of `kernel/interrupts.s` and `isr_handler`. It runs on the machine of the context
switches, together with the keyboard, which prints on the same screen. Printing goes on byte by
byte, and an interrupt may come between any two steps unless the interrupt flag is clear. The
gates are interrupt gates and the stubs begin with `cli`; only the end of a thread sets the
flag in a handler.

`log` and `origin` are not in the source: the texts that handlers were asked to print, and the
registers at an interrupt.

## Key results

- `enterStub_spec`: the frame of a numbered interrupt
- `KernelOk.exec`: at most one handler is under way, with the interrupts off
- `call_returns`: a system call is a call of the function
- `texts_whole`: no text is torn by another
-/

namespace Toutatis

open ByteMem Run Strings

/-! ## The stubs -/

/-- The words pushed when the interrupt number `no` of the stub arrives. -/
def Cpu.pushesOf (c : Cpu) (no : Nat) : List Nat :=
  (if c.user then [c.ss.toNat, c.esp.toNat] else []) ++
    [c.eflags.toNat, c.cs.toNat, c.eip.toNat] ++
    -- error code and interrupt number
    [0, no] ++
    [c.eax.toNat, c.ebx.toNat, c.ecx.toNat, c.edx.toNat, c.esi.toNat, c.edi.toNat, c.ebp.toNat,
      c.ds.toNat, c.es.toNat, c.fs.toNat, c.gs.toNat]

/-- Memory and stack pointer when the stub calls the handler in C. -/
def enterStub (c : Cpu) (no esp0 : Nat) (m : Mem) : Mem × Nat :=
  pushAll (m, if c.user then esp0 else c.esp.toNat) (c.pushesOf no)

/-- The interrupt flag. -/
def Cpu.intr (c : Cpu) : Bool := c.eflags.getLsbD 9

/-- `sti` and `cli`. -/
def Cpu.setIntr (c : Cpu) (intr : Bool) : Cpu :=
  { c with eflags := if intr then c.eflags ||| 0x200#32 else c.eflags &&& ~~~0x200#32 }

/-- The processor in a handler in C: in ring 0, with the segments that the stub has loaded. -/
def Cpu.inHandler (c : Cpu) (regs : Nat) (intr : Bool) : Cpu :=
  { c.setIntr intr with
    cs := kcodeSel
    ds := kernelData
    es := kernelData
    fs := kernelData
    gs := kernelData
    ss := kernelData
    esp := BitVec.ofNat 32 regs }

/-! ## The system calls -/

/-- The functions of the table `syscalls`. -/
inductive Syscall where
  | threadExit
  | vgaPrintStr
  | vgaPrintDec
  | vgaPrintHex
deriving DecidableEq

/-- `syscalls` -/
def syscalls : List Syscall := [.threadExit, .vgaPrintStr, .vgaPrintDec, .vgaPrintHex]

/-- `num_syscalls` -/
def numSyscalls : Nat := 4

/-- What is left of a handler: `vga_print_str` is at a byte of its string, `vga_print_dec` or
    `vga_print_hex` at a byte of `buffer`, `keyboard_handler` has read a scancode; or nothing. -/
inductive Left where
  | str (p : Nat)
  | digits (p : Nat)
  | key (scancode : UInt8)
  | done
deriving DecidableEq

/-- A function of the table up to its loop, on the arguments that lie on the stack: memory, and what
    is left. `thread_exit` does not come back. `buffer` is the address of the local array. -/
def Syscall.start (m : Mem) (buffer : Nat) (args : List Nat) : Syscall → Mem × Option Left
  | .threadExit => (m, none)
  | .vgaPrintStr => (m, some (.str (args.getD 0 0)))
  | .vgaPrintDec => ((itoa m (args.getD 0 0) buffer 10).1, some (.digits buffer))
  | .vgaPrintHex => ((itoa m (args.getD 0 0) buffer 16).1, some (.digits buffer))

/-- `syscall_handler`: memory, whether a function was called, whose result goes to `regs->eax`, and
    what is left of it. -/
def syscallHandler (m : Mem) (regs buffer : Nat) : Mem × Bool × Option Left :=
  let eax := load32 m (regs + 40)
  if eax ≥ numSyscalls then (m, false, some .done)
  else
    -- edi is pushed first and ebx last, which makes it the first argument
    let args := [36, 32, 28, 24, 20].map fun i => load32 m (regs + i)
    let r := (syscalls.getD eax .threadExit).start m buffer args
    (r.1, true, r.2)

/-! ## The machine -/

/-- A handler that has not come back. -/
structure Handling where
  regs : Nat
  called : Bool
  buffer : Nat
  left : Left
  origin : Cpu

/-- The machine of the context switches, the screen, the keyboard, and the handlers under way of
    each thread, the last one first. -/
structure Kernel where
  machine : Machine
  screen : Console
  kbd : Keyboard
  handling : Nat → List Handling
  log : List (List VgaEvent)

/-- What a system call is asked to print. -/
def callText (m : Mem) (c : Cpu) : List VgaEvent :=
  if c.eax.toNat = 1 then strEvents (strncpy m c.ebx.toNat (2 ^ 32))
  else if c.eax.toNat = 2 then (numeral false 10 c.ebx.toNat).map .char
  else if c.eax.toNat = 3 then (numeral false 16 c.ebx.toNat).map .char
  else []

/-- What a scancode prints. -/
def keyText (kbd : Keyboard) (scancode : UInt8) : List VgaEvent :=
  (pressedChar kbd scancode).toList.map .char

/-- One pass of the loop that a handler is in. -/
def Left.step (m : Mem) (screen : Console) (kbd : Keyboard) :
    Left → Option (Left × Console × Keyboard)
  | .str p =>
    if m p ≠ 0 then
      if m p = 27 then some (.str (p + 2), vgaSetColor screen (m (p + 1)), kbd)
      else (vgaPrintChar screen (m p)).map fun t => (.str (p + 1), t, kbd)
    else some (.done, screen, kbd)
  | .digits p =>
    if m p ≠ 0 then (vgaPrintChar screen (m p)).map fun t => (.digits (p + 1), t, kbd)
    else some (.done, screen, kbd)
  | .key scancode =>
    ((pressedChar kbd scancode).elim (some screen) (vgaPrintChar screen)).map fun t =>
      (.done, t, (keyboardHandler kbd scancode).1)
  | .done => none

/-- The current thread computes, calls `create_thread` or `thread_exit`, or executes `int 0x80`; a
    key is pressed or released; the handler under way makes a pass of its loop, or comes back with
    a value in `eax`; the timer interrupts, or `switch_next` calls its vector. `scratch` is memory
    when the handler in C has used its stack. -/
inductive KernelEvent where
  | run (cpu : Cpu) (mem : Mem)
  | create (a : ThreadArgs) (thread kstack ustack : Nat)
  | exit
  | syscall (scratch : Mem) (buffer : Nat)
  | key (scancode : UInt8) (scratch : Mem)
  | step (scratch : Mem)
  | ret (eax : BitVec 32)
  | timer (software : Bool) (scratch : Mem) (cycles : Nat × Nat × Nat)

/-- Another memory and other registers. -/
def Machine.goOn (m : Machine) (cpu : Cpu) (mem : Mem) : Machine :=
  { m with cpu := cpu, sched := { m.sched with mem := mem } }

/-- The handlers of the current thread are replaced. -/
def Kernel.setHandling (s : Kernel) (hs : List Handling) : Kernel :=
  { s with handling := Function.update s.handling s.machine.sched.currentThread hs }

/-- A handler is under way, with the interrupts off: the gates and the `cli` of the stubs have
    cleared the flag. `text` is what it was asked to print. -/
def Kernel.enter (s : Kernel) (h : Handling) (mem : Mem) (text : List VgaEvent) : Kernel :=
  { s with
    machine := s.machine.goOn (s.machine.cpu.inHandler h.regs false) mem
    log := s.log ++ [text] }.setHandling (h :: s.handling s.machine.sched.currentThread)

/-- `int 0x80`: the stub, `isr_handler`, and `syscall_handler` up to the loop of the function.
    `none`: `isr_handler` stops the machine. -/
def Kernel.syscall (s : Kernel) (scratch : Mem) (buffer : Nat) : Option Kernel :=
  let m := s.machine
  let regs := (enterStub m.cpu syscallVector m.sched.esp0 m.sched.mem).2
  let no := load32 scratch (regs + 44)
  if no = 8 ∨ (no ≥ 0x20 ∧ no ≠ syscallVector) then none
  else
    let r := syscallHandler scratch regs buffer
    match r.2.2 with
    | some left =>
      some (s.enter ⟨regs, r.2.1, buffer, left, m.cpu⟩ r.1 (callText m.sched.mem m.cpu))
    | none =>
      -- thread_exit enables the interrupts and goes on to switch_next
      let m := m.goOn (m.cpu.inHandler regs true) r.1
      some { s with machine := { m with sched := threadExit m.sched } }

/-- The interrupt of the keyboard: the stub and `irq_handler`, which looks for the handler by the
    number in the frame. -/
def Kernel.key (s : Kernel) (scancode : UInt8) (scratch : Mem) : Option Kernel :=
  let m := s.machine
  let regs := (enterStub m.cpu 1 m.sched.esp0 m.sched.mem).2
  if load32 scratch (regs + 44) ≠ 1 then none
  else some (s.enter ⟨regs, false, regs, .key scancode, m.cpu⟩ scratch (keyText s.kbd scancode))

/-- A pass of the handler under way. -/
def Kernel.step (s : Kernel) (scratch : Mem) : Option Kernel :=
  match s.handling s.machine.sched.currentThread with
  | [] => none
  | h :: hs =>
    (h.left.step s.machine.sched.mem s.screen s.kbd).map fun r =>
      { s with
        machine := s.machine.goOn s.machine.cpu scratch
        screen := r.2.1
        kbd := r.2.2 }.setHandling ({ h with left := r.1 } :: hs)

/-- The handler under way comes back, and the stub ends. -/
def Kernel.ret (s : Kernel) (eax : BitVec 32) : Option Kernel :=
  match s.handling s.machine.sched.currentThread with
  | [] => none
  | h :: hs =>
    if h.left = .done then
      let mem := s.machine.sched.mem
      let mem := if h.called then store32 mem (h.regs + 40) eax.toNat else mem
      some ({ s with machine := s.machine.goOn (restoreFrame mem h.regs) mem }.setHandling hs)
    else none

/-- One event. -/
def Kernel.exec (s : Kernel) : KernelEvent → Option Kernel
  | .run cpu mem => some { s with machine := s.machine.goOn cpu mem }
  | .create a thread kstack ustack =>
    (s.machine.exec (.create a thread kstack ustack)).map fun m => { s with machine := m }
  | .exit =>
    let m := s.machine
    some { s with machine := { m with sched := threadExit m.sched, cpu := m.cpu.setIntr true } }
  | .syscall scratch buffer => s.syscall scratch buffer
  | .key scancode scratch => s.key scancode scratch
  | .step scratch => s.step scratch
  | .ret eax => s.ret eax
  | .timer _ scratch cycles =>
    (s.machine.timer scratch cycles).map fun m => { s with machine := m }

/-! ## The conditions on events -/

/-- The kernel stack of the current thread. -/
def Machine.stack (boot : Nat × Nat) (m : Machine) : Nat × Nat :=
  stackOf boot (m.sched.threads m.sched.currentThread)

/-- The thread's own code is running. -/
def Kernel.Idle (s : Kernel) : Prop := s.handling s.machine.sched.currentThread = []

/-- The stub has room on the kernel stack, and the handler in C changes nothing but the stack below
    the frame. -/
def EntersOk (boot : Nat × Nat) (m : Machine) (no : Nat) (scratch : Mem) : Prop :=
  let st := enterStub m.cpu no m.sched.esp0 m.sched.mem
  HasRoom boot m ∧ ∀ x, x < (m.stack boot).1 ∨ st.2 ≤ x → scratch x = st.1 x

/-- The conditions on events. They are those of the machine, and a thread is created in a process;
    an interrupt arrives when the flag is set; the kernel thread does not exit; a system call prints
    a text that lies outside of the stack that it uses, and its `buffer` lies on that stack; a
    handler changes nothing but its stack, and there not its `buffer`. -/
def KernelEvent.Ok (boot : Nat × Nat) (s : Kernel) : KernelEvent → Prop
  | .run cpu mem => s.Idle ∧ (Event.run cpu mem).Ok boot s.machine
  | .create a thread kstack ustack =>
    s.Idle ∧ (Event.create a thread kstack ustack).Ok boot s.machine ∧ a.process ≠ 0
  | .exit => s.Idle ∧ Event.exit.Ok boot s.machine
  | .syscall scratch buffer =>
    let m := s.machine
    let regs := (enterStub m.cpu syscallVector m.sched.esp0 m.sched.mem).2
    s.Idle ∧ EntersOk boot m syscallVector scratch ∧
    (m.cpu.eax.toNat = 0 → m.sched.currentThread ≠ m.sched.kernelThread) ∧
    (m.cpu.eax.toNat = 1 → ∃ l, Text m.sched.mem m.cpu.ebx.toNat l ∧ Escaped l ∧
      ∀ k ≤ l.length, m.cpu.ebx.toNat + k < (m.stack boot).1 ∨
        regs + m.cpu.frameLen ≤ m.cpu.ebx.toNat + k) ∧
    (m.stack boot).1 ≤ buffer ∧ buffer + 12 ≤ regs
  | .key _ scratch => s.machine.cpu.intr = true ∧ EntersOk boot s.machine 1 scratch
  | .step scratch =>
    ∃ h hs, s.handling s.machine.sched.currentThread = h :: hs ∧ h.left ≠ .done ∧
      ∀ x, x < (s.machine.stack boot).1 ∨ h.regs ≤ x ∨ (h.buffer ≤ x ∧ x < h.buffer + 12) →
        scratch x = s.machine.sched.mem x
  | .ret _ => ∃ h hs, s.handling s.machine.sched.currentThread = h :: hs ∧ h.left = .done
  | .timer software scratch cycles =>
    (if software then s.Idle else s.machine.cpu.intr = true) ∧
      (Event.timer scratch cycles).Ok boot s.machine

/-! ## Frames -/

/-- The words of a frame but for `eax`, the interrupt number and the error code are in place. -/
theorem FrameAt.setEax {m m' : Mem} {a : Nat} {c : Cpu} (h : FrameAt m a c) (v : BitVec 32)
    (hw : ∀ i, i < 10 ∨ 12 < i → load32 m' (a + 4 * i) = load32 m (a + 4 * i))
    (hv : load32 m' (a + 40) = v.toNat) : FrameAt m' a { c with eax := v } where
  gs := (hw 0 (by decide)).trans h.gs
  fs := (hw 1 (by decide)).trans h.fs
  es := (hw 2 (by decide)).trans h.es
  ds := (hw 3 (by decide)).trans h.ds
  ebp := (hw 4 (by decide)).trans h.ebp
  edi := (hw 5 (by decide)).trans h.edi
  esi := (hw 6 (by decide)).trans h.esi
  edx := (hw 7 (by decide)).trans h.edx
  ecx := (hw 8 (by decide)).trans h.ecx
  ebx := (hw 9 (by decide)).trans h.ebx
  eax := hv
  eip := (hw 13 (by decide)).trans h.eip
  cs := (hw 14 (by decide)).trans h.cs
  eflags := (hw 15 (by decide)).trans h.eflags
  esp := by
    have hesp := h.esp
    rw [← hw 16 (by decide)] at hesp
    exact hesp
  ss := by
    have hss := h.ss
    rw [← hw 17 (by decide)] at hss
    exact hss

/-- Pushes in two memories that have the same byte at `x`. -/
theorem pushAll_apply (xs : List Nat) {m m' : Mem} {p x : Nat} (h : m x = m' x) :
    (pushAll (m, p) xs).1 x = (pushAll (m', p) xs).1 x := by
  induction xs generalizing m m' p with
  | nil => exact h
  | cons w xs ih =>
    have hpush : ∀ m : Mem, pushAll (m, p) (w :: xs) =
        pushAll (store32 m (sub32 p 4) w, sub32 p 4) xs := fun _ => rfl
    rw [hpush m, hpush m']
    apply ih
    simp only [store32]
    rw [h]

/-- Pushes that differ in one word leave memories that differ in its place. -/
theorem pushAll_other (m : Mem) {p : Nat} (xs ys : List Nat) (w v : Nat)
    (hroom : 4 * (xs.length + 1) ≤ p) (hp : p ≤ 2 ^ 32) {x : Nat}
    (hx : x < p - 4 * (xs.length + 1) ∨ p - 4 * xs.length ≤ x) :
    (pushAll (m, p % 2 ^ 32) (xs ++ w :: ys)).1 x =
      (pushAll (m, p % 2 ^ 32) (xs ++ v :: ys)).1 x := by
  obtain ⟨hptr, -, -⟩ := pushAll_spec m xs (p := p) (by omega) hp
  have hsub : sub32 ((p - 4 * xs.length) % 2 ^ 32) 4 = p - 4 * (xs.length + 1) := by
    simp only [sub32]
    omega
  rw [pushAll_append, pushAll_append]
  generalize pushAll (m, p % 2 ^ 32) xs = st at hptr ⊢
  -- the word itself, and then the same pushes in both memories
  have hpush : ∀ u, pushAll st (u :: ys) =
      pushAll (store32 st.1 (p - 4 * (xs.length + 1)) u, p - 4 * (xs.length + 1)) ys := by
    intro u
    rw [pushAll, List.foldl_cons, push, hptr, hsub]
    rfl
  rw [hpush w, hpush v]
  apply pushAll_apply
  rw [store32_apply_of_disjoint _ _ (by omega), store32_apply_of_disjoint _ _ (by omega)]

/-- **The frame of a numbered interrupt**: that of the timer, but for the number. -/
theorem enterStub_spec (c : Cpu) (no : Nat) {esp0 p : Nat} (m : Mem) (hno : no < 2 ^ 32)
    (hp : p % 2 ^ 32 = if c.user then esp0 else c.esp.toNat) (hroom : c.frameLen ≤ p)
    (hle : p ≤ 2 ^ 32) (hss : c.user = false → c.ss = kernelData) :
    (enterStub c no esp0 m).2 = p - c.frameLen ∧
    FrameAt (enterStub c no esp0 m).1 (p - c.frameLen) c ∧
    load32 (enterStub c no esp0 m).1 (p - c.frameLen + 44) = no ∧
    ∀ x, x < p - c.frameLen ∨ p ≤ x → (enterStub c no esp0 m).1 x = m x := by
  obtain ⟨-, hframe, -⟩ := saveFrame_spec c m hp hroom hle hss
  -- what is pushed before the number and behind it
  obtain ⟨xs, ys, hxs, hpushes, hpushes₀, hys⟩ : ∃ xs ys, 4 * (xs.length + 1) + 44 = c.frameLen ∧
      c.pushesOf no = xs ++ no :: ys ∧ c.pushes = xs ++ 0 :: ys ∧ ys.length = 11 := by
    refine ⟨(if c.user then [c.ss.toNat, c.esp.toNat] else []) ++
      [c.eflags.toNat, c.cs.toNat, c.eip.toNat, 0],
      [c.eax.toNat, c.ebx.toNat, c.ecx.toNat, c.edx.toNat, c.esi.toNat, c.edi.toNat, c.ebp.toNat,
        c.ds.toNat, c.es.toNat, c.fs.toNat, c.gs.toNat], ?_, ?_, ?_, rfl⟩
    · rw [Cpu.frameLen]
      split <;> rfl
    · rw [Cpu.pushesOf]
      simp only [List.append_assoc, List.cons_append, List.nil_append]
    · rw [Cpu.pushes]
      simp only [List.append_assoc, List.cons_append, List.nil_append]
  have hlen : 4 * (c.pushesOf no).length = c.frameLen := by
    rw [hpushes, List.length_append, List.length_cons, hys]
    omega
  obtain ⟨hptr, -, hoff⟩ := pushAll_spec m (c.pushesOf no) (hlen ▸ hroom) hle
  rw [hlen] at hptr hoff
  have hother : ∀ x, x < p - c.frameLen + 44 ∨ p - c.frameLen + 48 ≤ x →
      (enterStub c no esp0 m).1 x = (saveFrame c esp0 m).1 x := by
    intro x hx
    rw [enterStub, saveFrame, ← hp, hpushes, hpushes₀]
    apply pushAll_other m xs ys no 0 (by omega) hle
    omega
  have hwords : ∀ i, i < 11 ∨ 11 < i →
      load32 (enterStub c no esp0 m).1 (p - c.frameLen + 4 * i) =
        load32 (saveFrame c esp0 m).1 (p - c.frameLen + 4 * i) := fun i hi =>
    load32_congr fun x h1 h2 => hother x (by omega)
  refine ⟨?_, ?_, ?_, fun x hx => ?_⟩
  · rw [enterStub, ← hp]
    apply hptr.trans
    exact Nat.mod_eq_of_lt (by have := hxs; omega)
  · exact hframe.setEax c.eax (fun i hi => hwords i (by omega)) ((hwords 10 (by decide)).trans
      hframe.eax)
  · have hi : ((c.pushesOf no).map (· % 2 ^ 32)).reverse[11]? = some no := by
      rw [hpushes, List.map_append, List.map_cons, List.reverse_append, List.reverse_cons,
        List.getElem?_append_left (by simp [hys]), List.getElem?_append_right (by simp [hys])]
      simpa [hys] using hno
    have hload := load32_pushAll m (c.pushesOf no) (hlen ▸ hroom) hle hi
    rw [enterStub, ← hp, ← hlen]
    exact hload
  · rw [enterStub, ← hp]
    exact hoff x hx

/-! ## Texts that are being printed -/

/-- What a handler is still going to print. The bytes from `lo` up to `regs` are the stack that it
    uses. -/
def Leaves (m : Mem) (kbd : Keyboard) (lo regs buffer : Nat) : Left → List VgaEvent → Prop
  | .str p, es => ∃ l, Text m p l ∧ Escaped l ∧ es = strEvents l ∧
    ∀ k ≤ l.length, p + k < lo ∨ regs ≤ p + k
  | .digits p, es => ∃ l, Text m p l ∧ es = l.map .char ∧ buffer ≤ p ∧ p + l.length < buffer + 12
  | .key scancode, es => es = keyText kbd scancode
  | .done, es => es = []

/-- The passes that a handler still makes. -/
def Left.passes (es : List VgaEvent) : Left → Nat
  | .str _ => es.length + 1
  | .digits _ => es.length + 1
  | .key _ => 1
  | .done => 0

section

variable {m m' : Mem} {kbd : Keyboard} {screen : Console} {lo regs buffer p : Nat} {left : Left}
  {es : List VgaEvent} {l : List UInt8}

/-- The text that is left is in place while the handler uses its stack. -/
theorem Leaves.congr (h : Leaves m kbd lo regs buffer left es)
    (hm : ∀ x, x < lo ∨ regs ≤ x ∨ (buffer ≤ x ∧ x < buffer + 12) → m' x = m x) :
    Leaves m' kbd lo regs buffer left es := by
  cases left with
  | str p =>
    obtain ⟨l, htext, hesc, hes, hout⟩ := h
    refine ⟨l, htext.congr fun x h1 h2 => hm x ?_, hesc, hes, hout⟩
    have := hout (x - p) (by omega)
    omega
  | digits p =>
    obtain ⟨l, htext, hes, hlow, hhigh⟩ := h
    refine ⟨l, htext.congr fun x h1 h2 => hm x ?_, hes, hlow, hhigh⟩
    omega
  | key scancode => exact h
  | done => exact h

/-- The events of a string, character by character. -/
theorem strEvents_cons {c : UInt8} (h0 : c ≠ 0) (hc : c ≠ 27) :
    strEvents (c :: l) = .char c :: strEvents l := by
  cases l <;> simp only [strEvents, if_neg h0, if_neg hc]

/-- What one pass does to what is printed. -/
structure Prints (m : Mem) (lo regs buffer : Nat) (screen screen' : Console) (kbd' : Keyboard)
    (left left' : Left) (es : List VgaEvent) : Prop where
  ok : ScreenOk screen'
  leaves : ∃ es', Leaves m kbd' lo regs buffer left' es' ∧
    execAll VgaEvent.exec screen es = execAll VgaEvent.exec screen' es' ∧
    left.passes es = left'.passes es' + 1

/-- A character is printed and the rest is left. -/
theorem prints_char (hs : ScreenOk screen) (c : UInt8) (es : List VgaEvent) :
    ∃ t, vgaPrintChar screen c = some t ∧ ScreenOk t ∧
      execAll VgaEvent.exec screen (.char c :: es) = execAll VgaEvent.exec t es := by
  obtain ⟨t, ht, hok⟩ := hs.exec (.char c)
  exact ⟨t, ht, hok, execAll_cons_some ht⟩

/-- **One pass** prints the first of the characters and colors that are left. -/
theorem Leaves.step (h : Leaves m kbd lo regs buffer left es) (hne : left ≠ .done)
    (hs : ScreenOk screen) : ∃ left' screen' kbd', left.step m screen kbd =
      some (left', screen', kbd') ∧ Prints m lo regs buffer screen screen' kbd' left left' es := by
  cases left with
  | str p =>
    obtain ⟨l, htext, hesc, rfl, hout⟩ := h
    rw [Left.step]
    cases l with
    | nil =>
      rw [htext.nil, if_neg (by decide)]
      exact ⟨_, _, _, rfl, hs, [], rfl, rfl, rfl⟩
    | cons c l =>
      have hzero : c ≠ 0 := htext.nonzero c List.mem_cons_self
      rw [htext.head, if_pos hzero]
      by_cases hc : c = 27
      · -- the escape byte and the color behind it
        subst hc
        cases l with
        | nil => exact hesc.elim
        | cons b l =>
          rw [if_pos rfl, htext.tail.head]
          refine ⟨_, _, _, rfl, hs.setColor b, strEvents l, ?_, rfl, rfl⟩
          refine ⟨l, htext.tail.tail, hesc.2, rfl, fun k hk => ?_⟩
          have := hout (k + 2) (by simp only [List.length_cons]; omega)
          omega
      · rw [if_neg hc]
        obtain ⟨t, ht, hok, hexec⟩ := prints_char hs c (strEvents l)
        rw [ht]
        refine ⟨_, _, _, rfl, hok, strEvents l, ?_, ?_, ?_⟩
        · refine ⟨l, htext.tail, (escaped_cons_iff hc).mp hesc, rfl, fun k hk => ?_⟩
          have := hout (k + 1) (by simp only [List.length_cons]; omega)
          omega
        · rw [strEvents_cons hzero hc]
          exact hexec
        · rw [strEvents_cons hzero hc]
          rfl
  | digits p =>
    obtain ⟨l, htext, rfl, hlow, hhigh⟩ := h
    rw [Left.step]
    cases l with
    | nil =>
      rw [htext.nil, if_neg (by decide)]
      exact ⟨_, _, _, rfl, hs, [], rfl, rfl, rfl⟩
    | cons c l =>
      rw [htext.head, if_pos (htext.nonzero c List.mem_cons_self)]
      obtain ⟨t, ht, hok, hexec⟩ := prints_char hs c (l.map .char)
      rw [ht]
      rw [List.length_cons] at hhigh
      exact ⟨_, _, _, rfl, hok, l.map .char, ⟨l, htext.tail, rfl, by omega, by omega⟩, hexec, rfl⟩
  | key scancode =>
    obtain rfl : es = keyText kbd scancode := h
    rw [Left.step, keyText]
    cases pressedChar kbd scancode with
    | none => exact ⟨_, _, _, rfl, hs, [], rfl, rfl, rfl⟩
    | some c =>
      obtain ⟨t, ht, hok, hexec⟩ := prints_char hs c []
      rw [Option.elim_some, ht]
      exact ⟨_, _, _, rfl, hok, [], rfl, hexec, rfl⟩
  | done => exact absurd rfl hne

end

/-! ## Entering a handler -/

/-- What the handler in C finds in memory. -/
structure Entered (boot : Nat × Nat) (m : Machine) (regs no : Nat) (scratch : Mem) : Prop where
  low : (m.stack boot).1 ≤ regs
  high : regs + m.cpu.frameLen ≤ (m.stack boot).1 + (m.stack boot).2
  frame : FrameAt scratch regs m.cpu
  number : load32 scratch (regs + 44) = no
  other : ∀ x, x < (m.stack boot).1 ∨ regs + m.cpu.frameLen ≤ x → scratch x = m.sched.mem x

section

variable {boot : Nat × Nat} {m : Machine} {rest : List Nat} {scratch mem : Mem} {cpu : Cpu}
  {no buffer regs : Nat}

/-- A frame has at least 16 words. -/
theorem Cpu.frameLen_ge (c : Cpu) : 64 ≤ c.frameLen := by
  rw [Cpu.frameLen]
  split <;> decide

/-- The stack of the current thread does not wrap around. -/
theorem CtxOk.stack_end (h : CtxOk boot m rest) (hboot : boot.1 + boot.2 ≤ 2 ^ 32) :
    (m.stack boot).1 + (m.stack boot).2 ≤ 2 ^ 32 :=
  h.stack_le hboot List.mem_cons_self

/-- The thread goes on when memory has changed on its kernel stack only. -/
theorem CtxOk.goOn (h : CtxOk boot m rest) (hboot : boot.1 + boot.2 ≤ 2 ^ 32)
    (huser : cpu.user = true → (m.sched.threads m.sched.currentThread).ustack ≠ 0)
    (hss : cpu.user = false → cpu.ss = kernelData)
    (hmem : ∀ x, x < (m.stack boot).1 ∨ (m.stack boot).1 + (m.stack boot).2 ≤ x →
      mem x = m.sched.mem x) :
    ∃ rest', CtxOk boot (m.goOn cpu mem) rest' := by
  have hok : (Event.run cpu mem).Ok boot m := by
    refine ⟨huser, hss, fun a x ha hx => hmem x ?_⟩
    -- the stacks of the threads that wait are apart from this one
    have ha' := h.ring.waits_iff.mp ha
    have hoff := not_onStacks (fun c hc d hd => h.ring.stacks_apart h.kstack h.apart
      (List.mem_cons_of_mem _ ha') List.mem_cons_self ha.1 hc hd) hx
    by_contra hin
    apply hoff
    exact ⟨_, List.mem_cons_self, by rw [Machine.stack] at hin; omega,
      by rw [Machine.stack] at hin; omega⟩
  exact h.exec hboot hok rfl

/-- **Entering a handler**: the frame is on the kernel stack, with its number. -/
theorem CtxOk.enter (h : CtxOk boot m rest) (hboot : boot.1 + boot.2 ≤ 2 ^ 32) (hno : no < 2 ^ 32)
    (hok : EntersOk boot m no scratch) :
    Entered boot m (enterStub m.cpu no m.sched.esp0 m.sched.mem).2 no scratch := by
  obtain ⟨hroom, hscratch⟩ := hok
  have hle := h.stack_end hboot
  have hlen := m.cpu.frameLen_ge
  -- where the pushes start
  obtain ⟨p, hp, hlow, hhigh⟩ : ∃ p,
      p % 2 ^ 32 = (if m.cpu.user then m.sched.esp0 else m.cpu.esp.toNat) ∧
      (m.stack boot).1 + m.cpu.frameLen ≤ p ∧ p ≤ (m.stack boot).1 + (m.stack boot).2 := by
    rw [HasRoom] at hroom
    split at hroom
    · have hesp0 := h.esp0 (h.user ‹_›)
      rw [if_pos ‹_›]
      exact ⟨m.sched.esp0, Nat.mod_eq_of_lt (by rw [Machine.stack] at hle; omega), hroom, hesp0.le⟩
    · rw [if_neg ‹_›]
      exact hroom
  obtain ⟨hregs, hframe, hnumber, hother⟩ :=
    enterStub_spec m.cpu no m.sched.mem hno hp (by omega) (by omega) h.ss
  rw [hregs] at hscratch ⊢
  refine ⟨by omega, by omega, ?_, ?_, fun x hx => ?_⟩
  · exact hframe.congr fun x h1 _ => hscratch x (Or.inr h1)
  · rw [← hnumber]
    exact load32_congr fun x h1 _ => hscratch x (Or.inr (by omega))
  · rw [hscratch x (by omega)]
    exact hother x (by omega)

/-- A number below `2 ^ 32` has ten digits at most. -/
theorem length_numeral_le {base v : Nat} (hb : 10 ≤ base) (hv : v < 2 ^ 32) :
    (numeral false base v).length ≤ 10 := by
  rw [numeral, List.length_map, List.length_reverse, lowDigits]
  split
  · decide
  · rw [Nat.digits_length_le_iff (by omega)]
    calc v < 2 ^ 32 := hv
      _ ≤ 10 ^ 10 := by norm_num
      _ ≤ base ^ 10 := Nat.pow_le_pow_left hb 10

/-- The buffer of `vga_print_dec` and `vga_print_hex` is large enough. -/
theorem itoa_leaves (mem : Mem) (kbd : Keyboard) (lo regs buffer : Nat) {base v : Nat}
    (hb : 10 ≤ base) (hbase : base ≤ 36) (hv : v < 2 ^ 32) (hbuffer : buffer + 12 ≤ 2 ^ 32) :
    Leaves (itoa mem v buffer base).1 kbd lo regs buffer (.digits buffer)
      ((numeral false base v).map .char) ∧
    ∀ x, x < buffer ∨ buffer + 12 ≤ x → (itoa mem v buffer base).1 x = mem x := by
  have hlen := length_numeral_le hb hv
  have hroom : buffer + (numeral false base v).length < 2 ^ 32 := by omega
  obtain ⟨-, htext, hother⟩ := itoa_text (m := mem) (by omega) hbase hv hroom
  refine ⟨⟨_, htext, rfl, le_refl _, by omega⟩, fun x hx => hother x ?_⟩
  generalize (numeral false base v).length = n at *
  omega

/-- What a system call other than `thread_exit` has come to when its loop begins. -/
structure Asked (boot : Nat × Nat) (m : Machine) (kbd : Keyboard) (regs buffer : Nat)
    (scratch mem : Mem) (left : Left) : Prop where
  leaves : Leaves mem kbd (m.stack boot).1 regs buffer left (callText m.sched.mem m.cpu)
  passes : left.passes (callText m.sched.mem m.cpu) =
    if m.cpu.eax.toNat < numSyscalls then (callText m.sched.mem m.cpu).length + 1 else 0
  other : ∀ x, x < buffer ∨ buffer + 12 ≤ x → mem x = scratch x

/-- A function that prints a number begins with its digits in the buffer. -/
theorem itoa_asked (kbd : Keyboard) (scratch : Mem) {base : Nat} (hb : 10 ≤ base)
    (hbase : base ≤ 36) (hbuffer : buffer + 12 ≤ 2 ^ 32) (hlt : m.cpu.eax.toNat < numSyscalls)
    (hcall : callText m.sched.mem m.cpu = (numeral false base m.cpu.ebx.toNat).map .char) :
    Asked boot m kbd regs buffer scratch (itoa scratch m.cpu.ebx.toNat buffer base).1
      (.digits buffer) := by
  obtain ⟨hleaves, hother⟩ := itoa_leaves scratch kbd (m.stack boot).1 regs buffer hb hbase
    m.cpu.ebx.isLt hbuffer
  refine ⟨?_, ?_, hother⟩
  · rw [hcall]
    exact hleaves
  · rw [if_pos hlt]
    rfl

/-- `syscall_handler` takes the arguments of the function from the frame. -/
theorem Entered.syscallHandler (h : Entered boot m regs no scratch) :
    syscallHandler scratch regs buffer =
      if m.cpu.eax.toNat ≥ numSyscalls then (scratch, false, some .done)
      else
        let r := (syscalls.getD m.cpu.eax.toNat .threadExit).start scratch buffer
          [m.cpu.ebx.toNat, m.cpu.ecx.toNat, m.cpu.edx.toNat, m.cpu.esi.toNat, m.cpu.edi.toNat]
        (r.1, true, r.2) := by
  have hargs : [36, 32, 28, 24, 20].map (fun i => load32 scratch (regs + i)) =
      [m.cpu.ebx.toNat, m.cpu.ecx.toNat, m.cpu.edx.toNat, m.cpu.esi.toNat, m.cpu.edi.toNat] := by
    simp only [List.map_cons, List.map_nil, h.frame.ebx, h.frame.ecx, h.frame.edx, h.frame.esi,
      h.frame.edi]
  rw [Toutatis.syscallHandler]
  simp only [h.frame.eax, hargs]

/-- **A system call** begins to print the text that was asked for. -/
theorem Entered.asked (h : Entered boot m regs no scratch) (kbd : Keyboard)
    (hregs : regs ≤ 2 ^ 32)
    (htext : m.cpu.eax.toNat = 1 → ∃ l, Text m.sched.mem m.cpu.ebx.toNat l ∧ Escaped l ∧
      ∀ k ≤ l.length, m.cpu.ebx.toNat + k < (m.stack boot).1 ∨
        regs + m.cpu.frameLen ≤ m.cpu.ebx.toNat + k)
    (hbuffer : buffer + 12 ≤ regs) (hne : m.cpu.eax.toNat ≠ 0) :
    ∃ mem left, Toutatis.syscallHandler scratch regs buffer =
        (mem, decide (m.cpu.eax.toNat < numSyscalls), some left) ∧
      Asked boot m kbd regs buffer scratch mem left := by
  have hebx := m.cpu.ebx.isLt
  rw [h.syscallHandler]
  generalize heax : m.cpu.eax.toNat = eax at *
  obtain rfl | rfl | rfl | hge : eax = 1 ∨ eax = 2 ∨ eax = 3 ∨ numSyscalls ≤ eax := by
    rw [numSyscalls]
    omega
  · -- vga_print_str reads the string of the caller
    obtain ⟨l, hl, hesc, hout⟩ := htext rfl
    have hcall : callText m.sched.mem m.cpu = strEvents l := by
      have hlen := hl.room
      rw [callText, heax, if_pos rfl, strncpy_of_holds hl.bytes hl.nonzero (by omega)]
    refine ⟨scratch, .str m.cpu.ebx.toNat, rfl, ⟨l, ?_, hesc, hcall, fun k hk => ?_⟩, ?_,
      fun _ _ => rfl⟩
    · apply hl.congr
      intro x h1 h2
      apply h.other
      have := hout (x - m.cpu.ebx.toNat) (by omega)
      omega
    · have := hout k hk
      omega
    · rw [heax]
      rfl
  · have hcall : callText m.sched.mem m.cpu =
        (numeral false 10 m.cpu.ebx.toNat).map VgaEvent.char := by
      rw [callText, heax]
      rfl
    refine ⟨(itoa scratch m.cpu.ebx.toNat buffer 10).1, .digits buffer, ?_, ?_⟩
    · simp [syscalls, Syscall.start, numSyscalls]
    · apply itoa_asked kbd scratch (by decide) (by decide) (hbuffer.trans hregs) _ hcall
      rw [heax]
      decide
  · have hcall : callText m.sched.mem m.cpu =
        (numeral false 16 m.cpu.ebx.toNat).map VgaEvent.char := by
      rw [callText, heax]
      rfl
    refine ⟨(itoa scratch m.cpu.ebx.toNat buffer 16).1, .digits buffer, ?_, ?_⟩
    · simp [syscalls, Syscall.start, numSyscalls]
    · apply itoa_asked kbd scratch (by decide) (by decide) (hbuffer.trans hregs) _ hcall
      rw [heax]
      decide
  · have hlt : ¬ eax < numSyscalls := Nat.not_lt.mpr hge
    have hcall : callText m.sched.mem m.cpu = [] := by
      rw [numSyscalls] at hge
      rw [callText, heax, if_neg (by omega), if_neg (by omega), if_neg (by omega)]
    rw [if_pos hge]
    refine ⟨scratch, .done, by rw [decide_eq_false hlt], ?_, ?_, fun _ _ => rfl⟩
    · exact hcall
    · rw [heax, if_neg hlt]
      rfl

end

/-! ## The invariant -/

section

variable {boot : Nat × Nat} {s s' : Kernel} {h : Handling} {es : List VgaEvent} {scratch mem : Mem}
  {screen₀ : Console}

/-- The handler `h` is under way on the current thread, and `es` is left of its text: its frame is
    in place, and the interrupts are off. -/
structure BusyWith (boot : Nat × Nat) (s : Kernel) (h : Handling) (es : List VgaEvent) : Prop where
  handling : s.handling s.machine.sched.currentThread = [h]
  low : (s.machine.stack boot).1 ≤ h.regs
  high : h.regs + h.origin.frameLen ≤ (s.machine.stack boot).1 + (s.machine.stack boot).2
  frame : FrameAt s.machine.sched.mem h.regs h.origin
  user : h.origin.user = true → (s.machine.sched.threads s.machine.sched.currentThread).ustack ≠ 0
  intr : s.machine.cpu.intr = false
  leaves : Leaves s.machine.sched.mem s.kbd (s.machine.stack boot).1 h.regs h.buffer h.left es

/-- What is still going to be printed: nothing when the thread's own code is running. -/
inductive Todo (boot : Nat × Nat) (s : Kernel) : List VgaEvent → Prop where
  | idle (hidle : s.Idle) : Todo boot s []
  | busy {h : Handling} {es : List VgaEvent} (hbusy : BusyWith boot s h es) : Todo boot s es

/-- The invariant: at most one handler is under way, on the current thread, and the screen with what
    is left to be printed is that of all texts one after the other. -/
structure KernelOk (boot : Nat × Nat) (screen₀ : Console) (s : Kernel) : Prop where
  ctx : ∃ rest, CtxOk boot s.machine rest
  others : ∀ a, a ≠ s.machine.sched.currentThread → s.handling a = []
  screen : ScreenOk s.screen
  todo : ∃ es, Todo boot s es ∧
    execAll VgaEvent.exec screen₀ s.log.flatten = execAll VgaEvent.exec s.screen es

/-- A handler starts with the interrupts off. -/
theorem Cpu.intr_inHandler (c : Cpu) (regs : Nat) : (c.inHandler regs false).intr = false := by
  simp [Cpu.intr, Cpu.inHandler, Cpu.setIntr]

/-- A handler runs in ring 0. -/
theorem Cpu.user_inHandler (c : Cpu) (regs : Nat) (intr : Bool) :
    (c.inHandler regs intr).user = false := by
  have hcs : ¬ kcodeSel &&& 3#16 = 3#16 := by decide
  exact decide_eq_false hcs

/-- While a handler is under way the kernel is not idle. -/
theorem not_idle_of_cons {hs : List Handling}
    (hhandling : s.handling s.machine.sched.currentThread = h :: hs) : ¬ s.Idle := by
  intro hidle
  rw [Kernel.Idle, hhandling] at hidle
  exact List.cons_ne_nil _ _ hidle

/-- So it is not in the middle of a call. -/
theorem BusyWith.not_idle (hb : BusyWith boot s h es) : ¬ s.Idle := not_idle_of_cons hb.handling

/-- An interrupt does not find a handler under way. -/
theorem KernelOk.idle_of_intr (hk : KernelOk boot screen₀ s) (hi : s.machine.cpu.intr = true) :
    s.Idle := by
  obtain ⟨es, htodo, -⟩ := hk.todo
  cases htodo with
  | idle hidle => exact hidle
  | busy hb =>
    rw [hb.intr] at hi
    exact absurd hi (by decide)

/-- Between the handlers every text is on the screen as a whole. -/
theorem KernelOk.settled (hk : KernelOk boot screen₀ s) (hidle : s.Idle) :
    execAll VgaEvent.exec screen₀ s.log.flatten = some s.screen := by
  obtain ⟨es, htodo, hlog⟩ := hk.todo
  cases htodo with
  | idle => exact hlog
  | busy hb => exact absurd hidle hb.not_idle

/-- While a handler is under way, nothing happens but its next pass and its end. -/
theorem BusyWith.event_cases (hb : BusyWith boot s h es) {e : KernelEvent} (hok : e.Ok boot s) :
    (∃ scratch, e = .step scratch) ∨ ∃ eax, e = .ret eax := by
  have hintr := hb.intr
  have hidle := hb.not_idle
  cases e with
  -- the thread's own code does not run while a handler is under way
  | run cpu mem => exact absurd hok.1 hidle
  | create a thread kstack ustack => exact absurd hok.1 hidle
  | exit => exact absurd hok.1 hidle
  | syscall scratch buffer => exact absurd hok.1 hidle
  -- the interrupts are off
  | key scancode scratch => exact absurd (hintr.symm.trans hok.1) (by decide)
  | step scratch => exact Or.inl ⟨scratch, rfl⟩
  | ret eax => exact Or.inr ⟨eax, rfl⟩
  | timer software scratch cycles =>
    have hwhen := hok.1
    cases software with
    | true => exact absurd hwhen hidle
    | false => exact absurd (hintr.symm.trans hwhen) (by decide)

/-- The handler under way makes a pass. -/
theorem BusyWith.of_step (hb : BusyWith boot s h es)
    (hok : (KernelEvent.step scratch).Ok boot s) :
    h.left ≠ .done ∧ ∀ x, x < (s.machine.stack boot).1 ∨ h.regs ≤ x ∨
      (h.buffer ≤ x ∧ x < h.buffer + 12) → scratch x = s.machine.sched.mem x := by
  obtain ⟨h', hs, hhandling, hne, hmem⟩ := hok
  rw [hb.handling, List.cons.injEq] at hhandling
  obtain ⟨rfl, -⟩ := hhandling
  exact ⟨hne, hmem⟩

/-- The handler under way comes back. -/
theorem BusyWith.of_ret (hb : BusyWith boot s h es) {eax : BitVec 32}
    (hok : (KernelEvent.ret eax).Ok boot s) : h.left = .done := by
  obtain ⟨h', hs, hhandling, hdone⟩ := hok
  rw [hb.handling, List.cons.injEq] at hhandling
  obtain ⟨rfl, -⟩ := hhandling
  exact hdone

/-- Nothing is printed any more when nothing is left to do. -/
theorem BusyWith.nothing_left (hb : BusyWith boot s h es) (hdone : h.left = .done) : es = [] := by
  have hleaves := hb.leaves
  rw [hdone] at hleaves
  exact hleaves

/-- When the thread's own code is not running, a handler is under way. -/
theorem KernelOk.exists_busy (hk : KernelOk boot screen₀ s) (hidle : ¬ s.Idle) :
    ∃ h es, BusyWith boot s h es ∧
      execAll VgaEvent.exec screen₀ s.log.flatten = execAll VgaEvent.exec s.screen es := by
  obtain ⟨es, htodo, hlog⟩ := hk.todo
  cases htodo with
  | idle hidle' => exact absurd hidle' hidle
  | @busy h es hb => exact ⟨h, es, hb, hlog⟩

/-! ## The events -/

/-- What changes in a state when the current thread goes on and its handlers are replaced. -/
theorem KernelOk.replace (hk : KernelOk boot screen₀ s) (hboot : boot.1 + boot.2 ≤ 2 ^ 32)
    {cpu : Cpu} {hs : List Handling}
    (hcur : s'.machine = s.machine.goOn cpu mem)
    (hhandling : s'.handling = Function.update s.handling s.machine.sched.currentThread hs)
    (huser : cpu.user = true →
      (s.machine.sched.threads s.machine.sched.currentThread).ustack ≠ 0)
    (hss : cpu.user = false → cpu.ss = kernelData)
    (hmem : ∀ x, x < (s.machine.stack boot).1 ∨
      (s.machine.stack boot).1 + (s.machine.stack boot).2 ≤ x → mem x = s.machine.sched.mem x)
    (hscreen : ScreenOk s'.screen)
    (htodo : ∃ es, Todo boot s' es ∧
      execAll VgaEvent.exec screen₀ s'.log.flatten = execAll VgaEvent.exec s'.screen es) :
    KernelOk boot screen₀ s' := by
  obtain ⟨rest, hctx⟩ := hk.ctx
  refine ⟨?_, fun a ha => ?_, hscreen, htodo⟩
  · rw [hcur]
    exact hctx.goOn hboot huser hss hmem
  · rw [hcur] at ha
    have ha' : a ≠ s.machine.sched.currentThread := ha
    rw [hhandling, Function.update_of_ne ha']
    exact hk.others a ha'

/-- The state of a handler that has been entered. -/
theorem Entered.busyWith {no : Nat} {text : List VgaEvent} {rest : List Nat}
    (hctx : CtxOk boot s.machine rest) (hidle : s.Idle)
    (hent : Entered boot s.machine h.regs no scratch) (horigin : h.origin = s.machine.cpu)
    (hmem : ∀ x, x < (s.machine.stack boot).1 ∨ h.regs ≤ x → mem x = scratch x)
    (hleaves : Leaves mem s.kbd (s.machine.stack boot).1 h.regs h.buffer h.left text) :
    BusyWith boot (s.enter h mem text) h text where
  handling := by
    rw [Kernel.Idle] at hidle
    rw [Kernel.enter, hidle]
    exact Function.update_self _ _ _
  low := hent.low
  high := by
    rw [horigin]
    exact hent.high
  frame := by
    rw [horigin]
    exact hent.frame.congr fun x h1 _ => hmem x (Or.inr h1)
  user := by
    rw [horigin]
    exact hctx.user
  intr := Cpu.intr_inHandler _ _
  leaves := hleaves

/-- **Entering a handler.** -/
theorem KernelOk.enter {no : Nat} {text : List VgaEvent} (hk : KernelOk boot screen₀ s)
    (hboot : boot.1 + boot.2 ≤ 2 ^ 32) (hidle : s.Idle)
    (hent : Entered boot s.machine h.regs no scratch) (horigin : h.origin = s.machine.cpu)
    (hmem : ∀ x, x < (s.machine.stack boot).1 ∨ h.regs ≤ x → mem x = scratch x)
    (hleaves : Leaves mem s.kbd (s.machine.stack boot).1 h.regs h.buffer h.left text) :
    KernelOk boot screen₀ (s.enter h mem text) := by
  obtain ⟨rest, hctx⟩ := hk.ctx
  have hbusy := hent.busyWith hctx hidle horigin hmem hleaves
  refine hk.replace hboot rfl rfl ?_ (fun _ => rfl) (fun x hx => ?_) hk.screen
    ⟨text, .busy hbusy, ?_⟩
  · rw [Cpu.user_inHandler]
    exact fun hu => absurd hu Bool.false_ne_true
  · have hhigh := hent.high
    rw [hmem x (by omega)]
    exact hent.other x (by omega)
  · -- the texts before this one are on the screen
    have hsettled := hk.settled hidle
    rw [show (s.enter h mem text).log = s.log ++ [text] from rfl, List.flatten_append,
      List.flatten_singleton, execAll_append, hsettled]
    rfl

/-- A system call other than `thread_exit` enters its function. -/
theorem Kernel.syscall_eq {rest : List Nat} {buffer : Nat} (hctx : CtxOk boot s.machine rest)
    (hboot : boot.1 + boot.2 ≤ 2 ^ 32) (hok : (KernelEvent.syscall scratch buffer).Ok boot s)
    (hne : s.machine.cpu.eax.toNat ≠ 0) : ∃ h mem,
    s.syscall scratch buffer = some (s.enter h mem (callText s.machine.sched.mem s.machine.cpu)) ∧
    h.regs = (enterStub s.machine.cpu syscallVector s.machine.sched.esp0 s.machine.sched.mem).2 ∧
    h.origin = s.machine.cpu ∧ h.called = decide (s.machine.cpu.eax.toNat < numSyscalls) ∧
    Entered boot s.machine h.regs syscallVector scratch ∧
    (∀ x, x < (s.machine.stack boot).1 ∨ h.regs ≤ x → mem x = scratch x) ∧
    Asked boot s.machine s.kbd h.regs h.buffer scratch mem h.left := by
  obtain ⟨-, henters, -, htext, hlow, hbuffer⟩ := hok
  have hent := hctx.enter hboot (by decide) henters
  have hend := hctx.stack_end hboot
  have hhigh := hent.high
  rw [Kernel.syscall]
  generalize (enterStub s.machine.cpu syscallVector s.machine.sched.esp0 s.machine.sched.mem).2 =
    regs at *
  obtain ⟨mem, left, hhandler, hasked⟩ := hent.asked s.kbd (by omega) htext hbuffer hne
  simp only [hent.number, hhandler]
  refine ⟨⟨regs, decide (s.machine.cpu.eax.toNat < numSyscalls), buffer, left, s.machine.cpu⟩, mem,
    rfl, rfl, rfl, rfl, hent, fun x hx => ?_, hasked⟩
  apply hasked.other
  dsimp only at hx
  omega

/-- A system call starts its handler. -/
theorem KernelOk.syscall (hk : KernelOk boot screen₀ s) (hboot : boot.1 + boot.2 ≤ 2 ^ 32)
    {buffer : Nat} (hok : (KernelEvent.syscall scratch buffer).Ok boot s) :
    ∃ s', s.syscall scratch buffer = some s' ∧ KernelOk boot screen₀ s' := by
  obtain ⟨rest, hctx⟩ := hk.ctx
  by_cases heax : s.machine.cpu.eax.toNat = 0
  · -- thread_exit, which does not come back
    obtain ⟨hidle, henters, hexit, -⟩ := hok
    have hent := hctx.enter hboot (by decide) henters
    have hhigh := hent.high
    rw [Kernel.syscall]
    generalize (enterStub s.machine.cpu syscallVector s.machine.sched.esp0 s.machine.sched.mem).2 =
      regs at *
    have hhandler : syscallHandler scratch regs buffer = (scratch, true, none) := by
      rw [hent.syscallHandler, heax]
      rfl
    simp only [hent.number, hhandler]
    have huser : (s.machine.cpu.inHandler regs true).user = true →
        (s.machine.sched.threads s.machine.sched.currentThread).ustack ≠ 0 := by
      rw [Cpu.user_inHandler]
      exact fun hu => absurd hu Bool.false_ne_true
    obtain ⟨rest', hgone⟩ := hctx.goOn hboot huser (fun _ => rfl)
      fun x hx => hent.other x (by omega)
    have hexit' : Event.exit.Ok boot
        (s.machine.goOn (s.machine.cpu.inHandler regs true) scratch) := hexit heax
    refine ⟨_, rfl, hgone.exec hboot hexit' rfl, hk.others, hk.screen, [], .idle hidle, ?_⟩
    exact hk.settled hidle
  · obtain ⟨h, mem, heq, -, horigin, -, hent, hmem, hasked⟩ := Kernel.syscall_eq hctx hboot hok heax
    rw [heq]
    exact ⟨_, rfl, hk.enter hboot hok.1 hent horigin hmem hasked.leaves⟩

/-- A key starts its handler. -/
theorem KernelOk.key (hk : KernelOk boot screen₀ s) (hboot : boot.1 + boot.2 ≤ 2 ^ 32)
    {scancode : UInt8} (hok : (KernelEvent.key scancode scratch).Ok boot s) :
    ∃ s', s.key scancode scratch = some s' ∧ KernelOk boot screen₀ s' := by
  obtain ⟨rest, hctx⟩ := hk.ctx
  obtain ⟨hintr, henters⟩ := hok
  have hent := hctx.enter hboot (by decide) henters
  rw [Kernel.key]
  generalize (enterStub s.machine.cpu 1 s.machine.sched.esp0 s.machine.sched.mem).2 = regs at *
  simp only [hent.number]
  refine ⟨_, rfl, hk.enter hboot (hk.idle_of_intr hintr) hent rfl (fun _ _ => rfl) ?_⟩
  rfl

/-- A pass of a handler. -/
theorem BusyWith.step (hb : BusyWith boot s h es) (hscreen : ScreenOk s.screen)
    (hok : (KernelEvent.step scratch).Ok boot s) : ∃ left screen kbd es',
    let s' := { s with
      machine := s.machine.goOn s.machine.cpu scratch
      screen := screen
      kbd := kbd }.setHandling [{ h with left := left }]
    s.step scratch = some s' ∧ ScreenOk screen ∧ BusyWith boot s' { h with left := left } es' ∧
    execAll VgaEvent.exec s.screen es = execAll VgaEvent.exec screen es' ∧
    h.left.passes es = left.passes es' + 1 := by
  obtain ⟨hne, hmem⟩ := hb.of_step hok
  obtain ⟨left, screen, kbd, hstep, hok', es', hleaves, hexec, hpasses⟩ :=
    hb.leaves.step hne hscreen
  refine ⟨left, screen, kbd, es', ?_, hok', ?_, hexec, hpasses⟩
  · -- one character is printed
    rw [Kernel.step, hb.handling]
    simp only [hstep, Option.map_some]
  · -- the frame is not written to
    refine ⟨Function.update_self _ _ _, hb.low, hb.high, ?_, hb.user, hb.intr, ?_⟩
    · exact hb.frame.congr fun x h1 _ => hmem x (Or.inr (Or.inl h1))
    · exact hleaves.congr hmem

/-- The end of a handler. -/
theorem BusyWith.ret (hb : BusyWith boot s h es) (hend : (s.machine.stack boot).1 +
      (s.machine.stack boot).2 ≤ 2 ^ 32) (hdone : h.left = .done) (eax : BitVec 32) : ∃ mem,
    let cpu := if h.called then { h.origin with eax := eax } else h.origin
    s.ret eax = some ({ s with machine := s.machine.goOn cpu mem }.setHandling []) ∧
    ∀ x, x < h.regs ∨ h.regs + h.origin.frameLen ≤ x → mem x = s.machine.sched.mem x := by
  have hlen := h.origin.frameLen_ge
  have hhigh := hb.high
  refine ⟨if h.called then store32 s.machine.sched.mem (h.regs + 40) eax.toNat
    else s.machine.sched.mem, ?_, fun x hx => ?_⟩
  · rw [Kernel.ret, hb.handling]
    simp only [hdone, if_true]
    cases hcalled : h.called with
    | false =>
      simp only [Bool.false_eq_true, if_false]
      rw [hb.frame.restoreFrame (by omega)]
    | true =>
      -- the result is in the place of eax when the registers are popped
      have hframe : FrameAt (store32 s.machine.sched.mem (h.regs + 40) eax.toNat) h.regs
          { h.origin with eax := eax } := by
        apply hb.frame.setEax
        · intro i hi
          exact load32_store32_of_disjoint _ _ (by omega)
        · rw [load32_store32_self]
          exact Nat.mod_eq_of_lt eax.isLt
      have hroom : h.regs + ({ h.origin with eax := eax } : Cpu).frameLen ≤ 2 ^ 32 :=
        hhigh.trans hend
      simp only [if_true]
      rw [hframe.restoreFrame hroom]
  · split
    · exact store32_apply_of_disjoint _ _ (by omega)
    · rfl

/-- One pass of a handler prints one character. -/
theorem KernelOk.step (hk : KernelOk boot screen₀ s) (hboot : boot.1 + boot.2 ≤ 2 ^ 32)
    (hok : (KernelEvent.step scratch).Ok boot s) :
    ∃ s', s.step scratch = some s' ∧ KernelOk boot screen₀ s' := by
  obtain ⟨rest, hctx⟩ := hk.ctx
  have hhandling := hok
  obtain ⟨h', hs, hhandling, -⟩ := hhandling
  obtain ⟨h, es, hb, hlog⟩ := hk.exists_busy (not_idle_of_cons hhandling)
  obtain ⟨left, screen, kbd, es', heq, hscreen, hb', hexec, -⟩ := hb.step hk.screen hok
  obtain ⟨-, hmem⟩ := hb.of_step hok
  have hhigh := hb.high
  refine ⟨_, heq, hk.replace hboot rfl rfl hctx.user hctx.ss (fun x hx => hmem x ?_) hscreen
    ⟨es', .busy hb', hlog.trans hexec⟩⟩
  omega

/-- A handler that is done returns to the thread. -/
theorem KernelOk.ret (hk : KernelOk boot screen₀ s) (hboot : boot.1 + boot.2 ≤ 2 ^ 32)
    {eax : BitVec 32} (hok : (KernelEvent.ret eax).Ok boot s) :
    ∃ s', s.ret eax = some s' ∧ KernelOk boot screen₀ s' := by
  obtain ⟨rest, hctx⟩ := hk.ctx
  have hhandling := hok
  obtain ⟨h', hs, hhandling, -⟩ := hhandling
  obtain ⟨h, es, hb, hlog⟩ := hk.exists_busy (not_idle_of_cons hhandling)
  have hdone := hb.of_ret hok
  obtain ⟨mem, heq, hmem⟩ := hb.ret (hctx.stack_end hboot) hdone eax
  have hlow := hb.low
  have hhigh := hb.high
  obtain rfl := hb.nothing_left hdone
  refine ⟨_, heq, hk.replace hboot rfl rfl ?_ ?_ (fun x hx => hmem x (by omega)) hk.screen
    ⟨[], .idle (Function.update_self _ _ _), hlog⟩⟩
  · -- a thread that goes on in user mode has a user stack
    intro hu
    apply hb.user
    rw [← hu]
    split <;> rfl
  · -- otherwise it goes on with the stack segment of the kernel
    have hss := hb.frame.ss
    intro hu
    cases hcalled : h.called <;> rw [hcalled] at hu <;>
      simpa [show h.origin.user = false from hu] using hss

/-- Blocks that are fresh beside the stack of `main` are fresh. -/
theorem freshBlocks_of_boot {s : Sched} {user : Bool} {t k u : Nat}
    (hf : FreshBlocks { s with heap := boot :: s.heap } user t k u) : FreshBlocks s user t k u := by
  have hsub : s.heap ⊆ boot :: s.heap := List.subset_cons_self _ _
  refine ⟨hf.1.mono hsub, fun ht => ⟨(hf.2 ht).1.mono ?_, fun hk hu => ((hf.2 ht).2 hk hu).mono ?_⟩⟩
  · exact List.cons_subset_cons _ hsub
  · exact List.cons_subset_cons _ (List.cons_subset_cons _ hsub)

/-- **Every event** keeps the invariant. -/
theorem KernelOk.exec (hk : KernelOk boot screen₀ s) (hboot : boot.1 + boot.2 ≤ 2 ^ 32)
    {e : KernelEvent} (hok : e.Ok boot s) :
    ∃ s', s.exec e = some s' ∧ KernelOk boot screen₀ s' := by
  obtain ⟨rest, hctx⟩ := hk.ctx
  cases e with
  | run cpu mem =>
    -- the thread computes
    exact ⟨_, rfl, hctx.exec hboot hok.2 rfl, hk.others, hk.screen, [], .idle hok.1,
      hk.settled hok.1⟩
  | create a thread kstack ustack =>
    -- a thread is created behind the others
    obtain ⟨hidle, hcreate, hprocess⟩ := hok
    obtain ⟨r, hr⟩ : ∃ r, createThread s.machine.sched a thread kstack ustack = some r := by
      rw [createThread]
      split_ifs <;> exact ⟨_, rfl⟩
    have hcur := (hctx.ring.create_frame (freshBlocks_of_boot hcreate.1) hr).1
    have heq : s.machine.exec (.create a thread kstack ustack) = some
        { s.machine with
          sched := r.2
          past := Function.update s.machine.past thread (.new a) } := by
      rw [Machine.exec, hr]
      rfl
    refine ⟨{ s with machine := { s.machine with
        sched := r.2, past := Function.update s.machine.past thread (.new a) } }, ?_,
      hctx.exec hboot hcreate heq, ?_, hk.screen, [], ?_, hk.settled hidle⟩
    · rw [Kernel.exec, heq]
      rfl
    · intro x hx
      exact hk.others x (by rwa [← hcur])
    · apply Todo.idle
      rw [Kernel.Idle]
      simp only [hcur]
      exact hidle
  | exit =>
    -- the current thread is marked, and runs on until the next tick
    obtain ⟨hidle, hexit⟩ := hok
    obtain ⟨rest', hctx'⟩ := hctx.exec hboot hexit rfl
    refine ⟨_, rfl, ?_, hk.others, hk.screen, [], .idle hidle, hk.settled hidle⟩
    exact hctx'.goOn hboot hctx'.user hctx'.ss fun _ _ => rfl
  | syscall scratch buffer => exact hk.syscall hboot hok
  | key scancode scratch => exact hk.key hboot hok
  | step scratch => exact hk.step hboot hok
  | ret eax => exact hk.ret hboot hok
  | timer software scratch cycles =>
    -- a tick comes from the thread's own code only, so that no handler is cut off
    obtain ⟨hwhen, htimer⟩ := hok
    have hidle : s.Idle := by
      cases software with
      | true => exact hwhen
      | false => exact hk.idle_of_intr hwhen
    have hall : ∀ a, s.handling a = [] := fun a => by
      by_cases ha : a = s.machine.sched.currentThread
      · rw [ha]
        exact hidle
      · exact hk.others a ha
    obtain ⟨m', rest', heq, hctx', -⟩ := hctx.timer hboot htimer
    refine ⟨{ s with machine := m' }, ?_, ⟨rest', hctx'⟩, fun a _ => hall a, hk.screen, [],
      .idle (hall _), hk.settled hidle⟩
    rw [Kernel.exec, heq]
    rfl

/-! ## A system call to its end -/

/-- How a handler comes back. -/
structure CameBack (boot : Nat × Nat) (s s' : Kernel) (h : Handling) (es : List VgaEvent)
    (eax : BitVec 32) : Prop where
  cpu : s'.machine.cpu = if h.called then { h.origin with eax := eax } else h.origin
  sched : s'.machine.sched = { s.machine.sched with mem := s'.machine.sched.mem }
  idle : s'.Idle
  mem : ∀ x, x < (s.machine.stack boot).1 ∨ h.regs + h.origin.frameLen ≤ x →
    s'.machine.sched.mem x = s.machine.sched.mem x
  screen : execAll VgaEvent.exec s.screen es = some s'.screen

/-- Without a pass left the handler is done. -/
theorem Left.passes_eq_zero {left : Left} (h : left.passes es = 0) : left = .done := by
  cases left with
  | str p => exact absurd h (Nat.succ_ne_zero _)
  | digits p => exact absurd h (Nat.succ_ne_zero _)
  | key scancode => exact absurd h (Nat.succ_ne_zero _)
  | done => rfl

/-- **A handler comes back** after its passes, whatever events are allowed. -/
theorem BusyWith.finish (hboot : boot.1 + boot.2 ≤ 2 ^ 32) {n : Nat} {events : List KernelEvent}
    (hk : KernelOk boot screen₀ s) (hb : BusyWith boot s h es) (hn : h.left.passes es = n)
    (hall : Each Kernel.exec (KernelEvent.Ok boot) s events) (hlen : n < events.length) :
    ∃ (mems : List Mem) (eax : BitVec 32) (rest : List KernelEvent) (s' : Kernel),
      events = mems.map .step ++ .ret eax :: rest ∧ mems.length = n ∧
      execAll Kernel.exec s (mems.map .step ++ [.ret eax]) = some s' ∧
      CameBack boot s s' h es eax := by
  induction n generalizing s h es events with
  | zero =>
    have hdone := Left.passes_eq_zero hn
    cases events with
    | nil => exact absurd hlen (Nat.lt_irrefl 0)
    | cons e rest =>
      rcases hb.event_cases hall.1 with ⟨scratch, rfl⟩ | ⟨eax, rfl⟩
      · exact absurd hdone (hb.of_step hall.1).1
      · obtain ⟨rest', hctx⟩ := hk.ctx
        obtain ⟨mem, heq, hmem⟩ := hb.ret (hctx.stack_end hboot) hdone eax
        have hlow := hb.low
        obtain rfl := hb.nothing_left hdone
        refine ⟨[], eax, rest, _, rfl, rfl, execAll_cons_some heq, rfl, rfl, ?_, fun x hx => ?_,
          rfl⟩
        · exact Function.update_self _ _ _
        · exact hmem x (by omega)
  | succ n ih =>
    cases events with
    | nil => exact absurd hlen (Nat.not_lt_zero _)
    | cons e rest =>
      rcases hb.event_cases hall.1 with ⟨scratch, rfl⟩ | ⟨eax, rfl⟩
      · -- one pass, and the rest by induction
        obtain ⟨left, screen, kbd, es', heq, -, hb', hexec, hpasses⟩ := hb.step hk.screen hall.1
        obtain ⟨s₁, hs₁, hk'⟩ := hk.exec hboot hall.1
        obtain ⟨-, hmem⟩ := hb.of_step hall.1
        obtain rfl := Option.some.inj (heq.symm.trans hs₁)
        have hpass : left.passes es' = n := by omega
        obtain ⟨mems, eax, rest', s', rfl, rfl, hs', hback⟩ :=
          ih hk' hb' hpass (hall.2 _ hs₁) (by rw [List.length_cons] at hlen; omega)
        refine ⟨scratch :: mems, eax, rest', s', rfl, rfl, ?_, hback.cpu, hback.sched, hback.idle,
          fun x hx => ?_, hexec.trans hback.screen⟩
        · rw [List.map_cons, List.cons_append, execAll_cons_some hs₁]
          exact hs'
        · have hmem' := hback.mem x hx
          rw [hmem']
          exact hmem x (by have := hb.low; omega)
      · rw [hb.of_ret hall.1] at hn
        exact absurd hn.symm (Nat.succ_ne_zero n)

/-- A handler that leaves memory alone may go on to its end. -/
theorem BusyWith.quiet {n : Nat} (hb : BusyWith boot s h es) (hscreen : ScreenOk s.screen)
    (hn : h.left.passes es = n) (eax : BitVec 32) : Each Kernel.exec (KernelEvent.Ok boot) s
      (List.replicate n (.step s.machine.sched.mem) ++ [.ret eax]) := by
  induction n generalizing s h es with
  | zero => exact ⟨⟨h, [], hb.handling, Left.passes_eq_zero hn⟩, fun _ _ => trivial⟩
  | succ n ih =>
    have hne : h.left ≠ .done := by
      intro hdone
      rw [hdone] at hn
      exact absurd hn.symm (Nat.succ_ne_zero n)
    have hok : (KernelEvent.step s.machine.sched.mem).Ok boot s :=
      ⟨h, [], hb.handling, hne, fun _ _ => rfl⟩
    obtain ⟨left, screen, kbd, es', heq, hscreen', hb', -, hpasses⟩ := hb.step hscreen hok
    have hs₁ : s.exec (.step s.machine.sched.mem) = some _ := heq
    have hpass : left.passes es' = n := by omega
    rw [List.replicate_succ, List.cons_append, each_cons_some hs₁]
    exact ⟨hok, ih hb' hscreen' hpass⟩

end

/-! ## Runs -/

section Runs

variable {boot : Nat × Nat} {s₀ : Sched} {k : Nat} {cpu₀ : Cpu} {past₀ : Nat → Past}
  {screen₀ : Console} {kbd₀ : Keyboard}

/-- The start, after `scheduling_init`. -/
def kernelStart (s₀ : Sched) (k : Nat) (cpu₀ : Cpu) (past₀ : Nat → Past) (screen₀ : Console)
    (kbd₀ : Keyboard) : Kernel where
  machine := ⟨schedulingInit s₀ k, cpu₀, past₀⟩
  screen := screen₀
  kbd := kbd₀
  handling := fun _ => []
  log := []

/-- The start of the kernel. -/
theorem kernelOk_start (hboot : s₀.Boot) (hk : k ≠ 0) (hf : Fresh (boot :: s₀.heap) k threadSize)
    (huser : cpu₀.user = false) (hss : cpu₀.ss = kernelData) (hscreen : ScreenOk screen₀) :
    KernelOk boot screen₀ (kernelStart s₀ k cpu₀ past₀ screen₀ kbd₀) where
  ctx := ⟨[], CtxOk.init hboot hk hf huser hss⟩
  others := fun _ _ => rfl
  screen := hscreen
  todo := ⟨[], .idle rfl, rfl⟩

/-- The passes of a system call: one for each character and color, and one that finds the end. -/
def callPasses (m : Machine) : Nat :=
  if m.cpu.eax.toNat < numSyscalls then (callText m.sched.mem m.cpu).length + 1 else 0

/-- A system call may go on to its end. -/
theorem syscall_quiet {s : Kernel} {rest : List Nat} {scratch : Mem} {buffer : Nat}
    (hctx : CtxOk boot s.machine rest) (hle : boot.1 + boot.2 ≤ 2 ^ 32)
    (hscreen : ScreenOk s.screen) (hok : (KernelEvent.syscall scratch buffer).Ok boot s)
    (hne : s.machine.cpu.eax.toNat ≠ 0) (eax : BitVec 32) :
    ∃ mem, Each Kernel.exec (KernelEvent.Ok boot) s (.syscall scratch buffer ::
      (List.replicate (callPasses s.machine) (.step mem) ++ [.ret eax])) := by
  obtain ⟨h, mem, heq, -, horigin, -, hent, hmem, hasked⟩ := Kernel.syscall_eq hctx hle hok hne
  have hs : s.exec (.syscall scratch buffer) = some _ := heq
  have hb := hent.busyWith hctx hok.1 horigin hmem hasked.leaves
  have hquiet := hb.quiet hscreen hasked.passes eax
  exact ⟨mem, (each_cons_some hs).mpr ⟨hok, hquiet⟩⟩

/-- What a system call has done when it is back: it has printed its text, `eax` has the result if
    there is a function of the number, the other registers and the scheduler are as they were, and
    memory has changed below the stack pointer of the call only. -/
structure Returned (boot : Nat × Nat) (s s' : Kernel) (eax : BitVec 32) : Prop where
  cpu : s'.machine.cpu =
    if s.machine.cpu.eax.toNat < numSyscalls then { s.machine.cpu with eax := eax }
    else s.machine.cpu
  sched : s'.machine.sched = { s.machine.sched with mem := s'.machine.sched.mem }
  idle : s'.Idle
  mem : ∀ x, x < (s.machine.stack boot).1 ∨
    (enterStub s.machine.cpu syscallVector s.machine.sched.esp0 s.machine.sched.mem).2 +
      s.machine.cpu.frameLen ≤ x → s'.machine.sched.mem x = s.machine.sched.mem x
  screen : execAll VgaEvent.exec s.screen (callText s.machine.sched.mem s.machine.cpu) =
    some s'.screen

/-- **A system call is a call of the function.** In every state that a run reaches, what is allowed
    behind an `int 0x80` are the passes of the function and its end, and then the thread that has
    made the call goes on with what the function has done. -/
theorem call_returns (hboot : s₀.Boot) (hk : k ≠ 0) (hf : Fresh (boot :: s₀.heap) k threadSize)
    (hle : boot.1 + boot.2 ≤ 2 ^ 32) (huser : cpu₀.user = false) (hss : cpu₀.ss = kernelData)
    (hscreen : ScreenOk screen₀) {before events : List KernelEvent} {s : Kernel}
    (hbefore : Each Kernel.exec (KernelEvent.Ok boot)
      (kernelStart s₀ k cpu₀ past₀ screen₀ kbd₀) before)
    (hs : execAll Kernel.exec (kernelStart s₀ k cpu₀ past₀ screen₀ kbd₀) before = some s)
    {scratch : Mem} {buffer : Nat} (hne : s.machine.cpu.eax.toNat ≠ 0)
    (hall : Each Kernel.exec (KernelEvent.Ok boot) s (.syscall scratch buffer :: events))
    (hlen : callPasses s.machine < events.length) :
    ∃ (mems : List Mem) (eax : BitVec 32) (rest : List KernelEvent) (s' : Kernel),
      events = mems.map .step ++ .ret eax :: rest ∧
      mems.length = callPasses s.machine ∧
      execAll Kernel.exec s (.syscall scratch buffer :: (mems.map .step ++ [.ret eax])) = some s' ∧
      Returned boot s s' eax := by
  obtain ⟨s₁, hs₁, hok⟩ := exists_execAll (fun s e hi ho => KernelOk.exec hi hle ho)
    (kernelOk_start hboot hk hf huser hss hscreen) hbefore
  obtain rfl : s₁ = s := Option.some.inj (hs₁.symm.trans hs)
  obtain ⟨rest, hctx⟩ := hok.ctx
  obtain ⟨h, mem, heq, hregs, horigin, hcalled, hent, hmem, hasked⟩ :=
    Kernel.syscall_eq hctx hle hall.1 hne
  have hidle := hall.1.1
  have hs₂ : s₁.exec (.syscall scratch buffer) = some _ := heq
  have hb := hent.busyWith hctx hidle horigin hmem hasked.leaves
  have hk' := hok.enter hle hidle hent horigin hmem hasked.leaves
  obtain ⟨mems, eax, rest', s', hevents, hmems, hs', hback⟩ :=
    hb.finish hle hk' hasked.passes (hall.2 _ hs₂) hlen
  refine ⟨mems, eax, rest', s', hevents, hmems, (execAll_cons_some hs₂).trans hs', ?_, hback.sched,
    hback.idle, fun x hx => ?_, hback.screen⟩
  · have hcpu := hback.cpu
    rw [hcalled, horigin] at hcpu
    simpa only [decide_eq_true_eq] using hcpu
  · -- the handler has written below the stack pointer, and so has the stub
    have hhigh := hent.high
    have hlow := hent.low
    rw [← hregs] at hx
    have hback' := hback.mem x (by rw [horigin]; exact hx)
    rw [hback']
    exact (hmem x (by omega)).trans (hent.other x hx)

/-- The kernel thread asks for the number 7. -/
def sevenStart : Kernel :=
  kernelStart bootSched 0x1000 { bootCpu with eax := 2, ebx := 7 }
    (fun _ => .interrupted bootCpu) clearConsole startKbd.kbd

/-- Memory when the handler of this call begins. -/
def sevenMem : Mem :=
  (enterStub sevenStart.machine.cpu syscallVector sevenStart.machine.sched.esp0
    sevenStart.machine.sched.mem).1

/-- The record of the kernel thread lies in free memory. -/
theorem sevenStart_fresh : Fresh ((0x10000, 0x1000) :: bootSched.heap) 0x1000 threadSize := by
  decide

/-- The machine of the example has one thread. -/
theorem sevenStart_ctx : CtxOk (0x10000, 0x1000) sevenStart.machine [] :=
  CtxOk.init bootSched_boot (by decide) sevenStart_fresh (by decide) rfl

/-- The events of the example are allowed. -/
theorem sevenStart_each : ∃ mem, Each Kernel.exec (KernelEvent.Ok (0x10000, 0x1000)) sevenStart
    (.syscall sevenMem 0x10e00 ::
      (List.replicate (callPasses sevenStart.machine) (.step mem) ++ [.ret 0])) := by
  have hks :
      (sevenStart.machine.sched.threads sevenStart.machine.sched.currentThread).kstack = 0 := by
    decide
  have hstack : sevenStart.machine.stack (0x10000, 0x1000) = (0x10000, 0x1000) := by
    rw [Machine.stack, stackOf, if_pos hks]
  -- the frame of the kernel thread goes to the stack of main
  have hroom : HasRoom (0x10000, 0x1000) sevenStart.machine := by
    rw [HasRoom, stackOf, hks, if_pos rfl, if_neg (by decide)]
    exact ⟨0x10f00, by decide, by decide, by decide⟩
  have hregs : (enterStub sevenStart.machine.cpu syscallVector sevenStart.machine.sched.esp0
      sevenStart.machine.sched.mem).2 = 0x10f00 - sevenStart.machine.cpu.frameLen :=
    (enterStub_spec _ syscallVector _ (by decide) (by decide) (by decide) (by decide)
      fun _ => rfl).1
  have hok : (KernelEvent.syscall sevenMem 0x10e00).Ok (0x10000, 0x1000) sevenStart := by
    refine ⟨rfl, ⟨hroom, fun x _ => by rw [sevenMem]⟩, ?_, ?_, ?_, ?_⟩
    · exact fun h => absurd h (by decide)
    · exact fun h => absurd h (by decide)
    · rw [hstack]
      decide
    · rw [hregs]
      decide
  exact syscall_quiet sevenStart_ctx (by decide) clearConsole_ok hok (by decide) 0

/-- A numeral of one digit is printed. -/
theorem call_returns_seven : ∃ (mems : List Mem) (eax : BitVec 32) (s' : Kernel),
    execAll Kernel.exec sevenStart
      (.syscall sevenMem 0x10e00 :: (mems.map .step ++ [.ret eax])) = some s' ∧
    Returned (0x10000, 0x1000) sevenStart s' eax := by
  obtain ⟨mem, hall⟩ := sevenStart_each
  have hbefore : Each Kernel.exec (KernelEvent.Ok (0x10000, 0x1000)) sevenStart [] := trivial
  obtain ⟨mems, eax, -, s', -, -, hs', hreturned⟩ := call_returns bootSched_boot (by decide)
    sevenStart_fresh (by decide) (by decide) rfl clearConsole_ok hbefore rfl (by decide) hall
    (by rw [List.length_append, List.length_replicate]; exact Nat.lt_succ_self _)
  exact ⟨mems, eax, s', hs', hreturned⟩

end Runs

end Toutatis
