import Toutatis.Sched.Frame
import Toutatis.Sched.Ring

/-!
# Context switches

The processor together with the scheduler: threads run, create threads, exit, and are
interrupted by the timer. `Past` records, for every thread, the registers at its last
interruption, or that it has not run yet; nothing reads it. A context switch is transparent
when the registers that the stub pops are the ones recorded.

The stack that `main` runs on, and with it the kernel thread, is not in the heap; it is the
block `boot`.

## Key results

- `RingOk.stacks_apart`: the stacks of different threads do not overlap
- `CtxOk.exec`: what is saved on the stacks of the threads that wait stays there
- `context_switch_transparent`: every thread is resumed with the registers it was
  interrupted with, or starts as `create_thread` was told
-/

namespace Toutatis

open ByteMem Run Links

/-! ## The machine -/

/-- What became of a thread last: it was created, or it was interrupted. -/
inductive Past where
  | new (a : ThreadArgs)
  | interrupted (c : Cpu)

/-- The scheduler's state with memory, the processor, and the history of each thread. -/
structure Machine where
  sched : Sched
  cpu : Cpu
  past : Nat → Past

/-- The current thread computes, calls `create_thread` or `thread_exit`, or is interrupted by
    the timer. `scratch` is memory when the handler in C has run. -/
inductive Event where
  | run (cpu : Cpu) (mem : Mem)
  | create (a : ThreadArgs) (thread kstack ustack : Nat)
  | exit
  | timer (scratch : Mem) (cycles : Nat × Nat × Nat)

/-- The timer interrupts: the frame is pushed, `schedule_tick` is called with its address,
    and the frame at the address it returns is popped. -/
def Machine.timer (m : Machine) (scratch : Mem) (cycles : Nat × Nat × Nat) : Option Machine :=
  let regs := (saveFrame m.cpu m.sched.esp0 m.sched.mem).2
  (scheduleTick { m.sched with mem := scratch } regs cycles).map fun r =>
    { sched := r.2
      cpu := restoreFrame r.2.mem r.1
      past := Function.update m.past m.sched.currentThread (.interrupted m.cpu) }

/-- One event. -/
def Machine.exec (m : Machine) : Event → Option Machine
  | .run cpu mem => some { m with cpu := cpu, sched := { m.sched with mem := mem } }
  | .create a thread kstack ustack =>
    (createThread m.sched a thread kstack ustack).map fun r =>
      { m with sched := r.2, past := Function.update m.past thread (.new a) }
  | .exit => some { m with sched := threadExit m.sched }
  | .timer scratch cycles => m.timer scratch cycles

/-! ## Stacks -/

/-- The kernel stack of a thread. -/
def stackOf (boot : Nat × Nat) (t : Thread) : Nat × Nat :=
  if t.kstack = 0 then boot else (t.kstack, stackSize)

/-- The stacks of a thread. -/
def stacksOf (boot : Nat × Nat) (t : Thread) : List (Nat × Nat) :=
  stackOf boot t :: if t.ustack = 0 then [] else [(t.ustack, stackSize)]

/-- An address on a stack of the thread. -/
def OnStacks (boot : Nat × Nat) (t : Thread) (x : Nat) : Prop :=
  ∃ b ∈ stacksOf boot t, b.1 ≤ x ∧ x < b.1 + b.2

/-- The threads that wait: those that the links reach, but for the current one. -/
def Waits (s : Sched) (a : Nat) : Prop :=
  a ≠ s.currentThread ∧ ∃ i, (fun a => (s.threads a).next)^[i] s.currentThread = a

/-- The pushes of an interrupt have room on the kernel stack of the current thread, where in
    kernel mode the stack pointer also points to. -/
def HasRoom (boot : Nat × Nat) (m : Machine) : Prop :=
  let b := stackOf boot (m.sched.threads m.sched.currentThread)
  if m.cpu.user then b.1 + m.cpu.frameLen ≤ m.sched.esp0
  else ∃ p, p % 2 ^ 32 = m.cpu.esp.toNat ∧ b.1 + m.cpu.frameLen ≤ p ∧ p ≤ b.1 + b.2

/-- The conditions on events. Only user threads run in ring 3, and ring 0 uses the kernel's
    data segment for its stack; a thread does not write to the stacks of the threads that
    wait; `kmalloc` returns free memory; threads are not created for virtual 8086 mode; the
    kernel thread does not exit; the stack has room for the frame of an interrupt, and the
    handler changes neither the frame nor the stacks of the threads that wait. -/
def Event.Ok (boot : Nat × Nat) (m : Machine) : Event → Prop
  | .run cpu mem =>
    (cpu.user = true → (m.sched.threads m.sched.currentThread).ustack ≠ 0) ∧
    (cpu.user = false → cpu.ss = kernelData) ∧
    ∀ a x, Waits m.sched a → OnStacks boot (m.sched.threads a) x → mem x = m.sched.mem x
  | .create a thread kstack ustack =>
    FreshBlocks { m.sched with heap := boot :: m.sched.heap } a.user thread kstack ustack ∧
      a.vm86 = false
  | .exit => m.sched.currentThread ≠ m.sched.kernelThread
  | .timer scratch _ =>
    let st := saveFrame m.cpu m.sched.esp0 m.sched.mem
    HasRoom boot m ∧
    (∀ x, st.2 ≤ x → x < st.2 + m.cpu.frameLen → scratch x = st.1 x) ∧
    ∀ a x, Waits m.sched a → OnStacks boot (m.sched.threads a) x → scratch x = st.1 x

/-! ## What is saved -/

/-- The registers that a thread is to be resumed with. -/
def Past.cpu (t : Thread) : Past → Cpu
  | .new a => initialCpu a t.kstack t.ustack
  | .interrupted c => c

/-- The words on the stack that a new thread starts on: the argument of its entry function,
    below it the return address. -/
def StartStack (m : Mem) (exitAddr : Nat) (t : Thread) : Past → Prop
  | .new a =>
    t.kstack ≠ 0 ∧ (a.user = true → t.ustack ≠ 0) ∧
    load32 m ((if a.user then t.ustack else t.kstack) + stackSize - 4) = a.args % 2 ^ 32 ∧
    (a.user = false → load32 m (t.kstack + stackSize - 8) = exitAddr % 2 ^ 32)
  | .interrupted _ => True

/-- The frame of a thread that waits lies at `esp` on its kernel stack. -/
structure Suspended (boot : Nat × Nat) (m : Mem) (exitAddr : Nat) (t : Thread) (p : Past) :
    Prop where
  low : (stackOf boot t).1 ≤ t.esp
  high : t.esp + (p.cpu t).frameLen ≤ (stackOf boot t).1 + (stackOf boot t).2
  frame : FrameAt m t.esp (p.cpu t)
  user : (p.cpu t).user = true → t.ustack ≠ 0
  start : StartStack m exitAddr t p

/-- The invariant. -/
structure CtxOk (boot : Nat × Nat) (m : Machine) (rest : List Nat) : Prop where
  ring : RingOk m.sched rest
  finished : (m.sched.threads m.sched.currentThread).state = .finished →
    m.sched.currentThread ≠ m.sched.kernelThread
  kstack : ∀ a ∈ m.sched.currentThread :: rest, a ≠ m.sched.kernelThread →
    (m.sched.threads a).kstack ≠ 0
  apart : ∀ a ∈ m.sched.currentThread :: rest, ∀ b ∈ owned m.sched.threads a, Apart b boot
  suspended : ∀ a ∈ rest,
    Suspended boot m.sched.mem m.sched.threadExitAddr (m.sched.threads a) (m.past a)
  esp0 : (m.sched.threads m.sched.currentThread).ustack ≠ 0 →
    m.sched.esp0 < (stackOf boot (m.sched.threads m.sched.currentThread)).1 +
      (stackOf boot (m.sched.threads m.sched.currentThread)).2
  user : m.cpu.user = true → (m.sched.threads m.sched.currentThread).ustack ≠ 0
  ss : m.cpu.user = false → m.cpu.ss = kernelData

/-- How a new thread starts: at its entry, with interrupts enabled, with the segments of its
    privilege level, its argument on the stack and, for kernel threads, `thread_exit` as the
    return address. -/
structure Starts (m : Machine) (a : ThreadArgs) : Prop where
  eip : m.cpu.eip = BitVec.ofNat 32 a.entry
  interrupts : m.cpu.eflags.getLsbD 9 = true
  cs : m.cpu.cs = if a.user then 0x1b#16 else 0x08#16
  segments : ∀ d ∈ [m.cpu.ds, m.cpu.es, m.cpu.fs, m.cpu.gs, m.cpu.ss],
    d = if a.user then 0x23#16 else 0x10#16
  args : load32 m.sched.mem (m.cpu.esp.toNat + 4) = a.args % 2 ^ 32
  exit : a.user = false →
    load32 m.sched.mem m.cpu.esp.toNat = m.sched.threadExitAddr % 2 ^ 32

/-- The current thread has been given the processor as its past demands. -/
def Resumed (m : Machine) : Prop :=
  match m.past m.sched.currentThread with
  | .new a => Starts m a
  | .interrupted c => m.cpu = c

/-! ## Stacks of different threads -/

section

variable {boot : Nat × Nat} {s : Sched} {rest : List Nat}

/-- The stacks of a thread are its own, or the one of the boot. -/
theorem mem_stacksOf {t : Nat → Thread} {a : Nat} {b : Nat × Nat} (hb : b ∈ stacksOf boot (t a)) :
    (b = boot ∧ (t a).kstack = 0) ∨ b ∈ owned t a := by
  rw [stacksOf, List.mem_cons] at hb
  rcases hb with rfl | hb
  · by_cases hk : (t a).kstack = 0
    · exact Or.inl ⟨if_pos hk, hk⟩
    · exact Or.inr (by simp [stackOf, owned, hk])
  · exact Or.inr (by simp [owned, hb])

/-- Being apart goes both ways. -/
theorem Apart.symm {b c : Nat × Nat} (h : Apart b c) : Apart c b := Or.symm h

/-- **The stacks of different threads do not overlap.** -/
theorem RingOk.stacks_apart (h : RingOk s rest)
    (hk : ∀ a ∈ s.currentThread :: rest, a ≠ s.kernelThread → (s.threads a).kstack ≠ 0)
    (hboot : ∀ a ∈ s.currentThread :: rest, ∀ b ∈ owned s.threads a, Apart b boot)
    {a b : Nat} (ha : a ∈ s.currentThread :: rest) (hb : b ∈ s.currentThread :: rest) (hne : a ≠ b)
    {c d : Nat × Nat} (hc : c ∈ stacksOf boot (s.threads a))
    (hd : d ∈ stacksOf boot (s.threads b)) : Apart c d := by
  rcases mem_stacksOf hc with ⟨rfl, hka⟩ | hca
  · rcases mem_stacksOf hd with ⟨rfl, hkb⟩ | hdb
    · -- only the kernel thread runs on the stack of `main`
      have hae : a = s.kernelThread := by_contra fun hn => hk a ha hn hka
      have hbe : b = s.kernelThread := by_contra fun hn => hk b hb hn hkb
      exact absurd (hae.trans hbe.symm) hne
    · exact (hboot b hb d hdb).symm
  · rcases mem_stacksOf hd with ⟨rfl, hkb⟩ | hdb
    · exact hboot a ha c hca
    · have hcheap := h.blocks_sub c (List.mem_flatMap.mpr ⟨a, ha, hca⟩)
      have hdheap := h.blocks_sub d (List.mem_flatMap.mpr ⟨b, hb, hdb⟩)
      refine h.heap.apart_of_ne hcheap hdheap ?_
      rintro rfl
      have hdisj := (List.nodup_flatMap.mp h.blocks).2
      have : Std.Symm (Function.onFun List.Disjoint (owned s.threads)) :=
        ⟨fun _ _ hd => List.Disjoint.symm hd⟩
      exact hdisj.forall ha hb hne hca hdb

/-- The waiting threads are those of the ring behind the current one. -/
theorem RingOk.waits_iff (h : RingOk s rest) {a : Nat} : Waits s a ↔ a ∈ rest := by
  have hnd := (List.nodup_cons.mp h.nodup).1
  constructor
  · rintro ⟨hne, i, rfl⟩
    exact (List.mem_cons.mp (Ring.iterate_mem h.ring i)).resolve_left hne
  · intro ha
    refine ⟨?_, Linked.mem_iterate h.ring (List.mem_cons_of_mem _ ha)⟩
    rintro rfl
    exact hnd ha

/-- A byte lies on the stacks of one thread only. -/
theorem not_onStacks {t t' : Thread} {x : Nat}
    (h : ∀ c ∈ stacksOf boot t, ∀ d ∈ stacksOf boot t', Apart c d) (hx : OnStacks boot t x) :
    ¬ OnStacks boot t' x := by
  obtain ⟨c, hc, h1, h2⟩ := hx
  rintro ⟨d, hd, h3, h4⟩
  rcases h c hc d hd with h | h <;> omega

end

/-- What is saved for a thread depends on its stacks only. -/
theorem Suspended.congr {boot : Nat × Nat} {m m' : Mem} {e e' : Nat} {t t' : Thread} {p : Past}
    (h : Suspended boot m e t p) (hm : ∀ x, OnStacks boot t x → m' x = m x)
    (hk : t'.kstack = t.kstack) (hu : t'.ustack = t.ustack) (hesp : t'.esp = t.esp) (he : e' = e) :
    Suspended boot m' e' t' p := by
  subst he
  have hstack : stackOf boot t' = stackOf boot t := by rw [stackOf, stackOf, hk]
  -- only the address of the thread structure is not in the stacks, and nothing reads it
  have hcpu : p.cpu t' = p.cpu t := by
    cases p with
    | new a => rw [Past.cpu, Past.cpu, hk, hu]
    | interrupted c => rfl
  have hlow := h.low
  have hhigh := h.high
  refine ⟨by rw [hstack, hesp]; exact hlow, by rw [hstack, hesp, hcpu]; exact hhigh, ?_,
    by rw [hcpu, hu]; exact h.user, ?_⟩
  -- the frame lies inside the stack the thread was interrupted on
  · rw [hesp, hcpu]
    refine h.frame.congr fun x h1 h2 => hm x ⟨stackOf boot t, List.mem_cons_self, ?_, ?_⟩
    · omega
    · omega
  · have hstart := h.start
    cases p with
    | interrupted c => trivial
    | new a =>
      obtain ⟨hk0, hu0, hargs, hexit⟩ := hstart
      have hks : stackOf boot t = (t.kstack, stackSize) := if_neg hk0
      -- a thread that has not run yet still has the words create_thread wrote: the arguments on the
      -- stack it starts on, and for a kernel thread the return address
      have hkb : ∀ x, t.kstack ≤ x → x < t.kstack + stackSize → OnStacks boot t x := fun x h1 h2 =>
        ⟨stackOf boot t, List.mem_cons_self, by rw [hks]; exact h1, by rw [hks]; exact h2⟩
      refine ⟨by rw [hk]; exact hk0, by rw [hu]; exact hu0, ?_, fun huser => ?_⟩
      · rw [hk, hu, ← hargs]
        refine load32_congr fun x h1 h2 => hm x ?_
        rw [stackSize] at h1 h2
        by_cases huser : a.user = true
        · rw [if_pos huser] at h1 h2
          refine ⟨(t.ustack, stackSize), ?_, ?_, ?_⟩
          · simp [stacksOf, hu0 huser]
          · simp only; omega
          · simp only [stackSize]; omega
        · rw [if_neg huser] at h1 h2
          exact hkb x (by omega) (by rw [stackSize]; omega)
      · rw [hk, ← hexit huser]
        refine load32_congr fun x h1 h2 => hm x (hkb x ?_ ?_)
        · rw [stackSize] at h1; omega
        · rw [stackSize] at h2 ⊢; omega

/-! ## The events -/

section

variable {boot : Nat × Nat} {m m' : Machine} {rest : List Nat}

/-- No stack wraps around. -/
theorem CtxOk.stack_le (h : CtxOk boot m rest) (hboot : boot.1 + boot.2 ≤ 2 ^ 32) {a : Nat}
    (ha : a ∈ m.sched.currentThread :: rest) :
    (stackOf boot (m.sched.threads a)).1 + (stackOf boot (m.sched.threads a)).2 ≤ 2 ^ 32 := by
  rw [stackOf]
  split
  · exact hboot
  · exact h.ring.kstack_le ha ‹_›

/-- What an interrupt leaves in memory: the frame of the thread that is interrupted, on its
    kernel stack, and the stacks of the other threads as they were. -/
theorem CtxOk.saved (h : CtxOk boot m rest) (hboot : boot.1 + boot.2 ≤ 2 ^ 32) {scratch : Mem}
    {cycles : Nat × Nat × Nat} (hok : (Event.timer scratch cycles).Ok boot m) :
    let t := { m.sched.threads m.sched.currentThread with
      esp := (saveFrame m.cpu m.sched.esp0 m.sched.mem).2 }
    Suspended boot scratch m.sched.threadExitAddr t (.interrupted m.cpu) ∧
      ∀ a ∈ rest, ∀ x, OnStacks boot (m.sched.threads a) x → scratch x = m.sched.mem x := by
  obtain ⟨hroom, hframe, hothers⟩ := hok
  have hle := h.stack_le hboot List.mem_cons_self
  -- where the pushes start
  obtain ⟨p, hp, hlow, hhigh⟩ : ∃ p,
      p % 2 ^ 32 = (if m.cpu.user then m.sched.esp0 else m.cpu.esp.toNat) ∧
      (stackOf boot (m.sched.threads m.sched.currentThread)).1 + m.cpu.frameLen ≤ p ∧
      p ≤ (stackOf boot (m.sched.threads m.sched.currentThread)).1 +
        (stackOf boot (m.sched.threads m.sched.currentThread)).2 := by
    rw [HasRoom] at hroom
    split at hroom
    · have hesp0 := h.esp0 (h.user ‹_›)
      rw [if_pos ‹_›]
      exact ⟨m.sched.esp0, Nat.mod_eq_of_lt (by omega), hroom, hesp0.le⟩
    · rw [if_neg ‹_›]
      exact hroom
  obtain ⟨hregs, hat, hoff⟩ := saveFrame_spec m.cpu m.sched.mem hp (by omega) (by omega) h.ss
  rw [hregs] at hframe
  refine ⟨⟨?_, ?_, ?_, h.user, trivial⟩, fun a ha x hx => ?_⟩
  · simp only [hregs]
    exact Nat.le_sub_of_add_le hlow
  · simp only [hregs, Past.cpu]
    refine le_trans (le_of_eq (Nat.sub_add_cancel ?_)) hhigh
    omega
  · simp only [hregs]
    exact hat.congr hframe
  · -- the pushes stay on the stack of the current thread
    have hne : a ≠ m.sched.currentThread := by
      rintro rfl
      exact (List.nodup_cons.mp h.ring.nodup).1 ha
    have hoffcur := not_onStacks (fun c hc d hd => h.ring.stacks_apart h.kstack h.apart
      (List.mem_cons_of_mem _ ha) List.mem_cons_self hne hc hd) hx
    rw [hothers a x (h.ring.waits_iff.mpr ha) hx]
    refine hoff x ?_
    by_contra hin
    exact hoffcur ⟨_, List.mem_cons_self, by omega, by omega⟩

/-- A thread whose frame is popped gets the registers that its past demands. -/
theorem Suspended.resumed {mem : Mem} {exitAddr : Nat} {t : Thread} {p : Past}
    (h : Suspended boot mem exitAddr t p)
    (hle : (stackOf boot t).1 + (stackOf boot t).2 ≤ 2 ^ 32) :
    restoreFrame mem t.esp = p.cpu t :=
  h.frame.restoreFrame (h.high.trans hle)

/-- A new thread starts as `create_thread` was told. -/
theorem Suspended.starts {t : Thread} {a : ThreadArgs}
    (h : Suspended boot m.sched.mem m.sched.threadExitAddr t (.new a))
    (hcpu : m.cpu = initialCpu a t.kstack t.ustack) (hk : t.kstack + stackSize ≤ 2 ^ 32)
    (hu : t.ustack ≠ 0 → t.ustack + stackSize ≤ 2 ^ 32) : Starts m a := by
  obtain ⟨hk0, hu0, hargs, hexit⟩ := h.start
  -- esp points to the return address, the argument stands above it
  have hesp : m.cpu.esp.toNat = (if a.user then t.ustack else t.kstack) + stackSize - 8 := by
    rw [hcpu]
    refine Nat.mod_eq_of_lt ?_
    split
    · have := hu (hu0 ‹_›)
      omega
    · omega
  refine ⟨by rw [hcpu]; rfl, ?_, by rw [hcpu]; rfl, ?_, ?_, fun huser => ?_⟩
  · rw [hcpu]
    cases huser : a.user <;> simp [initialCpu, huser]
  · rw [hcpu]
    simp [initialCpu]
  · rw [hesp, show (if a.user then t.ustack else t.kstack) + stackSize - 8 + 4 =
      (if a.user then t.ustack else t.kstack) + stackSize - 4 by rw [stackSize]; omega]
    exact hargs
  · rw [hesp, if_neg (by rw [huser]; decide)]
    exact hexit huser

/-- A user stack does not wrap around. -/
theorem RingOk.ustack_le {s : Sched} (h : RingOk s rest) {a : Nat}
    (ha : a ∈ s.currentThread :: rest) (hu : (s.threads a).ustack ≠ 0) :
    (s.threads a).ustack + stackSize ≤ 2 ^ 32 := by
  have hmem : ((s.threads a).ustack, stackSize) ∈ s.heap := by
    refine h.blocks_sub _ (List.mem_flatMap.mpr ⟨a, ha, ?_⟩)
    rw [owned, if_neg hu]
    simp
  exact (h.heap.bounds _ hmem).2.2

/-- A tick that switches to the thread `b`, for the ring `rest'` that it leaves. -/
theorem CtxOk.switch {b regs : Nat} {rest' : List Nat} {scratch : Mem} {s' : Sched}
    {cycles : Nat × Nat × Nat} (h : CtxOk boot m (b :: rest))
    (hboot : boot.1 + boot.2 ≤ 2 ^ 32)
    (hothers : ∀ a ∈ b :: rest, ∀ x, OnStacks boot (m.sched.threads a) x →
      scratch x = m.sched.mem x)
    (hs' : scheduleTick { m.sched with mem := scratch } regs cycles =
      some ((m.sched.threads b).esp, s'))
    (hcur : s'.currentThread = b) (hrun : (s'.threads b).state = .running)
    (hesp0 : s'.esp0 = (m.sched.threads b).esp) (hring : RingOk s' rest')
    (hsub : ∀ x ∈ b :: rest', x ∈ m.sched.currentThread :: b :: rest)
    (hleft : m.sched.currentThread ∈ rest' →
      Suspended boot scratch m.sched.threadExitAddr (s'.threads m.sched.currentThread)
        (.interrupted m.cpu)) :
    let m' : Machine :=
      { sched := s'
        cpu := restoreFrame s'.mem (m.sched.threads b).esp
        past := Function.update m.past m.sched.currentThread (.interrupted m.cpu) }
    CtxOk boot m' rest' ∧ Resumed m' := by
  intro m'
  have hkept := kept_scheduleTick hs'
  obtain ⟨hker, -, hmem, -, hexit⟩ := statics_scheduleTick hs'
  simp only at hkept hker hmem hexit
  have hne : ∀ x ∈ b :: rest, x ≠ m.sched.currentThread := by
    rintro x hx rfl
    exact (List.nodup_cons.mp h.ring.nodup).1 hx
  have hbmem : b ∈ m.sched.currentThread :: b :: rest := by simp
  -- the threads that wait are as they were
  have hwait : ∀ x ∈ b :: rest, Suspended boot s'.mem s'.threadExitAddr (s'.threads x)
      (m'.past x) := fun x hx => by
    have hpast : m'.past x = m.past x := Function.update_of_ne (hne x hx) _ _
    have hcore := Thread.core_fields (core_scheduleTick hs' (hne x hx))
    rw [hpast]
    refine (h.suspended x hx).congr (fun y hy => ?_) hcore.2.1 hcore.2.2.1 hcore.2.2.2 hexit
    rw [hmem]
    exact hothers x hx y hy
  have hb := hwait b List.mem_cons_self
  have hbesp : (s'.threads b).esp = (m.sched.threads b).esp :=
    (Thread.core_fields (core_scheduleTick hs' (hne b List.mem_cons_self))).2.2.2
  have hcpu : m'.cpu = (m'.past b).cpu (s'.threads b) := by
    have hle := h.stack_le hboot hbmem
    rw [← hb.resumed (by rw [stackOf, (hkept b).2.1]; exact hle), hbesp]
  refine ⟨⟨hring, ?_, fun x hx hxk => ?_, fun x hx => ?_, fun x hx => ?_, fun _ => ?_, ?_, ?_⟩, ?_⟩
  · rw [show m'.sched.currentThread = b from hcur, show (m'.sched.threads b).state = _ from hrun]
    exact fun hf => TaskState.noConfusion hf
  · rw [show m'.sched.currentThread = b from hcur] at hx
    rw [(hkept x).2.1]
    exact h.kstack x (hsub x hx) (by rwa [show m'.sched.kernelThread = _ from hker] at hxk)
  · rw [show m'.sched.currentThread = b from hcur] at hx
    rw [owned_congr (hkept x).2.1 (hkept x).2.2]
    exact h.apart x (hsub x hx)
  · by_cases hxc : x = m.sched.currentThread
    · rw [hxc, show m'.past m.sched.currentThread = .interrupted m.cpu from
        Function.update_self _ _ _, show m'.sched.mem = scratch from hmem,
        show m'.sched.threadExitAddr = _ from hexit]
      exact hleft (hxc ▸ hx)
    · exact hwait x ((List.mem_cons.mp (hsub x (List.mem_cons_of_mem _ hx))).resolve_left hxc)
  · have hhigh := hb.high
    have hpos : 0 < ((m'.past b).cpu (s'.threads b)).frameLen := by
      rw [Cpu.frameLen]
      split <;> decide
    rw [show m'.sched.currentThread = b from hcur, show m'.sched.esp0 = _ from hesp0, ← hbesp]
    exact lt_of_lt_of_le (Nat.lt_add_of_pos_right hpos) hhigh
  · rw [hcpu, show m'.sched.currentThread = b from hcur]
    exact hb.user
  · have hframe := hb.frame.ss
    rw [hcpu]
    intro hu
    rwa [if_neg (by rw [hu]; decide)] at hframe
  · rw [Resumed, show m'.sched.currentThread = b from hcur]
    cases hpast : m'.past b with
    | interrupted c =>
      rw [hcpu, hpast]
      rfl
    | new a =>
      rw [hpast] at hb hcpu
      have hk0 := hb.start.1
      refine hb.starts (m := m') hcpu ?_ fun hu => ?_
      · rw [(hkept b).2.1] at hk0 ⊢
        exact h.ring.kstack_le hbmem hk0
      · rw [(hkept b).2.2] at hu ⊢
        exact h.ring.ustack_le hbmem hu

/-- **A timer interrupt** keeps the invariant and resumes a thread as its past demands. -/
theorem CtxOk.timer (h : CtxOk boot m rest) (hboot : boot.1 + boot.2 ≤ 2 ^ 32) {scratch : Mem}
    {cycles : Nat × Nat × Nat} (hok : (Event.timer scratch cycles).Ok boot m) :
    ∃ m' rest', m.timer scratch cycles = some m' ∧ CtxOk boot m' rest' ∧ Resumed m' := by
  obtain ⟨hsaved, hothers⟩ := h.saved hboot hok
  generalize hregs : (saveFrame m.cpu m.sched.esp0 m.sched.mem).2 = regs at hsaved
  have hs : RingOk { m.sched with mem := scratch } rest :=
    ⟨h.ring.ring, h.ring.nodup, h.ring.kernel, h.ring.count, h.ring.ready, h.ring.awake,
      h.ring.serials, h.ring.heap, h.ring.blocks, h.ring.blocks_sub⟩
  obtain ⟨esp, s', hs', hcases⟩ := hs.tick (fun hfin _ => h.finished hfin) regs cycles
  have hkept := kept_scheduleTick hs' m.sched.currentThread
  have hm' : m.timer scratch cycles = some
      { sched := s'
        cpu := restoreFrame s'.mem esp
        past := Function.update m.past m.sched.currentThread (.interrupted m.cpu) } := by
    rw [Machine.timer, hregs]
    simp only [hs', Option.map_some]
  rw [hm']
  rcases hcases with ⟨rfl, hr, rfl, rfl⟩ | ⟨b, rest', rfl, hcur, hrun, rfl, hesp0, hcases⟩
  · -- the thread is alone and goes on
    have hcpu : restoreFrame scratch esp = m.cpu :=
      hsaved.resumed (h.stack_le hboot List.mem_cons_self)
    simp only [hcpu]
    refine ⟨_, [], rfl, ⟨hr, h.finished, h.kstack, h.apart, ?_, h.esp0, h.user, h.ss⟩, ?_⟩
    · exact fun a ha => absurd ha List.not_mem_nil
    · rw [Resumed]
      simp only [Function.update_self]
  rcases hcases with ⟨-, hr, -, -, hesp⟩ | ⟨-, hr, -⟩
  · obtain ⟨hok', hres⟩ := h.switch hboot hothers hs' hcur hrun hesp0 hr
      (fun x hx => mem_of_mem_rotate hx)
      fun _ => hsaved.congr (fun _ _ => rfl) hkept.2.1 hkept.2.2 hesp rfl
    exact ⟨_, _, rfl, hok', hres⟩
  · have hleft : m.sched.currentThread ∉ rest' := fun hmem =>
      (List.nodup_cons.mp h.ring.nodup).1 (List.mem_cons_of_mem _ hmem)
    obtain ⟨hok', hres⟩ := h.switch hboot hothers hs' hcur hrun hesp0 hr
      (fun x hx => List.mem_cons_of_mem _ hx) fun hmem => absurd hmem hleft
    exact ⟨_, _, rfl, hok', hres⟩

/-- A block that is apart from all those in use is apart from the stacks of all threads. -/
theorem CtxOk.not_onStacks_fresh (h : CtxOk boot m rest) {a x p size : Nat}
    (ha : a ∈ m.sched.currentThread :: rest) (hx : OnStacks boot (m.sched.threads a) x)
    (hp : ∀ b ∈ boot :: m.sched.heap, Apart (p, size) b) : x < p ∨ p + size ≤ x := by
  obtain ⟨c, hc, h1, h2⟩ := hx
  have hmem : c ∈ boot :: m.sched.heap := by
    rcases mem_stacksOf hc with ⟨rfl, -⟩ | hc
    · exact List.mem_cons_self
    · exact List.mem_cons_of_mem _ (h.ring.blocks_sub c (List.mem_flatMap.mpr ⟨a, ha, hc⟩))
  rcases hp c hmem with hp | hp <;> simp only at hp <;> omega

/-- What `create_thread` saves for a new thread. -/
theorem suspended_new {mem : Mem} {a : ThreadArgs} {k u exitAddr : Nat} {t : Thread}
    (hvm : a.vm86 = false) (hk0 : k ≠ 0) (hk : k + stackSize ≤ 2 ^ 32)
    (hu : a.user = true → u ≠ 0 ∧ u + stackSize ≤ 2 ^ 32 ∧ Apart (u, stackSize) (k, stackSize))
    (htk : t.kstack = k) (htu : t.ustack = if a.user then u else 0)
    (htesp : t.esp = k + stackSize - 72) :
    Suspended boot (buildStack mem k u a.entry a.args exitAddr a.user a.vm86).1 exitAddr t
      (.new a) := by
  obtain ⟨hframe, hargs, hexit, -⟩ := buildStack_spec mem a hvm exitAddr hk
    fun huser => ⟨(hu huser).2.1, (hu huser).2.2⟩
  have hcpu : Past.cpu t (.new a) = initialCpu a k u := by
    rw [Past.cpu, htk, htu]
    cases huser : a.user <;> simp [initialCpu, huser]
  have hstack : stackOf boot t = (k, stackSize) := by
    rw [stackOf, htk, if_neg hk0]
  -- frames of kernel threads are two words shorter, so 72 bytes are enough for either
  have husize : (initialCpu a k u).frameLen ≤ 72 := by
    rw [Cpu.frameLen]
    split <;> decide
  -- the frame is inside of the kernel stack, holds the first registers, and the words of the start
  -- are in place
  refine ⟨?_, ?_, ?_, ?_, ?_, ?_, ?_, ?_⟩
  · rw [hstack, htesp, stackSize]
    simp only
    omega
  · rw [hstack, htesp, hcpu, stackSize]
    simp only
    omega
  · rw [hcpu, htesp]
    exact hframe
  · rw [hcpu, initialCpu_user, htu]
    intro huser
    rw [if_pos huser]
    exact (hu huser).1
  · rw [htk]
    exact hk0
  · rw [htu]
    intro huser
    rw [if_pos huser]
    exact (hu huser).1
  · rw [htk, htu]
    cases huser : a.user <;> simpa [huser] using hargs
  · rw [htk]
    exact hexit

/-- What `create_thread` does to the invariant. -/
theorem CtxOk.create (h : CtxOk boot m rest) {a : ThreadArgs} {t k u : Nat}
    (hf : FreshBlocks { m.sched with heap := boot :: m.sched.heap } a.user t k u)
    (hvm : a.vm86 = false) {r : Nat × Sched} (hr : createThread m.sched a t k u = some r) :
    ∃ rest', CtxOk boot { m with sched := r.2, past := Function.update m.past t (.new a) }
      rest' := by
  have hsub : ∀ b ∈ m.sched.heap, b ∈ boot :: m.sched.heap := fun _ hb => List.mem_cons_of_mem _ hb
  have hf' : FreshBlocks m.sched a.user t k u := by
    refine ⟨hf.1.mono hsub, fun ht0 => ⟨(hf.2 ht0).1.mono ?_, fun hk0 hu =>
      ((hf.2 ht0).2 hk0 hu).mono ?_⟩⟩
    · exact List.cons_subset_cons _ hsub
    · exact List.cons_subset_cons _ (List.cons_subset_cons _ hsub)
  have hnot : ∀ x ∈ m.sched.currentThread :: rest, x ≠ t := by
    rintro x hx rfl
    exact hf'.1.notMem (h.ring.pos hx).1.ne' (by decide) threadSize (by decide)
      (h.ring.thread_mem hx)
  have hpast : ∀ x ∈ rest, Function.update m.past t (.new a) x = m.past x := fun x hx =>
    Function.update_of_ne (hnot x (List.mem_cons_of_mem _ hx)) _ _
  -- the threads that are there keep all that the invariant says of them
  obtain ⟨hcur, hker, hesp0, -, -, hframe⟩ := h.ring.create_frame hf' hr
  have hfields : ∀ x ∈ m.sched.currentThread :: rest, _ := fun x hx =>
    Thread.core_fields (hframe x hx).1
  have hcurf := hfields _ List.mem_cons_self
  have hfin : (r.2.threads m.sched.currentThread).state = .finished →
      m.sched.currentThread ≠ m.sched.kernelThread := by
    rw [(hframe _ List.mem_cons_self).2]
    exact h.finished
  have hkold : ∀ x ∈ m.sched.currentThread :: rest, x ≠ m.sched.kernelThread →
      (r.2.threads x).kstack ≠ 0 := fun x hx => by
    rw [(hfields x hx).2.1]
    exact h.kstack x hx
  have hapart : ∀ x ∈ m.sched.currentThread :: rest, ∀ b ∈ owned r.2.threads x, Apart b boot :=
    fun x hx => by
      rw [owned_congr (hfields x hx).2.1 (hfields x hx).2.2.1]
      exact h.apart x hx
  have hesp : (r.2.threads m.sched.currentThread).ustack ≠ 0 →
      r.2.esp0 < (stackOf boot (r.2.threads m.sched.currentThread)).1 +
        (stackOf boot (r.2.threads m.sched.currentThread)).2 := by
    rw [stackOf, hcurf.2.1, hcurf.2.2.1, hesp0]
    exact h.esp0
  have huser : m.cpu.user = true → (r.2.threads m.sched.currentThread).ustack ≠ 0 := by
    rw [hcurf.2.2.1]
    exact h.user
  have hold : ∀ {mem : Mem} {e : Nat}, e = m.sched.threadExitAddr →
      (∀ x ∈ rest, ∀ y, OnStacks boot (m.sched.threads x) y → mem y = m.sched.mem y) →
      ∀ x ∈ rest, Suspended boot mem e (r.2.threads x) (Function.update m.past t (.new a) x) := by
    intro mem e he hmem x hx
    obtain ⟨-, hk, hu, hesp⟩ := hfields x (List.mem_cons_of_mem _ hx)
    rw [hpast x hx]
    exact (h.suspended x hx).congr (hmem x hx) hk hu hesp he
  rcases h.ring.create hf' hr with ⟨hring, hmem, -, hexit⟩ |
    ⟨u', blocks, ht0, htL, hk0, huu, huu', -, rfl, hring⟩
  · -- an allocation has failed, and the ring is the old one
    refine ⟨rest, hring, ?_, ?_, ?_, ?_, ?_, ?_, h.ss⟩ <;> simp only [hcur, hker]
    · exact hfin
    · exact hkold
    · exact hapart
    · exact hold hexit fun x _ y _ => by rw [hmem]
    · exact hesp
    · exact huser
  · -- the new thread is at the end of the ring
    obtain ⟨T, heq, -, hp⟩ := h.ring.finishThread_spec a k u k u' blocks ht0 htL
    obtain ⟨-, htk, htu, htesp⟩ := Thread.core_fields hp
    simp only [newThread, Sched.withBlocks, Function.update_self] at htk htu htesp
    generalize hfs : (finishThread (m.sched.withBlocks t k u' blocks) a t k u).2 = s' at *
    subst heq
    obtain ⟨hkle, hkfree⟩ := (hf.2 ht0).1 hk0
    have hku : a.user = true → u ≠ 0 ∧ u + stackSize ≤ 2 ^ 32 ∧
        ∀ b ∈ (k, stackSize) :: (t, threadSize) :: boot :: m.sched.heap, Apart (u, stackSize) b :=
      fun hu => ⟨(huu hu).2, (hf.2 ht0).2 hk0 hu (huu hu).2⟩
    rw [buildStack_snd _ a u _ hkle] at htesp
    have htu' : (T t).ustack = if a.user then u else 0 := by
      rw [htu]
      split
      · exact (huu ‹_›).1
      · exact huu' (by simpa using ‹¬a.user = true›)
    have hnew : Suspended boot
        (buildStack m.sched.mem k u a.entry a.args m.sched.threadExitAddr a.user a.vm86).1
        m.sched.threadExitAddr (T t) (.new a) :=
      suspended_new hvm hk0 hkle
        (fun hu => ⟨(hku hu).1, (hku hu).2.1, (hku hu).2.2 _ List.mem_cons_self⟩) htk htu' htesp
    -- its stacks are new, so the frames of the others are not written to
    have hboff := (buildStack_spec m.sched.mem a hvm m.sched.threadExitAddr hkle fun hu =>
      ⟨(hku hu).2.1, (hku hu).2.2 _ List.mem_cons_self⟩).2.2.2
    have hmem : ∀ x ∈ rest, ∀ y, OnStacks boot (m.sched.threads x) y →
        (buildStack m.sched.mem k u a.entry a.args m.sched.threadExitAddr a.user a.vm86).1 y =
          m.sched.mem y := by
      intro x hx y hy
      have hx' := List.mem_cons_of_mem m.sched.currentThread hx
      refine hboff y (h.not_onStacks_fresh hx' hy fun b hb => ?_) fun hu =>
        h.not_onStacks_fresh hx' hy fun b hb => ?_
      · exact hkfree b (List.mem_cons_of_mem _ hb)
      · exact (hku hu).2.2 b (List.mem_cons_of_mem _ (List.mem_cons_of_mem _ hb))
    have hmemt : ∀ x ∈ m.sched.currentThread :: (rest ++ [t]),
        x ∈ m.sched.currentThread :: rest ∨ x = t := fun x hx => by
      simpa [or_assoc] using hx
    refine ⟨_, hring, ?_, fun x hx => ?_, fun x hx => ?_, fun x hx => ?_, ?_, ?_, h.ss⟩
    · exact hfin
    · rcases hmemt x hx with hx | rfl
      · exact hkold x hx
      · simp only [htk]
        exact fun _ => hk0
    · rcases hmemt x hx with hx | rfl
      · exact hapart x hx
      · intro b hb
        rw [mem_owned_iff, htk] at hb
        rcases hb with rfl | ⟨-, rfl⟩ | ⟨hu0, rfl⟩
        · exact (hf.1 ht0).2 boot List.mem_cons_self
        · exact hkfree boot (by simp)
        · rw [htu'] at hu0 ⊢
          split at hu0
          · rename_i hu
            rw [if_pos hu]
            exact (hku hu).2.2 boot (by simp)
          · exact absurd rfl hu0
    · rcases List.mem_append.mp hx with hx | hx
      · exact hold rfl hmem x hx
      · rw [List.mem_singleton.mp hx]
        simp only [Function.update_self]
        exact hnew
    · exact hesp
    · exact huser

/-- **Every event keeps the invariant.** -/
theorem CtxOk.exec (h : CtxOk boot m rest) (hboot : boot.1 + boot.2 ≤ 2 ^ 32) {e : Event}
    (hok : e.Ok boot m) (hm' : m.exec e = some m') : ∃ rest', CtxOk boot m' rest' := by
  cases e with
  | run cpu mem =>
    cases hm'
    obtain ⟨huser, hss, hmem⟩ := hok
    have hring : RingOk { m.sched with mem := mem } rest :=
      ⟨h.ring.ring, h.ring.nodup, h.ring.kernel, h.ring.count, h.ring.ready, h.ring.awake,
        h.ring.serials, h.ring.heap, h.ring.blocks, h.ring.blocks_sub⟩
    -- a running thread writes to no stack of a thread that waits
    refine ⟨rest, hring, h.finished, h.kstack, h.apart, fun a ha => ?_, h.esp0, huser, hss⟩
    exact (h.suspended a ha).congr (fun x hx => hmem a x (h.ring.waits_iff.mpr ha) hx)
      rfl rfl rfl rfl
  | create a t k u =>
    obtain ⟨r, hr, rfl⟩ := Option.map_eq_some_iff.mp hm'
    exact h.create hok.1 hok.2 hr
  | exit =>
    cases hm'
    -- thread_exit writes the state of the current thread and nothing else
    have hfields : ∀ x, ((threadExit m.sched).threads x).kstack = (m.sched.threads x).kstack ∧
        ((threadExit m.sched).threads x).ustack = (m.sched.threads x).ustack ∧
        ((threadExit m.sched).threads x).esp = (m.sched.threads x).esp := by
      intro x
      by_cases hx : x = m.sched.currentThread <;> simp [threadExit, Sched.setThread, hx]
    refine ⟨rest, h.ring.exit, fun _ => hok, ?_, fun a ha => ?_, fun a ha => ?_, ?_, ?_, h.ss⟩
    · simp only [hfields]
      exact h.kstack
    · rw [owned_congr (hfields a).1 (hfields a).2.1]
      exact h.apart a ha
    · exact (h.suspended a ha).congr (fun _ _ => rfl) (hfields a).1 (hfields a).2.1
        (hfields a).2.2 rfl
    · simp only [stackOf, hfields]
      exact h.esp0
    · simp only [hfields]
      exact h.user
  | timer scratch cycles =>
    obtain ⟨m₁, rest', hm₁, hok', -⟩ := h.timer hboot hok
    obtain rfl : m₁ = m' := Option.some_injective _ (hm₁.symm.trans hm')
    exact ⟨rest', hok'⟩

end

/-! ## Runs -/

section Runs

variable {boot : Nat × Nat} {s₀ : Sched} {k : Nat} {cpu₀ : Cpu} {past₀ : Nat → Past}

/-- After `scheduling_init` the kernel thread is alone. -/
theorem CtxOk.init (hboot : s₀.Boot) (hk : k ≠ 0) (hf : Fresh (boot :: s₀.heap) k threadSize)
    (huser : cpu₀.user = false) (hss : cpu₀.ss = kernelData) :
    CtxOk boot ⟨schedulingInit s₀ k, cpu₀, past₀⟩ [] := by
  have hring := hboot.ringOk hk (hf.mono fun _ hb => List.mem_cons_of_mem _ hb)
  -- the kernel thread goes on with the stack of main, and is the only thread
  have hinit : (schedulingInit s₀ k).currentThread = k ∧
      (schedulingInit s₀ k).kernelThread = k ∧
      ((schedulingInit s₀ k).threads k).kstack = 0 ∧
      ((schedulingInit s₀ k).threads k).ustack = 0 ∧
      ((schedulingInit s₀ k).threads k).state = .ready := by
    simp [schedulingInit, createKernelThread, scheduleThread, kmallocAt, Sched.setThread, hk,
      hboot.currentThread, hboot.kernelThread, zeroThread]
  obtain ⟨hcur, hker, hks, hus, hstate⟩ := hinit
  refine ⟨hring, ?_, fun a ha hne => ?_, fun a ha b hb => ?_, fun a ha => ?_, ?_, ?_, fun _ => hss⟩
  · simp only [hcur, hstate]
    exact fun hf => TaskState.noConfusion hf
  · exact absurd ((List.mem_singleton.mp ha).trans (hcur.trans hker.symm)) hne
  · rw [List.mem_singleton.mp ha] at hb
    simp only [hcur, owned, hks, hus, if_true, List.append_nil, List.mem_singleton] at hb
    rw [hb]
    exact (hf hk).2 boot List.mem_cons_self
  · exact absurd ha List.not_mem_nil
  · simp only [hcur, hus]
    exact fun hu => absurd rfl hu
  · simp only [huser]
    exact fun hu => absurd hu (by decide)

/-- **Context switches are transparent.** In every run of threads that compute, create
    threads, exit and are interrupted by the timer, each timer interrupt returns, and the
    thread that it gives the processor to has the registers of its last interruption or, if
    it has not run yet, starts as `create_thread` was told. -/
theorem context_switch_transparent (hboot : s₀.Boot) (hk : k ≠ 0)
    (hf : Fresh (boot :: s₀.heap) k threadSize) (hle : boot.1 + boot.2 ≤ 2 ^ 32)
    (huser : cpu₀.user = false) (hss : cpu₀.ss = kernelData) {events : List Event} {m : Machine}
    (hall : Each Machine.exec (fun m e => e.Ok boot m) ⟨schedulingInit s₀ k, cpu₀, past₀⟩ events)
    (hm : execAll Machine.exec ⟨schedulingInit s₀ k, cpu₀, past₀⟩ events = some m)
    {scratch : Mem} {cycles : Nat × Nat × Nat} (hok : (Event.timer scratch cycles).Ok boot m) :
    ∃ m', m.timer scratch cycles = some m' ∧
      m'.past = Function.update m.past m.sched.currentThread (.interrupted m.cpu) ∧
      Resumed m' := by
  have hstep : ∀ (m : Machine) (e : Event) (m' : Machine), (∃ rest, CtxOk boot m rest) →
      e.Ok boot m → m.exec e = some m' → ∃ rest, CtxOk boot m' rest :=
    fun m e m' ⟨_, h⟩ hok hm' => h.exec hle hok hm'
  obtain ⟨rest, h⟩ := inv_of_execAll hstep ⟨[], CtxOk.init hboot hk hf huser hss⟩ hall hm
  obtain ⟨m', _, hm', -, hres⟩ := h.timer hle hok
  refine ⟨m', hm', ?_, hres⟩
  obtain ⟨r, -, rfl⟩ := Option.map_eq_some_iff.mp hm'
  rfl

end Runs

/-- The processor at the end of the start, on a stack at `0x10000`. -/
def bootCpu : Cpu where
  eax := 0
  ebx := 0
  ecx := 0
  edx := 0
  esi := 0
  edi := 0
  ebp := 0
  ds := 0x10
  es := 0x10
  fs := 0x10
  gs := 0x10
  eip := 0x100000
  cs := 0x08
  eflags := 0x0202
  esp := 0x10f00
  ss := 0x10

/-- A user thread is created and the timer switches to it. -/
theorem context_switch_to_user : ∃ m m',
    execAll Machine.exec ⟨schedulingInit bootSched 0x1000, bootCpu, fun _ => .interrupted bootCpu⟩
      [.create ⟨1, 0x200000, 7, 1, true, false⟩ 0x2000 0x4000 0x8000] = some m ∧
    m.timer (saveFrame m.cpu m.sched.esp0 m.sched.mem).1 (1, 1, 1) = some m' ∧
    m'.past = Function.update m.past m.sched.currentThread (.interrupted m.cpu) ∧ Resumed m' := by
  have hfree : FreshBlocks
      { schedulingInit bootSched 0x1000 with
        heap := (0x10000, 0x1000) :: (schedulingInit bootSched 0x1000).heap }
      true 0x2000 0x4000 0x8000 := by
    decide
  obtain ⟨m, hm, hcpu, hks⟩ : ∃ m,
      execAll Machine.exec ⟨schedulingInit bootSched 0x1000, bootCpu, fun _ => .interrupted bootCpu⟩
        [.create ⟨1, 0x200000, 7, 1, true, false⟩ 0x2000 0x4000 0x8000] = some m ∧
      m.cpu = bootCpu ∧ (m.sched.threads m.sched.currentThread).kstack = 0 :=
    ⟨_, rfl, rfl, by decide⟩
  -- the frame of main goes to the stack that is not in the heap
  have hroom : HasRoom (0x10000, 0x1000) m := by
    rw [HasRoom, stackOf, hks, if_pos rfl, hcpu, if_neg (by decide)]
    exact ⟨0x10f00, by decide, by decide, by decide⟩
  have hall : Each Machine.exec (fun m e => e.Ok (0x10000, 0x1000) m)
      ⟨schedulingInit bootSched 0x1000, bootCpu, fun _ => .interrupted bootCpu⟩
      [.create ⟨1, 0x200000, 7, 1, true, false⟩ 0x2000 0x4000 0x8000] :=
    ⟨⟨hfree, rfl⟩, fun _ _ => trivial⟩
  have hok : (Event.timer (saveFrame m.cpu m.sched.esp0 m.sched.mem).1 (1, 1, 1)).Ok
      (0x10000, 0x1000) m :=
    ⟨hroom, fun _ _ _ => rfl, fun _ _ _ _ => rfl⟩
  have hfresh : Fresh ((0x10000, 0x1000) :: bootSched.heap) 0x1000 threadSize := by decide
  obtain ⟨m', hm'⟩ := context_switch_transparent bootSched_boot (by decide) hfresh (by decide)
    (by decide) rfl hall hm hok
  exact ⟨m, m', hm, hm'⟩

end Toutatis
