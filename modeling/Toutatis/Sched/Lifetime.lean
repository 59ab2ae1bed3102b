import Toutatis.Sched.Ring
import Toutatis.System.Handlers

/-!
# Lifetime of threads and stacks

`irq_handler` of `kernel/system.c`, and what it does with memory that `destroy_thread` has
released. Two slips make it use such memory: `unschedule_thread` leaves the kernel thread
in the ring, while `destroy_thread` releases it like any other; and behind `schedule_tick` the
interrupt number is read from, and the handlers are called with, a frame on the stack of the
thread that was left, also when that stack has just been released.

## Key results

- `no_use_after_release_iff`: the runs in which no released memory is used
- `create_thread_atomic_iff`: when a call of `create_thread` that fails leaves nothing behind
-/

namespace Toutatis

open Run Links ByteMem

/-! ## The interrupt handler -/

/-- `while (h) { h->handler(regs); h = h->next; }`: the handlers that are called; `none` when
    the fuel is used up. -/
def callHandlers (slots : Nat → Handler) : (fuel : Nat) → Option Nat → Option (List Nat)
  | _, none => some []
  | 0, some _ => none
  | fuel + 1, some h =>
    (callHandlers slots fuel (slots h).next).map fun fs => (slots h).handler :: fs

/-- `regs->int_no`: eleven registers lie below it. -/
def intNo (mem : Mem) (regs : Nat) : Nat := load32 mem (regs + 44)

/-- `irq_handler`: the stack pointer to continue with, the state, and the handlers that are
    called with `regs`. The interrupt number is read once more behind `schedule_tick`. -/
def irqHandler (s : Sched) (rows : Nat → Row) (regs : Nat) (spurious : Bool)
    (cycles : Nat × Nat × Nat) : Option (Nat × Sched × List Nat) :=
  if spurious then some (regs, s, [])
  else
    (if s.scheduling ∧ intNo s.mem regs = 0 then scheduleTick s regs cycles
      else some (regs, s)).bind fun r =>
        let row := rows (intNo r.2.mem regs + 0x20)
        (callHandlers row.slots maxHandlers (getInterruptHandler row)).map fun fs =>
          (r.1, r.2, fs)

/-- The handlers that are called are those in the slots that dispatch visits. -/
theorem callHandlers_eq_map (slots : Nat → Handler) (fuel : Nat) (p : Option Nat) :
    callHandlers slots fuel p =
      (dispatchLoop slots fuel p).map (List.map fun i => (slots i).handler) := by
  induction fuel generalizing p with
  | zero =>
    cases p with
    | none => rfl
    | some h => rfl
  | succ fuel ih =>
    cases p with
    | none => rfl
    | some h =>
      rw [callHandlers, dispatchLoop, ih, Option.map_map, Option.map_map]
      rfl

theorem RowOk.callHandlers_eq {row : Row} {L : List Nat} (h : RowOk row L) :
    callHandlers row.slots maxHandlers (getInterruptHandler row) =
      some (L.map fun i => (row.slots i).handler) := by
  rw [callHandlers_eq_map, h.getInterruptHandler_eq,
    dispatchLoop_eq h.linked h.chainOk.length_le]
  rfl

/-! ## Use of released memory -/

/-- The threads that the links reach, and `kernel_thread`, are blocks in use. -/
def ThreadsLive (s : Sched) : Prop :=
  (∀ i, ((fun a => (s.threads a).next)^[i] s.currentThread, threadSize) ∈ s.heap) ∧
    (s.kernelThread, threadSize) ∈ s.heap

/-- Whatever the stub has pushed: where `irq_handler` reads the interrupt number again and
    calls the handlers of the timer, the frame does not lie in a block that it has released. -/
def FrameLive (s : Sched) (rows : Nat → Row) (regs : Nat) (cycles : Nat × Nat × Nat) : Prop :=
  ∀ mem, intNo mem regs = 0 →
    ∀ esp s' fs, irqHandler { s with mem := mem } rows regs false cycles = some (esp, s', fs) →
      ∀ b ∈ s.heap, b.1 ≤ regs → regs < b.1 + b.2 → b ∈ s'.heap

/-- The frame of an interrupt lies on the kernel stack of the current thread, which for
    the kernel thread is not in the heap. -/
def OnStack (s : Sched) (regs : Nat) : Prop :=
  if (s.threads s.currentThread).kstack = 0 then ∀ b ∈ s.heap, regs < b.1 ∨ b.1 + b.2 ≤ regs
  else (s.threads s.currentThread).kstack ≤ regs ∧
    regs < (s.threads s.currentThread).kstack + stackSize

instance (s : Sched) (regs : Nat) : Decidable (OnStack s regs) :=
  inferInstanceAs (Decidable (ite _ _ _))

/-- `kmalloc` returns free memory, and interrupts use the stack of the current thread. -/
def ThreadCall.Placed (s : Sched) : ThreadCall → Prop
  | .create a thread kstack ustack => FreshBlocks s a.user thread kstack ustack
  | .exit => True
  | .tick regs _ => OnStack s regs

instance (s : Sched) : (c : ThreadCall) → Decidable (c.Placed s)
  | .create a thread kstack ustack =>
    inferInstanceAs (Decidable (FreshBlocks s a.user thread kstack ustack))
  | .exit => inferInstanceAs (Decidable True)
  | .tick regs _ => inferInstanceAs (Decidable (OnStack s regs))

/-- A tick does not find the current thread finished with another thread in the ring. -/
def ThreadCall.Quiet (s : Sched) : ThreadCall → Prop
  | .tick _ _ => (s.threads s.currentThread).state = .finished →
      (s.threads s.currentThread).next = s.currentThread
  | _ => True

/-! ## The invariant -/

/-- The ring, with a kernel stack for every thread but the kernel thread. -/
structure LifeOk (s : Sched) (rest : List Nat) : Prop where
  ring : RingOk s rest
  scheduling : s.scheduling = true
  kstack : ∀ a ∈ s.currentThread :: rest, a ≠ s.kernelThread → (s.threads a).kstack ≠ 0

section

variable {s s' : Sched} {rest : List Nat} {rows : Nat → Row} {L : List Nat} {c : ThreadCall}

theorem RingOk.threadsLive (h : RingOk s rest) : ThreadsLive s :=
  ⟨fun i => h.thread_mem (Ring.iterate_mem h.ring i), h.thread_mem h.kernel⟩

/-- Memory is no part of the invariant. -/
theorem LifeOk.withMem (h : LifeOk s rest) (mem : Mem) : LifeOk { s with mem := mem } rest :=
  ⟨⟨h.ring.ring, h.ring.nodup, h.ring.kernel, h.ring.count, h.ring.ready, h.ring.awake,
    h.ring.serials, h.ring.heap, h.ring.blocks, h.ring.blocks_sub⟩, h.scheduling, h.kstack⟩

/-- At a quiet tick a thread that has finished is alone in the ring. -/
theorem LifeOk.rest_eq_nil (h : LifeOk s rest) {regs : Nat} {cycles : Nat × Nat × Nat}
    (hq : (ThreadCall.tick regs cycles).Quiet s)
    (hfin : (s.threads s.currentThread).state = .finished) : rest = [] :=
  h.ring.next_eq_self_iff.mp (hq hfin)

/-- A call that is quiet keeps the invariant. -/
theorem LifeOk.exec (h : LifeOk s rest) (hp : c.Placed s) (hq : c.Quiet s)
    (hs' : c.exec s = some s') : ∃ rest', LifeOk s' rest' := by
  cases c with
  | create a t k u =>
    obtain ⟨r, hr, rfl⟩ := Option.map_eq_some_iff.mp hs'
    obtain ⟨hcur, hker, -, hsched, -, hframe⟩ := h.ring.create_frame hp hr
    have hold : ∀ x ∈ s.currentThread :: rest, x ≠ s.kernelThread → (r.2.threads x).kstack ≠ 0 := by
      intro x hx hxk
      rw [(Thread.core_fields (hframe x hx).1).2.1]
      exact h.kstack x hx hxk
    rcases h.ring.create hp hr with ⟨hring, -⟩ |
      ⟨u', blocks, ht0, htL, hk0, -, -, -, rfl, hring⟩
    · exact ⟨rest, hring, by rw [hsched, h.scheduling], by rw [hcur, hker]; exact hold⟩
    · -- the new thread has a kernel stack too
      refine ⟨_, hring, by rw [hsched, h.scheduling], ?_⟩
      rw [hcur, hker]
      intro x hx hxk
      rw [← List.cons_append, List.mem_append, List.mem_singleton] at hx
      rcases hx with hx | rfl
      · exact hold x hx hxk
      · obtain ⟨T, heq, -, hnew⟩ := h.ring.finishThread_spec a k u k u' blocks ht0 htL
        rw [heq]
        have hkst : (T x).kstack = k := by
          rw [(Thread.core_fields hnew).2.1]
          simp [newThread, Sched.withBlocks]
        rw [hkst]
        exact hk0
  | exit =>
    cases hs'
    refine ⟨rest, h.ring.exit, h.scheduling, fun x hx hxk => ?_⟩
    by_cases hxc : x = s.currentThread
    · subst hxc
      simpa [threadExit, Sched.setThread] using h.kstack _ hx hxk
    · simpa [threadExit, Sched.setThread, hxc] using h.kstack x hx hxk
  | tick regs cycles =>
    have hk : (s.threads s.currentThread).state = .finished → rest ≠ [] →
        s.currentThread ≠ s.kernelThread := fun hfin hne => absurd (h.rest_eq_nil hq hfin) hne
    obtain ⟨esp, t, ht, hcases⟩ := h.ring.tick hk regs cycles
    obtain ⟨hker, hsched, -⟩ := statics_scheduleTick ht
    rw [ThreadCall.exec, ht, Option.map_some, Option.some.injEq] at hs'
    subst hs'
    have hold : ∀ x ∈ s.currentThread :: rest, x ≠ s.kernelThread → (t.threads x).kstack ≠ 0 := by
      intro x hx hxk
      rw [(kept_scheduleTick ht x).2.1]
      exact h.kstack x hx hxk
    rcases hcases with ⟨rfl, hr, -, rfl⟩ |
      ⟨b, rest', rfl, hcur, -, -, -, ⟨-, hr, -⟩ | ⟨-, hr, -⟩⟩
    · exact ⟨_, hr, h.scheduling, hold⟩
    · -- a switch; the last case, the release of a thread that has finished, is not quiet
      refine ⟨_, hr, by rw [hsched, h.scheduling], ?_⟩
      rw [hcur, hker]
      exact fun x hx => hold x (mem_of_mem_rotate hx)
    · refine ⟨_, hr, by rw [hsched, h.scheduling], ?_⟩
      rw [hcur, hker]
      exact fun x hx => hold x (List.mem_cons_of_mem _ hx)

/-- The timer interrupt: the tick, then the handlers of row 32. -/
theorem LifeOk.irqHandler_eq (h : LifeOk s rest) (hrow : RowOk (rows 32) L) {regs : Nat}
    (hno : intNo s.mem regs = 0) (cycles : Nat × Nat × Nat) :
    irqHandler s rows regs false cycles = (scheduleTick s regs cycles).map fun r =>
      (r.1, r.2, L.map fun i => ((rows 32).slots i).handler) := by
  rw [irqHandler, if_neg (by decide), if_pos ⟨h.scheduling, hno⟩]
  cases ht : scheduleTick s regs cycles with
  | none => rfl
  | some r =>
    obtain ⟨esp, s'⟩ := r
    obtain ⟨-, -, hmem, -⟩ := statics_scheduleTick ht
    simp only [Option.bind_some, Option.map_some, hmem, hno, Nat.zero_add]
    rw [hrow.callHandlers_eq]
    rfl

/-- A quiet tick reads and passes a frame that is still in use. -/
theorem LifeOk.frameLive (h : LifeOk s rest) (hrow : RowOk (rows 32) L) {regs : Nat}
    {cycles : Nat × Nat × Nat} (hq : (ThreadCall.tick regs cycles).Quiet s) :
    FrameLive s rows regs cycles := by
  intro mem hno esp s' fs hirq b hb _ _
  have hm := h.withMem mem
  obtain ⟨esp', t, ht, hcases⟩ := hm.ring.tick
    (fun hfin hne => absurd (h.rest_eq_nil hq hfin) hne) regs cycles
  rw [hm.irqHandler_eq hrow hno, ht, Option.map_some, Option.some.injEq, Prod.mk.injEq,
    Prod.mk.injEq] at hirq
  obtain ⟨-, rfl, -⟩ := hirq
  rcases hcases with ⟨-, -, -, rfl⟩ | ⟨c, rest', rfl, -, -, -, -, ⟨-, -, -, hheap, -⟩ | ⟨hfin, -⟩⟩
  · exact hb
  · rw [hheap]
    exact hb
  · -- the thread would not be alone
    exact absurd (h.rest_eq_nil hq hfin) (by simp)

/-- What a tick releases when it leaves a thread that has finished. -/
private theorem heap_of_finished {b : Nat} (h : RingOk s (b :: rest))
    (hfin : (s.threads s.currentThread).state = .finished) {regs : Nat} {cycles : Nat × Nat × Nat}
    {esp : Nat} (ht : scheduleTick s regs cycles = some (esp, s')) {c : Nat × Nat}
    (hc : c.1 = (s.threads s.currentThread).kstack ∨ c.1 = s.currentThread) : c ∉ s'.heap := by
  obtain ⟨elapsed, ht'⟩ := h.scheduleTick_cons regs cycles
  rw [ht, Option.some.injEq, Prod.mk.injEq] at ht'
  rw [ht'.2]
  have hleave : leaveThread s regs elapsed =
      destroyThread (unscheduleThread s s.currentThread) s.currentThread := by
    rw [leaveThread, if_pos hfin]
  have hheap : ∀ t : Sched, (switchThread t b).2.heap = t.heap := fun _ => rfl
  obtain ⟨heap, hd, hmem, -⟩ := destroyThread_spec
    (s := unscheduleThread s s.currentThread) (h.pos List.mem_cons_self).1.ne'
  simp only [hheap, hleave, hd, hmem]
  rintro ⟨-, hk, -, ht⟩
  have hst : ((unscheduleThread s s.currentThread).threads s.currentThread).kstack =
      (s.threads s.currentThread).kstack :=
    (Thread.core_fields (core_unscheduleThread s s.currentThread s.currentThread)).2.1
  rw [hst] at hk
  exact hc.elim hk ht

/-- A tick that is not quiet uses released memory. -/
theorem LifeOk.quiet_of_live (h : LifeOk s rest) (hrow : RowOk (rows 32) L) {regs : Nat}
    {cycles : Nat × Nat × Nat} (hp : OnStack s regs) (hframe : FrameLive s rows regs cycles)
    (hlive : ∀ s', (ThreadCall.tick regs cycles).exec s = some s' → ThreadsLive s') :
    (ThreadCall.tick regs cycles).Quiet s := by
  intro hfin
  by_contra hne
  cases hrest : rest with
  | nil => exact hne (h.ring.next_eq_self_iff.mpr hrest)
  | cons b rest' =>
    subst hrest
    obtain ⟨elapsed, ht⟩ := h.ring.scheduleTick_cons regs cycles
    by_cases hck : s.currentThread = s.kernelThread
    · -- kernel_thread is released by this tick
      have hl := (hlive _ (by rw [ThreadCall.exec, ht]; rfl)).2
      refine heap_of_finished h.ring hfin ht (Or.inr ?_) hl
      rw [hck]
      exact (statics_scheduleTick ht).1
    · -- the frame lies on the stack that has just been released
      have hk0 := h.kstack _ List.mem_cons_self hck
      rw [OnStack, if_neg hk0] at hp
      have hb : ((s.threads s.currentThread).kstack, stackSize) ∈ s.heap := by
        refine h.ring.blocks_sub _ (List.mem_flatMap.mpr ⟨_, List.mem_cons_self, ?_⟩)
        simp [owned, hk0]
      have hm := h.withMem fun _ => 0
      have hno : intNo (fun _ => 0) regs = 0 := by simp [intNo, load32]
      obtain ⟨elapsed', ht'⟩ := hm.ring.scheduleTick_cons regs cycles
      have hirq := hm.irqHandler_eq hrow hno cycles
      rw [ht', Option.map_some] at hirq
      exact heap_of_finished hm.ring hfin ht' (Or.inl rfl)
        (hframe _ hno _ _ _ hirq _ hb hp.1 hp.2)

end

section Runs

variable {s₀ : Sched} {k : Nat} {rows : Nat → Row} {L : List Nat} {calls : List ThreadCall}

/-- **No use after release.** In a run of `create_thread`, `thread_exit` by any thread and
    ticks, with the handlers `L` attached to the timer, the linked threads and
    `kernel_thread` are in use in every state, and no interrupt reads or passes on a frame on a
    released stack, if and only if no tick finds the current thread finished with another
    thread in the ring. -/
theorem no_use_after_release_iff (hboot : s₀.Boot) (hk : k ≠ 0) (hf : Fresh s₀.heap k threadSize)
    (hrow : RowOk (rows 32) L)
    (hp : Each ThreadCall.exec ThreadCall.Placed (schedulingInit s₀ k) calls) :
    (∀ pre post, calls = pre ++ post →
      ∀ s, execAll ThreadCall.exec (schedulingInit s₀ k) pre = some s →
      ThreadsLive s ∧ ∀ regs cycles next, post = .tick regs cycles :: next →
        FrameLive s rows regs cycles) ↔
    Each ThreadCall.exec ThreadCall.Quiet (schedulingInit s₀ k) calls := by
  have hring := hboot.ringOk hk hf
  have hinit : LifeOk (schedulingInit s₀ k) [] := by
    refine ⟨hring, rfl, fun a ha hne => ?_⟩
    have hker := hring.kernel
    rw [List.mem_singleton] at ha hker
    exact absurd (ha.trans hker.symm) hne
  have hstep : ∀ (s : Sched) (c : ThreadCall) (s' : Sched), (∃ rest, LifeOk s rest) →
      c.Placed s → c.Quiet s → c.exec s = some s' → ∃ rest, LifeOk s' rest :=
    fun s c s' ⟨_, h⟩ hc hq hs' => h.exec hc hq hs'
  -- the parts of the equivalence: the invariant is kept, a quiet call uses no released memory, and
  -- a call that is not quiet does
  have hframe : ∀ (s : Sched) (c : ThreadCall), (∃ rest, LifeOk s rest) → c.Placed s →
      c.Quiet s → ∀ regs cycles, c = .tick regs cycles → FrameLive s rows regs cycles := by
    rintro s c ⟨_, h⟩ hc hq regs cycles rfl
    exact h.frameLive hrow hq
  have hquiet : ∀ (s : Sched) (c : ThreadCall), (∃ rest, LifeOk s rest) → c.Placed s →
      (∀ regs cycles, c = .tick regs cycles → FrameLive s rows regs cycles) →
      (∀ s', c.exec s = some s' → ThreadsLive s') → c.Quiet s := by
    rintro s c ⟨_, h⟩ hc hframe hlive
    cases c with
    | create => trivial
    | exit => trivial
    | tick regs cycles => exact h.quiet_of_live hrow hc (hframe regs cycles rfl) hlive
  rw [← forall_split_iff (fun s ⟨_, h⟩ => h.ring.threadsLive) hstep hframe hquiet ⟨[], hinit⟩ hp]
  refine forall₅_congr fun pre post hsplit s hs => and_congr_right fun _ => ?_
  exact ⟨fun h c next hpost regs cycles hc => h regs cycles next (hc ▸ hpost),
    fun h regs cycles next hpost => h _ next hpost regs cycles rfl⟩

/-- A thread is created, gets its turn, hands it back, gets it again and exits. -/
def passedCalls : List ThreadCall :=
  [.create ⟨1, 0, 0, 1, false, false⟩ 0x2000 0x4000 0, .tick 0x8000 (1, 1, 1),
    .tick 0x5f00 (1, 1, 1), .tick 0x8000 (1, 1, 1), .exit]

/-- With a handler attached to the timer, no turn of these threads uses released memory. -/
theorem no_use_after_turns : ∃ row, attachRow (noHandlers 32) 32 7 = some row ∧
    Each ThreadCall.exec ThreadCall.Placed (schedulingInit bootSched 0x1000) passedCalls ∧
    ∀ pre post, passedCalls = pre ++ post →
      ∀ s, execAll ThreadCall.exec (schedulingInit bootSched 0x1000) pre = some s →
      ThreadsLive s ∧ ∀ regs cycles next, post = .tick regs cycles :: next →
        FrameLive s (fun _ => row) regs cycles := by
  obtain ⟨row, L, hrow, hok, -⟩ := (rowOk_noHandlers 32).attach
    (by decide) (by decide : (7 : Nat) ≠ 0) (Or.inr rfl) 32
  -- the calls are run one by one
  have hplaced : Each ThreadCall.exec ThreadCall.Placed (schedulingInit bootSched 0x1000)
      passedCalls := by
    refine ⟨by decide, fun s₁ h₁ => ?_⟩
    cases h₁
    refine ⟨by decide, fun s₂ h₂ => ?_⟩
    cases h₂
    refine ⟨by decide, fun s₃ h₃ => ?_⟩
    cases h₃
    refine ⟨by decide, fun s₄ h₄ => ?_⟩
    cases h₄
    exact ⟨trivial, fun _ _ => trivial⟩
  refine ⟨row, hrow, hplaced, (no_use_after_release_iff bootSched_boot (by decide) (by decide)
    hok hplaced).mpr ⟨trivial, fun s₁ h₁ => ?_⟩⟩
  cases h₁
  refine ⟨fun hfin => absurd hfin (by decide), fun s₂ h₂ => ?_⟩
  cases h₂
  refine ⟨fun hfin => absurd hfin (by decide), fun s₃ h₃ => ?_⟩
  cases h₃
  refine ⟨fun hfin => absurd hfin (by decide), fun s₄ h₄ => ?_⟩
  cases h₄
  exact ⟨trivial, fun _ _ => trivial⟩

/-- When the kernel thread exits, it is released and still linked. When another thread exits,
    the interrupt number is read, and the handler of the timer is called, on the stack of that
    thread, which has been released. -/
theorem released_memory_used :
    (∃ s, execAll ThreadCall.exec (schedulingInit bootSched 0x1000)
        [.create ⟨1, 0, 0, 1, false, false⟩ 0x2000 0x4000 0, .exit, .tick 0x8000 (1, 1, 1)] =
          some s ∧
      s.kernelThread = 0x1000 ∧ (s.threads s.currentThread).next = 0x1000 ∧
      (0x1000, threadSize) ∉ s.heap) ∧
    ∃ s row r, execAll ThreadCall.exec (schedulingInit bootSched 0x1000)
        [.create ⟨1, 0, 0, 1, false, false⟩ 0x2000 0x4000 0, .tick 0x8000 (1, 1, 1), .exit] =
          some s ∧
      attachRow (noHandlers 32) 32 7 = some row ∧
      irqHandler { s with mem := fun _ => 0 } (fun _ => row) 0x5f00 false (1, 1, 1) = some r ∧
      r.2.2 = [7] ∧ (0x4000, stackSize) ∈ s.heap ∧ (0x4000, stackSize) ∉ r.2.1.heap ∧
      ¬ FrameLive s (fun _ => row) 0x5f00 (1, 1, 1) := by
  refine ⟨⟨_, rfl, by decide, by decide, by decide⟩,
    _, _, _, rfl, rfl, rfl, by decide, by decide, by decide, fun h => ?_⟩
  have hno : intNo (fun _ => 0) 0x5f00 = 0 := by decide
  have hlive := h (fun _ => 0) hno _ _ _ rfl (0x4000, stackSize) (by decide) (by decide) (by decide)
  exact absurd hlive (by decide)

end Runs

/-! ## Creation that fails -/

/-- The bytes in the blocks that `kmalloc` has given out. -/
def Sched.memUsed (s : Sched) : Nat := (s.heap.map Prod.snd).sum

/-- The live blocks, their size, the number of threads and the ring are the same. -/
structure Untouched (s s' : Sched) : Prop where
  heap : s'.heap = s.heap
  used : s'.memUsed = s.memUsed
  count : s'.numThreads = s.numThreads
  current : s'.currentThread = s.currentThread
  kernel : s'.kernelThread = s.kernelThread
  links : ∀ t, (s'.threads t).next = (s.threads t).next ∧ (s'.threads t).prev = (s.threads t).prev

/-- A call of `create_thread` that returns 0 leaves nothing behind. -/
def CreateAtomic (s : Sched) (a : ThreadArgs) (thread kstack ustack : Nat) : Prop :=
  ∀ s', createThread s a thread kstack ustack = some (0, s') → Untouched s s'

theorem setThread_heap (s : Sched) (thread : Nat) (t : Thread) :
    (s.setThread thread t).heap = s.heap := rfl

theorem scheduleThread_heap (s : Sched) (thread : Nat) :
    (scheduleThread s thread).heap = s.heap := by
  simp only [scheduleThread, apply_ite Sched.heap, setThread_heap, ite_self]

theorem finishThread_heap (s : Sched) (a : ThreadArgs) (thread kstack ustack : Nat) :
    (finishThread s a thread kstack ustack).2.heap = s.heap := by
  show (scheduleThread _ thread).heap = _
  rw [scheduleThread_heap]
  rfl

theorem length_kmallocAt_heap (s : Sched) (p size : Nat) :
    s.heap.length ≤ (kmallocAt s p size).heap.length := by
  unfold kmallocAt
  split
  · exact Nat.le_refl _
  · exact Nat.le_succ _

/-- The block of the thread is there in every state that `create_thread` returns behind its
    first allocation. -/
theorem createThread_heap {s s' : Sched} {a : ThreadArgs} {thread kstack ustack n : Nat}
    (hthread : thread ≠ 0) (h : createThread s a thread kstack ustack = some (n, s')) :
    s.heap.length < s'.heap.length := by
  have hfirst : (kmallocAt s thread threadSize).heap.length = s.heap.length + 1 := by
    unfold kmallocAt
    rw [if_neg hthread]
    rfl
  have hsecond := length_kmallocAt_heap ((kmallocAt s thread threadSize).setThread thread zeroThread)
    kstack stackSize
  rw [setThread_heap, hfirst] at hsecond
  -- each later step adds a block to the heap or leaves it alone
  have hthird : ∀ t : Sched, s.heap.length + 1 ≤ t.heap.length →
      s.heap.length + 1 ≤ (kmallocAt t ustack stackSize).heap.length :=
    fun t ht => Nat.le_trans ht (length_kmallocAt_heap t ustack stackSize)
  unfold createThread at h
  rw [if_neg hthread] at h
  simp only at h
  split at h
  · obtain ⟨-, rfl⟩ := Prod.mk.inj (Option.some.inj h)
    exact hsecond
  · split at h
    · obtain ⟨-, rfl⟩ := Prod.mk.inj (Option.some.inj h)
      split
      · rw [setThread_heap]
        exact hthird _ (by rwa [setThread_heap])
      · rw [setThread_heap]
        exact hsecond
    · split at h
      · exact absurd h (by simp)
      · have hs' := congrArg Prod.snd (Option.some.inj h)
        rw [show s' = _ from hs'.symm, finishThread_heap]
        split
        · rw [setThread_heap]
          exact hthird _ (by rwa [setThread_heap])
        · rw [setThread_heap]
          exact hsecond

/-- When `create_thread` returns 0 although the thread structure was allocated. -/
theorem createThread_zero_iff (s : Sched) (a : ThreadArgs) {thread kstack ustack : Nat}
    (hthread : thread ≠ 0) :
    (∃ s', createThread s a thread kstack ustack = some (0, s')) ↔
      kstack = 0 ∨ (a.user ∧ ustack = 0) ∨ (a.process ≠ 0 ∧ add32 s.threadId 1 = 0) := by
  have hid : ∀ s₁ : Sched, s₁.threadId = s.threadId →
      (finishThread s₁ a thread kstack ustack).1 = add32 s.threadId 1 := by
    intro s₁ h₁
    show add32 s₁.threadId 1 = _
    rw [h₁]
  have hmalloc : ∀ (s : Sched) (p size : Nat), (kmallocAt s p size).threadId = s.threadId := by
    intro s p size
    simp only [kmallocAt, apply_ite Sched.threadId, ite_self]
  unfold createThread
  rw [if_neg hthread]
  by_cases hk : kstack = 0
  · simp only [if_pos hk]
    exact iff_of_true ⟨_, rfl⟩ (Or.inl hk)
  · simp only [if_neg hk]
    by_cases hu : a.user ∧ ustack = 0
    · simp only [if_pos hu]
      exact iff_of_true ⟨_, rfl⟩ (Or.inr (Or.inl hu))
    · simp only [if_neg hu]
      by_cases hp : a.process = 0
      · -- the null process is dereferenced
        simp only [if_pos hp]
        refine iff_of_false (by simp) ?_
        rintro (h | h | h)
        · exact hk h
        · exact hu h
        · exact h.1 hp
      · -- the number of the new thread is returned
        simp only [if_neg hp]
        constructor
        · rintro ⟨s', hs'⟩
          have hzero := congrArg Prod.fst (Option.some.inj hs')
          rw [hid] at hzero
          · exact Or.inr (Or.inr ⟨hp, hzero⟩)
          · simp only [apply_ite Sched.threadId, Sched.setThread, hmalloc, ite_self]
        · rintro (h | h | h)
          · exact absurd h hk
          · exact absurd h hu
          · refine ⟨_, congrArg some (Prod.ext ?_ rfl)⟩
            rw [hid]
            · exact h.2
            · simp only [apply_ite Sched.threadId, Sched.setThread, hmalloc, ite_self]

/-- **`create_thread` that returns 0** leaves the live blocks, the number of threads and the ring
    as they were if and only if the first allocation has failed, or none has and the number of
    the thread has not wrapped around: what was allocated before a failure is not released. -/
theorem create_thread_atomic_iff (s : Sched) (a : ThreadArgs) (thread kstack ustack : Nat) :
    CreateAtomic s a thread kstack ustack ↔
      thread = 0 ∨ ¬ (kstack = 0 ∨ (a.user ∧ ustack = 0) ∨
        (a.process ≠ 0 ∧ add32 s.threadId 1 = 0)) := by
  by_cases hthread : thread = 0
  · refine iff_of_true ?_ (Or.inl hthread)
    intro s' hs'
    unfold createThread at hs'
    rw [if_pos hthread] at hs'
    obtain ⟨-, rfl⟩ := Prod.mk.inj (Option.some.inj hs')
    exact ⟨rfl, rfl, rfl, rfl, rfl, fun t => ⟨rfl, rfl⟩⟩
  · rw [← createThread_zero_iff s a hthread]
    constructor
    · intro hatomic
      refine Or.inr ?_
      rintro ⟨s', hs'⟩
      -- a call that fails later has left a block behind
      have hgrown := createThread_heap hthread hs'
      rw [(hatomic s' hs').heap] at hgrown
      exact Nat.lt_irrefl _ hgrown
    · rintro (h | h)
      · exact absurd h hthread
      · intro s' hs'
        exact absurd ⟨s', hs'⟩ h

/-- The stack of a kernel thread cannot be allocated: the block of the thread structure stays. -/
theorem create_thread_leaks : ∃ s',
    createThread bootSched ⟨1, 0, 0, 1, false, false⟩ 0x2000 0 0 = some (0, s') ∧
      bootSched.heap = [] ∧ s'.heap = [(0x2000, threadSize)] ∧
      ¬ CreateAtomic bootSched ⟨1, 0, 0, 1, false, false⟩ 0x2000 0 0 := by
  refine ⟨_, rfl, rfl, rfl, ?_⟩
  intro h
  exact absurd (h _ rfl).heap (by decide)

end Toutatis
