import Toutatis.Lib.Memory

/-!
# Threads and the scheduler

A shallow embedding of `kernel/thread.c` and `kernel/scheduler.c`. The structures
`thread_t` and `process_t` are records found under their address; `heap` lists the blocks
that `kmalloc` has given out and `kfree` has not taken back. What `kmalloc` returns is an
argument of the functions that call it, with `0` for the null pointer, and so are the
readings of the cycle counter.

Two things are not in the source: `serial` numbers the threads in the order of their
creation, so that a thread can be told from a later one at the same address, and
`destroyed` lists the numbers of the threads that `destroy_thread` has released.
-/

namespace Toutatis

open ByteMem

/-! ## Data -/

/-- `TASK_SLEEP`, `TASK_READY`, `TASK_RUNNING`, `TASK_FINISHED`. -/
inductive TaskState where
  | sleep
  | ready
  | running
  | finished
  deriving DecidableEq

/-- `thread_t`. -/
structure Thread where
  process : Nat
  esp : Nat
  ss : Nat
  kstack : Nat
  ustack : Nat
  pageDir : Nat
  id : Nat
  state : TaskState
  priority : Nat
  runtime : Nat
  next : Nat
  prev : Nat
  serial : Nat

/-- What `memset(thread, 0, sizeof(thread_t))` leaves. -/
def zeroThread : Thread := ⟨0, 0, 0, 0, 0, 0, 0, .sleep, 0, 0, 0, 0, 0⟩

/-- `sizeof(thread_t)`. -/
def threadSize : Nat := 52

/-- `STACK_SIZE`. -/
def stackSize : Nat := 0x2000

/-- `process_t`, as far as threads use it. -/
structure Process where
  priority : Nat
  pageDir : Nat

/-- Memory and the static variables of the two files, with `esp0` of the task state
    segment, and the address of `thread_exit`. -/
structure Sched where
  threads : Nat → Thread
  processes : Nat → Process
  heap : List (Nat × Nat)
  mem : Mem
  scheduling : Bool
  currentThread : Nat
  kernelThread : Nat
  numThreads : Nat
  threadId : Nat
  currentDirectory : Nat
  oldCyclesCount : Nat
  esp0 : Nat
  threadExitAddr : Nat
  created : Nat
  destroyed : List Nat

/-- Write a thread structure. -/
def Sched.setThread (s : Sched) (a : Nat) (t : Thread) : Sched :=
  { s with threads := Function.update s.threads a t }

/-- `kmalloc` has returned `p`. -/
def kmallocAt (s : Sched) (p size : Nat) : Sched :=
  if p = 0 then s else { s with heap := (p, size) :: s.heap }

/-- `kfree`. -/
def kfree (s : Sched) (p : Nat) : Sched :=
  { s with heap := s.heap.filter fun b => b.1 ≠ p }

/-! ## Lists of threads -/

/-- `schedule_thread`. -/
def scheduleThread (s : Sched) (thread : Nat) : Sched :=
  if thread = 0 then s
  else
    let s := s.setThread thread { s.threads thread with state := .ready, next := 0, prev := 0 }
    if s.kernelThread = 0 then
      let s := { s with kernelThread := thread, currentThread := thread }
      s.setThread thread { s.threads thread with next := thread, prev := thread }
    else
      let cur := s.currentThread
      let s := s.setThread thread
        { s.threads thread with prev := (s.threads cur).prev, next := cur }
      let last := (s.threads cur).prev
      let s := s.setThread last { s.threads last with next := thread }
      s.setThread cur { s.threads cur with prev := thread }

/-- `if (p) p->next = q`. -/
def linkNext (s : Sched) (p q : Nat) : Sched :=
  if p ≠ 0 then s.setThread p { s.threads p with next := q } else s

/-- `if (q) q->prev = p`. -/
def linkPrev (s : Sched) (q p : Nat) : Sched :=
  if q ≠ 0 then s.setThread q { s.threads q with prev := p } else s

/-- `unschedule_thread`. -/
def unscheduleThread (s : Sched) (thread : Nat) : Sched :=
  if thread = 0 ∨ thread = s.kernelThread then s
  else
    let s := linkNext s (s.threads thread).prev (s.threads thread).next
    linkPrev s (s.threads thread).next (s.threads thread).prev

/-! ## Creation and destruction -/

/-- `create_kernel_thread`; `thread` is what `kmalloc` returns. -/
def createKernelThread (s : Sched) (thread : Nat) : Sched :=
  if thread = 0 then s
  else
    let s := kmallocAt s thread threadSize
    let id := add32 s.threadId 1
    let s := s.setThread thread
      { zeroThread with id := id, pageDir := s.currentDirectory, serial := s.created }
    let s := { s with threadId := id, numThreads := add32 s.numThreads 1, created := s.created + 1 }
    scheduleThread s thread

/-- `PUSH`, on memory and a stack pointer. -/
def push (st : Mem × Nat) (x : Nat) : Mem × Nat :=
  let p := sub32 st.2 4
  (store32 st.1 p x, p)

/-- Several words pushed one after the other. -/
def pushAll (st : Mem × Nat) (xs : List Nat) : Mem × Nat := xs.foldl push st

/-- The stacks that `create_thread` sets up. -/
def buildStack (m : Mem) (kstack ustack entry args exitAddr : Nat) (user vm86 : Bool) : Mem × Nat :=
  let dataSegment := if user then 0x20 + 3 else 0x10
  let codeSegment := if user then 0x18 + 3 else 0x08
  let eflags := (if user then 0x3202 else 0x0202) ||| (if vm86 then 1 <<< 17 else 0)
  let top := add32 kstack stackSize
  let st := if user then
      let st := pushAll (m, add32 ustack stackSize) [args, 0xdeadcaca]
      pushAll (st.1, top) [0x23, st.2]
    else pushAll (m, top) [args, exitAddr]
  -- eip, cs, eflags for `iretd`, error code and interrupt number, then the registers
  pushAll st [eflags, codeSegment, entry, 0, 0, 0, 0, 0, 0, 0, 0, 0, dataSegment, dataSegment,
    dataSegment, dataSegment]

/-- The arguments of `create_thread`. -/
structure ThreadArgs where
  process : Nat
  entry : Nat
  args : Nat
  priority : Nat
  user : Bool
  vm86 : Bool

/-- The part of `create_thread` behind the allocations. -/
def finishThread (s : Sched) (a : ThreadArgs) (thread kstack ustack : Nat) : Nat × Sched :=
  let st := buildStack s.mem kstack ustack a.entry a.args s.threadExitAddr a.user a.vm86
  let id := add32 s.threadId 1
  let s := { s with mem := st.1, threadId := id }
  let s := s.setThread thread
    { s.threads thread with
      esp := st.2
      ss := if a.user then 0x20 + 3 else 0x10
      id := id
      process := a.process
      priority := min a.priority (s.processes a.process).priority
      pageDir := (s.processes a.process).pageDir
      runtime := 0
      serial := s.created }
  let s := { s with numThreads := add32 s.numThreads 1, created := s.created + 1 }
  (id, scheduleThread s thread)

/-- `create_thread`; `thread`, `kstack` and `ustack` are what the calls of `kmalloc`
    return. `none`: the page fault when a null process is read. -/
def createThread (s : Sched) (a : ThreadArgs) (thread kstack ustack : Nat) :
    Option (Nat × Sched) :=
  if thread = 0 then some (0, s)
  else
    let s := (kmallocAt s thread threadSize).setThread thread zeroThread
    let s := kmallocAt s kstack stackSize
    let s := s.setThread thread { s.threads thread with kstack := kstack }
    if kstack = 0 then some (0, s)
    else
      let s := if a.user then
          let s := kmallocAt s ustack stackSize
          s.setThread thread { s.threads thread with ustack := ustack }
        else s
      if a.user ∧ ustack = 0 then some (0, s)
      else if a.process = 0 then none
      else some (finishThread s a thread kstack ustack)

/-- `destroy_thread`. -/
def destroyThread (s : Sched) (thread : Nat) : Sched :=
  if thread = 0 then s
  else
    let s := { s with numThreads := sub32 s.numThreads 1 }
    let s := kfree s (s.threads thread).kstack
    let s := if (s.threads thread).ustack ≠ 0 then kfree s (s.threads thread).ustack else s
    let s := kfree s thread
    { s with destroyed := (s.threads thread).serial :: s.destroyed }

/-- `thread_exit`, up to the interrupt that it raises. -/
def threadExit (s : Sched) : Sched :=
  s.setThread s.currentThread { s.threads s.currentThread with state := .finished }

/-! ## The tick -/

/-- `while (thread && thread->state == TASK_SLEEP) thread = thread->next`; `none` when the
    fuel is used up. -/
def nextReadyLoop (threads : Nat → Thread) : (fuel thread : Nat) → Option Nat
  | 0, _ => none
  | fuel + 1, thread =>
    if thread ≠ 0 ∧ (threads thread).state = .sleep then
      nextReadyLoop threads fuel (threads thread).next
    else some thread

/-- `next_ready_thread`. -/
def nextReadyThread (s : Sched) : Option Nat :=
  if s.currentThread = 0 then some 0
  else nextReadyLoop s.threads (2 ^ 32) (s.threads s.currentThread).next

/-- The thread that is left is terminated, or its stack pointer is kept. -/
def leaveThread (s : Sched) (oldEsp elapsed : Nat) : Sched :=
  let cur := s.currentThread
  if (s.threads cur).state = .finished then destroyThread (unscheduleThread s cur) cur
  else
    s.setThread cur
      { s.threads cur with
        esp := oldEsp
        state := .ready
        runtime := ((s.threads cur).runtime + elapsed) % 2 ^ 64 }

/-- The switch to the next thread, with `set_kernel_stack` and `switch_page_directory`,
    which ignores a null directory. -/
def switchThread (s : Sched) (next : Nat) : Nat × Sched :=
  let t := s.threads next
  (t.esp,
    { s with
      threads := Function.update s.threads next { t with state := .running }
      esp0 := t.esp
      currentThread := next
      currentDirectory :=
        if s.currentDirectory ≠ t.pageDir ∧ t.pageDir ≠ 0 then t.pageDir
        else s.currentDirectory })

/-- `schedule_tick`: the stack pointer to continue with, and the state. `cycles` are the
    three readings of the cycle counter. -/
def scheduleTick (s : Sched) (regs : Nat) (cycles : Nat × Nat × Nat) : Option (Nat × Sched) :=
  let old := if s.oldCyclesCount = 0 then cycles.1 else s.oldCyclesCount
  let elapsed := (cycles.2.1 + 2 ^ 64 - old) % 2 ^ 64
  (nextReadyThread s).map fun next =>
    let r := if next ≠ 0 ∧ next ≠ s.currentThread then
        switchThread (leaveThread s regs elapsed) next
      else (regs, s)
    (r.1, { r.2 with oldCyclesCount := cycles.2.2 })

/-- `scheduling_init`; `thread` is what `kmalloc` returns. -/
def schedulingInit (s : Sched) (thread : Nat) : Sched :=
  let s := if s.currentThread = 0 then createKernelThread s thread else s
  { s with scheduling := true }

end Toutatis
