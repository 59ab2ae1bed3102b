import Toutatis.Lib.Links
import Toutatis.Lib.Run
import Toutatis.Sched.Thread

/-!
# The ring of threads

The threads form a ring through `next` and `prev`, which `schedule_thread` and
`unschedule_thread` edit at `current_thread`. `RingOk` is the invariant of every run in
which the kernel thread does not exit.

## Key results

- `RingOk.create`, `RingOk.exit`, `RingOk.tick`: the three calls
- `ring_after_calls`: the invariant over whole runs
-/

namespace Toutatis

open ByteMem Run Links

/-! ## Blocks of the heap -/

/-- Two blocks do not overlap. -/
def Apart (b c : Nat × Nat) : Prop := b.1 + b.2 ≤ c.1 ∨ c.1 + c.2 ≤ b.1

/-- The blocks that `kmalloc` has given out do not overlap. -/
structure HeapOk (heap : List (Nat × Nat)) : Prop where
  apart : heap.Pairwise Apart
  bounds : ∀ b ∈ heap, 0 < b.1 ∧ 0 < b.2 ∧ b.1 + b.2 ≤ 2 ^ 32

/-- What `kmalloc` may return: the null pointer, or a block apart from those in use. -/
def Fresh (heap : List (Nat × Nat)) (p size : Nat) : Prop :=
  p ≠ 0 → p + size ≤ 2 ^ 32 ∧ ∀ b ∈ heap, Apart (p, size) b

instance (b c : Nat × Nat) : Decidable (Apart b c) :=
  inferInstanceAs (Decidable (b.1 + b.2 ≤ c.1 ∨ c.1 + c.2 ≤ b.1))

instance (heap : List (Nat × Nat)) (p size : Nat) : Decidable (Fresh heap p size) :=
  inferInstanceAs (Decidable (p ≠ 0 → p + size ≤ 2 ^ 32 ∧ ∀ b ∈ heap, Apart (p, size) b))

/-- The blocks of a thread: its structure and its stacks. -/
def owned (t : Nat → Thread) (a : Nat) : List (Nat × Nat) :=
  (a, threadSize) ::
    ((if (t a).kstack = 0 then [] else [((t a).kstack, stackSize)]) ++
      if (t a).ustack = 0 then [] else [((t a).ustack, stackSize)])

/-- What a thread owns: its record and its two stacks, if it has them. -/
theorem mem_owned_iff {t : Nat → Thread} {a : Nat} {b : Nat × Nat} :
    b ∈ owned t a ↔ b = (a, threadSize) ∨ ((t a).kstack ≠ 0 ∧ b = ((t a).kstack, stackSize)) ∨
      ((t a).ustack ≠ 0 ∧ b = ((t a).ustack, stackSize)) := by
  unfold owned
  split_ifs with hk hu hu <;> simp [hk, hu]

/-- Two blocks of the heap lie apart. -/
theorem HeapOk.apart_of_ne {heap : List (Nat × Nat)} (h : HeapOk heap) {b c : Nat × Nat}
    (hb : b ∈ heap) (hc : c ∈ heap) (hne : b ≠ c) : Apart b c := by
  have : Std.Symm Apart := ⟨fun _ _ => Or.symm⟩
  exact h.apart.forall hb hc hne

/-- A block is known by its address. -/
theorem HeapOk.inj {heap : List (Nat × Nat)} (h : HeapOk heap) {b c : Nat × Nat} (hb : b ∈ heap)
    (hc : c ∈ heap) (hp : b.1 = c.1) : b = c := by
  by_contra hne
  have hb' := h.bounds b hb
  have hc' := h.bounds c hc
  rcases h.apart_of_ne hb hc hne with h | h
  · omega
  · omega

/-- No block is given out twice. -/
theorem HeapOk.nodup {heap : List (Nat × Nat)} (h : HeapOk heap) : heap.Nodup := by
  refine h.apart.imp_of_mem fun {b c} hb _ hbc he => ?_
  subst he
  have := h.bounds b hb
  rcases hbc with hbc | hbc <;> omega

/-- A block of free memory is apart from all others. -/
theorem HeapOk.kmalloc {s : Sched} (h : HeapOk s.heap) {p size : Nat} (hs : 0 < size)
    (hf : Fresh s.heap p size) : HeapOk (kmallocAt s p size).heap := by
  rw [kmallocAt]
  split
  · exact h
  · have hp : 0 < p := Nat.pos_of_ne_zero ‹_›
    obtain ⟨hle, hapart⟩ := hf hp.ne'
    refine ⟨List.pairwise_cons.mpr ⟨hapart, h.apart⟩, fun b hb => ?_⟩
    rcases List.mem_cons.mp hb with rfl | hb
    · exact ⟨hp, hs, hle⟩
    · exact h.bounds b hb

/-- What is left after `kfree` is still apart. -/
theorem HeapOk.kfree {s : Sched} (h : HeapOk s.heap) (p : Nat) : HeapOk (kfree s p).heap :=
  ⟨h.apart.filter _, fun b hb => h.bounds b (List.mem_filter.mp hb).1⟩

/-! ## The fields after an edit of the ring -/

/-- A thread without what the scheduler changes when it edits the ring. -/
def Thread.core (t : Thread) : Thread := { t with state := .sleep, next := 0, prev := 0 }

/-- Fields that belong to the core of a thread. -/
theorem Thread.core_fields {t t' : Thread} (h : t.core = t'.core) :
    t.serial = t'.serial ∧ t.kstack = t'.kstack ∧ t.ustack = t'.ustack ∧ t.esp = t'.esp := by
  simp only [Thread.core, Thread.mk.injEq] at h
  tauto

section Edit

variable {s : Sched} {thread : Nat}

/-- `schedule_thread` with a ring that is not empty. -/
theorem scheduleThread_spec (h0 : thread ≠ 0) (hk : s.kernelThread ≠ 0)
    (hc : s.currentThread ≠ thread) (hl : (s.threads s.currentThread).prev ≠ thread) :
    ∃ t, scheduleThread s thread = { s with threads := t } ∧
      (∀ x, (t x).next = if x = thread then s.currentThread
        else if x = (s.threads s.currentThread).prev then thread else (s.threads x).next) ∧
      (∀ x, (t x).prev = if x = thread then (s.threads s.currentThread).prev
        else if x = s.currentThread then thread else (s.threads x).prev) ∧
      (∀ x, (t x).state = if x = thread then .ready else (s.threads x).state) ∧
      ∀ x, (t x).core = (s.threads x).core := by
  refine ⟨(scheduleThread s thread).threads, ?_, ?_⟩
  · simp [scheduleThread, h0, hk, Sched.setThread]
  · simp only [scheduleThread, h0, hk, Sched.setThread, if_false, Function.update_of_ne hc]
    generalize hlast : (s.threads s.currentThread).prev = last at *
    generalize s.currentThread = cur at *
    refine ⟨fun x => ?_, fun x => ?_, fun x => ?_, fun x => ?_⟩ <;>
      simp only [Function.update_apply, Thread.core] <;> split_ifs <;> simp_all

/-- `unschedule_thread` in a ring of several threads. -/
theorem unscheduleThread_spec (h0 : thread ≠ 0) (hk : thread ≠ s.kernelThread)
    (hp0 : (s.threads thread).prev ≠ 0) (hn0 : (s.threads thread).next ≠ 0)
    (hp : (s.threads thread).prev ≠ thread) :
    ∃ t, unscheduleThread s thread = { s with threads := t } ∧
      (∀ x, (t x).next = if x = (s.threads thread).prev then (s.threads thread).next
        else (s.threads x).next) ∧
      (∀ x, (t x).prev = if x = (s.threads thread).next then (s.threads thread).prev
        else (s.threads x).prev) ∧
      (∀ x, (t x).state = (s.threads x).state) ∧ ∀ x, (t x).core = (s.threads x).core := by
  refine ⟨(unscheduleThread s thread).threads, ?_, ?_⟩
  · simp [unscheduleThread, linkNext, linkPrev, h0, hk, hp0, hn0, hp.symm, Sched.setThread]
  · simp only [unscheduleThread, linkNext, linkPrev, Sched.setThread, h0, hk, false_or, if_false,
      hp0, ne_eq, not_false_eq_true, if_true, Function.update_of_ne hp.symm, hn0]
    generalize hprev : (s.threads thread).prev = p at *
    generalize hnext : (s.threads thread).next = q at *
    refine ⟨fun x => ?_, fun x => ?_, fun x => ?_, fun x => ?_⟩ <;>
      simp only [Function.update_apply, Thread.core] <;> split_ifs <;> simp_all

/-- `destroy_thread`: the blocks of the thread go back to the heap. -/
theorem destroyThread_spec (h0 : thread ≠ 0) :
    ∃ heap, destroyThread s thread =
      { s with
        heap := heap
        numThreads := sub32 s.numThreads 1
        destroyed := (s.threads thread).serial :: s.destroyed } ∧
      (∀ b, b ∈ heap ↔ b ∈ s.heap ∧ b.1 ≠ (s.threads thread).kstack ∧
        ((s.threads thread).ustack ≠ 0 → b.1 ≠ (s.threads thread).ustack) ∧ b.1 ≠ thread) ∧
      heap.Sublist s.heap := by
  by_cases hu : (s.threads thread).ustack = 0
  · -- no user stack, as for a thread of the kernel: two blocks are given back
    refine ⟨(s.heap.filter fun b => b.1 ≠ (s.threads thread).kstack).filter fun b => b.1 ≠ thread,
      by simp [destroyThread, h0, kfree, hu], fun b => ?_,
      List.filter_sublist.trans List.filter_sublist⟩
    simp only [List.mem_filter, decide_eq_true_eq]
    tauto
  · -- three blocks are given back
    refine ⟨((s.heap.filter fun b => b.1 ≠ (s.threads thread).kstack).filter fun b =>
        b.1 ≠ (s.threads thread).ustack).filter fun b => b.1 ≠ thread,
      by simp [destroyThread, h0, kfree, hu], fun b => ?_,
      List.filter_sublist.trans (List.filter_sublist.trans List.filter_sublist)⟩
    simp only [List.mem_filter, decide_eq_true_eq]
    tauto

end Edit

/-! ## The invariant -/

/-- The ring from the current thread on: the current thread and `rest`. -/
structure RingOk (s : Sched) (rest : List Nat) : Prop where
  ring : Ring (fun a => some (s.threads a).next) (fun a => some (s.threads a).prev)
    (s.currentThread :: rest)
  nodup : (s.currentThread :: rest).Nodup
  kernel : s.kernelThread ∈ s.currentThread :: rest
  count : s.numThreads = rest.length + 1
  ready : ∀ a ∈ rest, (s.threads a).state = .ready
  awake : (s.threads s.currentThread).state ≠ .sleep
  -- every thread that was created and not destroyed is in the ring, once
  serials : (s.destroyed ++ (s.currentThread :: rest).map fun a => (s.threads a).serial).Perm
    (List.range s.created)
  heap : HeapOk s.heap
  blocks : ((s.currentThread :: rest).flatMap (owned s.threads)).Nodup
  blocks_sub : ∀ b ∈ (s.currentThread :: rest).flatMap (owned s.threads), b ∈ s.heap

section

variable {s : Sched} {rest : List Nat}

/-- The record of a thread in the ring has not been given back. -/
theorem RingOk.thread_mem (h : RingOk s rest) {a : Nat} (ha : a ∈ s.currentThread :: rest) :
    (a, threadSize) ∈ s.heap :=
  h.blocks_sub _ (List.mem_flatMap.mpr ⟨a, ha, List.mem_cons_self⟩)

/-- A thread of the ring has an address, and not the null one. -/
theorem RingOk.pos (h : RingOk s rest) {a : Nat} (ha : a ∈ s.currentThread :: rest) :
    0 < a ∧ a < 2 ^ 32 := by
  have := h.heap.bounds _ (h.thread_mem ha)
  simp only [threadSize] at this
  omega

/-- A kernel stack does not wrap around. -/
theorem RingOk.kstack_le (h : RingOk s rest) {a : Nat} (ha : a ∈ s.currentThread :: rest)
    (hk : (s.threads a).kstack ≠ 0) : (s.threads a).kstack + stackSize ≤ 2 ^ 32 := by
  have hmem : ((s.threads a).kstack, stackSize) ∈ s.heap := by
    refine h.blocks_sub _ (List.mem_flatMap.mpr ⟨a, ha, ?_⟩)
    simp [owned, hk]
  exact (h.heap.bounds _ hmem).2.2

/-- The thread behind the current one. -/
theorem RingOk.next_eq {b : Nat} (h : RingOk s (b :: rest)) :
    (s.threads s.currentThread).next = b :=
  Option.some_injective _ h.ring.2.1

/-- The current thread follows itself exactly when it is alone. -/
theorem RingOk.next_eq_self_iff (h : RingOk s rest) :
    (s.threads s.currentThread).next = s.currentThread ↔ rest = [] := by
  have hnext := h.ring.2.1
  cases rest with
  | nil => exact iff_of_true (by simpa using hnext) rfl
  | cons b rest =>
    refine iff_of_false (fun he => ?_) (by simp)
    obtain rfl : s.currentThread = b := by simpa [he] using hnext
    exact (List.nodup_cons.mp h.nodup).1 List.mem_cons_self

/-- Distinct addresses leave room for `num_threads` to count. -/
theorem RingOk.length_lt (h : RingOk s rest) : rest.length + 2 < 2 ^ 32 := by
  have hsub : s.currentThread :: rest ⊆ (List.range (2 ^ 32 - threadSize)).map (· + 1) := by
    intro a ha
    have := h.heap.bounds _ (h.thread_mem ha)
    exact List.mem_map.mpr ⟨a - 1, List.mem_range.mpr (by omega), by omega⟩
  have hle := (List.Nodup.subperm h.nodup hsub).length_le
  rw [List.length_map, List.length_range, List.length_cons, threadSize] at hle
  omega

/-- Two states of a thread with the same place in the ring and the same blocks. -/
structure Thread.SamePlace (t t' : Thread) : Prop where
  next : t'.next = t.next
  prev : t'.prev = t.prev
  serial : t'.serial = t.serial
  kstack : t'.kstack = t.kstack
  ustack : t'.ustack = t.ustack

/-- A thread stays where it is. -/
theorem Thread.SamePlace.refl (t : Thread) : t.SamePlace t := ⟨rfl, rfl, rfl, rfl, rfl⟩

/-- What a thread owns depends on its two stacks only. -/
theorem owned_congr {t t' : Nat → Thread} {a : Nat} (hk : (t' a).kstack = (t a).kstack)
    (hu : (t' a).ustack = (t a).ustack) : owned t' a = owned t a := by
  rw [owned, owned, hk, hu]

/-- A change that leaves the ring alone. -/
theorem RingOk.congr {s' : Sched} (h : RingOk s rest) (hcur : s'.currentThread = s.currentThread)
    (hker : s'.kernelThread = s.kernelThread) (hnum : s'.numThreads = s.numThreads)
    (hcr : s'.created = s.created) (hde : s'.destroyed = s.destroyed)
    (hplace : ∀ a ∈ s.currentThread :: rest, (s.threads a).SamePlace (s'.threads a))
    (hheap : HeapOk s'.heap) (hsub : ∀ b ∈ s.heap, b ∈ s'.heap)
    (hready : ∀ a ∈ rest, (s'.threads a).state = .ready)
    (hawake : (s'.threads s.currentThread).state ≠ .sleep) : RingOk s' rest := by
  -- blocks and serial numbers are those of the same threads
  have hblocks : (s.currentThread :: rest).flatMap (owned s'.threads) =
      (s.currentThread :: rest).flatMap (owned s.threads) :=
    List.flatMap_congr fun a ha => owned_congr (hplace a ha).kstack (hplace a ha).ustack
  have hserial : (s.currentThread :: rest).map (fun a => (s'.threads a).serial) =
      (s.currentThread :: rest).map fun a => (s.threads a).serial :=
    List.map_congr_left fun a ha => (hplace a ha).serial
  refine ⟨?_, ?_, ?_, by rw [hnum, h.count], hready, ?_, ?_, hheap, ?_, ?_⟩ <;>
    simp only [hcur, hker, hcr, hde, hblocks, hserial]
  · refine Linked.congr h.ring fun a ha => ?_
    rw [(hplace a ha).next, (hplace a ha).prev]
    exact ⟨rfl, rfl⟩
  · exact h.nodup
  · exact h.kernel
  · exact hawake
  · exact h.serials
  · exact h.blocks
  · exact fun b hb => hsub b (h.blocks_sub b hb)

/-- The threads in another order of the list. -/
private theorem perm_parts {t : Nat → Thread} {destroyed : List Nat} {created : Nat}
    {heap : List (Nat × Nat)} {l l' : List Nat} (hp : l.Perm l')
    (hs : (destroyed ++ l.map fun a => (t a).serial).Perm (List.range created))
    (hb : (l.flatMap (owned t)).Nodup) (hsub : ∀ b ∈ l.flatMap (owned t), b ∈ heap) :
    (destroyed ++ l'.map fun a => (t a).serial).Perm (List.range created) ∧
      (l'.flatMap (owned t)).Nodup ∧ ∀ b ∈ l'.flatMap (owned t), b ∈ heap := by
  have hbl : (l.flatMap (owned t)).Perm (l'.flatMap (owned t)) := hp.flatMap_right _
  exact ⟨((hp.map _).append_left destroyed).symm.trans hs, hbl.nodup_iff.mp hb,
    fun b hb' => hsub b (hbl.mem_iff.mpr hb')⟩

end

/-! ## One call -/

section Calls

variable {s : Sched} {rest : List Nat}

/-- `thread_exit` marks the current thread and keeps the ring. -/
theorem RingOk.exit (h : RingOk s rest) : RingOk (threadExit s) rest := by
  have hother : ∀ a, a ≠ s.currentThread → (threadExit s).threads a = s.threads a :=
    fun a ha => by simp [threadExit, Sched.setThread, ha]
  have hne : ∀ a ∈ rest, a ≠ s.currentThread := by
    rintro a ha rfl
    exact (List.nodup_cons.mp h.nodup).1 ha
  refine h.congr rfl rfl rfl rfl rfl (fun a _ => ?_) h.heap (fun b hb => hb) (fun a ha => ?_) ?_
  · -- only the state of the current thread changes
    by_cases ha : a = s.currentThread
    · subst ha
      simp only [threadExit, Sched.setThread, Function.update_self]
      exact ⟨rfl, rfl, rfl, rfl, rfl⟩
    · rw [hother a ha]
      exact .refl _
  · -- the others are ready as before
    rw [hother a (hne a ha)]
    exact h.ready a ha
  · simp [threadExit, Sched.setThread]

/-- A new thread is put in front of the current one. -/
theorem RingOk.schedule (h : RingOk s rest) {t : Nat} (ht0 : t ≠ 0)
    (ht : t ∉ s.currentThread :: rest) (hserial : (s.threads t).serial = s.created)
    (hnd : (owned s.threads t).Nodup) (hsub : ∀ b ∈ owned s.threads t, b ∈ s.heap)
    (hnew : ∀ b ∈ owned s.threads t, b ∉ (s.currentThread :: rest).flatMap (owned s.threads)) :
    RingOk (scheduleThread
      { s with numThreads := add32 s.numThreads 1, created := s.created + 1 } t)
      (rest ++ [t]) := by
  have hcur : s.currentThread ∈ s.currentThread :: rest := List.mem_cons_self
  have hlast : some (s.threads s.currentThread).prev = (s.currentThread :: rest).getLast? :=
    h.ring.1
  have hlastmem := List.mem_of_getLast? hlast.symm
  have hcne : s.currentThread ≠ t := fun he => ht (he ▸ hcur)
  have hlne : (s.threads s.currentThread).prev ≠ t := fun he => ht (he ▸ hlastmem)
  have hk0 : s.kernelThread ≠ 0 := (h.pos h.kernel).1.ne'
  have hne : ∀ a ∈ s.currentThread :: rest, a ≠ t := fun a ha he => ht (he ▸ ha)
  -- the new thread goes between the last one and the current one
  obtain ⟨T, heq, hnext, hprev, hstate, hcore⟩ := scheduleThread_spec
    (s := { s with numThreads := add32 s.numThreads 1, created := s.created + 1 }) ht0 hk0 hcne hlne
  simp only at hnext hprev hstate hcore
  have hserials : ∀ a, (T a).serial = (s.threads a).serial := fun a =>
    (Thread.core_fields (hcore a)).1
  have howned : owned T = owned s.threads := funext fun a =>
    owned_congr (Thread.core_fields (hcore a)).2.1 (Thread.core_fields (hcore a)).2.2.1
  have hlen := h.length_lt
  have hnum : add32 s.numThreads 1 = rest.length + 1 + 1 := by
    rw [h.count]; exact add32_of_lt (by omega)
  rw [heq]
  refine ⟨?_, ?_, ?_, ?_, ?_, ?_, ?_, h.heap, ?_, ?_⟩
  · refine Ring.link h.ring h.nodup ?_ ?_ ?_ ?_ ?_ ?_
    · rw [hnext, if_pos rfl]
    · rw [hprev, if_pos rfl, hlast]
    · rw [hprev, if_neg hcne, if_pos rfl]
    · intro b hb
      rw [← hlast, Option.some.injEq] at hb
      rw [hnext, ← hb, if_neg hlne, if_pos rfl]
    · intro b hb hne'
      rw [hnext, if_neg (hne b hb), if_neg]
      rintro rfl
      exact hne' hlast.symm
    · intro b hb
      have hbc : b ≠ s.currentThread := by
        rintro rfl
        exact (List.nodup_cons.mp h.nodup).1 hb
      rw [hprev, if_neg (hne b (List.mem_cons_of_mem _ hb)), if_neg hbc]
  · rw [← List.cons_append, List.nodup_append]
    refine ⟨h.nodup, by simp, fun a ha b hb => ?_⟩
    rw [List.mem_singleton.mp hb]
    exact hne a ha
  · exact List.mem_append_left [t] h.kernel
  · simp [hnum]
  · intro a ha
    rw [hstate]
    split
    · rfl
    · exact h.ready a (by simpa [‹¬ a = t›] using ha)
  · rw [hstate, if_neg hcne]
    exact h.awake
  · simp only [hserials]
    rw [← List.cons_append, List.map_append, ← List.append_assoc, List.range_succ]
    rw [List.map_singleton, hserial]
    exact h.serials.append_right _
  · rw [howned, ← List.cons_append, List.flatMap_append, List.nodup_append]
    refine ⟨h.blocks, by simpa using hnd, fun a ha b hb hab => ?_⟩
    exact hnew b (by simpa using hb) (hab ▸ ha)
  · intro b hb
    rw [howned, ← List.cons_append, List.flatMap_append, List.mem_append] at hb
    rcases hb with hb | hb
    · exact h.blocks_sub b hb
    · exact hsub b (by simpa using hb)

/-- The blocks that a call of `create_thread` gets are free. -/
def FreshBlocks (s : Sched) (user : Bool) (thread kstack ustack : Nat) : Prop :=
  Fresh s.heap thread threadSize ∧
  (thread ≠ 0 → Fresh ((thread, threadSize) :: s.heap) kstack stackSize ∧
    (kstack ≠ 0 → user = true →
      Fresh ((kstack, stackSize) :: (thread, threadSize) :: s.heap) ustack stackSize))

instance (s : Sched) (user : Bool) (thread kstack ustack : Nat) :
    Decidable (FreshBlocks s user thread kstack ustack) :=
  inferInstanceAs (Decidable (_ ∧ (_ → _ ∧ (_ → _ → _))))

/-- A fresh block is not one of those in use. -/
theorem Fresh.notMem {heap : List (Nat × Nat)} {p size : Nat} (h : Fresh heap p size) (hp : p ≠ 0)
    (hs : 0 < size) (size' : Nat) (hs' : 0 < size') : (p, size') ∉ heap := by
  intro hmem
  rcases (h hp).2 _ hmem with h | h
  · simp only at h; omega
  · simp only at h; omega

/-- What is free of many blocks is free of some of them. -/
theorem Fresh.mono {heap heap' : List (Nat × Nat)} {p size : Nat} (h : Fresh heap' p size)
    (hsub : ∀ b ∈ heap, b ∈ heap') : Fresh heap p size :=
  fun hp => ⟨(h hp).1, fun b hb => (h hp).2 b (hsub b hb)⟩

/-- Memory is taken and threads outside of the ring are written. -/
theorem RingOk.allocate {s' : Sched} (h : RingOk s rest) {t : Nat}
    (ht : t ∉ s.currentThread :: rest) (hheap : HeapOk s'.heap) (hsub : ∀ b ∈ s.heap, b ∈ s'.heap)
    (hs' : s' = { s with
      threads := s'.threads, heap := s'.heap, mem := s'.mem, threadId := s'.threadId })
    (hoff : ∀ a, a ≠ t → s'.threads a = s.threads a) : RingOk s' rest := by
  have hne : ∀ a ∈ s.currentThread :: rest, a ≠ t := fun a ha he => ht (he ▸ ha)
  have hsame : ∀ a ∈ s.currentThread :: rest, s'.threads a = s.threads a := fun a ha =>
    hoff a (hne a ha)
  have hcur := hsame s.currentThread List.mem_cons_self
  refine h.congr (by rw [hs']) (by rw [hs']) (by rw [hs']) (by rw [hs']) (by rw [hs'])
    (fun a ha => ?_) hheap hsub (fun a ha => ?_) ?_
  · -- the new block belongs to no thread of the ring
    rw [hsame a ha]
    exact .refl _
  · rw [hsame a (List.mem_cons_of_mem _ ha)]
    exact h.ready a ha
  · rw [hcur]
    exact h.awake

/-- The state in which `create_thread` fills in the new thread: its blocks are allocated
    and its structure holds the stacks. -/
def Sched.withBlocks (s : Sched) (t kstack ustack : Nat) (blocks : List (Nat × Nat)) : Sched :=
  { s with
    threads := Function.update s.threads t { zeroThread with kstack := kstack, ustack := ustack }
    heap := blocks ++ s.heap }

/-- What `create_thread` can do: fail, for want of memory, or finish a new thread. -/
theorem createThread_cases {a : ThreadArgs} {t k u : Nat} {r : Nat × Sched}
    (hr : createThread s a t k u = some r) :
    (t = 0 ∧ r = (0, s)) ∨
    (t ≠ 0 ∧ k = 0 ∧ r = (0, s.withBlocks t 0 0 [(t, threadSize)])) ∨
    (t ≠ 0 ∧ k ≠ 0 ∧ a.user = true ∧ u = 0 ∧
      r = (0, s.withBlocks t k 0 [(k, stackSize), (t, threadSize)])) ∨
    (t ≠ 0 ∧ k ≠ 0 ∧ a.user = true ∧ u ≠ 0 ∧ a.process ≠ 0 ∧
      r = finishThread (s.withBlocks t k u [(u, stackSize), (k, stackSize), (t, threadSize)])
        a t k u) ∨
    (t ≠ 0 ∧ k ≠ 0 ∧ a.user = false ∧ a.process ≠ 0 ∧
      r = finishThread (s.withBlocks t k 0 [(k, stackSize), (t, threadSize)]) a t k u) := by
  by_cases ht : t = 0
  · -- no memory for the record
    rw [createThread, if_pos ht, Option.some.injEq] at hr
    exact Or.inl ⟨ht, hr.symm⟩
  right
  by_cases hk : k = 0
  · -- no memory for the kernel stack
    left
    simp only [createThread, ht, hk, if_true, if_false, Option.some.injEq] at hr
    refine ⟨ht, hk, hr.symm.trans ?_⟩
    simp [kmallocAt, Sched.setThread, Sched.withBlocks, zeroThread, ht]
  right
  cases huser : a.user with
  | true =>
    by_cases hu : u = 0
    · -- no memory for the user stack: both blocks before it are lost
      left
      simp only [createThread, ht, hk, hu, huser, if_true, if_false, and_self,
        Option.some.injEq] at hr
      refine ⟨ht, hk, rfl, hu, hr.symm.trans ?_⟩
      simp [kmallocAt, Sched.setThread, Sched.withBlocks, zeroThread, ht, hk]
    · right; left
      by_cases hp : a.process = 0
      · -- the null process faults
        simp [createThread, ht, hk, hu, hp] at hr
      simp only [createThread, ht, hk, hu, hp, huser, if_true, if_false, and_false,
        Option.some.injEq] at hr
      refine ⟨ht, hk, rfl, hu, hp, hr.symm.trans ?_⟩
      simp [kmallocAt, Sched.setThread, Sched.withBlocks, zeroThread, ht, hk, hu]
  | false =>
    -- a thread of the kernel needs no user stack
    right; right
    by_cases hp : a.process = 0
    · simp [createThread, ht, hk, hp, huser] at hr
    simp only [createThread, ht, hk, hp, huser, if_false, false_and, Bool.false_eq_true,
      Option.some.injEq] at hr
    refine ⟨ht, hk, rfl, hp, hr.symm.trans ?_⟩
    simp [kmallocAt, Sched.setThread, Sched.withBlocks, zeroThread, ht, hk]

/-- Blocks that are taken from free memory keep the ring. -/
theorem RingOk.withBlocks (h : RingOk s rest) {t k u : Nat} {blocks : List (Nat × Nat)}
    (ht : t ∉ s.currentThread :: rest) (hheap : HeapOk (blocks ++ s.heap)) :
    RingOk (s.withBlocks t k u blocks) rest :=
  h.allocate ht hheap (fun _ hb => List.mem_append_right blocks hb) rfl
    fun _ ha => Function.update_of_ne ha _ _

/-- The structure that `create_thread` fills in, up to its place in the ring. -/
def newThread (s : Sched) (a : ThreadArgs) (t k u : Nat) : Thread :=
  { s.threads t with
    esp := (buildStack s.mem k u a.entry a.args s.threadExitAddr a.user a.vm86).2
    ss := if a.user then 0x20 + 3 else 0x10
    id := add32 s.threadId 1
    process := a.process
    priority := min a.priority (s.processes a.process).priority
    pageDir := (s.processes a.process).pageDir
    runtime := 0
    serial := s.created }

/-- A new thread is finished. -/
theorem RingOk.finish (h : RingOk s rest) {a : ThreadArgs} {t k u : Nat} (ht0 : t ≠ 0)
    (ht : t ∉ s.currentThread :: rest) (hnd : (owned s.threads t).Nodup)
    (hsub : ∀ b ∈ owned s.threads t, b ∈ s.heap)
    (hnew : ∀ b ∈ owned s.threads t, b ∉ (s.currentThread :: rest).flatMap (owned s.threads)) :
    RingOk (finishThread s a t k u).2 (rest ++ [t]) := by
  let s₁ : Sched :=
    { s with
      mem := (buildStack s.mem k u a.entry a.args s.threadExitAddr a.user a.vm86).1
      threadId := add32 s.threadId 1
      threads := Function.update s.threads t (newThread s a t k u) }
  -- the record is written first, while the thread is not linked yet
  have h₁ : RingOk s₁ rest := h.allocate ht h.heap (fun b hb => hb) rfl
    fun a ha => Function.update_of_ne ha _ _
  have howned : ∀ b, owned s₁.threads b = owned s.threads b := by
    intro b
    by_cases hb : b = t
    · subst hb
      exact owned_congr (by simp [s₁, newThread]) (by simp [s₁, newThread])
    · exact owned_congr (by simp [s₁, hb]) (by simp [s₁, hb])
  refine h₁.schedule ht0 ht (by simp [s₁, newThread]) ?_ ?_ ?_
  · rw [howned]; exact hnd
  · rw [howned]; exact hsub
  · rw [howned, funext howned]; exact hnew

/-- What `create_thread` does behind the allocations. -/
theorem finishThread_eq (s : Sched) (a : ThreadArgs) (t k u : Nat) :
    (finishThread s a t k u).2 = scheduleThread
      { s with
        threads := Function.update s.threads t (newThread s a t k u)
        mem := (buildStack s.mem k u a.entry a.args s.threadExitAddr a.user a.vm86).1
        threadId := add32 s.threadId 1
        numThreads := add32 s.numThreads 1
        created := s.created + 1 } t := by
  simp only [finishThread, newThread, Sched.setThread]

/-- What `create_thread` writes behind the allocations. -/
theorem finishThread_spec (a : ThreadArgs) {t : Nat} (k u : Nat) (ht0 : t ≠ 0)
    (hk : s.kernelThread ≠ 0) (hc : s.currentThread ≠ t) (hl : (s.threads s.currentThread).prev ≠ t) :
    ∃ T, (finishThread s a t k u).2 =
      { s with
        threads := T
        mem := (buildStack s.mem k u a.entry a.args s.threadExitAddr a.user a.vm86).1
        threadId := add32 s.threadId 1
        numThreads := add32 s.numThreads 1
        created := s.created + 1 } ∧
      (∀ x, x ≠ t → (T x).core = (s.threads x).core ∧ (T x).state = (s.threads x).state) ∧
      (T t).core = (newThread s a t k u).core := by
  have hprev : ((Function.update s.threads t (newThread s a t k u)) s.currentThread).prev ≠ t := by
    rwa [Function.update_of_ne hc]
  -- behind the record of the new thread, schedule_thread changes links only
  obtain ⟨T, heq, -, -, hstate, hcore⟩ := scheduleThread_spec
    (s := { s with
      threads := Function.update s.threads t (newThread s a t k u)
      mem := (buildStack s.mem k u a.entry a.args s.threadExitAddr a.user a.vm86).1
      threadId := add32 s.threadId 1
      numThreads := add32 s.numThreads 1
      created := s.created + 1 }) ht0 hk hc hprev
  simp only at hstate hcore
  refine ⟨T, (finishThread_eq s a t k u).trans heq, fun x hx => ⟨?_, ?_⟩, ?_⟩
  · rw [hcore, Function.update_of_ne hx]
  · rw [hstate, if_neg hx, Function.update_of_ne hx]
  · rw [hcore, Function.update_self]

/-- A new thread is finished in its blocks. -/
theorem RingOk.finish_withBlocks (h : RingOk s rest) {a : ThreadArgs} {t k u : Nat}
    {blocks : List (Nat × Nat)} (ht0 : t ≠ 0) (ht : t ∉ s.currentThread :: rest)
    (hheap : HeapOk (blocks ++ s.heap))
    (hown : owned (s.withBlocks t k u blocks).threads t = blocks.reverse) (u' : Nat) :
    RingOk (finishThread (s.withBlocks t k u blocks) a t k u').2 (rest ++ [t]) := by
  have hnd := List.nodup_append.mp hheap.nodup
  have hflat : (s.currentThread :: rest).flatMap (owned (s.withBlocks t k u blocks).threads) =
      (s.currentThread :: rest).flatMap (owned s.threads) := by
    refine List.flatMap_congr fun b hb => ?_
    have hbt : b ≠ t := fun he => ht (he ▸ hb)
    exact owned_congr (by simp [Sched.withBlocks, hbt]) (by simp [Sched.withBlocks, hbt])
  refine (h.withBlocks ht hheap).finish ht0 ht ?_ ?_ ?_
  · -- the blocks of the new thread are different ones
    rw [hown, List.nodup_reverse]
    exact hnd.1
  · -- they are in the heap
    intro b hb
    rw [hown, List.mem_reverse] at hb
    exact List.mem_append_left _ hb
  · -- they are none of those that the ring owns
    intro b hb hmem
    rw [hown, List.mem_reverse] at hb
    have hmem' : b ∈ (s.currentThread :: rest).flatMap (owned s.threads) := hflat ▸ hmem
    exact hnd.2.2 b hb b (h.blocks_sub b hmem') rfl

/-- `create_thread` either leaves the ring alone or puts the new thread into it. -/
theorem RingOk.create (h : RingOk s rest) {a : ThreadArgs} {t k u : Nat}
    (hf : FreshBlocks s a.user t k u) {r : Nat × Sched} (hr : createThread s a t k u = some r) :
    (RingOk r.2 rest ∧ r.2.mem = s.mem ∧ r.2.created = s.created ∧
      r.2.threadExitAddr = s.threadExitAddr) ∨
    ∃ u' blocks, t ≠ 0 ∧ t ∉ s.currentThread :: rest ∧ k ≠ 0 ∧ (a.user = true → u' = u ∧ u ≠ 0) ∧
      (a.user = false → u' = 0) ∧ HeapOk (blocks ++ s.heap) ∧
      r = finishThread (s.withBlocks t k u' blocks) a t k u ∧ RingOk r.2 (rest ++ [t]) := by
  obtain ⟨hft, hfk⟩ := hf
  have htL : t ≠ 0 → t ∉ s.currentThread :: rest := fun ht0 hmem =>
    hft.notMem ht0 (by decide) threadSize (by decide) (h.thread_mem hmem)
  have hheap₁ : t ≠ 0 → HeapOk ((t, threadSize) :: s.heap) := fun ht0 => by
    simpa [kmallocAt, ht0] using h.heap.kmalloc (by decide) hft
  have hheap₂ : t ≠ 0 → k ≠ 0 → HeapOk ((k, stackSize) :: (t, threadSize) :: s.heap) :=
    fun ht0 hk0 => by
      simpa [kmallocAt, hk0] using
        HeapOk.kmalloc (s := { s with heap := (t, threadSize) :: s.heap }) (hheap₁ ht0)
          (by decide) (hfk ht0).1
  -- no memory for the thread, for its kernel stack, or for its user stack; then a user thread and a
  -- kernel thread
  rcases createThread_cases hr with ⟨-, rfl⟩ | ⟨ht0, -, rfl⟩ | ⟨ht0, hk0, -, -, rfl⟩ |
    ⟨ht0, hk0, huser, hu0, -, rfl⟩ | ⟨ht0, hk0, huser, -, rfl⟩
  · exact Or.inl ⟨h, rfl, rfl, rfl⟩
  · exact Or.inl ⟨h.withBlocks (htL ht0) (hheap₁ ht0), rfl, rfl, rfl⟩
  · exact Or.inl ⟨h.withBlocks (htL ht0) (hheap₂ ht0 hk0), rfl, rfl, rfl⟩
  · have hheap₃ : HeapOk ((u, stackSize) :: (k, stackSize) :: (t, threadSize) :: s.heap) := by
      simpa [kmallocAt, hu0] using HeapOk.kmalloc
        (s := { s with heap := (k, stackSize) :: (t, threadSize) :: s.heap }) (hheap₂ ht0 hk0)
        (by decide) ((hfk ht0).2 hk0 huser)
    refine Or.inr ⟨u, _, ht0, htL ht0, hk0, fun _ => ⟨rfl, hu0⟩, fun hf => ?_, hheap₃, rfl,
      h.finish_withBlocks ht0 (htL ht0) hheap₃ (by simp [owned, Sched.withBlocks, hk0, hu0]) u⟩
    rw [huser] at hf
    exact absurd hf (by decide)
  · refine Or.inr ⟨0, _, ht0, htL ht0, hk0, fun hf => ?_, fun _ => rfl, hheap₂ ht0 hk0, rfl,
      h.finish_withBlocks ht0 (htL ht0) (hheap₂ ht0 hk0)
        (by simp [owned, Sched.withBlocks, hk0]) u⟩
    rw [huser] at hf
    exact absurd hf (by decide)

/-- What `create_thread` writes for a thread that is not in the ring. -/
theorem RingOk.finishThread_spec (h : RingOk s rest) (a : ThreadArgs) {t : Nat}
    (k u k' u' : Nat) (blocks : List (Nat × Nat)) (ht0 : t ≠ 0)
    (ht : t ∉ s.currentThread :: rest) :
    ∃ T, (finishThread (s.withBlocks t k' u' blocks) a t k u).2 =
      { s with
        threads := T
        heap := blocks ++ s.heap
        mem := (buildStack s.mem k u a.entry a.args s.threadExitAddr a.user a.vm86).1
        threadId := add32 s.threadId 1
        numThreads := add32 s.numThreads 1
        created := s.created + 1 } ∧
      (∀ x, x ≠ t → (T x).core = (s.threads x).core ∧ (T x).state = (s.threads x).state) ∧
      (T t).core = (newThread (s.withBlocks t k' u' blocks) a t k u).core := by
  have hne : ∀ x ∈ s.currentThread :: rest, x ≠ t := fun x hx he => ht (he ▸ hx)
  have hcur : s.currentThread ≠ t := hne _ List.mem_cons_self
  -- the links that schedule_thread writes are those of the new thread, of the current one and of
  -- the last one
  have hlast : (s.threads s.currentThread).prev ≠ t :=
    hne _ (List.mem_of_getLast? (Eq.symm h.ring.1))
  have hoff : ∀ x, x ≠ t → (s.withBlocks t k' u' blocks).threads x = s.threads x := fun x hx =>
    Function.update_of_ne hx _ _
  obtain ⟨T, heq, hT, hnew⟩ := Toutatis.finishThread_spec (s := s.withBlocks t k' u' blocks) a k u
    ht0 (h.pos h.kernel).1.ne' hcur
    (by rw [show (s.withBlocks t k' u' blocks).currentThread = s.currentThread from rfl,
          hoff _ hcur]
        exact hlast)
  refine ⟨T, heq, fun x hx => ?_, hnew⟩
  have := hT x hx
  rwa [hoff x hx] at this

/-- `create_thread` changes nothing of the threads in the ring but their links. -/
theorem RingOk.create_frame (h : RingOk s rest) {a : ThreadArgs} {t k u : Nat}
    (hf : FreshBlocks s a.user t k u) {r : Nat × Sched} (hr : createThread s a t k u = some r) :
    r.2.currentThread = s.currentThread ∧ r.2.kernelThread = s.kernelThread ∧
      r.2.esp0 = s.esp0 ∧ r.2.scheduling = s.scheduling ∧ (∀ b ∈ s.heap, b ∈ r.2.heap) ∧
      ∀ x ∈ s.currentThread :: rest, (r.2.threads x).core = (s.threads x).core ∧
        (r.2.threads x).state = (s.threads x).state := by
  -- the block of the new thread is not the one of a thread in the ring
  have hne : t ≠ 0 → ∀ x ∈ s.currentThread :: rest, x ≠ t := by
    rintro ht0 x hx rfl
    exact hf.1.notMem ht0 (by decide) threadSize (by decide) (h.thread_mem hx)
  have hfail : t ≠ 0 → ∀ (k u : Nat) (blocks : List (Nat × Nat)), ∀ x ∈ s.currentThread :: rest,
      (s.withBlocks t k u blocks).threads x = s.threads x := fun ht0 k u blocks x hx =>
    Function.update_of_ne (hne ht0 x hx) _ _
  have hfinish : t ≠ 0 → ∀ (k' u' : Nat) (blocks : List (Nat × Nat)),
      let r := finishThread (s.withBlocks t k' u' blocks) a t k u
      r.2.currentThread = s.currentThread ∧ r.2.kernelThread = s.kernelThread ∧
        r.2.esp0 = s.esp0 ∧ r.2.scheduling = s.scheduling ∧ (∀ b ∈ s.heap, b ∈ r.2.heap) ∧
        ∀ x ∈ s.currentThread :: rest, (r.2.threads x).core = (s.threads x).core ∧
          (r.2.threads x).state = (s.threads x).state := by
    intro ht0 k' u' blocks
    have htL : t ∉ s.currentThread :: rest := fun hmem => hne ht0 t hmem rfl
    obtain ⟨T, heq, hT, -⟩ := h.finishThread_spec a k u k' u' blocks ht0 htL
    intro r
    rw [show r.2 = _ from heq]
    refine ⟨rfl, rfl, rfl, rfl, fun b hb => List.mem_append_right _ hb, fun x hx => ?_⟩
    exact hT x (hne ht0 x hx)
  -- the five ways out of create_thread; the first three leave before the thread is linked
  rcases createThread_cases hr with ⟨-, rfl⟩ | ⟨ht0, -, rfl⟩ | ⟨ht0, hk0, -, -, rfl⟩ |
    ⟨ht0, hk0, huser, hu0, -, rfl⟩ | ⟨ht0, hk0, -, -, rfl⟩
  · exact ⟨rfl, rfl, rfl, rfl, fun _ hb => hb, fun _ _ => ⟨rfl, rfl⟩⟩
  · refine ⟨rfl, rfl, rfl, rfl, fun _ hb => List.mem_append_right _ hb, fun x hx => ?_⟩
    simp only [hfail ht0 _ _ _ x hx, and_self]
  · refine ⟨rfl, rfl, rfl, rfl, fun _ hb => List.mem_append_right _ hb, fun x hx => ?_⟩
    simp only [hfail ht0 _ _ _ x hx, and_self]
  · exact hfinish ht0 k u _
  · exact hfinish ht0 k 0 _

/-! ## The tick -/

/-- The search takes the first thread that is awake. -/
theorem nextReadyLoop_of_awake {t : Nat → Thread} {fuel a : Nat} (hfuel : 0 < fuel)
    (ha : (t a).state ≠ .sleep) : nextReadyLoop t fuel a = some a := by
  obtain ⟨fuel, rfl⟩ : ∃ n, fuel = n + 1 := ⟨fuel - 1, by omega⟩
  rw [nextReadyLoop, if_neg fun h => ha h.2]

/-- The successor in the ring is selected. -/
theorem RingOk.nextReadyThread_eq (h : RingOk s rest) :
    nextReadyThread s = some (rest.headD s.currentThread) := by
  have hnext : (s.threads s.currentThread).next = rest.headD s.currentThread := by
    have := h.ring.2.1
    cases rest with
    -- alone, the thread follows itself
    | nil => simpa using this
    | cons b rest => simpa using this
  have hawake : (s.threads (rest.headD s.currentThread)).state ≠ .sleep := by
    cases rest with
    | nil => exact h.awake
    | cons b rest =>
      rw [List.headD_cons, h.ready b List.mem_cons_self]
      exact TaskState.noConfusion
  have hcur : s.currentThread ≠ 0 := (h.pos List.mem_cons_self).1.ne'
  rw [nextReadyThread, if_neg hcur, hnext]
  exact nextReadyLoop_of_awake (by decide) hawake

/-- The ring seen from the next thread. -/
theorem RingOk.rotate {b : Nat} (h : RingOk s (b :: rest))
    (hready : (s.threads s.currentThread).state = .ready) :
    RingOk { s with currentThread := b } (rest ++ [s.currentThread]) := by
  have hperm : (s.currentThread :: b :: rest).Perm (b :: (rest ++ [s.currentThread])) :=
    (List.perm_append_singleton s.currentThread (b :: rest)).symm
  obtain ⟨hser, hnd, hsub⟩ := perm_parts hperm h.serials h.blocks h.blocks_sub
  refine ⟨Ring.rotate h.ring, hperm.nodup_iff.mp h.nodup, hperm.mem_iff.mp h.kernel, ?_, ?_, ?_,
    hser, h.heap, hnd, hsub⟩
  · -- the number of threads does not depend on where the ring starts
    rw [h.count]
    simp
  · -- all others were ready, and the thread that goes to the end is so by assumption
    intro a ha
    rcases List.mem_append.mp ha with ha | ha
    · exact h.ready a (List.mem_cons_of_mem b ha)
    · rw [List.mem_singleton.mp ha]
      exact hready
  · simp only [h.ready b List.mem_cons_self]
    exact TaskState.noConfusion

/-- The current thread is taken out of the ring and destroyed. -/
theorem RingOk.destroy {b : Nat} (h : RingOk s (b :: rest))
    (hck : s.currentThread ≠ s.kernelThread) :
    RingOk { destroyThread (unscheduleThread s s.currentThread) s.currentThread with
      currentThread := b } rest ∧
    (destroyThread (unscheduleThread s s.currentThread) s.currentThread).destroyed =
      (s.threads s.currentThread).serial :: s.destroyed := by
  have hcur : s.currentThread ∈ s.currentThread :: b :: rest := List.mem_cons_self
  have hb : b ∈ s.currentThread :: b :: rest := List.mem_cons_of_mem _ List.mem_cons_self
  obtain ⟨hcr, hndr⟩ := List.nodup_cons.mp h.nodup
  have hne : ∀ a ∈ b :: rest, a ≠ s.currentThread := fun a ha he => hcr (he ▸ ha)
  have hker : s.kernelThread ∈ b :: rest := (List.mem_cons.mp h.kernel).resolve_left hck.symm
  have hprev : some (s.threads s.currentThread).prev = (b :: rest).getLast? := h.ring.1
  have hnext : (s.threads s.currentThread).next = b := by simpa using h.ring.2.1
  have hlast := List.mem_of_getLast? hprev.symm
  have hpne := hne _ hlast
  have hp0 := (h.pos (List.mem_cons_of_mem _ hlast)).1.ne'
  have hn0 : (s.threads s.currentThread).next ≠ 0 := by
    rw [hnext]
    exact (h.pos hb).1.ne'
  obtain ⟨T, hT, hTnext, hTprev, hTstate, hTcore⟩ :=
    unscheduleThread_spec (h.pos hcur).1.ne' hck hp0 hn0 hpne
  rw [hnext] at hTnext hTprev
  obtain ⟨heap, hd, hmem, hsubl⟩ := destroyThread_spec
    (s := unscheduleThread s s.currentThread) (h.pos hcur).1.ne'
  rw [hd, hT]
  rw [hT] at hmem hsubl
  have howned : owned T = owned s.threads := funext fun a =>
    owned_congr (Thread.core_fields (hTcore a)).2.1 (Thread.core_fields (hTcore a)).2.2.1
  have hserials : ∀ a, (T a).serial = (s.threads a).serial := fun a =>
    (Thread.core_fields (hTcore a)).1
  have hblocks := h.blocks
  rw [List.flatMap_cons, List.nodup_append] at hblocks
  have hsub : ∀ c ∈ (b :: rest).flatMap (owned s.threads), c ∈ s.heap := fun c hc =>
    h.blocks_sub c (by rw [List.flatMap_cons]; exact List.mem_append_right _ hc)
  -- a block of another thread does not begin where one of the destroyed thread does
  have hkeep : ∀ c ∈ (b :: rest).flatMap (owned s.threads), ∀ d ∈ owned s.threads s.currentThread,
      c.1 ≠ d.1 := by
    intro c hc d hd he
    have hdheap := h.blocks_sub d (by rw [List.flatMap_cons]; exact List.mem_append_left _ hd)
    exact hblocks.2.2 d hd c hc (h.heap.inj (hsub c hc) hdheap he).symm
  refine ⟨⟨?_, hndr, hker, ?_, ?_, ?_, ?_, ?_, ?_, ?_⟩, by rw [hserials]⟩
  · refine Ring.unlink h.ring h.nodup ?_ ?_ ?_ ?_
    · intro c hc
      rw [← hprev, Option.some.injEq] at hc
      rw [hTnext, if_pos hc.symm]
      rfl
    · intro c hc
      rw [List.head?_cons, Option.some.injEq] at hc
      rw [hTprev, if_pos hc.symm, hprev]
    · intro c hc hne'
      rw [hTnext, if_neg]
      rintro rfl
      exact hne' hprev.symm
    · intro c hc hne'
      rw [hTprev, if_neg]
      rintro rfl
      exact hne' rfl
  · have hlen := h.length_lt
    simp only [List.length_cons] at hlen
    have hnum : sub32 (rest.length + 1 + 1) 1 = rest.length + 1 :=
      sub32_of_le (by omega) (by omega)
    simp only [h.count, List.length_cons, hnum]
  · intro a ha
    rw [hTstate]
    exact h.ready a (List.mem_cons_of_mem b ha)
  · simp only [hTstate, h.ready b List.mem_cons_self]
    exact TaskState.noConfusion
  · simp only [hserials]
    refine List.Perm.trans ?_ h.serials
    rw [List.map_cons]
    exact (List.perm_middle).symm
  · exact ⟨h.heap.apart.sublist hsubl, fun c hc => h.heap.bounds c (hsubl.subset hc)⟩
  · rw [howned]
    exact hblocks.2.1
  · intro c hc
    rw [howned] at hc
    rw [hmem]
    simp only
    have hcore := Thread.core_fields (hTcore s.currentThread)
    rw [hcore.2.1, hcore.2.2.1]
    refine ⟨hsub c hc, ?_, fun hu => ?_, hkeep c hc _ List.mem_cons_self⟩
    · by_cases hk0 : (s.threads s.currentThread).kstack = 0
      · rw [hk0]
        exact (h.heap.bounds c (hsub c hc)).1.ne'
      · exact hkeep c hc ((s.threads s.currentThread).kstack, stackSize) (by simp [owned, hk0])
    · exact hkeep c hc ((s.threads s.currentThread).ustack, stackSize) (by simp [owned, hu])

/-- The current thread is left. -/
theorem RingOk.leave (h : RingOk s rest) (esp runtime : Nat) :
    RingOk (s.setThread s.currentThread
      { s.threads s.currentThread with esp := esp, state := .ready, runtime := runtime }) rest := by
  have hother : ∀ a, a ≠ s.currentThread → ∀ t, (s.setThread s.currentThread t).threads a =
      s.threads a := fun a ha t => Function.update_of_ne ha _ _
  have hne : ∀ a ∈ rest, a ≠ s.currentThread := by
    rintro a ha rfl
    exact (List.nodup_cons.mp h.nodup).1 ha
  refine h.congr rfl rfl rfl rfl rfl (fun a _ => ?_) h.heap (fun _ hb => hb) (fun a ha => ?_) ?_
  · -- the record of the current thread stays where it is
    by_cases ha : a = s.currentThread
    · subst ha
      simp only [Sched.setThread, Function.update_self]
      exact ⟨rfl, rfl, rfl, rfl, rfl⟩
    · rw [hother a ha]
      exact .refl _
  · rw [hother a (hne a ha)]
    exact h.ready a ha
  · simp [Sched.setThread]

/-- The next thread becomes the current one. -/
theorem RingOk.switch {b : Nat} (h : RingOk { s with currentThread := b } rest) :
    RingOk (switchThread s b).2 rest := by
  have hother : ∀ a, a ≠ b → (switchThread s b).2.threads a = s.threads a := fun a ha =>
    Function.update_of_ne ha _ _
  have hself : (switchThread s b).2.threads b = { s.threads b with state := .running } :=
    Function.update_self _ _ _
  have hne : ∀ a ∈ rest, a ≠ b := by
    rintro a ha rfl
    exact (List.nodup_cons.mp h.nodup).1 ha
  refine h.congr rfl rfl rfl rfl rfl (fun a _ => ?_) h.heap (fun _ hc => hc) (fun a ha => ?_) ?_
  · -- only the state of the new current thread changes
    by_cases hab : a = b
    · subst hab
      rw [hself]
      exact ⟨rfl, rfl, rfl, rfl, rfl⟩
    · rw [hother a hab]
      exact .refl _
  · rw [hother a (hne a ha)]
    exact h.ready a ha
  · simp only [hself]
    exact TaskState.noConfusion

/-- A tick with a single thread. -/
theorem RingOk.scheduleTick_nil (h : RingOk s []) (regs : Nat) (cycles : Nat × Nat × Nat) :
    scheduleTick s regs cycles = some (regs, { s with oldCyclesCount := cycles.2.2 }) := by
  simp [scheduleTick, h.nextReadyThread_eq]

/-- A tick with several threads switches to the next one. -/
theorem RingOk.scheduleTick_cons {b : Nat} (h : RingOk s (b :: rest)) (regs : Nat)
    (cycles : Nat × Nat × Nat) :
    ∃ elapsed, scheduleTick s regs cycles =
      some ((switchThread (leaveThread s regs elapsed) b).1,
        { (switchThread (leaveThread s regs elapsed) b).2 with oldCyclesCount := cycles.2.2 }) := by
  have hb : b ∈ s.currentThread :: b :: rest := List.mem_cons_of_mem _ List.mem_cons_self
  have hb0 : b ≠ 0 := (h.pos hb).1.ne'
  have hbc : b ≠ s.currentThread := by
    rintro rfl
    exact (List.nodup_cons.mp h.nodup).1 List.mem_cons_self
  refine ⟨(cycles.2.1 + 2 ^ 64 - if s.oldCyclesCount = 0 then cycles.1 else s.oldCyclesCount) %
    2 ^ 64, ?_⟩
  rw [scheduleTick, h.nextReadyThread_eq]
  simp only [Option.map_some, List.headD_cons, hb0, hbc, ne_eq, not_false_eq_true, and_self, if_true]

/-- `unschedule_thread` keeps the core of every thread. -/
theorem core_unscheduleThread (s : Sched) (thread a : Nat) :
    ((unscheduleThread s thread).threads a).core = (s.threads a).core := by
  have hnext : ∀ (s : Sched) (p q a : Nat),
      ((linkNext s p q).threads a).core = (s.threads a).core := by
    intro s p q a
    -- the null pointer is not written through
    by_cases hp : p = 0
    · simp [linkNext, hp]
    · by_cases ha : a = p <;> simp [linkNext, hp, Sched.setThread, ha, Thread.core]
  have hprev : ∀ (s : Sched) (q p a : Nat),
      ((linkPrev s q p).threads a).core = (s.threads a).core := by
    intro s q p a
    by_cases hq : q = 0
    · simp [linkPrev, hq]
    · by_cases ha : a = q <;> simp [linkPrev, hq, Sched.setThread, ha, Thread.core]
  rw [unscheduleThread]
  -- the last thread is not taken out of the ring
  split
  · rfl
  · rw [hprev, hnext]

/-- `destroy_thread` writes to no thread. -/
theorem threads_destroyThread (s : Sched) (thread : Nat) :
    (destroyThread s thread).threads = s.threads := by
  by_cases h0 : thread = 0
  · rw [destroyThread, if_pos h0]
  · obtain ⟨heap, hd, -⟩ := destroyThread_spec (s := s) h0
    rw [hd]

/-- Leaving a thread keeps the core of all others. -/
theorem core_leaveThread (s : Sched) (regs elapsed : Nat) {a : Nat} (ha : a ≠ s.currentThread) :
    ((leaveThread s regs elapsed).threads a).core = (s.threads a).core := by
  rw [leaveThread]
  simp only
  split
  · rw [threads_destroyThread, core_unscheduleThread]
  · simp only [Sched.setThread, Function.update_of_ne ha]

/-- `switch_thread` keeps the core of every thread. -/
theorem core_switchThread (s : Sched) (next a : Nat) :
    ((switchThread s next).2.threads a).core = (s.threads a).core := by
  by_cases ha : a = next <;> simp [switchThread, ha, Thread.core]

/-- A tick goes on with the thread that was interrupted, or leaves it for the next ready one. -/
theorem scheduleTick_cases {s s' : Sched} {regs esp : Nat} {cycles : Nat × Nat × Nat}
    (h : scheduleTick s regs cycles = some (esp, s')) :
    ∃ next, nextReadyThread s = some next ∧
      (¬ (next ≠ 0 ∧ next ≠ s.currentThread) ∧ esp = regs ∧
          s' = { s with oldCyclesCount := cycles.2.2 } ∨
        (next ≠ 0 ∧ next ≠ s.currentThread) ∧ ∃ elapsed,
          esp = (switchThread (leaveThread s regs elapsed) next).1 ∧
          s' = { (switchThread (leaveThread s regs elapsed) next).2 with
            oldCyclesCount := cycles.2.2 }) := by
  rw [scheduleTick, Option.map_eq_some_iff] at h
  obtain ⟨next, hnext, h⟩ := h
  rw [Prod.mk.injEq] at h
  obtain ⟨hesp, hs'⟩ := h
  refine ⟨next, hnext, ?_⟩
  by_cases hswitch : next ≠ 0 ∧ next ≠ s.currentThread
  · rw [if_pos hswitch] at hesp hs'
    exact Or.inr ⟨hswitch, _, hesp.symm, hs'.symm⟩
  · rw [if_neg hswitch] at hesp hs'
    exact Or.inl ⟨hswitch, hesp.symm, hs'.symm⟩

/-- A tick leaves all threads but the current one alone, apart from the ring. -/
theorem core_scheduleTick {s s' : Sched} {regs esp : Nat} {cycles : Nat × Nat × Nat}
    (h : scheduleTick s regs cycles = some (esp, s')) {a : Nat} (ha : a ≠ s.currentThread) :
    (s'.threads a).core = (s.threads a).core := by
  obtain ⟨next, -, ⟨-, -, rfl⟩ | ⟨-, elapsed, -, rfl⟩⟩ := scheduleTick_cases h
  · rfl
  · exact (core_switchThread _ next a).trans (core_leaveThread s regs elapsed ha)

/-- What a tick keeps of every thread. -/
theorem kept_scheduleTick {s s' : Sched} {regs esp : Nat} {cycles : Nat × Nat × Nat}
    (h : scheduleTick s regs cycles = some (esp, s')) (a : Nat) :
    (s'.threads a).serial = (s.threads a).serial ∧ (s'.threads a).kstack = (s.threads a).kstack ∧
      (s'.threads a).ustack = (s.threads a).ustack := by
  by_cases ha : a = s.currentThread
  · obtain ⟨next, -, ⟨-, -, rfl⟩ | ⟨-, elapsed, -, rfl⟩⟩ := scheduleTick_cases h
    · exact ⟨rfl, rfl, rfl⟩
    · -- the thread that is left, and then the one that is resumed
      have hsw := Thread.core_fields (core_switchThread (leaveThread s regs elapsed) next a)
      simp only
      rw [hsw.1, hsw.2.1, hsw.2.2.1, leaveThread]
      simp only
      split
      · have hun := Thread.core_fields (core_unscheduleThread s s.currentThread a)
        rw [threads_destroyThread]
        exact ⟨hun.1, hun.2.1, hun.2.2.1⟩
      · simp [Sched.setThread, ha]
  · have hcore := Thread.core_fields (core_scheduleTick h ha)
    exact ⟨hcore.1, hcore.2.1, hcore.2.2.1⟩

/-- What neither the edits of the ring nor `destroy_thread` change. -/
def Sched.statics (s : Sched) : Nat × Bool × Mem × Nat × Nat :=
  (s.kernelThread, s.scheduling, s.mem, s.created, s.threadExitAddr)

/-- A link is none of the static variables. -/
theorem statics_linkNext (s : Sched) (p q : Nat) : (linkNext s p q).statics = s.statics := by
  rw [linkNext]
  split <;> rfl

/-- The same for the other link. -/
theorem statics_linkPrev (s : Sched) (p q : Nat) : (linkPrev s p q).statics = s.statics := by
  rw [linkPrev]
  split <;> rfl

/-- `unschedule_thread` keeps the static variables. -/
theorem statics_unscheduleThread (s : Sched) (thread : Nat) :
    (unscheduleThread s thread).statics = s.statics := by
  rw [unscheduleThread]
  split
  · rfl
  · simp only [statics_linkPrev, statics_linkNext]

/-- `destroy_thread` keeps the static variables. -/
theorem statics_destroyThread (s : Sched) (thread : Nat) :
    (destroyThread s thread).statics = s.statics := by
  by_cases h0 : thread = 0
  · rw [destroyThread, if_pos h0]
  · obtain ⟨heap, hd, -⟩ := destroyThread_spec (s := s) h0
    rw [hd]
    rfl

/-- Leaving a thread keeps the static variables. -/
theorem statics_leaveThread (s : Sched) (regs elapsed : Nat) :
    (leaveThread s regs elapsed).statics = s.statics := by
  rw [leaveThread]
  simp only
  split
  · rw [statics_destroyThread, statics_unscheduleThread]
  · rfl

/-- What no tick changes. -/
theorem statics_scheduleTick {s s' : Sched} {regs esp : Nat} {cycles : Nat × Nat × Nat}
    (h : scheduleTick s regs cycles = some (esp, s')) :
    s'.kernelThread = s.kernelThread ∧ s'.scheduling = s.scheduling ∧ s'.mem = s.mem ∧
      s'.created = s.created ∧ s'.threadExitAddr = s.threadExitAddr := by
  obtain ⟨next, -, ⟨-, -, rfl⟩ | ⟨-, elapsed, -, rfl⟩⟩ := scheduleTick_cases h
  · exact ⟨rfl, rfl, rfl, rfl, rfl⟩
  · have hleave := statics_leaveThread s regs elapsed
    simp only [Sched.statics, Prod.mk.injEq] at hleave
    exact hleave

/-- A ring has the same threads from wherever one starts. -/
theorem mem_of_mem_rotate {a b x : Nat} {l : List Nat} (h : x ∈ b :: (l ++ [a])) :
    x ∈ a :: b :: l := by
  simp only [List.mem_cons, List.mem_append, List.not_mem_nil, or_false] at h ⊢
  tauto

/-- What a tick does: nothing when the thread is alone; otherwise it switches to the next
    thread of the ring, and destroys the one it leaves if that has finished. -/
theorem RingOk.tick (h : RingOk s rest)
    (hk : (s.threads s.currentThread).state = .finished → rest ≠ [] →
      s.currentThread ≠ s.kernelThread) (regs : Nat) (cycles : Nat × Nat × Nat) :
    ∃ esp s', scheduleTick s regs cycles = some (esp, s') ∧
      ((rest = [] ∧ RingOk s' [] ∧ esp = regs ∧
          s' = { s with oldCyclesCount := cycles.2.2 }) ∨
        ∃ b rest', rest = b :: rest' ∧ s'.currentThread = b ∧ (s'.threads b).state = .running ∧
          esp = (s.threads b).esp ∧ s'.esp0 = (s.threads b).esp ∧
          (((s.threads s.currentThread).state ≠ .finished ∧
              RingOk s' (rest' ++ [s.currentThread]) ∧ s'.destroyed = s.destroyed ∧
              s'.heap = s.heap ∧ (s'.threads s.currentThread).esp = regs) ∨
            ((s.threads s.currentThread).state = .finished ∧ RingOk s' rest' ∧
              s'.destroyed = (s.threads s.currentThread).serial :: s.destroyed))) := by
  -- the count of cycles is no part of the invariant
  have hcycles : ∀ {s' : Sched} {rest : List Nat}, RingOk s' rest →
      RingOk { s' with oldCyclesCount := cycles.2.2 } rest := fun h =>
    ⟨h.ring, h.nodup, h.kernel, h.count, h.ready, h.awake, h.serials, h.heap,
      h.blocks, h.blocks_sub⟩
  cases rest with
  | nil =>
    exact ⟨_, _, h.scheduleTick_nil regs cycles, Or.inl ⟨rfl, hcycles h, rfl, rfl⟩⟩
  | cons b rest =>
    obtain ⟨elapsed, ht⟩ := h.scheduleTick_cons regs cycles
    have hrun : ((switchThread (leaveThread s regs elapsed) b).2.threads b).state = .running := by
      simp [switchThread]
    have hbc : b ≠ s.currentThread := by
      rintro rfl
      exact (List.nodup_cons.mp h.nodup).1 List.mem_cons_self
    have hesp : (switchThread (leaveThread s regs elapsed) b).1 = (s.threads b).esp :=
      (Thread.core_fields (core_leaveThread s regs elapsed hbc)).2.2.2
    refine ⟨_, _, ht, Or.inr ⟨b, rest, rfl, rfl, hrun, hesp, hesp, ?_⟩⟩
    by_cases hfin : (s.threads s.currentThread).state = .finished
    · -- the thread that leaves is destroyed
      have hck := hk hfin (by simp)
      refine Or.inr ⟨hfin, hcycles (RingOk.switch ?_), ?_⟩
      · rw [leaveThread, if_pos hfin]
        exact (h.destroy hck).1
      · rw [leaveThread, if_pos hfin]
        exact (h.destroy hck).2
    · -- it goes to the end of the ring
      refine Or.inl ⟨hfin, hcycles (RingOk.switch ?_), ?_, ?_, ?_⟩
      · rw [leaveThread, if_neg hfin]
        exact (h.leave regs _).rotate (by simp [Sched.setThread])
      · rw [leaveThread, if_neg hfin]
        rfl
      · rw [leaveThread, if_neg hfin]
        rfl
      · refine (Thread.core_fields (core_switchThread _ b s.currentThread)).2.2.2.trans ?_
        rw [leaveThread, if_neg hfin]
        simp [Sched.setThread]

end Calls

/-! ## Runs -/

/-- A call of a running thread, or a tick. -/
inductive ThreadCall where
  | create (a : ThreadArgs) (thread kstack ustack : Nat)
  | exit
  | tick (regs : Nat) (cycles : Nat × Nat × Nat)

/-- One call. -/
def ThreadCall.exec (s : Sched) : ThreadCall → Option Sched
  | .create a thread kstack ustack => (createThread s a thread kstack ustack).map Prod.snd
  | .exit => some (threadExit s)
  | .tick regs cycles => (scheduleTick s regs cycles).map Prod.snd

/-- The kernel thread does not exit, and `kmalloc` returns free memory. -/
def ThreadCall.Allowed (s : Sched) : ThreadCall → Prop
  | .create a thread kstack ustack => FreshBlocks s a.user thread kstack ustack
  | .exit => s.currentThread ≠ s.kernelThread
  | .tick _ _ => True

instance (s : Sched) : (c : ThreadCall) → Decidable (c.Allowed s)
  | .create a thread kstack ustack =>
    inferInstanceAs (Decidable (FreshBlocks s a.user thread kstack ustack))
  | .exit => inferInstanceAs (Decidable (s.currentThread ≠ s.kernelThread))
  | .tick _ _ => inferInstanceAs (Decidable True)

/-- Before `scheduling_init`. -/
structure Sched.Boot (s : Sched) : Prop where
  currentThread : s.currentThread = 0
  kernelThread : s.kernelThread = 0
  numThreads : s.numThreads = 0
  created : s.created = 0
  destroyed : s.destroyed = []
  heap : HeapOk s.heap

section Runs

variable {s s₀ : Sched} {rest : List Nat} {k : Nat} {calls : List ThreadCall}

/-- Behind `scheduling_init` the kernel thread is the ring. -/
theorem Sched.Boot.ringOk (h : s₀.Boot) (hk : k ≠ 0) (hf : Fresh s₀.heap k threadSize) :
    RingOk (schedulingInit s₀ k) [] := by
  have hheap : HeapOk ((k, threadSize) :: s₀.heap) := by
    simpa [kmallocAt, hk] using h.heap.kmalloc (by decide) hf
  -- the state behind the first thread, written out
  have hs : schedulingInit s₀ k =
      { s₀ with
        threads := Function.update s₀.threads k
          { zeroThread with
            id := add32 s₀.threadId 1
            pageDir := s₀.currentDirectory
            state := .ready
            next := k
            prev := k
            serial := s₀.created }
        heap := (k, threadSize) :: s₀.heap
        scheduling := true
        currentThread := k
        kernelThread := k
        numThreads := 1
        threadId := add32 s₀.threadId 1
        created := 1 } := by
    simp [schedulingInit, createKernelThread, scheduleThread, kmallocAt, Sched.setThread, hk,
      h.currentThread, h.kernelThread, h.numThreads, h.created, add32]
  rw [hs]
  refine ⟨⟨by simp, by simp, trivial⟩, by simp, by simp, rfl, by simp, by simp, ?_, hheap, ?_, ?_⟩
  · simp [h.destroyed, h.created]
  · simp [owned, zeroThread]
  · simp [owned, zeroThread]

/-- The invariant of the runs in which the kernel thread does not exit. -/
def RunOk (s : Sched) : Prop :=
  (∃ rest, RingOk s rest) ∧
    ((s.threads s.currentThread).state = .finished → s.currentThread ≠ s.kernelThread)

/-- Every call keeps the ring. -/
theorem RunOk.exec (h : RunOk s) {c : ThreadCall} (hc : c.Allowed s) {s' : Sched}
    (hs' : c.exec s = some s') : RunOk s' := by
  obtain ⟨⟨rest, h⟩, hk⟩ := h
  cases c with
  | create a t k u =>
    obtain ⟨r, hr, rfl⟩ := Option.map_eq_some_iff.mp hs'
    obtain ⟨hcur, hker, -, -, -, hframe⟩ := h.create_frame hc hr
    refine ⟨?_, ?_⟩
    · rcases h.create hc hr with ⟨hr, -⟩ | ⟨_, _, -, -, -, -, -, -, -, hr⟩
      · exact ⟨_, hr⟩
      · exact ⟨_, hr⟩
    rw [hcur, hker, (hframe s.currentThread List.mem_cons_self).2]
    exact hk
  | exit =>
    cases hs'
    exact ⟨⟨rest, h.exit⟩, fun _ => hc⟩
  | tick regs cycles =>
    -- the thread that is resumed is running, so it has not finished
    obtain ⟨esp, t, ht, hcases⟩ := h.tick (fun hfin _ => hk hfin) regs cycles
    rw [ThreadCall.exec, ht, Option.map_some, Option.some.injEq] at hs'
    subst hs'
    rcases hcases with ⟨-, hr, -, rfl⟩ | ⟨b, rest', -, hcur, hrun, -, -, ⟨-, hr, -⟩ | ⟨-, hr, -⟩⟩
    · exact ⟨⟨_, hr⟩, hk⟩
    · refine ⟨⟨_, hr⟩, fun hfin => ?_⟩
      rw [hcur, hrun] at hfin
      exact TaskState.noConfusion hfin
    · refine ⟨⟨_, hr⟩, fun hfin => ?_⟩
      rw [hcur, hrun] at hfin
      exact TaskState.noConfusion hfin

/-- **The ring of threads.** After `scheduling_init` and any run in which the kernel
    thread does not exit, the threads that were created and not destroyed form one ring
    that the current thread and the kernel thread are in, `num_threads` is its length and
    all but the current one are ready. No thread is destroyed twice and none in the ring
    was destroyed. The next tick returns; if the current thread has exited it is left,
    destroyed and no longer in the ring, and no other thread is ever destroyed. -/
theorem ring_after_calls (hboot : s₀.Boot) (hk : k ≠ 0) (hf : Fresh s₀.heap k threadSize)
    (hall : Each ThreadCall.exec ThreadCall.Allowed (schedulingInit s₀ k) calls)
    (hs : execAll ThreadCall.exec (schedulingInit s₀ k) calls = some s) :
    ∃ rest, RingOk s rest ∧ s.destroyed.Nodup ∧
      (∀ a ∈ s.currentThread :: rest, (s.threads a).serial ∉ s.destroyed) ∧
      ∀ regs cycles, ∃ esp s' rest', scheduleTick s regs cycles = some (esp, s') ∧ RingOk s' rest' ∧
        if (s.threads s.currentThread).state = .finished then
          s'.currentThread ≠ s.currentThread ∧ s.currentThread ∉ s'.currentThread :: rest' ∧
            s'.destroyed = (s.threads s.currentThread).serial :: s.destroyed
        else s'.destroyed = s.destroyed := by
  have hboot' : RunOk (schedulingInit s₀ k) := by
    refine ⟨⟨[], hboot.ringOk hk hf⟩, fun hfin => ?_⟩
    simp [schedulingInit, createKernelThread, scheduleThread, kmallocAt, Sched.setThread, hk,
      hboot.currentThread, hboot.kernelThread] at hfin
  have hstep : ∀ (s : Sched) (c : ThreadCall) (s' : Sched), RunOk s → c.Allowed s →
      c.exec s = some s' → RunOk s' := fun _ _ _ h hc hs' => h.exec hc hs'
  obtain ⟨⟨rest, h⟩, hfk⟩ := inv_of_execAll hstep hboot' hall hs
  have hnd : (s.destroyed ++ (s.currentThread :: rest).map fun a => (s.threads a).serial).Nodup :=
    h.serials.nodup_iff.mpr List.nodup_range
  obtain ⟨hnd, -, hdisj⟩ := List.nodup_append.mp hnd
  refine ⟨rest, h, hnd, fun a ha hmem => ?_, fun regs cycles => ?_⟩
  · exact hdisj _ hmem _ (List.mem_map.mpr ⟨a, ha, rfl⟩) rfl
  · obtain ⟨esp, s', ht, hcases⟩ := h.tick (fun hfin _ => hfk hfin) regs cycles
    rcases hcases with ⟨rfl, hr, -, rfl⟩ |
      ⟨b, rest', rfl, hb, -, -, -, ⟨hfin, hr, hd, -⟩ | ⟨hfin, hr, hd⟩⟩
    · -- a thread that is alone is the kernel thread
      have hfin : (s.threads s.currentThread).state ≠ .finished := fun hfin =>
        hfk hfin (List.mem_singleton.mp h.kernel).symm
      exact ⟨esp, _, [], ht, hr, by rw [if_neg hfin]⟩
    · exact ⟨esp, s', _, ht, hr, by rw [if_neg hfin]; exact hd⟩
    · have hcb := (List.nodup_cons.mp h.nodup).1
      refine ⟨esp, s', _, ht, hr, ?_⟩
      rw [if_pos hfin, hb]
      refine ⟨?_, hcb, hd⟩
      rintro rfl
      exact hcb List.mem_cons_self

end Runs

/-- A machine with an empty heap, before `scheduling_init`. -/
def bootSched : Sched where
  threads _ := zeroThread
  processes _ := ⟨1, 0⟩
  heap := []
  mem _ := 0
  scheduling := false
  currentThread := 0
  kernelThread := 0
  numThreads := 0
  threadId := 0
  currentDirectory := 0
  oldCyclesCount := 0
  esp0 := 0
  threadExitAddr := 0
  created := 0
  destroyed := []

/-- The machine of the examples before `scheduling_init`. -/
theorem bootSched_boot : bootSched.Boot :=
  ⟨rfl, rfl, rfl, rfl, rfl, ⟨List.Pairwise.nil, fun _ hb => absurd hb List.not_mem_nil⟩⟩

/-- A kernel thread is created, runs and exits. -/
def exitCalls : List ThreadCall :=
  [.create ⟨1, 0, 0, 1, false, false⟩ 0x2000 0x4000 0, .tick 0x8000 (1, 1, 1), .exit,
    .tick 0x5f00 (1, 1, 1)]

/-- The calls of the example are allowed. -/
theorem exitCalls_allowed :
    Each ThreadCall.exec ThreadCall.Allowed (schedulingInit bootSched 0x1000) exitCalls := by
  refine ⟨by decide, fun s₁ h₁ => ?_⟩
  cases h₁
  refine ⟨trivial, fun s₂ h₂ => ?_⟩
  cases h₂
  exact ⟨by decide, fun s₃ h₃ => ⟨trivial, fun _ _ => trivial⟩⟩

/-- The second tick destroys the thread that has exited. -/
theorem ring_after_exit : ∃ s rest,
    execAll ThreadCall.exec (schedulingInit bootSched 0x1000) exitCalls = some s ∧
      RingOk s rest ∧ s.destroyed = [1] := by
  obtain ⟨rest, h, -⟩ := ring_after_calls bootSched_boot (by decide)
    (fun _ => ⟨by decide, fun _ hb => absurd hb List.not_mem_nil⟩) exitCalls_allowed rfl
  exact ⟨_, rest, rfl, h, by decide⟩

end Toutatis
