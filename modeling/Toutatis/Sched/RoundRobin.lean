import Toutatis.Sched.Ring

/-!
# Round robin

`schedule_tick` goes on to the next thread of the ring. New threads are put in front of the
current one, which is the last place, and only the current thread is ever taken out, so
nothing comes between a thread and its turn.

## Key results

- `RingOk.distance_exec`: what a call does to the way that is left
- `round_robin`: every thread has its turn after as many ticks as there are links to it
-/

namespace Toutatis

open Run Links

/-- The links from the current thread to `T`: `d` of them lead there, and no fewer do. -/
def Sched.Distance (s : Sched) (d T : Nat) : Prop :=
  (fun a => (s.threads a).next)^[d] s.currentThread = T ∧
    ∀ e < d, (fun a => (s.threads a).next)^[e] s.currentThread ≠ T

/-- A thread is in the ring. -/
def Sched.InRing (s : Sched) (T : Nat) : Prop :=
  ∃ d, (fun a => (s.threads a).next)^[d] s.currentThread = T

/-- A call is a tick. -/
def ThreadCall.isTick : ThreadCall → Bool
  | .tick _ _ => true
  | _ => false

/-- The number of ticks of a run. -/
def ticks (calls : List ThreadCall) : Nat := calls.countP ThreadCall.isTick

section

variable {s s' : Sched} {rest : List Nat} {d T : Nat}

/-- The distance of a thread is its place in the ring. -/
theorem RingOk.distance_iff (h : RingOk s rest) :
    s.Distance d T ↔ ∃ A B, s.currentThread :: rest = A ++ T :: B ∧ A.length = d :=
  h.ring.distance_iff h.nodup

/-- The threads that are found by following the links are those of the ring. -/
theorem RingOk.inRing_iff (h : RingOk s rest) : s.InRing T ↔ T ∈ s.currentThread :: rest := by
  constructor
  · rintro ⟨d, rfl⟩
    exact h.ring.iterate_mem d
  · exact Linked.mem_iterate h.ring

/-- **What a call does to the way that is left.** A tick takes one link of it, the other calls
    leave it as it is. -/
theorem RunOk.distance_exec (h : RunOk s) (hd : s.Distance d T) {c : ThreadCall}
    (hc : c.Allowed s) (hs' : c.exec s = some s') (htick : c.isTick → 0 < d) :
    s'.Distance (if c.isTick then d - 1 else d) T := by
  obtain ⟨⟨rest, h⟩, hk⟩ := h
  obtain ⟨A, B, hsplit, hlen⟩ := h.distance_iff.mp hd
  cases c with
  | create a t k u =>
    obtain ⟨r, hr, rfl⟩ := Option.map_eq_some_iff.mp hs'
    have hcur := (h.create_frame hc hr).1
    rcases h.create hc hr with ⟨hring, -⟩ | ⟨_, _, -, -, -, -, -, -, -, hring⟩
    · refine hring.distance_iff.mpr ⟨A, B, ?_, hlen⟩
      rw [hcur, hsplit]
    · -- the new thread is behind all others
      refine hring.distance_iff.mpr ⟨A, B ++ [t], ?_, hlen⟩
      rw [hcur, ← List.cons_append, hsplit, List.append_assoc, List.cons_append]
  | exit =>
    cases hs'
    exact h.exit.distance_iff.mpr ⟨A, B, hsplit, hlen⟩
  | tick regs cycles =>
    obtain ⟨esp, t, ht, hcases⟩ := h.tick (fun hfin _ => hk hfin) regs cycles
    rw [ThreadCall.exec, ht, Option.map_some, Option.some.injEq] at hs'
    subst hs'
    obtain ⟨x, A, rfl⟩ : ∃ x A', A = x :: A' := by
      refine List.exists_cons_of_ne_nil ?_
      rintro rfl
      exact absurd (htick rfl) (by rw [← hlen]; exact Nat.lt_irrefl 0)
    rw [List.cons_append, List.cons.injEq] at hsplit
    obtain ⟨-, rfl⟩ := hsplit
    have hlen' : A.length = d - 1 := by
      rw [← hlen, List.length_cons, Nat.add_sub_cancel]
    rcases hcases with ⟨hnil, -⟩ | ⟨b, rest', hrest, hcur, -, -, -, ⟨-, hring, -⟩ | ⟨-, hring, -⟩⟩
    · exact absurd hnil (by simp)
    · -- the thread that is left goes to the end
      refine hring.distance_iff.mpr ⟨A, B ++ [s.currentThread], ?_, hlen'⟩
      rw [hcur, ← List.cons_append, ← hrest, List.append_assoc, List.cons_append]
    · -- or out of the ring
      refine hring.distance_iff.mpr ⟨A, B, ?_, hlen'⟩
      rw [hcur, ← hrest]

/-- The way that is left after a run. -/
theorem RunOk.distance_execAll (h : RunOk s) (hd : s.Distance d T) {calls : List ThreadCall}
    (hall : Each ThreadCall.exec ThreadCall.Allowed s calls)
    (hs' : execAll ThreadCall.exec s calls = some s') (hticks : ticks calls ≤ d) :
    s'.Distance (d - ticks calls) T := by
  induction calls generalizing s d with
  | nil =>
    cases hs'
    exact hd
  | cons c calls ih =>
    rw [execAll, Option.bind_eq_some_iff] at hs'
    obtain ⟨s₁, hs₁, hs'⟩ := hs'
    rw [ticks, List.countP_cons] at hticks ⊢
    -- a tick brings the thread one link closer, another call does not move it
    have hstep := h.distance_exec hd hall.1 hs₁ fun htick => by
      rw [if_pos htick] at hticks
      omega
    have hrun := ih (h.exec hall.1 hs₁) hstep (hall.2 s₁ hs₁) hs'
    rw [ticks] at hrun
    cases htick : c.isTick with
    | true =>
      rw [htick, if_pos rfl] at hrun hticks
      rw [if_pos rfl, Nat.add_comm, ← Nat.sub_sub]
      exact hrun (by omega)
    | false =>
      rw [htick] at hrun hticks
      exact hrun hticks

/-- A run with enough ticks has a beginning with just `n`. -/
theorem exists_ticks_eq {n : Nat} {calls : List ThreadCall} (h : n ≤ ticks calls) :
    ∃ pre post, calls = pre ++ post ∧ ticks pre = n := by
  induction calls generalizing n with
  | nil => exact ⟨[], [], rfl, (Nat.le_zero.mp h).symm⟩
  | cons c calls ih =>
    cases n with
    | zero => exact ⟨[], c :: calls, rfl, rfl⟩
    | succ n =>
      rw [ticks, List.countP_cons] at h
      -- calls that are no ticks go to the beginning as well
      cases htick : c.isTick with
      | true =>
        rw [htick, if_pos rfl] at h
        obtain ⟨pre, post, rfl, hpre⟩ := ih (Nat.le_of_succ_le_succ h)
        refine ⟨c :: pre, post, rfl, ?_⟩
        rw [ticks, List.countP_cons, htick, if_pos rfl]
        exact congrArg _ hpre
      | false =>
        rw [htick] at h
        obtain ⟨pre, post, rfl, hpre⟩ := ih h
        refine ⟨c :: pre, post, rfl, ?_⟩
        rw [ticks, List.countP_cons, htick]
        exact hpre

end

/-- **Round robin.** From every state with the invariant, when no thread sleeps: a thread that
    is `d` links away is not the current one before the `d`-th tick and is the current one
    right after it, for all calls of `create_thread` and exits of threads other than the
    kernel's in between, and the ticks return. When a new thread becomes the current one, every
    thread that was in the ring when it was created has been the current one since. -/
theorem round_robin {s : Sched} (h : RunOk s) :
    (∀ d T, s.Distance d T → ∀ calls s', Each ThreadCall.exec ThreadCall.Allowed s calls →
      execAll ThreadCall.exec s calls = some s' →
        (ticks calls < d → s'.currentThread ≠ T) ∧ (ticks calls = d → s'.currentThread = T) ∧
          ∀ regs cycles, ∃ r, scheduleTick s' regs cycles = some r) ∧
    ∀ a t k u r, FreshBlocks s a.user t k u → createThread s a t k u = some r → r.2.InRing t →
      ∀ calls s', Each ThreadCall.exec ThreadCall.Allowed r.2 calls →
        execAll ThreadCall.exec r.2 calls = some s' → s'.currentThread = t →
          ∀ T, s.InRing T → ∃ pre post s'', calls = pre ++ post ∧
            execAll ThreadCall.exec r.2 pre = some s'' ∧ s''.currentThread = T := by
  -- a thread runs at its distance from the current one, and not before
  have hturn : ∀ {s : Sched} (_ : RunOk s) d T, s.Distance d T → ∀ calls s',
      Each ThreadCall.exec ThreadCall.Allowed s calls →
      execAll ThreadCall.exec s calls = some s' →
        (ticks calls < d → s'.currentThread ≠ T) ∧ (ticks calls = d → s'.currentThread = T) := by
    intro s h d T hd calls s' hall hs'
    refine ⟨fun hlt => ?_, fun heq => ?_⟩
    · exact (h.distance_execAll hd hall hs' hlt.le).2 0 (by omega)
    · have hdist := (h.distance_execAll hd hall hs' heq.le).1
      rwa [heq, Nat.sub_self] at hdist
  refine ⟨fun d T hd calls s' hall hs' => ?_, ?_⟩
  · obtain ⟨hbefore, hat⟩ := hturn h d T hd calls s' hall hs'
    refine ⟨hbefore, hat, fun regs cycles => ?_⟩
    obtain ⟨⟨rest, hring⟩, hk⟩ :=
      inv_of_execAll (fun _ _ _ h hc hs' => RunOk.exec h hc hs') h hall hs'
    obtain ⟨esp, t, ht, -⟩ := hring.tick (fun hfin _ => hk hfin) regs cycles
    exact ⟨_, ht⟩
  · intro a t k u r hf hr hin calls s' hall hs' hcur T hT
    have hc : (ThreadCall.create a t k u).Allowed s := hf
    have hr' : (ThreadCall.create a t k u).exec s = some r.2 := by
      rw [ThreadCall.exec, hr, Option.map_some]
    have hrun := h.exec hc hr'
    obtain ⟨⟨rest, h⟩, -⟩ := h
    have hcur₁ := (h.create_frame hf hr).1
    rcases h.create hf hr with ⟨hring, -⟩ | ⟨_, _, ht0, -, -, -, -, -, -, hring⟩
    · -- no thread was created
      have hmem := hring.inRing_iff.mp hin
      have ht0 : t ≠ 0 := (hring.pos hmem).1.ne'
      rw [hcur₁] at hmem
      exact absurd (h.thread_mem hmem) (hf.1.notMem ht0 (by decide) threadSize (by decide))
    · -- the new thread is farther away than the others
      have hlast : r.2.Distance (rest.length + 1) t :=
        hring.distance_iff.mpr ⟨r.2.currentThread :: rest, [], rfl, rfl⟩
      obtain ⟨A, B, hsplit⟩ := List.append_of_mem (h.inRing_iff.mp hT)
      have hT' : r.2.Distance A.length T := by
        refine hring.distance_iff.mpr ⟨A, B ++ [t], ?_, rfl⟩
        rw [hcur₁, ← List.cons_append, hsplit, List.append_assoc, List.cons_append]
      have hlen : A.length ≤ rest.length := by
        have := congrArg List.length hsplit
        simp only [List.length_cons, List.length_append] at this
        omega
      have hticks : rest.length + 1 ≤ ticks calls := by
        by_contra hlt
        exact (hturn hrun _ _ hlast calls s' hall hs').1 (by omega) hcur
      obtain ⟨pre, post, rfl, hpre⟩ := exists_ticks_eq (show A.length ≤ ticks calls by omega)
      rw [execAll_append, Option.bind_eq_some_iff] at hs'
      obtain ⟨s'', hs'', -⟩ := hs'
      exact ⟨pre, post, s'', rfl, hs'',
        (hturn hrun _ _ hT' pre s'' (each_append.mp hall).1 hs'').2 hpre⟩

/-- A thread that has just been created runs after one tick when the kernel thread is the only
    other one. -/
theorem round_robin_two : ∃ s s',
    execAll ThreadCall.exec (schedulingInit bootSched 0x1000)
      [.create ⟨1, 0, 0, 1, false, false⟩ 0x2000 0x4000 0] = some s ∧
    execAll ThreadCall.exec s [.tick 0x8000 (1, 1, 1)] = some s' ∧ s'.currentThread = 0x2000 := by
  have hboot : RunOk (schedulingInit bootSched 0x1000) :=
    ⟨⟨[], bootSched_boot.ringOk (by decide)
      fun _ => ⟨by decide, fun _ hb => absurd hb List.not_mem_nil⟩⟩, by decide⟩
  obtain ⟨s, hs, hcur, hnext⟩ : ∃ s, ThreadCall.exec (schedulingInit bootSched 0x1000)
      (.create ⟨1, 0, 0, 1, false, false⟩ 0x2000 0x4000 0) = some s ∧ s.currentThread = 0x1000 ∧
        (s.threads 0x1000).next = 0x2000 := ⟨_, rfl, rfl, rfl⟩
  have hrun : RunOk s := hboot.exec exitCalls_allowed.1 hs
  -- the new thread is one link away
  have hdist : s.Distance 1 0x2000 := by
    refine ⟨by rw [hcur]; exact hnext, fun e he => ?_⟩
    obtain rfl : e = 0 := by omega
    rw [Function.iterate_zero_apply, hcur]
    decide
  obtain ⟨r, hr⟩ := ((round_robin hrun).1 1 0x2000 hdist [] s trivial rfl).2.2 0x8000 (1, 1, 1)
  have hexec : execAll ThreadCall.exec s [.tick 0x8000 (1, 1, 1)] = some r.2 := by
    rw [execAll, ThreadCall.exec, hr]
    rfl
  refine ⟨s, r.2, ?_, hexec, ?_⟩
  · rw [execAll, hs]
    rfl
  · exact ((round_robin hrun).1 1 0x2000 hdist [.tick 0x8000 (1, 1, 1)] r.2
      ⟨trivial, fun _ _ => trivial⟩ hexec).2.1 rfl

end Toutatis
