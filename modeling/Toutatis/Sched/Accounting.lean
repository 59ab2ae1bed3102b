import Toutatis.Sched.Ring

/-!
# What a thread is charged, and where it runs

Over the runs of `Sched.Ring`: which cycles `schedule_tick` adds to which `runtime`, and which
directory is installed. `charge` reads off the source what one tick adds; a thread is named by its
number, since its address can be that of an earlier one.

## Key results

- `cycles_charged`: the runtime of a thread is the sum of its charges, and all charges together
  are no more than the time that has passed
- `thread_context`: the directory and the identifier of the running thread
-/

namespace Toutatis

open ByteMem Run

/-! ## Charges -/

/-- The cycle count that a tick starts from. -/
def startCycles (s : Sched) (cycles : Nat × Nat × Nat) : Nat :=
  if s.oldCyclesCount = 0 then cycles.1 else s.oldCyclesCount

/-- What a call adds to which thread: a tick that leaves a thread which has not finished adds the
    cycles since the tick before. -/
def charge (s : Sched) : ThreadCall → List (Nat × Nat)
  | .tick _ cycles =>
    match nextReadyThread s with
    | some next =>
      if (next ≠ 0 ∧ next ≠ s.currentThread) ∧ (s.threads s.currentThread).state ≠ .finished then
        [((s.threads s.currentThread).serial, cycles.2.1 - startCycles s cycles)]
      else []
    | none => []
  | _ => []

/-- The charges of a run. -/
def charges : Sched → List ThreadCall → List (Nat × Nat)
  | _, [] => []
  | s, c :: calls =>
    charge s c ++
      match c.exec s with
      | some s' => charges s' calls
      | none => []

/-- What a thread is charged. -/
def chargedTo (serial : Nat) (bills : List (Nat × Nat)) : Nat :=
  ((bills.filter fun b => b.1 = serial).map Prod.snd).sum

/-- The readings of the cycle counter do not decrease from `start` on. -/
def ThreadCall.InOrder (start : Nat) (s : Sched) : ThreadCall → Prop
  | .tick _ cycles => start ≤ cycles.1 ∧ s.oldCyclesCount ≤ cycles.1 ∧ cycles.1 ≤ cycles.2.1 ∧
      cycles.2.1 ≤ cycles.2.2 ∧ cycles.2.2 < 2 ^ 64
  | _ => True

/-- What two lists of charges come to for one thread. -/
theorem chargedTo_append (serial : Nat) (bills more : List (Nat × Nat)) :
    chargedTo serial (bills ++ more) = chargedTo serial bills + chargedTo serial more := by
  rw [chargedTo, List.filter_append, List.map_append, List.sum_append]
  rfl

/-- One thread is charged at most what all are charged. -/
theorem chargedTo_le (serial : Nat) (bills : List (Nat × Nat)) :
    chargedTo serial bills ≤ (bills.map Prod.snd).sum := by
  induction bills with
  | nil => exact Nat.le_refl _
  | cons b bills ih =>
    rw [List.map_cons, List.sum_cons, chargedTo, List.filter_cons]
    split
    · rw [List.map_cons, List.sum_cons]
      exact Nat.add_le_add_left ih _
    · exact Nat.le_add_left_of_le ih

/-- A number that no bill is for. -/
theorem chargedTo_of_lt {n : Nat} {bills : List (Nat × Nat)} (h : ∀ b ∈ bills, b.1 < n) :
    chargedTo n bills = 0 := by
  have hnone : bills.filter (fun b => b.1 = n) = [] := by
    apply List.filter_eq_nil_iff.mpr
    intro b hb
    have := h b hb
    simp only [decide_eq_true_eq]
    omega
  rw [chargedTo, hnone]
  rfl

/-! ## One call -/

section

variable {s s' : Sched} {rest : List Nat} {bills : List (Nat × Nat)} {start : Nat}

/-- The numbers of the threads in the ring differ. -/
theorem RingOk.serial_inj (h : RingOk s rest) {a b : Nat} (ha : a ∈ s.currentThread :: rest)
    (hb : b ∈ s.currentThread :: rest) (hab : (s.threads a).serial = (s.threads b).serial) :
    a = b := by
  have hnodup : ((s.currentThread :: rest).map fun a => (s.threads a).serial).Nodup :=
    (List.nodup_append.mp (h.serials.nodup_iff.mpr List.nodup_range)).2.1
  exact List.inj_on_of_nodup_map hnodup ha hb hab

/-- A thread of the ring has been created. -/
theorem RingOk.serial_lt (h : RingOk s rest) {a : Nat} (ha : a ∈ s.currentThread :: rest) :
    (s.threads a).serial < s.created := by
  apply List.mem_range.mp
  apply h.serials.mem_iff.mp
  exact List.mem_append_right _ (List.mem_map_of_mem ha)

/-- A tick with its count of cycles. -/
theorem RingOk.tick_elapsed {b : Nat} (h : RingOk s (b :: rest)) (regs : Nat)
    (cycles : Nat × Nat × Nat) :
    scheduleTick s regs cycles =
      some ((switchThread (leaveThread s regs
          ((cycles.2.1 + 2 ^ 64 - startCycles s cycles) % 2 ^ 64)) b).1,
        { (switchThread (leaveThread s regs
            ((cycles.2.1 + 2 ^ 64 - startCycles s cycles) % 2 ^ 64)) b).2 with
          oldCyclesCount := cycles.2.2 }) := by
  have hb : b ∈ s.currentThread :: b :: rest := List.mem_cons_of_mem _ List.mem_cons_self
  have hb0 : b ≠ 0 := (h.pos hb).1.ne'
  have hbc : b ≠ s.currentThread := fun heq =>
    (List.nodup_cons.mp h.nodup).1 (heq ▸ List.mem_cons_self)
  rw [scheduleTick, h.nextReadyThread_eq]
  simp only [Option.map_some, List.headD_cons, hb0, hbc, ne_eq, not_false_eq_true, and_self,
    if_true, startCycles]

/-- Further fields that the ring does not use. -/
theorem Thread.core_more {t t' : Thread} (h : t.core = t'.core) :
    t.runtime = t'.runtime ∧ t.id = t'.id ∧ t.pageDir = t'.pageDir ∧ t.serial = t'.serial := by
  simp only [Thread.core, Thread.mk.injEq] at h
  tauto

/-- What a tick adds to the thread that it leaves. -/
theorem RingOk.tick_current {b : Nat} (h : RingOk s (b :: rest))
    (hfin : (s.threads s.currentThread).state ≠ .finished) {regs esp : Nat}
    {cycles : Nat × Nat × Nat} (hs' : scheduleTick s regs cycles = some (esp, s')) :
    (s'.threads s.currentThread).runtime = ((s.threads s.currentThread).runtime +
        (cycles.2.1 + 2 ^ 64 - startCycles s cycles) % 2 ^ 64) % 2 ^ 64 ∧
      (s'.threads s.currentThread).id = (s.threads s.currentThread).id ∧
      (s'.threads s.currentThread).pageDir = (s.threads s.currentThread).pageDir ∧
      (s'.threads s.currentThread).serial = (s.threads s.currentThread).serial := by
  rw [h.tick_elapsed, Option.some.injEq, Prod.mk.injEq] at hs'
  obtain ⟨-, rfl⟩ := hs'
  obtain ⟨hruntime, hid, hpage, hserial⟩ :=
    Thread.core_more (core_switchThread (leaveThread s regs
      ((cycles.2.1 + 2 ^ 64 - startCycles s cycles) % 2 ^ 64)) b s.currentThread)
  simp only
  rw [hruntime, hid, hpage, hserial, leaveThread]
  simp only
  rw [if_neg hfin]
  simp only [Sched.setThread, Function.update_self, and_self]

/-- `schedule_thread` keeps the clock, the directory, the processes and the numbers. -/
theorem scheduleThread_fields (s : Sched) (t : Nat) :
    (scheduleThread s t).oldCyclesCount = s.oldCyclesCount ∧
      (scheduleThread s t).currentDirectory = s.currentDirectory ∧
      (scheduleThread s t).processes = s.processes ∧ (scheduleThread s t).created = s.created ∧
      (scheduleThread s t).threadId = s.threadId := by
  by_cases h0 : t = 0
  · rw [scheduleThread, if_pos h0]
    exact ⟨rfl, rfl, rfl, rfl, rfl⟩
  · by_cases hk : s.kernelThread = 0
    · simp [scheduleThread, Sched.setThread, h0, hk]
    · simp [scheduleThread, Sched.setThread, h0, hk]

/-- `create_thread` keeps the clock, the directory and the processes. -/
theorem createThread_fields {a : ThreadArgs} {t k u : Nat} {r : Nat × Sched}
    (hr : createThread s a t k u = some r) :
    r.2.oldCyclesCount = s.oldCyclesCount ∧ r.2.currentDirectory = s.currentDirectory ∧
      r.2.processes = s.processes ∧
      (r.2.created = s.created ∧ r.2.threadId = s.threadId ∨
        r.2.created = s.created + 1 ∧ r.2.threadId = add32 s.threadId 1) := by
  have hfinish : ∀ u' blocks,
      (finishThread (s.withBlocks t k u' blocks) a t k u).2.oldCyclesCount = s.oldCyclesCount ∧
      (finishThread (s.withBlocks t k u' blocks) a t k u).2.currentDirectory = s.currentDirectory ∧
      (finishThread (s.withBlocks t k u' blocks) a t k u).2.processes = s.processes ∧
      (finishThread (s.withBlocks t k u' blocks) a t k u).2.created = s.created + 1 ∧
      (finishThread (s.withBlocks t k u' blocks) a t k u).2.threadId = add32 s.threadId 1 := by
    intro u' blocks
    rw [finishThread_eq]
    exact scheduleThread_fields _ t
  obtain ⟨-, rfl⟩ | ⟨-, -, rfl⟩ | ⟨-, -, -, -, rfl⟩ | ⟨-, -, -, -, -, rfl⟩ | ⟨-, -, -, -, rfl⟩ :=
    createThread_cases hr
  · -- without memory no thread is created
    exact ⟨rfl, rfl, rfl, Or.inl ⟨rfl, rfl⟩⟩
  · exact ⟨rfl, rfl, rfl, Or.inl ⟨rfl, rfl⟩⟩
  · exact ⟨rfl, rfl, rfl, Or.inl ⟨rfl, rfl⟩⟩
  · -- a thread of a user, and one of the kernel
    obtain ⟨hold, hdir, hproc, hcreated, hid⟩ := hfinish u _
    exact ⟨hold, hdir, hproc, Or.inr ⟨hcreated, hid⟩⟩
  · obtain ⟨hold, hdir, hproc, hcreated, hid⟩ := hfinish 0 _
    exact ⟨hold, hdir, hproc, Or.inr ⟨hcreated, hid⟩⟩

/-- `create_thread` makes no thread, or one thread, whose fields these are. -/
theorem RingOk.create_new (h : RingOk s rest) {a : ThreadArgs} {t k u : Nat}
    (hf : FreshBlocks s a.user t k u) {r : Nat × Sched} (hr : createThread s a t k u = some r) :
    (RingOk r.2 rest ∧ r.2.created = s.created ∧ r.2.threadId = s.threadId) ∨
      RingOk r.2 (rest ++ [t]) ∧ r.2.created = s.created + 1 ∧
        r.2.threadId = add32 s.threadId 1 ∧ (r.2.threads t).serial = s.created ∧
        (r.2.threads t).runtime = 0 ∧ (r.2.threads t).id = add32 s.threadId 1 ∧
        (r.2.threads t).pageDir = (s.processes a.process).pageDir := by
  have hfields := (createThread_fields hr).2.2.2
  cases h.create hf hr with
  | inl hnone =>
    obtain ⟨hring, -, hcreated, -⟩ := hnone
    cases hfields with
    -- no thread was created
    | inl hsame => exact Or.inl ⟨hring, hsame⟩
    | inr hmore => exact absurd (hcreated.symm.trans hmore.1) (by omega)
  | inr hnew =>
    -- the new thread is the last one of the ring
    obtain ⟨u', blocks, ht0, ht, -, -, -, -, heq, hring⟩ := hnew
    obtain ⟨T, hT, -, hcore⟩ := h.finishThread_spec a k u k u' blocks ht0 ht
    obtain ⟨hruntime, hid, hpage, hserial⟩ := Thread.core_more hcore
    rw [← heq] at hT
    rw [hT] at hring ⊢
    exact Or.inr ⟨hring, rfl, rfl, hserial, hruntime, hid, hpage⟩

/-- The bills of a run so far: each runtime is the sum of its charges, and the charges fit into the
    time between `start` and the last tick. -/
structure Billed (start : Nat) (s : Sched) (rest : List Nat) (bills : List (Nat × Nat)) : Prop where
  runtime : ∀ a ∈ s.currentThread :: rest,
    (s.threads a).runtime = chargedTo (s.threads a).serial bills
  numbers : ∀ b ∈ bills, b.1 < s.created
  total : (bills.map Prod.snd).sum ≤ s.oldCyclesCount - start
  started : s.oldCyclesCount = 0 ∨ start ≤ s.oldCyclesCount
  bounded : s.oldCyclesCount < 2 ^ 64

/-- A new thread has been charged nothing. -/
theorem Billed.create (h : RingOk s rest) (hb : Billed start s rest bills) {a : ThreadArgs}
    {t k u : Nat} (hf : FreshBlocks s a.user t k u) {r : Nat × Sched}
    (hr : createThread s a t k u = some r) : ∃ rest', RingOk r.2 rest' ∧
      Billed start r.2 rest' bills := by
  obtain ⟨hcur, -, -, -, -, hframe⟩ := h.create_frame hf hr
  obtain ⟨hold, -, -, -⟩ := createThread_fields hr
  have hkept : ∀ x ∈ s.currentThread :: rest,
      (r.2.threads x).runtime = chargedTo (r.2.threads x).serial bills := by
    intro x hx
    obtain ⟨hruntime, -, -, hserial⟩ := Thread.core_more (hframe x hx).1
    rw [hruntime, hserial]
    exact hb.runtime x hx
  cases h.create_new hf hr with
  | inl hnone =>
    obtain ⟨hring, hcreated, -⟩ := hnone
    refine ⟨rest, hring, ?_, ?_, ?_, ?_, ?_⟩
    · rw [hcur]
      exact hkept
    · rw [hcreated]
      exact hb.numbers
    · rw [hold]
      exact hb.total
    · rw [hold]
      exact hb.started
    · rw [hold]
      exact hb.bounded
  | inr hnew =>
    obtain ⟨hring, hcreated, -, hserial, hruntime, -⟩ := hnew
    refine ⟨rest ++ [t], hring, ?_, ?_, ?_, ?_, ?_⟩
    · rw [hcur, ← List.cons_append]
      intro x hx
      cases List.mem_append.mp hx with
      | inl hx => exact hkept x hx
      | inr hx =>
        -- no charge has the number of the new thread
        rw [List.mem_singleton.mp hx, hserial, hruntime, chargedTo_of_lt hb.numbers]
    · intro b hmem
      have := hb.numbers b hmem
      omega
    · rw [hold]
      exact hb.total
    · rw [hold]
      exact hb.started
    · rw [hold]
      exact hb.bounded

/-- The cycles that are charged by a tick. -/
theorem Billed.elapsed (hb : Billed start s rest bills) {regs : Nat} {cycles : Nat × Nat × Nat}
    (hc : (ThreadCall.tick regs cycles).InOrder start s) :
    (cycles.2.1 + 2 ^ 64 - startCycles s cycles) % 2 ^ 64 = cycles.2.1 - startCycles s cycles ∧
      (bills.map Prod.snd).sum + (cycles.2.1 - startCycles s cycles) ≤ cycles.2.1 - start := by
  obtain ⟨hstart, hold, hle, hle', hlt⟩ := hc
  have htotal := hb.total
  have hstarted := hb.started
  unfold startCycles
  split <;> omega

/-- A tick without another thread charges nobody. -/
theorem charge_nil (h : RingOk s []) (regs : Nat) (cycles : Nat × Nat × Nat) :
    charge s (.tick regs cycles) = [] := by
  rw [charge, h.nextReadyThread_eq]
  simp

/-- A switch charges the thread that it leaves, unless that has finished. -/
theorem charge_cons {b : Nat} (h : RingOk s (b :: rest)) (regs : Nat) (cycles : Nat × Nat × Nat) :
    charge s (.tick regs cycles) =
      if (s.threads s.currentThread).state ≠ .finished then
        [((s.threads s.currentThread).serial, cycles.2.1 - startCycles s cycles)]
      else [] := by
  have hb : b ∈ s.currentThread :: b :: rest := List.mem_cons_of_mem _ List.mem_cons_self
  have hb0 : b ≠ 0 := (h.pos hb).1.ne'
  have hbc : b ≠ s.currentThread := fun heq =>
    (List.nodup_cons.mp h.nodup).1 (heq ▸ List.mem_cons_self)
  rw [charge, h.nextReadyThread_eq]
  simp [hb0, hbc]

/-- **One tick.** -/
theorem Billed.tick (h : RingOk s rest)
    (hk : (s.threads s.currentThread).state = .finished → s.currentThread ≠ s.kernelThread)
    (hb : Billed start s rest bills) {regs esp : Nat} {cycles : Nat × Nat × Nat}
    (hc : (ThreadCall.tick regs cycles).InOrder start s)
    (hs' : scheduleTick s regs cycles = some (esp, s')) : ∃ rest', RingOk s' rest' ∧
      Billed start s' rest' (bills ++ charge s (.tick regs cycles)) := by
  have hold : s'.oldCyclesCount = cycles.2.2 := by
    obtain ⟨next, -, ⟨-, -, rfl⟩ | ⟨-, elapsed, -, rfl⟩⟩ := scheduleTick_cases hs'
    · rfl
    · rfl
  have hcreated : s'.created = s.created := (statics_scheduleTick hs').2.2.2.1
  obtain ⟨helapsed, htotal⟩ := hb.elapsed hc
  obtain ⟨hstart, -, hle, hle', hlt⟩ := hc
  -- all but the thread that is left keep runtime and number
  have hother : ∀ a, a ≠ s.currentThread → (s'.threads a).runtime = (s.threads a).runtime ∧
      (s'.threads a).serial = (s.threads a).serial := by
    intro a ha
    obtain ⟨hruntime, -, -, hserial⟩ := Thread.core_more (core_scheduleTick hs' ha)
    exact ⟨hruntime, hserial⟩
  -- without a charge
  have hnone : ∀ rest', RingOk s' rest' → (∀ a ∈ s'.currentThread :: rest',
      a ∈ s.currentThread :: rest ∧ (s'.threads a).runtime = (s.threads a).runtime ∧
        (s'.threads a).serial = (s.threads a).serial) →
      charge s (.tick regs cycles) = [] → ∃ rest', RingOk s' rest' ∧
        Billed start s' rest' (bills ++ charge s (.tick regs cycles)) := by
    intro rest' hring hsub hcharge
    rw [hcharge, List.append_nil]
    refine ⟨rest', hring, fun a ha => ?_, ?_, ?_, ?_, ?_⟩
    · obtain ⟨hmem, hruntime, hserial⟩ := hsub a ha
      rw [hruntime, hserial]
      exact hb.runtime a hmem
    · rw [hcreated]
      exact hb.numbers
    · rw [hold]
      have := hb.total
      omega
    · rw [hold]
      omega
    · rw [hold]
      exact hlt
  cases rest with
  | nil =>
    rw [h.scheduleTick_nil, Option.some.injEq, Prod.mk.injEq] at hs'
    obtain ⟨-, rfl⟩ := hs'
    apply hnone [] ⟨h.ring, h.nodup, h.kernel, h.count, h.ready, h.awake, h.serials, h.heap,
      h.blocks, h.blocks_sub⟩
    · exact fun a ha => ⟨ha, rfl, rfl⟩
    · exact charge_nil h regs cycles
  | cons b rest =>
    have hcb := (List.nodup_cons.mp h.nodup).1
    obtain ⟨esp', t, ht, hcases⟩ := h.tick (fun hfin _ => hk hfin) regs cycles
    obtain rfl : t = s' := by
      rw [ht, Option.some.injEq, Prod.mk.injEq] at hs'
      exact hs'.2
    obtain ⟨hnil, -⟩ | ⟨c, rest', heq, hcur, -, -, -, hcases⟩ := hcases
    · exact absurd hnil (List.cons_ne_nil _ _)
    · obtain ⟨rfl, rfl⟩ := List.cons.inj heq
      cases hcases with
      | inr hgone =>
        -- a thread that has finished is not charged
        obtain ⟨hfin, hring, -⟩ := hgone
        apply hnone rest hring
        · intro a ha
          rw [hcur] at ha
          exact ⟨List.mem_cons_of_mem _ ha, hother a fun heq => hcb (heq ▸ ha)⟩
        · rw [charge_cons h, if_neg (not_not_intro hfin)]
      | inl hkept =>
        obtain ⟨hfin, hring, -⟩ := hkept
        obtain ⟨hruntime, -, -, hserial⟩ := h.tick_current hfin ht
        have hbefore := hb.runtime s.currentThread List.mem_cons_self
        have hpart := chargedTo_le (s.threads s.currentThread).serial bills
        rw [helapsed, Nat.mod_eq_of_lt (by omega)] at hruntime
        refine ⟨rest ++ [s.currentThread], hring, fun a ha => ?_, fun x hx => ?_, ?_, ?_, ?_⟩
        · rw [hcur] at ha
          have hmem := mem_of_mem_rotate ha
          rw [chargedTo_append, charge_cons h, if_pos hfin]
          by_cases hac : a = s.currentThread
          · rw [hac, hruntime, hserial, hbefore]
            simp [chargedTo]
          · have hne : (s.threads s.currentThread).serial ≠ (s.threads a).serial := fun heq =>
              hac (h.serial_inj hmem List.mem_cons_self heq.symm)
            rw [(hother a hac).1, (hother a hac).2, hb.runtime a hmem]
            simp [chargedTo, hne]
        · rw [hcreated]
          rw [charge_cons h, if_pos hfin, List.mem_append, List.mem_singleton] at hx
          cases hx with
          | inl hx => exact hb.numbers x hx
          | inr hx =>
            rw [hx]
            exact h.serial_lt List.mem_cons_self
        · rw [charge_cons h, if_pos hfin, hold, List.map_append, List.sum_append]
          simp only [List.map_cons, List.map_nil, List.sum_cons, List.sum_nil]
          omega
        · rw [hold]
          omega
        · rw [hold]
          exact hlt

/-! ## Runs -/

/-- **One call.** -/
theorem Billed.exec (h : RunOk s) (hb : ∃ rest, RingOk s rest ∧ Billed start s rest bills)
    {c : ThreadCall} (hc : c.Allowed s) (hin : c.InOrder start s) (hs' : c.exec s = some s') :
    ∃ rest', RingOk s' rest' ∧ Billed start s' rest' (bills ++ charge s c) := by
  obtain ⟨rest, hring, hb⟩ := hb
  cases c with
  | create a t k u =>
    rw [ThreadCall.exec, Option.map_eq_some_iff] at hs'
    obtain ⟨r, hr, rfl⟩ := hs'
    show ∃ rest', RingOk r.2 rest' ∧ Billed start r.2 rest' (bills ++ [])
    rw [List.append_nil]
    -- a new thread has been charged nothing
    exact Billed.create hring hb hc hr
  | exit =>
    obtain rfl := Option.some.inj hs'
    show ∃ rest', RingOk (threadExit s) rest' ∧ Billed start (threadExit s) rest' (bills ++ [])
    rw [List.append_nil]
    -- the runtimes are as before
    refine ⟨rest, hring.exit, ?_, hb.numbers, hb.total, hb.started, hb.bounded⟩
    intro a ha
    have hcore : ((threadExit s).threads a).core = (s.threads a).core := by
      by_cases hac : a = s.currentThread
      · rw [hac]
        simp [threadExit, Sched.setThread, Thread.core]
      · simp [threadExit, Sched.setThread, hac]
    obtain ⟨hruntime, -, -, hserial⟩ := Thread.core_more hcore
    rw [hruntime, hserial]
    exact hb.runtime a ha
  | tick regs cycles =>
    rw [ThreadCall.exec, Option.map_eq_some_iff] at hs'
    obtain ⟨⟨esp, t⟩, ht, rfl⟩ := hs'
    -- the thread that is left is charged
    exact Billed.tick hring h.2 hb hin ht

/-- In a whole run all runtimes are the sums of the charges. -/
theorem Billed.execAll {calls : List ThreadCall} (h : RunOk s)
    (hb : ∃ rest, RingOk s rest ∧ Billed start s rest bills)
    (hall : Each ThreadCall.exec (fun s c => c.Allowed s ∧ c.InOrder start s) s calls)
    (hs' : Run.execAll ThreadCall.exec s calls = some s') :
    ∃ rest', RingOk s' rest' ∧ Billed start s' rest' (bills ++ charges s calls) := by
  induction calls generalizing s bills with
  | nil =>
    obtain rfl := Option.some.inj hs'
    rw [charges, List.append_nil]
    exact hb
  | cons c calls ih =>
    rw [Run.execAll, Option.bind_eq_some_iff] at hs'
    obtain ⟨t, ht, hs'⟩ := hs'
    obtain ⟨⟨hc, hin⟩, hall⟩ := hall
    have hnext := ih (h.exec hc ht) (Billed.exec h hb hc hin ht) (hall t ht) hs'
    rw [List.append_assoc] at hnext
    rw [charges, ht]
    exact hnext

/-- A run that starts with `scheduling_init`. -/
theorem Sched.Boot.runOk {s₀ : Sched} {k : Nat} (hboot : s₀.Boot) (hk : k ≠ 0)
    (hf : Fresh s₀.heap k threadSize) : RunOk (schedulingInit s₀ k) := by
  refine ⟨⟨[], hboot.ringOk hk hf⟩, fun hfin => ?_⟩
  simp [schedulingInit, createKernelThread, scheduleThread, kmallocAt, Sched.setThread, hk,
    hboot.currentThread, hboot.kernelThread] at hfin

/-- **Every cycle is charged at most once.** In every run after `scheduling_init` in which threads
    are created on free memory, the kernel thread does not exit and the cycle counter does not go
    backwards, the runtime of a thread is the sum of what the ticks have charged to it since its
    creation, whatever thread had its address before. All charges together, those of destroyed
    threads included, are at most the time from `start` to the last tick, so no runtime wraps
    around. -/
theorem cycles_charged {s₀ : Sched} {k : Nat} {calls : List ThreadCall} (hboot : s₀.Boot)
    (hold : s₀.oldCyclesCount = 0) (hk : k ≠ 0) (hf : Fresh s₀.heap k threadSize)
    (hall : Each ThreadCall.exec (fun s c => c.Allowed s ∧ c.InOrder start s)
      (schedulingInit s₀ k) calls)
    (hs : Run.execAll ThreadCall.exec (schedulingInit s₀ k) calls = some s) :
    ∃ rest, RingOk s rest ∧
      (∀ a ∈ s.currentThread :: rest, (s.threads a).runtime =
        chargedTo (s.threads a).serial (charges (schedulingInit s₀ k) calls)) ∧
      ((charges (schedulingInit s₀ k) calls).map Prod.snd).sum ≤ s.oldCyclesCount - start := by
  have hring := hboot.ringOk hk hf
  have hstart : Billed start (schedulingInit s₀ k) [] [] := by
    have hinit : (schedulingInit s₀ k).currentThread = k ∧
        ((schedulingInit s₀ k).threads k).runtime = 0 ∧
        (schedulingInit s₀ k).oldCyclesCount = 0 := by
      simp [schedulingInit, createKernelThread, scheduleThread, kmallocAt, Sched.setThread, hk,
        hboot.currentThread, hboot.kernelThread, zeroThread, hold]
    obtain ⟨hcur, hruntime, hzero⟩ := hinit
    refine ⟨fun a ha => ?_, by simp, Nat.zero_le _, Or.inl hzero, by rw [hzero]; decide⟩
    rw [List.mem_singleton.mp ha, hcur, hruntime]
    rfl
  obtain ⟨rest, hring', hb⟩ := Billed.execAll (hboot.runOk hk hf) ⟨[], hring, hstart⟩ hall hs
  rw [List.nil_append] at hb
  exact ⟨rest, hring', hb.runtime, hb.total⟩

end

/-- Two threads take turns. -/
def turnCalls : List ThreadCall :=
  [.create ⟨1, 0, 0, 1, false, false⟩ 0x2000 0x4000 0, .tick 0x8000 (10, 11, 12),
    .tick 0x5f00 (20, 21, 22)]

/-- The calls are allowed, and the cycle counter does not go backwards. -/
theorem turnCalls_allowed :
    Each ThreadCall.exec (fun s c => c.Allowed s ∧ c.InOrder 10 s)
      (schedulingInit bootSched 0x1000) turnCalls := by
  refine ⟨⟨by decide, trivial⟩, fun s₁ h₁ => ?_⟩
  cases h₁
  refine ⟨⟨trivial, by decide, by decide, by decide, by decide, by decide⟩, fun s₂ h₂ => ?_⟩
  cases h₂
  exact ⟨⟨trivial, by decide, by decide, by decide, by decide, by decide⟩, fun _ _ => trivial⟩

/-- The kernel thread is charged one cycle and the other thread nine. -/
theorem cycles_charged_turns : ∃ s rest,
    Run.execAll ThreadCall.exec (schedulingInit bootSched 0x1000) turnCalls = some s ∧
      RingOk s rest ∧
      charges (schedulingInit bootSched 0x1000) turnCalls = [(0, 1), (1, 9)] := by
  obtain ⟨rest, h, -⟩ := cycles_charged bootSched_boot rfl (by decide)
    (fun _ => ⟨by decide, fun _ hb => absurd hb List.not_mem_nil⟩) turnCalls_allowed rfl
  exact ⟨_, rest, rfl, h, by decide⟩

/-! ## The running thread -/

/-- `getpid` -/
def getpid (s : Sched) : Nat :=
  if s.currentThread ≠ 0 then (s.threads s.currentThread).id else 0

/-- A thread is created for a process with a directory. -/
def ThreadCall.HasDirectory (s : Sched) : ThreadCall → Prop
  | .create a _ _ _ => (s.processes a.process).pageDir ≠ 0
  | _ => True

section

variable {s s' : Sched} {rest : List Nat}

/-- The directory of the running thread is installed, and identifiers follow the numbers. -/
structure ContextOk (s : Sched) (rest : List Nat) : Prop where
  directory : s.currentDirectory = (s.threads s.currentThread).pageDir
  nonzero : ∀ a ∈ s.currentThread :: rest, (s.threads a).pageDir ≠ 0
  ids : ∀ a ∈ s.currentThread :: rest, (s.threads a).id = ((s.threads a).serial + 1) % 2 ^ 32
  next : s.threadId = s.created % 2 ^ 32

/-- `create_thread` keeps the context of the running thread. -/
theorem ContextOk.create (h : RingOk s rest) (hok : ContextOk s rest) {a : ThreadArgs}
    {t k u : Nat} (hf : FreshBlocks s a.user t k u)
    (hdir : (s.processes a.process).pageDir ≠ 0) {r : Nat × Sched}
    (hr : createThread s a t k u = some r) : ∃ rest', RingOk r.2 rest' ∧ ContextOk r.2 rest' := by
  obtain ⟨hcur, -, -, -, -, hframe⟩ := h.create_frame hf hr
  obtain ⟨-, hcurdir, -, -⟩ := createThread_fields hr
  have hkept : ∀ x ∈ s.currentThread :: rest, (r.2.threads x).pageDir = (s.threads x).pageDir ∧
      (r.2.threads x).id = (s.threads x).id ∧
      (r.2.threads x).serial = (s.threads x).serial := by
    intro x hx
    obtain ⟨-, hid, hpage, hserial⟩ := Thread.core_more (hframe x hx).1
    exact ⟨hpage, hid, hserial⟩
  have hdirectory : r.2.currentDirectory = (r.2.threads r.2.currentThread).pageDir := by
    rw [hcur, hcurdir, (hkept _ List.mem_cons_self).1]
    exact hok.directory
  have hold : ∀ x ∈ s.currentThread :: rest, (r.2.threads x).pageDir ≠ 0 ∧
      (r.2.threads x).id = ((r.2.threads x).serial + 1) % 2 ^ 32 := by
    intro x hx
    obtain ⟨hx₁, hx₂, hx₃⟩ := hkept x hx
    rw [hx₁, hx₂, hx₃]
    exact ⟨hok.nonzero x hx, hok.ids x hx⟩
  cases h.create_new hf hr with
  | inl hnone =>
    obtain ⟨hring, hcreated, hid⟩ := hnone
    -- without a new thread all is as before
    refine ⟨rest, hring, hdirectory, ?_, ?_, ?_⟩
    · rw [hcur]
      exact fun x hx => (hold x hx).1
    · rw [hcur]
      exact fun x hx => (hold x hx).2
    · rw [hcreated, hid]
      exact hok.next
  | inr hnew =>
    obtain ⟨hring, hcreated, hid, hserial, -, hnewid, hnewdir⟩ := hnew
    -- the new thread gets the next number and the directory of its process
    have hnext : add32 s.threadId 1 = (s.created + 1) % 2 ^ 32 := by
      rw [hok.next, add32, Nat.mod_add_mod]
    have hall : ∀ x ∈ s.currentThread :: (rest ++ [t]), (r.2.threads x).pageDir ≠ 0 ∧
        (r.2.threads x).id = ((r.2.threads x).serial + 1) % 2 ^ 32 := by
      intro x hx
      rw [← List.cons_append] at hx
      cases List.mem_append.mp hx with
      | inl hx => exact hold x hx
      | inr hx =>
        rw [List.mem_singleton.mp hx, hnewdir, hnewid, hserial]
        exact ⟨hdir, hnext⟩
    refine ⟨rest ++ [t], hring, hdirectory, ?_, ?_, ?_⟩
    · rw [hcur]
      exact fun x hx => (hall x hx).1
    · rw [hcur]
      exact fun x hx => (hall x hx).2
    · rw [hcreated, hid]
      exact hnext

/-- Leaving a thread hands out no number. -/
theorem threadId_leaveThread (s : Sched) (regs elapsed : Nat) :
    (leaveThread s regs elapsed).threadId = s.threadId := by
  have hnext : ∀ (s : Sched) (p q : Nat), (linkNext s p q).threadId = s.threadId := by
    intro s p q
    unfold linkNext
    split <;> rfl
  have hprev : ∀ (s : Sched) (q p : Nat), (linkPrev s q p).threadId = s.threadId := by
    intro s q p
    unfold linkPrev
    split <;> rfl
  have hunschedule : ∀ (s : Sched) (a : Nat), (unscheduleThread s a).threadId = s.threadId := by
    intro s a
    unfold unscheduleThread
    split
    · rfl
    · rw [hprev, hnext]
  have hdestroy : ∀ (s : Sched) (a : Nat), (destroyThread s a).threadId = s.threadId := by
    intro s a
    by_cases h0 : a = 0
    · rw [destroyThread, if_pos h0]
    · obtain ⟨heap, hd, -⟩ := destroyThread_spec (s := s) h0
      rw [hd]
  unfold leaveThread
  simp only
  split
  · -- a thread that has finished is taken out and destroyed
    rw [hdestroy, hunschedule]
  · rfl

/-- `switch_page_directory` ignores only a null directory. -/
theorem switchThread_directory {b : Nat} (h : (s.threads b).pageDir ≠ 0) :
    (switchThread s b).2.currentDirectory = (s.threads b).pageDir := by
  simp only [switchThread]
  by_cases hsame : s.currentDirectory = (s.threads b).pageDir
  · rw [if_neg fun hne => hne.1 hsame, hsame]
  · rw [if_pos ⟨hsame, h⟩]

/-- `schedule_tick` installs the directory of the thread that it selects. -/
theorem ContextOk.tick (h : RingOk s rest)
    (hk : (s.threads s.currentThread).state = .finished → s.currentThread ≠ s.kernelThread)
    (hok : ContextOk s rest) {regs esp : Nat} {cycles : Nat × Nat × Nat}
    (hs' : scheduleTick s regs cycles = some (esp, s')) :
    ∃ rest', RingOk s' rest' ∧ ContextOk s' rest' := by
  cases rest with
  | nil =>
    rw [h.scheduleTick_nil, Option.some.injEq, Prod.mk.injEq] at hs'
    obtain ⟨-, rfl⟩ := hs'
    exact ⟨[], ⟨h.ring, h.nodup, h.kernel, h.count, h.ready, h.awake, h.serials, h.heap,
      h.blocks, h.blocks_sub⟩, hok.directory, hok.nonzero, hok.ids, hok.next⟩
  | cons b rest =>
    have hb : b ∈ s.currentThread :: b :: rest := List.mem_cons_of_mem _ List.mem_cons_self
    have hcb := (List.nodup_cons.mp h.nodup).1
    have hbc : b ≠ s.currentThread := fun heq => hcb (heq ▸ List.mem_cons_self)
    have hcreated : s'.created = s.created := (statics_scheduleTick hs').2.2.2.1
    obtain ⟨esp', t, ht, hcases⟩ := h.tick (fun hfin _ => hk hfin) regs cycles
    obtain rfl : t = s' := by
      rw [ht, Option.some.injEq, Prod.mk.injEq] at hs'
      exact hs'.2
    -- a tick leaves these fields of every thread alone
    have hkept : ∀ a ∈ s.currentThread :: b :: rest, ((s.threads s.currentThread).state = .finished →
        a ≠ s.currentThread) → (t.threads a).pageDir ≠ 0 ∧
        (t.threads a).id = ((t.threads a).serial + 1) % 2 ^ 32 := by
      intro a ha hgone
      have hfields : (t.threads a).pageDir = (s.threads a).pageDir ∧
          (t.threads a).id = (s.threads a).id ∧ (t.threads a).serial = (s.threads a).serial := by
        by_cases hac : a = s.currentThread
        · obtain ⟨-, hid, hpage, hserial⟩ := h.tick_current (fun hfin => hgone hfin hac) ht
          rw [hac]
          exact ⟨hpage, hid, hserial⟩
        · obtain ⟨-, hid, hpage, hserial⟩ := Thread.core_more (core_scheduleTick ht hac)
          exact ⟨hpage, hid, hserial⟩
      obtain ⟨hdir, hid, hserial⟩ := hfields
      rw [hdir, hid, hserial]
      exact ⟨hok.nonzero a ha, hok.ids a ha⟩
    have hfacts : t.currentThread = b ∧ t.threadId = s.threadId ∧
        t.currentDirectory = (t.threads b).pageDir := by
      rw [h.tick_elapsed, Option.some.injEq, Prod.mk.injEq] at ht
      obtain ⟨-, rfl⟩ := ht
      refine ⟨rfl, threadId_leaveThread s regs _, ?_⟩
      obtain ⟨-, -, hleft, -⟩ := Thread.core_more (core_leaveThread s regs
        ((cycles.2.1 + 2 ^ 64 - startCycles s cycles) % 2 ^ 64) hbc)
      obtain ⟨-, -, hswitched, -⟩ := Thread.core_more (core_switchThread (leaveThread s regs
        ((cycles.2.1 + 2 ^ 64 - startCycles s cycles) % 2 ^ 64)) b b)
      simp only
      rw [hswitched]
      apply switchThread_directory
      rw [hleft]
      exact hok.nonzero b hb
    obtain ⟨hcur, hid, hdirectory⟩ := hfacts
    have hnext : t.threadId = t.created % 2 ^ 32 := by
      rw [hid, hcreated]
      exact hok.next
    obtain ⟨hnil, -⟩ | ⟨c, rest', heq, -, -, -, -, hcases⟩ := hcases
    · exact absurd hnil (List.cons_ne_nil _ _)
    · obtain ⟨rfl, rfl⟩ := List.cons.inj heq
      cases hcases with
      | inl hstays =>
        obtain ⟨hfin, hring, -⟩ := hstays
        have hall := fun a (ha : a ∈ b :: (rest ++ [s.currentThread])) =>
          hkept a (mem_of_mem_rotate ha) fun hf => absurd hf hfin
        refine ⟨_, hring, ?_, ?_, ?_, hnext⟩
        · rw [hcur]
          exact hdirectory
        · rw [hcur]
          exact fun a ha => (hall a ha).1
        · rw [hcur]
          exact fun a ha => (hall a ha).2
      | inr hgone =>
        obtain ⟨-, hring, -⟩ := hgone
        have hall := fun a (ha : a ∈ b :: rest) =>
          hkept a (List.mem_cons_of_mem _ ha) fun _ heq => hcb (heq ▸ ha)
        refine ⟨_, hring, ?_, ?_, ?_, hnext⟩
        · rw [hcur]
          exact hdirectory
        · rw [hcur]
          exact fun a ha => (hall a ha).1
        · rw [hcur]
          exact fun a ha => (hall a ha).2

/-- Every call keeps the context. -/
theorem ContextOk.exec (h : RunOk s) (hok : ∃ rest, RingOk s rest ∧ ContextOk s rest)
    {c : ThreadCall} (hc : c.Allowed s) (hdir : c.HasDirectory s) (hs' : c.exec s = some s') :
    ∃ rest', RingOk s' rest' ∧ ContextOk s' rest' := by
  obtain ⟨rest, hring, hok⟩ := hok
  cases c with
  | create a t k u =>
    rw [ThreadCall.exec, Option.map_eq_some_iff] at hs'
    obtain ⟨r, hr, rfl⟩ := hs'
    exact ContextOk.create hring hok hc hdir hr
  | exit =>
    obtain rfl := Option.some.inj hs'
    have hcore : ∀ a, ((threadExit s).threads a).core = (s.threads a).core := by
      intro a
      by_cases hac : a = s.currentThread
      · rw [hac]
        simp [threadExit, Sched.setThread, Thread.core]
      · simp [threadExit, Sched.setThread, hac]
    -- the fields of the context belong to the core
    refine ⟨rest, hring.exit, ?_, fun a ha => ?_, fun a ha => ?_, hok.next⟩
    · exact hok.directory.trans (Thread.core_more (hcore s.currentThread)).2.2.1.symm
    · rw [(Thread.core_more (hcore a)).2.2.1]
      exact hok.nonzero a ha
    · obtain ⟨-, hid, -, hserial⟩ := Thread.core_more (hcore a)
      rw [hid, hserial]
      exact hok.ids a ha
  | tick regs cycles =>
    rw [ThreadCall.exec, Option.map_eq_some_iff] at hs'
    obtain ⟨⟨esp, t⟩, ht, rfl⟩ := hs'
    exact ContextOk.tick hring h.2 hok ht

/-- **The running thread.** In every run after `scheduling_init` in which threads are created on
    free memory and for processes with a directory, and the kernel thread does not exit, the
    directory of the running thread is the one that is installed. Up to `2 ^ 32 - 1` creations,
    `getpid` is not zero and tells the running thread from all others, those that were destroyed
    included. -/
theorem thread_context {s₀ : Sched} {k : Nat} {calls : List ThreadCall} (hboot : s₀.Boot)
    (hid : s₀.threadId = 0) (hdir : s₀.currentDirectory ≠ 0) (hk : k ≠ 0)
    (hf : Fresh s₀.heap k threadSize)
    (hall : Each ThreadCall.exec (fun s c => c.Allowed s ∧ c.HasDirectory s)
      (schedulingInit s₀ k) calls)
    (hs : Run.execAll ThreadCall.exec (schedulingInit s₀ k) calls = some s) :
    ∃ rest, RingOk s rest ∧ s.currentDirectory = (s.threads s.currentThread).pageDir ∧
      (s.created < 2 ^ 32 → getpid s ≠ 0 ∧
        (∀ a ∈ s.currentThread :: rest, (s.threads a).id = getpid s → a = s.currentThread) ∧
        ∀ n ∈ s.destroyed, (n + 1) % 2 ^ 32 ≠ getpid s) := by
  have hstart : ContextOk (schedulingInit s₀ k) [] := by
    have hinit : (schedulingInit s₀ k).currentThread = k ∧
        ((schedulingInit s₀ k).threads k).pageDir = s₀.currentDirectory ∧
        ((schedulingInit s₀ k).threads k).id = 1 ∧
        ((schedulingInit s₀ k).threads k).serial = 0 ∧ (schedulingInit s₀ k).threadId = 1 ∧
        (schedulingInit s₀ k).created = 1 ∧
        (schedulingInit s₀ k).currentDirectory = s₀.currentDirectory := by
      simp [schedulingInit, createKernelThread, scheduleThread, kmallocAt, Sched.setThread, hk,
        hboot.currentThread, hboot.kernelThread, hboot.created, hid, add32]
    obtain ⟨hcur, hpage, hone, hserial, hnext, hcreated, hsame⟩ := hinit
    refine ⟨?_, fun a ha => ?_, fun a ha => ?_, ?_⟩
    · -- the kernel thread runs in the directory of the start
      rw [hsame, hcur, hpage]
    · -- that directory is not the null one
      rw [List.mem_singleton.mp ha, hcur, hpage]
      exact hdir
    · -- it has the number 1, and is the first to be created
      rw [List.mem_singleton.mp ha, hcur, hone, hserial]
      rfl
    · rw [hnext, hcreated]
      rfl
  have hstep : ∀ (s : Sched) (c : ThreadCall) (s' : Sched),
      (RunOk s ∧ ∃ rest, RingOk s rest ∧ ContextOk s rest) → c.Allowed s ∧ c.HasDirectory s →
      c.exec s = some s' → RunOk s' ∧ ∃ rest, RingOk s' rest ∧ ContextOk s' rest := by
    intro s c s' h hc hs'
    exact ⟨h.1.exec hc.1 hs', ContextOk.exec h.1 h.2 hc.1 hc.2 hs'⟩
  have hbegin : RunOk (schedulingInit s₀ k) ∧
      ∃ rest, RingOk (schedulingInit s₀ k) rest ∧ ContextOk (schedulingInit s₀ k) rest :=
    ⟨hboot.runOk hk hf, [], hboot.ringOk hk hf, hstart⟩
  obtain ⟨-, rest, hring, hok⟩ := inv_of_execAll hstep hbegin hall hs
  refine ⟨rest, hring, hok.directory, fun hlt => ?_⟩
  have hcur := List.mem_cons_self (a := s.currentThread) (l := rest)
  have hpid : getpid s = (s.threads s.currentThread).serial + 1 := by
    have hbound := hring.serial_lt hcur
    rw [getpid, if_pos (hring.pos hcur).1.ne', hok.ids _ hcur, Nat.mod_eq_of_lt (by omega)]
  refine ⟨by omega, fun a ha heq => ?_, fun n hn heq => ?_⟩
  · -- two threads of the ring with one number are one thread
    have hbound := hring.serial_lt ha
    rw [hok.ids a ha, hpid, Nat.mod_eq_of_lt (by omega)] at heq
    exact hring.serial_inj ha hcur (by omega)
  · -- a destroyed thread had another number
    have hnodup : (s.destroyed ++ (s.currentThread :: rest).map fun a =>
        (s.threads a).serial).Nodup := hring.serials.nodup_iff.mpr List.nodup_range
    have hbound : n < s.created :=
      List.mem_range.mp (hring.serials.mem_iff.mp (List.mem_append_left _ hn))
    rw [hpid, Nat.mod_eq_of_lt (by omega)] at heq
    apply (List.nodup_append.mp hnodup).2.2 n hn _ (List.mem_map_of_mem hcur)
    omega

end

/-- A machine with directories. -/
def directorySched : Sched :=
  { bootSched with currentDirectory := 0x300000, processes := fun _ => ⟨1, 0x400000⟩ }

/-- Behind a creation and a tick the second thread runs in its own directory. -/
theorem thread_context_turns : ∃ s rest,
    Run.execAll ThreadCall.exec (schedulingInit directorySched 0x1000) (turnCalls.take 2) = some s ∧
      RingOk s rest ∧ s.currentDirectory = 0x400000 ∧ getpid s = 2 := by
  have hboot : directorySched.Boot :=
    ⟨rfl, rfl, rfl, rfl, rfl, List.Pairwise.nil, fun _ hb => absurd hb List.not_mem_nil⟩
  have hall : Each ThreadCall.exec (fun s c => c.Allowed s ∧ c.HasDirectory s)
      (schedulingInit directorySched 0x1000) (turnCalls.take 2) := by
    refine ⟨⟨by decide, show (0x400000 : Nat) ≠ 0 by decide⟩, fun s₁ h₁ => ?_⟩
    cases h₁
    exact ⟨⟨trivial, trivial⟩, fun _ _ => trivial⟩
  obtain ⟨rest, h, hdir, -⟩ := thread_context hboot rfl (by decide) (by decide)
    (fun _ => ⟨by decide, fun _ hb => absurd hb List.not_mem_nil⟩) hall rfl
  exact ⟨_, rest, rfl, h, hdir.trans rfl, rfl⟩

end Toutatis
