import Toutatis.Sched.Frame
import Toutatis.Sched.Ring

/-!
# Where the frames of user threads lie

When the timer interrupts user mode, the processor starts to push at `esp0` of the task
state segment. `schedule_tick` sets `esp0` to the stack pointer that it continues with,
which points to the lower end of the frame that is about to be popped and not to its upper
end. So each time a user thread is resumed, its next frame lies one frame deeper.

## Key results

- `user_frame_fixed_iff`: the frames of user threads stay in place exactly in the runs that
  resume no user thread
- `drift`: every preemption of a user thread moves its frame down by 72 bytes
-/

namespace Toutatis

open ByteMem Run

/-- `sizeof(registers_t)`. -/
def registersSize : Nat := 72

/-- A state, and the numbers of the threads that a tick has left. -/
structure Traced where
  sched : Sched
  left : List Nat

/-- One call. -/
def Traced.exec (t : Traced) (c : ThreadCall) : Option Traced :=
  (c.exec t.sched).map fun s =>
    { sched := s
      left := if s.currentThread = t.sched.currentThread then t.left
        else (t.sched.threads t.sched.currentThread).serial :: t.left }

/-- When the current thread is a user thread and the timer interrupts it in user mode, the
    frame lies inside its kernel stack, at a distance from the top that is the same for
    every interrupt. -/
def UserFrameOk (s : Sched) : Prop :=
  (s.threads s.currentThread).ustack ≠ 0 → ∀ c : Cpu, c.user = true →
    let frame := (saveFrame c s.esp0 s.mem).2
    let top := (s.threads s.currentThread).kstack + stackSize
    frame = top - 2 * registersSize ∧
      (s.threads s.currentThread).kstack ≤ frame ∧ frame + registersSize ≤ top

/-- The kernel thread does not exit, `kmalloc` returns free memory, and the frame of a user
    thread, in user mode or in a system call, lies below `esp0`. -/
def ThreadCall.Pushed (t : Traced) : ThreadCall → Prop
  | .tick regs _ => (t.sched.threads t.sched.currentThread).ustack ≠ 0 → regs < t.sched.esp0
  | c => c.Allowed t.sched

/-- A tick does not switch to a user thread that an earlier tick has left. -/
def ThreadCall.Once (t : Traced) : ThreadCall → Prop
  | .tick _ _ =>
    let next := (t.sched.threads t.sched.currentThread).next
    next ≠ t.sched.currentThread → (t.sched.threads next).ustack ≠ 0 →
      (t.sched.threads next).serial ∉ t.left
  | _ => True

/-! ## The position of a frame -/

/-- The pushes of an interrupt of user mode. -/
theorem saveFrame_user {c : Cpu} (hc : c.user = true) (esp0 : Nat) (m : Mem) :
    (saveFrame c esp0 m).2 = sub32 esp0 registersSize := by
  have hptr : ∀ (xs : List Nat) (m : Mem) (p : Nat), xs ≠ [] →
      (pushAll (m, p) xs).2 = sub32 p (4 * xs.length) := by
    intro xs
    induction xs with
    | nil => exact fun _ _ h => absurd rfl h
    | cons x xs ih =>
      intro m p _
      rw [pushAll, List.foldl_cons]
      cases xs with
      | nil => rfl
      | cons y ys =>
        refine (ih _ _ (by simp)).trans ?_
        simp only [sub32, List.length_cons]
        omega
  have hlen := c.length_pushes
  rw [saveFrame, if_pos hc, hptr _ _ _ (by rintro h; rw [h, hc] at hlen; simp at hlen), hlen,
    if_pos hc, registersSize]

/-- The frame is in place exactly when `esp0` is one frame below the top. -/
theorem userFrameOk_iff {s : Sched} (hu : (s.threads s.currentThread).ustack ≠ 0)
    (htop : (s.threads s.currentThread).kstack + stackSize ≤ 2 ^ 32) (hesp0 : s.esp0 < 2 ^ 32) :
    UserFrameOk s ↔
      s.esp0 = (s.threads s.currentThread).kstack + stackSize - registersSize := by
  rw [stackSize] at *
  constructor
  · intro h
    have hpos := (h hu (initialCpu ⟨0, 0, 0, 0, true, false⟩ 0 0) (by decide)).1
    rw [saveFrame_user (by decide), sub32, registersSize, stackSize] at hpos
    rw [registersSize]
    omega
  · intro h _ c hc
    rw [saveFrame_user hc, h, stackSize, registersSize, sub32]
    simp only
    omega

/-! ## The invariant -/

/-- The ring, with the stack pointers of user threads: as `create_thread` has set them up
    for the threads that no tick has left, deeper for the others. -/
structure StackOk (t : Traced) (rest : List Nat) : Prop where
  ring : RingOk t.sched rest
  finished : (t.sched.threads t.sched.currentThread).state = .finished →
    t.sched.currentThread ≠ t.sched.kernelThread
  left_lt : ∀ n ∈ t.left, n < t.sched.created
  kstack : ∀ a ∈ t.sched.currentThread :: rest, (t.sched.threads a).ustack ≠ 0 →
    (t.sched.threads a).kstack ≠ 0
  new : ∀ a ∈ rest, (t.sched.threads a).ustack ≠ 0 → (t.sched.threads a).serial ∉ t.left →
    (t.sched.threads a).esp = (t.sched.threads a).kstack + stackSize - registersSize
  old : ∀ a ∈ rest, (t.sched.threads a).ustack ≠ 0 → (t.sched.threads a).serial ∈ t.left →
    (t.sched.threads a).esp < (t.sched.threads a).kstack + stackSize - registersSize
  current : (t.sched.threads t.sched.currentThread).ustack ≠ 0 →
    t.sched.esp0 = (t.sched.threads t.sched.currentThread).kstack + stackSize - registersSize

section

variable {t t' : Traced} {rest : List Nat} {c : ThreadCall}

theorem StackOk.userFrameOk (h : StackOk t rest) : UserFrameOk t.sched := by
  intro hu
  have htop := h.ring.kstack_le List.mem_cons_self (h.kstack _ List.mem_cons_self hu)
  refine (userFrameOk_iff hu htop ?_).mpr (h.current hu) hu
  rw [h.current hu, registersSize]
  omega

/-- What `create_thread` does to the invariant. -/
theorem StackOk.create (h : StackOk t rest) {a : ThreadArgs} {p k u : Nat}
    (hf : FreshBlocks t.sched a.user p k u) {r : Nat × Sched}
    (hr : createThread t.sched a p k u = some r) :
    ∃ rest', StackOk ⟨r.2, t.left⟩ rest' := by
  obtain ⟨hcur, hker, hesp0, -, -, hframe⟩ := h.ring.create_frame hf hr
  have hfields : ∀ x ∈ t.sched.currentThread :: rest, _ := fun x hx =>
    Thread.core_fields (hframe x hx).1
  have hold : ∀ x ∈ t.sched.currentThread :: rest, (r.2.threads x).ustack ≠ 0 →
      (r.2.threads x).kstack ≠ 0 := fun x hx => by
    rw [(hfields x hx).2.1, (hfields x hx).2.2.1]
    exact h.kstack x hx
  have hnew : ∀ x ∈ rest, (r.2.threads x).ustack ≠ 0 → (r.2.threads x).serial ∉ t.left →
      (r.2.threads x).esp = (r.2.threads x).kstack + stackSize - registersSize := fun x hx => by
    obtain ⟨hser, hk, hu, hesp⟩ := hfields x (List.mem_cons_of_mem _ hx)
    rw [hser, hk, hu, hesp]
    exact h.new x hx
  have hleft : ∀ x ∈ rest, (r.2.threads x).ustack ≠ 0 → (r.2.threads x).serial ∈ t.left →
      (r.2.threads x).esp < (r.2.threads x).kstack + stackSize - registersSize := fun x hx => by
    obtain ⟨hser, hk, hu, hesp⟩ := hfields x (List.mem_cons_of_mem _ hx)
    rw [hser, hk, hu, hesp]
    exact h.old x hx
  have hcurrent : (r.2.threads t.sched.currentThread).ustack ≠ 0 →
      r.2.esp0 = (r.2.threads t.sched.currentThread).kstack + stackSize - registersSize := by
    obtain ⟨-, hk, hu, -⟩ := hfields _ List.mem_cons_self
    rw [hk, hu, hesp0]
    exact h.current
  have hfin : (r.2.threads t.sched.currentThread).state = .finished →
      t.sched.currentThread ≠ t.sched.kernelThread := by
    rw [(hframe _ List.mem_cons_self).2]
    exact h.finished
  rcases h.ring.create hf hr with ⟨hring, -, hcreated, -⟩ |
    ⟨u', blocks, hp0, hpL, hk0, -, -, -, rfl, hring⟩
  · -- an allocation has failed
    refine ⟨rest, hring, ?_, ?_, ?_, hnew, hleft, ?_⟩
    · simpa only [hcur, hker] using hfin
    · simpa only [hcreated] using h.left_lt
    · simpa only [hcur] using hold
    · simpa only [hcur] using hcurrent
  · obtain ⟨T, heq, -, hp⟩ := h.ring.finishThread_spec a k u k u' blocks hp0 hpL
    obtain ⟨hser, hk, -, hesp⟩ := Thread.core_fields hp
    simp only [newThread, Sched.withBlocks, Function.update_self] at hser hk hesp
    have hthreads : (finishThread (t.sched.withBlocks p k u' blocks) a p k u).2.threads = T := by
      rw [heq]
    have htop := hring.kstack_le (a := p) (by simp) (by rw [hthreads, hk]; exact hk0)
    rw [hthreads, hk] at htop
    rw [buildStack_snd _ a u _ htop] at hesp
    -- it gets the next number, which no thread has left with yet
    have hcreated : (finishThread (t.sched.withBlocks p k u' blocks) a p k u).2.created =
        t.sched.created + 1 := by
      rw [heq]
    have hmem : ∀ x ∈ rest ++ [p], x ∈ rest ∨ x = p := fun x hx => by simpa using hx
    refine ⟨_, hring, ?_, ?_, ?_, fun x hx => ?_, fun x hx => ?_, ?_⟩
    · simpa only [hcur, hker] using hfin
    · intro n hn
      have := h.left_lt n hn
      simp only [hcreated]
      omega
    · simp only [hcur]
      intro x hx
      rw [← List.cons_append, List.mem_append, List.mem_singleton] at hx
      rcases hx with hx | rfl
      · exact hold x hx
      · simp only [hthreads, hk]
        exact fun _ => hk0
    · rcases hmem x hx with hx | rfl
      · exact hnew x hx
      · simp only [hthreads, hk, hesp, registersSize, implies_true]
    · -- the number of the new thread is larger than all that were left
      rcases hmem x hx with hx | rfl
      · exact hleft x hx
      · simp only [hthreads, hser]
        intro _ hin
        exact absurd (h.left_lt _ hin) (lt_irrefl _)
    · simpa only [hcur] using hcurrent

/-- A tick, but for `esp0`. -/
theorem StackOk.tick (h : StackOk t rest) {regs : Nat} {cycles : Nat × Nat × Nat}
    (hp : (ThreadCall.tick regs cycles).Pushed t) :
    ∃ s', (ThreadCall.tick regs cycles).exec t.sched = some s' ∧
      ((rest = [] ∧ StackOk ⟨s', t.left⟩ [] ∧ s'.currentThread = t.sched.currentThread) ∨
      ∃ b rest', rest = b :: rest' ∧ s'.currentThread = b ∧ b ≠ t.sched.currentThread ∧
        s'.esp0 = (t.sched.threads b).esp ∧
        (s'.threads b).ustack = (t.sched.threads b).ustack ∧
        (s'.threads b).kstack = (t.sched.threads b).kstack ∧
        (((t.sched.threads b).ustack ≠ 0 →
          (t.sched.threads b).esp = (t.sched.threads b).kstack + stackSize - registersSize) →
          ∃ rest'', StackOk
            ⟨s', (t.sched.threads t.sched.currentThread).serial :: t.left⟩ rest'')) := by
  obtain ⟨esp, s', hs', hcases⟩ := h.ring.tick (fun hfin _ => h.finished hfin) regs cycles
  have hkept := kept_scheduleTick hs'
  obtain ⟨hker, -, -, hcreated, -⟩ := statics_scheduleTick hs'
  refine ⟨s', by rw [ThreadCall.exec, hs']; rfl, ?_⟩
  rcases hcases with ⟨rfl, hr, -, rfl⟩ | ⟨b, rest', rfl, hcur, hrun, -, hesp0, hcases⟩
  · exact Or.inl ⟨rfl, ⟨hr, h.finished, h.left_lt, h.kstack, h.new, h.old, h.current⟩, rfl⟩
  have hnd := List.nodup_cons.mp h.ring.nodup
  have hbc : b ≠ t.sched.currentThread := by
    rintro rfl
    exact hnd.1 List.mem_cons_self
  refine Or.inr ⟨b, rest', rfl, hcur, hbc, hesp0, (hkept b).2.2, (hkept b).2.1, fun hb => ?_⟩
  -- threads of the ring have different numbers
  have hserial : ∀ x ∈ rest', (t.sched.threads x).serial ≠
      (t.sched.threads t.sched.currentThread).serial := by
    intro x hx he
    have hser := (List.nodup_append.mp (h.ring.serials.nodup_iff.mpr List.nodup_range)).2.1
    rw [List.map_cons, List.nodup_cons] at hser
    exact hser.1 (List.mem_map.mpr ⟨x, List.mem_cons_of_mem _ hx, he⟩)
  have hlt : (t.sched.threads t.sched.currentThread).serial < t.sched.created := by
    refine List.mem_range.mp (h.ring.serials.subset (List.mem_append_right _ ?_))
    exact List.mem_map.mpr ⟨_, List.mem_cons_self, rfl⟩
  have hesp : ∀ x ∈ rest', (s'.threads x).esp = (t.sched.threads x).esp := fun x hx => by
    refine (Thread.core_fields (core_scheduleTick hs' ?_)).2.2.2
    rintro rfl
    exact hnd.1 (List.mem_cons_of_mem _ hx)
  have hfinished : (s'.threads s'.currentThread).state = .finished →
      s'.currentThread ≠ s'.kernelThread := by
    rw [hcur, hrun]
    exact fun hf => TaskState.noConfusion hf
  have hleft : ∀ n ∈ (t.sched.threads t.sched.currentThread).serial :: t.left, n < s'.created := by
    intro n hn
    rw [hcreated]
    rcases List.mem_cons.mp hn with rfl | hn
    · exact hlt
    · exact h.left_lt n hn
  have hkstack : ∀ x ∈ t.sched.currentThread :: b :: rest', (s'.threads x).ustack ≠ 0 →
      (s'.threads x).kstack ≠ 0 := fun x hx => by
    rw [(hkept x).2.1, (hkept x).2.2]
    exact h.kstack x hx
  have hnew : ∀ x ∈ rest', (s'.threads x).ustack ≠ 0 →
      (s'.threads x).serial ∉ (t.sched.threads t.sched.currentThread).serial :: t.left →
      (s'.threads x).esp = (s'.threads x).kstack + stackSize - registersSize := fun x hx hu hin => by
    rw [(hkept x).2.2] at hu
    rw [(hkept x).1] at hin
    rw [hesp x hx, (hkept x).2.1]
    exact h.new x (List.mem_cons_of_mem _ hx) hu fun hm => hin (List.mem_cons_of_mem _ hm)
  have hold : ∀ x ∈ rest', (s'.threads x).ustack ≠ 0 →
      (s'.threads x).serial ∈ (t.sched.threads t.sched.currentThread).serial :: t.left →
      (s'.threads x).esp < (s'.threads x).kstack + stackSize - registersSize := fun x hx hu hin => by
    rw [(hkept x).2.2] at hu
    rw [(hkept x).1, List.mem_cons] at hin
    rw [hesp x hx, (hkept x).2.1]
    exact h.old x (List.mem_cons_of_mem _ hx) hu (hin.resolve_left (hserial x hx))
  have hcurrent : (s'.threads s'.currentThread).ustack ≠ 0 →
      s'.esp0 = (s'.threads s'.currentThread).kstack + stackSize - registersSize := by
    rw [hcur, (hkept b).2.1, (hkept b).2.2, hesp0]
    exact hb
  rcases hcases with ⟨-, hr, -, -, hregs⟩ | ⟨-, hr, -⟩
  · refine ⟨_, hr, hfinished, hleft, ?_, fun x hx => ?_, fun x hx => ?_, hcurrent⟩
    · intro x hx
      exact hkstack x (mem_of_mem_rotate (by simpa only [hcur] using hx))
    · rcases List.mem_append.mp hx with hx | hx
      · exact hnew x hx
      · rw [List.mem_singleton.mp hx]
        intro _ hin
        exact absurd (by rw [(hkept _).1]; exact List.mem_cons_self) hin
    · rcases List.mem_append.mp hx with hx | hx
      · exact hold x hx
      · -- the frame of the thread that is left lies below `esp0`
        rw [List.mem_singleton.mp hx]
        intro hu _
        simp only [hregs, (hkept _).2.1, (hkept _).2.2] at hu ⊢
        rw [← h.current hu]
        exact hp hu
  · refine ⟨_, hr, hfinished, hleft, ?_, hnew, hold, hcurrent⟩
    intro x hx
    exact hkstack x (List.mem_cons_of_mem _ (by simpa only [hcur] using hx))

/-- A call that resumes no user thread keeps the invariant. -/
theorem StackOk.exec (h : StackOk t rest) (hp : c.Pushed t) (ho : c.Once t)
    (ht' : t.exec c = some t') : ∃ rest', StackOk t' rest' := by
  obtain ⟨s', hs', rfl⟩ := Option.map_eq_some_iff.mp ht'
  cases c with
  | create a p k u =>
    obtain ⟨r, hr, rfl⟩ := Option.map_eq_some_iff.mp hs'
    rw [if_pos (h.ring.create_frame hp hr).1]
    exact h.create hp hr
  | exit =>
    cases hs'
    have hcur : (threadExit t.sched).currentThread = t.sched.currentThread := rfl
    rw [if_pos hcur]
    have hfields : ∀ x, ((threadExit t.sched).threads x).serial = (t.sched.threads x).serial ∧
        ((threadExit t.sched).threads x).kstack = (t.sched.threads x).kstack ∧
        ((threadExit t.sched).threads x).ustack = (t.sched.threads x).ustack ∧
        ((threadExit t.sched).threads x).esp = (t.sched.threads x).esp := by
      intro x
      by_cases hx : x = t.sched.currentThread <;> simp [threadExit, Sched.setThread, hx]
    refine ⟨rest, h.ring.exit, fun _ => hp, h.left_lt, ?_, ?_, ?_, ?_⟩ <;> simp only [hfields]
    · exact h.kstack
    · exact h.new
    · exact h.old
    · exact h.current
  | tick regs cycles =>
    obtain ⟨s₁, hs₁, hcases⟩ := h.tick hp
    obtain rfl : s₁ = s' := Option.some_injective _ (hs₁.symm.trans hs')
    -- a tick with no other thread goes on with the same one; a switch is admissible only to a
    -- thread that has not run yet
    rcases hcases with ⟨-, hok, hcur⟩ | ⟨b, rest', rfl, hcur, hbc, -, -, -, himp⟩
    · rw [if_pos hcur]
      exact ⟨[], hok⟩
    · rw [if_neg (by rw [hcur]; exact hbc)]
      have hnext := h.ring.next_eq
      refine himp fun hu => h.new b List.mem_cons_self hu ?_
      have hone := ho (by rw [hnext]; exact hbc)
      rw [hnext] at hone
      exact hone hu

/-- When a tick resumes a user thread, its next frame is out of place. -/
theorem StackOk.once_of_ok (h : StackOk t rest) (hp : c.Pushed t)
    (hok : ∀ t', t.exec c = some t' → UserFrameOk t'.sched) : c.Once t := by
  cases c with
  | create => trivial
  | exit => trivial
  | tick regs cycles =>
    rintro hne hu hin
    generalize hnext : (t.sched.threads t.sched.currentThread).next = next at hne hu hin
    obtain ⟨s', hs', hcases⟩ := h.tick hp
    have hframe := hok _ (by rw [Traced.exec, hs']; rfl)
    rcases hcases with ⟨rfl, -⟩ | ⟨b, rest', rfl, hcur, hbc, hesp0, hus, hks, -⟩
    · -- alone, the thread follows itself
      exact hne (hnext.symm.trans (h.ring.next_eq_self_iff.mpr rfl))
    · -- the next thread starts where its stack was left
      obtain rfl : next = b := hnext.symm.trans h.ring.next_eq
      have hold := h.old next List.mem_cons_self hu hin
      have hmem : next ∈ t.sched.currentThread :: next :: rest' := by simp
      have htop := h.ring.kstack_le hmem (h.kstack next hmem hu)
      simp only at hframe
      rw [← hcur] at hus hks
      rw [userFrameOk_iff (by rw [hus, hcur]; exact hu) (by rw [hks, hcur]; exact htop)
        (by rw [hesp0]; omega), hesp0, hks, hcur] at hframe
      omega

end

/-- **The frames of user threads.** In a run of `create_thread`, `thread_exit` and ticks, the
    frames of user threads that are interrupted in user mode always lie at the same place
    inside their kernel stacks, if and only if no tick switches to a user thread that an
    earlier tick has left. -/
theorem user_frame_fixed_iff {s₀ : Sched} {k : Nat} {calls : List ThreadCall} (hboot : s₀.Boot)
    (hk : k ≠ 0) (hf : Fresh s₀.heap k threadSize)
    (hp : Each Traced.exec (fun t c => c.Pushed t) ⟨schedulingInit s₀ k, []⟩ calls) :
    (∀ pre post, calls = pre ++ post →
      ∀ t, execAll Traced.exec ⟨schedulingInit s₀ k, []⟩ pre = some t → UserFrameOk t.sched) ↔
    Each Traced.exec (fun t c => c.Once t) ⟨schedulingInit s₀ k, []⟩ calls := by
  have hring := hboot.ringOk hk hf
  have hcur : (schedulingInit s₀ k).currentThread = k ∧
      ((schedulingInit s₀ k).threads k).ustack = 0 ∧
      ((schedulingInit s₀ k).threads k).state = .ready := by
    simp [schedulingInit, createKernelThread, scheduleThread, kmallocAt, Sched.setThread, hk,
      hboot.currentThread, hboot.kernelThread, zeroThread]
  -- the kernel thread has no user stack, so no frame of a user thread exists yet
  have hnone : ∀ a ∈ (schedulingInit s₀ k).currentThread :: ([] : List Nat),
      ((schedulingInit s₀ k).threads a).ustack = 0 := by
    intro a ha
    rw [List.mem_singleton.mp ha, hcur.1]
    exact hcur.2.1
  have hinit : StackOk ⟨schedulingInit s₀ k, []⟩ [] := by
    refine ⟨hring, ?_, ?_, ?_, ?_, ?_, ?_⟩
    · simp only [hcur.1, hcur.2.2]
      exact fun hf => TaskState.noConfusion hf
    · exact fun n hn => absurd hn List.not_mem_nil
    · exact fun a ha hu => absurd (hnone a ha) hu
    · exact fun a ha => absurd ha List.not_mem_nil
    · exact fun a ha => absurd ha List.not_mem_nil
    · exact fun hu => absurd (hnone _ List.mem_cons_self) hu
  have hstep : ∀ (t : Traced) (c : ThreadCall) (t' : Traced), (∃ rest, StackOk t rest) →
      c.Pushed t → c.Once t → t.exec c = some t' → ∃ rest, StackOk t' rest := by
    intro t c t' hs hc ho ht'
    obtain ⟨_, h⟩ := hs
    exact h.exec hc ho ht'
  -- the three facts that an equivalence about all states of a run needs: the invariant implies the
  -- property, each admissible call keeps it, and a call that is not breaks the property
  have hframe : ∀ t : Traced, (∃ rest, StackOk t rest) → UserFrameOk t.sched := by
    intro t hs
    obtain ⟨_, h⟩ := hs
    exact h.userFrameOk
  have honce : ∀ (t : Traced) (c : ThreadCall), (∃ rest, StackOk t rest) → c.Pushed t → True →
      (∀ t', t.exec c = some t' → UserFrameOk t'.sched) → c.Once t := by
    intro t c hs hc _ hok
    obtain ⟨_, h⟩ := hs
    exact h.once_of_ok hc hok
  have hiff := forall_split_iff (P := fun t => UserFrameOk t.sched) (Q := fun _ _ => True)
    hframe hstep (fun _ _ _ _ _ => trivial) honce ⟨[], hinit⟩ hp
  rw [← hiff]
  simp only [implies_true, and_true]

/-! ## The drift -/

/-- A user thread whose frame lies at `esp` is resumed and interrupted `n` times, in turn
    with another thread whose frame lies at `regs`. -/
def preemptions (regs : Nat) : (esp n : Nat) → List ThreadCall
  | _, 0 => []
  | esp, n + 1 =>
    .tick regs (1, 1, 1) :: .tick (sub32 esp registersSize) (1, 1, 1) ::
      preemptions regs (sub32 esp registersSize) n

section

variable {s : Sched} {b : Nat}

/-- The thread `b` is resumed and interrupted in user mode. -/
theorem RingOk.preemption (h : RingOk s [b]) (hrun : (s.threads s.currentThread).state ≠ .finished)
    (regs : Nat) (cycles : Nat × Nat × Nat) :
    ∃ s₁ s₂, (ThreadCall.tick regs cycles).exec s = some s₁ ∧
      (ThreadCall.tick (sub32 s₁.esp0 registersSize) cycles).exec s₁ = some s₂ ∧
      s₁.currentThread = b ∧ s₁.esp0 = (s.threads b).esp ∧ RingOk s₂ [b] ∧
      s₂.currentThread = s.currentThread ∧ (s₂.threads s.currentThread).state ≠ .finished ∧
      (s₂.threads b).esp = sub32 (s.threads b).esp registersSize ∧
      (s₂.threads b).kstack = (s.threads b).kstack ∧
      (s₂.threads b).ustack = (s.threads b).ustack := by
  -- the first tick resumes b, the second one comes in while it is in user mode
  obtain ⟨_, s₁, hs₁, hcases⟩ := h.tick (fun hf _ => absurd hf hrun) regs cycles
  rcases hcases with ⟨hnil, -⟩ | ⟨_, _, hb, hcur₁, hrun₁, -, hesp0, ⟨-, hr₁, -⟩ | ⟨hf, -⟩⟩
  · exact absurd hnil (by simp)
  · obtain ⟨rfl, rfl⟩ := List.cons.inj hb
    have hb₁ : (s₁.threads s₁.currentThread).state ≠ .finished := by
      rw [hcur₁, hrun₁]
      decide
    obtain ⟨_, s₂, hs₂, hcases⟩ := RingOk.tick hr₁ (fun hf _ => absurd hf hb₁)
      (sub32 s₁.esp0 registersSize) cycles
    rcases hcases with ⟨hnil, -⟩ | ⟨_, _, hb, hcur₂, hrun₂, -, -, ⟨-, hr₂, -, -, hesp₂⟩ | ⟨hf, -⟩⟩
    · exact absurd hnil (by simp)
    · obtain ⟨rfl, rfl⟩ := List.cons.inj hb
      rw [hcur₁] at hr₂ hesp₂
      refine ⟨s₁, s₂, by rw [ThreadCall.exec, hs₁]; rfl, by rw [ThreadCall.exec, hs₂]; rfl, hcur₁,
        hesp0, hr₂, hcur₂, by rw [hrun₂]; decide, by rw [hesp₂, hesp0], ?_, ?_⟩
      · rw [(kept_scheduleTick hs₂ _).2.1, (kept_scheduleTick hs₁ _).2.1]
      · rw [(kept_scheduleTick hs₂ _).2.2, (kept_scheduleTick hs₁ _).2.2]
    · exact absurd hf hb₁
  · exact absurd hf hrun

/-- **The drift**: after `n` preemptions of a user thread, `esp0` is 72 `n` bytes deeper the
    next time it runs. -/
theorem drift (h : RingOk s [b]) (hrun : (s.threads s.currentThread).state ≠ .finished)
    (regs : Nat) {n : Nat} (hn : registersSize * n ≤ (s.threads b).esp)
    (hesp : (s.threads b).esp < 2 ^ 32) :
    ∃ s', execAll ThreadCall.exec s
        (preemptions regs (s.threads b).esp n ++ [.tick regs (1, 1, 1)]) = some s' ∧
      s'.currentThread = b ∧ s'.esp0 = (s.threads b).esp - registersSize * n ∧
      (s'.threads b).kstack = (s.threads b).kstack ∧
      (s'.threads b).ustack = (s.threads b).ustack := by
  induction n generalizing s with
  | zero =>
    obtain ⟨s₁, _, hs₁, -, hcur, hesp0, -⟩ := h.preemption hrun regs (1, 1, 1)
    have hkept : ∀ x, (s₁.threads x).kstack = (s.threads x).kstack ∧
        (s₁.threads x).ustack = (s.threads x).ustack := by
      obtain ⟨_, hs, rfl⟩ := Option.map_eq_some_iff.mp hs₁
      exact fun x => (kept_scheduleTick hs x).2
    refine ⟨s₁, ?_, hcur, hesp0, (hkept b).1, (hkept b).2⟩
    rw [preemptions, List.nil_append, execAll, hs₁]
    rfl
  | succ n ih =>
    -- one round is two ticks: to the user thread and back, with its frame one frame deeper
    obtain ⟨s₁, s₂, hs₁, hs₂, -, hesp0, hr, hcur₂, hrun₂, hesp₂, hks, hus⟩ :=
      h.preemption hrun regs (1, 1, 1)
    have hsub : sub32 (s.threads b).esp registersSize = (s.threads b).esp - registersSize :=
      sub32_of_le (by rw [Nat.mul_succ] at hn; omega) hesp
    rw [hsub] at hesp₂
    obtain ⟨s', hs', hcur', hesp0', hks', hus'⟩ := ih hr (by rw [hcur₂]; exact hrun₂)
      (by rw [hesp₂]; rw [Nat.mul_succ] at hn; omega) (by rw [hesp₂]; omega)
    refine ⟨s', ?_, hcur', ?_, hks'.trans hks, hus'.trans hus⟩
    · rw [hesp0] at hs₂
      rw [preemptions, List.cons_append, List.cons_append, execAll, hs₁, Option.bind_some, execAll,
        hs₂, Option.bind_some, hsub, ← hesp₂]
      exact hs'
    · rw [hesp0', hesp₂, Nat.mul_succ]
      omega

end

/-- A user thread with its kernel stack at `0x4000` is created. -/
def userCall : ThreadCall := .create ⟨1, 0, 0, 1, true, false⟩ 0x2000 0x4000 0x8000

theorem userCall_fresh :
    FreshBlocks (schedulingInit bootSched 0x1000) true 0x2000 0x4000 0x8000 := by
  decide

/-- The state in which the user thread waits for its first turn. -/
theorem userCall_exec : ∃ s, userCall.exec (schedulingInit bootSched 0x1000) = some s ∧
    RingOk s [0x2000] ∧ (s.threads 0x2000).esp = 0x5fb8 ∧ (s.threads 0x2000).kstack = 0x4000 ∧
    (s.threads 0x2000).ustack = 0x8000 ∧ (s.threads s.currentThread).state ≠ .finished := by
  have hring : RingOk (schedulingInit bootSched 0x1000) [] :=
    bootSched_boot.ringOk (by decide) (by decide)
  obtain ⟨r, hr, hfields, hrun, hcreated⟩ : ∃ r, createThread (schedulingInit bootSched 0x1000)
      ⟨1, 0, 0, 1, true, false⟩ 0x2000 0x4000 0x8000 = some r ∧
      ((r.2.threads 0x2000).esp = 0x5fb8 ∧ (r.2.threads 0x2000).kstack = 0x4000 ∧
        (r.2.threads 0x2000).ustack = 0x8000) ∧
      (r.2.threads r.2.currentThread).state ≠ .finished ∧ r.2.created = 2 :=
    ⟨_, rfl, by decide, by decide, by decide⟩
  refine ⟨r.2, ?_, ?_, hfields.1, hfields.2.1, hfields.2.2, hrun⟩
  · rw [userCall, ThreadCall.exec, hr, Option.map_some]
  · rcases hring.create (a := ⟨1, 0, 0, 1, true, false⟩) userCall_fresh hr with
      ⟨-, -, hc, -⟩ | ⟨_, _, -, -, -, -, -, -, -, hr₁⟩
    · -- a refused creation would not count
      have hone : (schedulingInit bootSched 0x1000).created = 1 := rfl
      rw [hcreated, hone] at hc
      exact absurd hc (by decide)
    · exact hr₁

/-- A user thread that runs once and is left. -/
theorem user_frame_once : Fresh bootSched.heap 0x1000 threadSize ∧
    ∀ pre post, [userCall, .tick 0xc000 (1, 1, 1), .tick 0x5f70 (1, 1, 1)] = pre ++ post →
      ∀ t, execAll Traced.exec ⟨schedulingInit bootSched 0x1000, []⟩ pre = some t →
        UserFrameOk t.sched := by
  have hfresh : Fresh bootSched.heap 0x1000 threadSize := by decide
  refine ⟨hfresh, (user_frame_fixed_iff bootSched_boot (by decide) hfresh ?_).mpr ?_⟩
  · -- the calls are allowed
    refine ⟨userCall_fresh, fun s₁ h₁ => ?_⟩
    cases h₁
    refine ⟨fun hu => absurd hu (by decide), fun s₂ h₂ => ?_⟩
    cases h₂
    exact ⟨fun _ => by decide, fun _ _ => trivial⟩
  · -- the frame of the user thread is resumed once only
    refine ⟨trivial, fun s₁ h₁ => ?_⟩
    cases h₁
    refine ⟨fun _ _ => by decide, fun s₂ h₂ => ?_⟩
    cases h₂
    exact ⟨fun _ hu => absurd hu (by decide), fun _ _ => trivial⟩

/-- The first frame of a user thread in user mode lies at `0x5f70`, the second at `0x5f28`;
    after 113 preemptions it lies below the stack. -/
theorem user_frame_leaves_stack :
    (∃ s, execAll ThreadCall.exec (schedulingInit bootSched 0x1000)
        [userCall, .tick 0xc000 (1, 1, 1)] = some s ∧ s.currentThread = 0x2000 ∧
      ∀ c : Cpu, c.user = true → (saveFrame c s.esp0 s.mem).2 = 0x5f70) ∧
    (∃ s, execAll ThreadCall.exec (schedulingInit bootSched 0x1000)
        [userCall, .tick 0xc000 (1, 1, 1), .tick 0x5f70 (1, 1, 1), .tick 0xc000 (1, 1, 1)] =
          some s ∧ s.currentThread = 0x2000 ∧
      ∀ c : Cpu, c.user = true → (saveFrame c s.esp0 s.mem).2 = 0x5f28) ∧
    ∃ s, execAll ThreadCall.exec (schedulingInit bootSched 0x1000)
        (userCall :: (preemptions 0xc000 0x5fb8 113 ++ [.tick 0xc000 (1, 1, 1)])) = some s ∧
      (s.threads s.currentThread).ustack ≠ 0 ∧ (s.threads s.currentThread).kstack = 0x4000 ∧
      ∀ c : Cpu, c.user = true → (saveFrame c s.esp0 s.mem).2 < 0x4000 := by
  refine ⟨⟨_, rfl, by decide, fun c hc => ?_⟩, ⟨_, rfl, by decide, fun c hc => ?_⟩, ?_⟩
  · rw [saveFrame_user hc]
    decide
  · rw [saveFrame_user hc]
    decide
  -- 113 * 72 bytes are more than the 0x1fb8 between the first frame and the lower end
  · obtain ⟨s₁, hs₁, hr₁, hesp, hks, hus, hrun⟩ := userCall_exec
    obtain ⟨s, hs, hcur, hesp0, hks', hus'⟩ := drift hr₁ hrun 0xc000 (n := 113)
      (by rw [hesp]; decide) (by rw [hesp]; decide)
    rw [hesp] at hs hesp0
    refine ⟨s, ?_, by rw [hcur, hus', hus]; decide, by rw [hcur, hks', hks], fun c hc => ?_⟩
    · rw [execAll, hs₁, Option.bind_some, hs]
    · rw [saveFrame_user hc, hesp0]
      decide

end Toutatis
