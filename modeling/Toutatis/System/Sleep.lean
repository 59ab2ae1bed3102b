import Toutatis.Lib.Memory
import Toutatis.Lib.Run

/-!
# Sleeping

A state machine for `sleep` of `kernel/system.c` and the timer interrupt of `kernel/pit.c`, which
increments the 32-bit counter `ticks` at any time. `halt` returns at the next interrupt, which
need not be the one of the timer. `since` is not in the source: it counts the increments since
the call.

The deadline `current + ms` is a 32-bit sum. When it wraps around it is below the counter, and
`sleep` returns at once.

## Key results

- `Slept.step`: what is known of a call that has not wrapped
- `sleep_bound_iff`: the counters for which `sleep` keeps its lower bound
-/

namespace Toutatis

open ByteMem Run

/-- Where a call of `sleep` is: before `current` is read, at the test of the loop, in `halt`, or
    at its end. -/
inductive SleepPhase where
  | called
  | testing
  | halted
  | returned
deriving DecidableEq

/-- The counter of the timer, the local variable of `sleep`, and the increments since the call. -/
structure Sleeper where
  ticks : Nat
  current : Nat
  phase : SleepPhase
  since : Nat

/-- A timer interrupt, or a step of `sleep`. -/
inductive SleepEvent where
  | pitHandler
  | sleep
deriving DecidableEq

/-- `pit_handler` -/
def Sleeper.pitHandler (s : Sleeper) : Sleeper :=
  { s with ticks := add32 s.ticks 1, since := s.since + 1 }

/-- The next step of `sleep`, `none` when it has returned. -/
def Sleeper.sleep (ms : Nat) (s : Sleeper) : Option Sleeper :=
  match s.phase with
  | .called => some { s with current := s.ticks, phase := .testing }
  | .testing => some { s with phase := if add32 s.current ms > s.ticks then .halted else .returned }
  | .halted => some { s with phase := .testing }
  | .returned => none

/-- One event. -/
def Sleeper.exec (ms : Nat) (s : Sleeper) : SleepEvent → Option Sleeper
  | .pitHandler => some s.pitHandler
  | .sleep => s.sleep ms

/-- A call of `sleep` at the counter `ticks`. -/
def sleepCall (ticks : Nat) : Sleeper := ⟨ticks, 0, .called, 0⟩

/-! ## A call that does not wrap -/

/-- The counter has been incremented `since` times. When `current` was read `k` of them had
    happened, and if these were not yet enough the deadline does not wrap. -/
structure Slept (ticks ms : Nat) (s : Sleeper) : Prop where
  ticks_eq : s.ticks = (ticks + s.since) % 2 ^ 32
  current_eq : s.phase ≠ .called →
    ∃ k ≤ s.since, s.current = (ticks + k) % 2 ^ 32 ∧ (k < ms → ticks + k + ms < 2 ^ 32)
  bound : s.phase = .returned → ms ≤ s.since

section

variable {ticks ms : Nat} {s s' : Sleeper}

theorem Slept.call (ms : Nat) (hticks : ticks < 2 ^ 32) : Slept ticks ms (sleepCall ticks) where
  ticks_eq := (Nat.mod_eq_of_lt hticks).symm
  current_eq := fun h => absurd rfl h
  bound := fun h => absurd h (by simp [sleepCall])

/-- An increment. -/
theorem Slept.pitHandler (h : Slept ticks ms s) : Slept ticks ms s.pitHandler where
  ticks_eq := by
    show add32 s.ticks 1 = (ticks + (s.since + 1)) % 2 ^ 32
    rw [h.ticks_eq]
    unfold add32
    omega
  current_eq := by
    intro hphase
    obtain ⟨k, hk, hcurrent, hwrap⟩ := h.current_eq hphase
    exact ⟨k, Nat.le_succ_of_le hk, hcurrent, hwrap⟩
  bound := fun hphase => Nat.le_succ_of_le (h.bound hphase)

/-- A step of `sleep`. The deadline must not wrap when `current` is read. -/
theorem Slept.sleep (h : Slept ticks ms s)
    (hread : s.phase = .called → s.since < ms → ticks + s.since + ms < 2 ^ 32)
    (hs' : s.sleep ms = some s') : Slept ticks ms s' := by
  unfold Sleeper.sleep at hs'
  cases hphase : s.phase with
  | called =>
    rw [hphase] at hs'
    obtain rfl := (Option.some.inj hs').symm
    exact ⟨h.ticks_eq, fun _ => ⟨s.since, Nat.le_refl _, h.ticks_eq, hread hphase⟩,
      fun hret => absurd hret (by simp)⟩
  | testing =>
    rw [hphase] at hs'
    obtain rfl := (Option.some.inj hs').symm
    -- only a test that fails ends the call
    have hcurrent := h.current_eq (by rw [hphase]; decide)
    refine ⟨h.ticks_eq, fun _ => hcurrent, fun hret => ?_⟩
    by_cases hwait : add32 s.current ms > s.ticks
    · simp only [if_pos hwait] at hret
      exact absurd hret (by decide)
    · -- with fewer than `ms` increments neither the counter nor the deadline has wrapped
      obtain ⟨k, hk, hread', hwrap⟩ := hcurrent
      have hticks := h.ticks_eq
      show ms ≤ s.since
      by_contra hfew
      have hdeadline := hwrap (by omega)
      unfold add32 at hwait
      by_cases hpast : ticks + s.since < 2 ^ 32
      · -- the counter is below the deadline, and the test has not failed
        rw [Nat.mod_eq_of_lt hpast] at hticks
        rw [Nat.mod_eq_of_lt (by omega)] at hread'
        rw [hread', hticks, Nat.mod_eq_of_lt hdeadline] at hwait
        omega
      · omega
  | halted =>
    rw [hphase] at hs'
    obtain rfl := (Option.some.inj hs').symm
    exact ⟨h.ticks_eq, fun _ => h.current_eq (by rw [hphase]; decide),
      fun hret => absurd hret (by simp)⟩
  | returned =>
    rw [hphase] at hs'
    exact absurd hs' (by simp)

/-- **One event.** -/
theorem Slept.step (h : Slept ticks ms s) {e : SleepEvent}
    (hread : s.phase = .called → s.since < ms → ticks + s.since + ms < 2 ^ 32)
    (hs' : s.exec ms e = some s') : Slept ticks ms s' := by
  cases e with
  | pitHandler =>
    rw [← Option.some.inj hs']
    exact h.pitHandler
  | sleep => exact h.sleep hread hs'

/-- `current` is read once. -/
theorem Sleeper.exec_phase {e : SleepEvent} (h : s.phase ≠ .called) (hs' : s.exec ms e = some s') :
    s'.phase ≠ .called := by
  cases e with
  | pitHandler =>
    rw [← Option.some.inj hs']
    exact h
  | sleep =>
    -- no step leads back to the call
    unfold Sleeper.exec Sleeper.sleep at hs'
    cases hphase : s.phase with
    | called => exact absurd hphase h
    | testing =>
      rw [hphase] at hs'
      rw [← Option.some.inj hs']
      show (if add32 s.current ms > s.ticks then SleepPhase.halted else .returned) ≠ .called
      split <;> decide
    | halted =>
      rw [hphase] at hs'
      rw [← Option.some.inj hs']
      show SleepPhase.testing ≠ .called
      decide
    | returned =>
      rw [hphase] at hs'
      exact absurd hs' (by simp)

/-! ## Runs -/

/-- In every run `sleep` returns after `ms` increments or more. -/
def SleepsLong (ms : Nat) (s₀ : Sleeper) : Prop :=
  ∀ events s, execAll (Sleeper.exec ms) s₀ events = some s → s.phase = .returned → ms ≤ s.since

/-- From the call on, when fewer than `ms` interrupts before `current` is read do not bring the
    deadline to the wrap. -/
theorem sleepsLong_call (hticks : ticks < 2 ^ 32) (hms : ms = 0 ∨ ticks + 2 * ms ≤ 2 ^ 32) :
    SleepsLong ms (sleepCall ticks) := by
  intro events s hs hreturned
  have hall : Each (Sleeper.exec ms) (fun _ _ => True) (sleepCall ticks) events :=
    each_of_forall fun _ _ _ => trivial
  -- `current` is read with fewer than `ms` increments, or with enough of them
  have hinv : Slept ticks ms s := by
    apply inv_of_execAll (I := fun t : Sleeper => Slept ticks ms t) _ (Slept.call ms hticks) hall hs
    intro t e t' ht _ ht'
    exact ht.step (fun _ hfew => by omega) ht'
  exact hinv.bound hreturned

/-- From the read on, when the deadline does not wrap. -/
theorem sleepsLong_read (hticks : ticks < 2 ^ 32) (hms : ticks + ms < 2 ^ 32) {s₁ : Sleeper}
    (hs₁ : (sleepCall ticks).sleep ms = some s₁) : SleepsLong ms s₁ := by
  intro events s hs hreturned
  have hfirst : Slept ticks ms s₁ ∧ s₁.phase ≠ .called := by
    refine ⟨(Slept.call ms hticks).sleep (fun _ _ => hms) hs₁, ?_⟩
    rw [← Option.some.inj hs₁]
    show SleepPhase.testing ≠ .called
    decide
  have hall : Each (Sleeper.exec ms) (fun _ _ => True) s₁ events :=
    each_of_forall fun _ _ _ => trivial
  have hinv : Slept ticks ms s ∧ s.phase ≠ .called := by
    apply inv_of_execAll (I := fun t : Sleeper => Slept ticks ms t ∧ t.phase ≠ .called) _ hfirst
      hall hs
    intro t e t' ht _ ht'
    exact ⟨ht.1.step (fun hcalled => absurd hcalled ht.2) ht', Sleeper.exec_phase ht.2 ht'⟩
  exact hinv.1.bound hreturned

theorem execAll_pitHandler (k : Nat) (h : ticks + k < 2 ^ 32) :
    execAll (Sleeper.exec ms) (sleepCall ticks) (List.replicate k .pitHandler) =
      some ⟨ticks + k, 0, .called, k⟩ := by
  induction k with
  | zero => rfl
  | succ k ih =>
    rw [List.replicate_succ', execAll_append, ih (by omega), Option.bind_some]
    show some (Sleeper.pitHandler ⟨ticks + k, 0, .called, k⟩) = _
    unfold Sleeper.pitHandler
    simp only
    rw [add32_of_lt (by omega)]
    rfl

/-- A deadline that wraps is past at once. -/
theorem sleep_returns (hticks : ticks < 2 ^ 32) (hms : ms < 2 ^ 31) (hwrap : 2 ^ 32 ≤ ticks + ms)
    (k : Nat) :
    execAll (Sleeper.exec ms) ⟨ticks, 0, .called, k⟩ [.sleep, .sleep] =
      some ⟨ticks, ticks, .returned, k⟩ := by
  have hpast : ¬ add32 ticks ms > ticks := by
    unfold add32
    omega
  show some (Sleeper.mk ticks ticks (if add32 ticks ms > ticks then .halted else .returned) k) = _
  rw [if_neg hpast]

/-- **The lower bound of `sleep`.** Counted from the read of the counter it holds exactly when the
    deadline does not wrap. Counted from the call, interrupts before the read can bring the counter
    nearer to the wrap, and it holds exactly when `2 * ms` more ticks do not pass the wrap. -/
theorem sleep_bound_iff (hticks : ticks < 2 ^ 32) (hms : ms < 2 ^ 31) :
    (SleepsLong ms (sleepCall ticks) ↔ ms = 0 ∨ ticks + 2 * ms ≤ 2 ^ 32) ∧
      ((∀ s₁, (sleepCall ticks).sleep ms = some s₁ → SleepsLong ms s₁) ↔ ticks + ms < 2 ^ 32) := by
  refine ⟨⟨fun hlong => ?_, sleepsLong_call hticks⟩,
    ⟨fun hlong => ?_, fun h s₁ hs₁ => sleepsLong_read hticks h hs₁⟩⟩
  · by_contra hnot
    -- as many interrupts before the read as fit, and then the two steps of `sleep`
    have hk : ∃ k, k < ms ∧ ticks + k < 2 ^ 32 ∧ 2 ^ 32 ≤ ticks + k + ms := by
      by_cases hnear : ticks + ms ≤ 2 ^ 32
      · exact ⟨ms - 1, by omega, by omega, by omega⟩
      · exact ⟨2 ^ 32 - 1 - ticks, by omega, by omega, by omega⟩
    obtain ⟨k, hfew, hbefore, hwrap⟩ := hk
    have hrun : execAll (Sleeper.exec ms) (sleepCall ticks)
        (List.replicate k .pitHandler ++ [.sleep, .sleep]) =
          some ⟨ticks + k, ticks + k, .returned, k⟩ := by
      rw [execAll_append, execAll_pitHandler k hbefore, Option.bind_some]
      exact sleep_returns hbefore hms hwrap k
    have hbound : ms ≤ k := hlong _ _ hrun rfl
    omega
  · -- the test that follows the read is already past the deadline
    by_contra hwrap
    have hread : (sleepCall ticks).sleep ms = some ⟨ticks, ticks, .testing, 0⟩ := rfl
    have hrun : execAll (Sleeper.exec ms) ⟨ticks, ticks, .testing, 0⟩ [.sleep] =
        some ⟨ticks, ticks, .returned, 0⟩ := sleep_returns hticks hms (by omega) 0
    have hbound : ms ≤ 0 := hlong _ hread _ _ hrun rfl
    omega

end

/-- A call at counter 5 for 2 ms: it has waited for the second interrupt when it returns. -/
theorem sleep_bound_iff_five :
    SleepsLong 2 (sleepCall 5) ∧
      (execAll (Sleeper.exec 2) (sleepCall 5)
        [.sleep, .sleep, .pitHandler, .sleep, .sleep, .pitHandler, .sleep, .sleep]).map
          (fun s => (s.phase, s.since)) = some (.returned, 2) :=
  ⟨(sleep_bound_iff (by omega) (by omega)).1.mpr (Or.inr (by omega)), by decide⟩

/-- 50 days after the boot, one tick before the counter wraps, `sleep(10)` returns at once. -/
theorem sleep_wraps : ¬ SleepsLong 10 (sleepCall (2 ^ 32 - 1)) := by
  intro h
  have hrun := @sleep_returns (2 ^ 32 - 1) 10 (by omega) (by omega) (by omega) 0
  have hbound : 10 ≤ 0 := h _ _ hrun rfl
  omega

end Toutatis
