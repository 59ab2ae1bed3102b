import Mathlib.Data.List.Basic

/-!
# Runs of a state machine

A machine is a step function `σ → α → Option σ`, `none` when the call does not
return. A run executes a list of calls; a condition on a run is a condition on each
call in the state it is made in.

## Key results

- `exists_execAll`: an invariant that every admissible call keeps holds after every
  admissible run, and the run returns
- `inv_of_execAll`: the same for the runs that return, when some do not
- `forall_split_iff`: when a property of the states that a run passes through is a
  condition on its calls
-/

namespace Run

variable {σ α : Type*} (step : σ → α → Option σ)

/-- The state after a list of calls. -/
def execAll : σ → List α → Option σ
  | s, [] => some s
  | s, c :: cs => (step s c).bind fun s' => execAll s' cs

/-- Every call meets `ok` in the state it is made in. -/
def Each (ok : σ → α → Prop) : σ → List α → Prop
  | _, [] => True
  | s, c :: cs => ok s c ∧ ∀ s', step s c = some s' → Each ok s' cs

variable {step} {ok ok' : σ → α → Prop} {I : σ → Prop} {s : σ} {cs ds : List α}

/-- A run of two parts. -/
theorem execAll_append : execAll step s (cs ++ ds) =
    (execAll step s cs).bind fun s' => execAll step s' ds := by
  induction cs generalizing s with
  | nil => rfl
  | cons c cs ih =>
    rw [List.cons_append, execAll, execAll, Option.bind_assoc]
    exact congrArg _ (funext fun s' => ih)

/-- The condition on a run of two parts. -/
theorem each_append : Each step ok s (cs ++ ds) ↔
    Each step ok s cs ∧ ∀ s', execAll step s cs = some s' → Each step ok s' ds := by
  induction cs generalizing s with
  | nil => simp [Each, execAll]
  | cons c cs ih =>
    rw [List.cons_append, Each, Each, and_assoc]
    refine and_congr_right fun _ => ?_
    cases hs : step s c with
    | none => simp [execAll, hs]
    | some s₁ => simp [execAll, hs, ih]

/-- A run whose first call goes through. -/
theorem execAll_cons_some {c : α} {s₁ : σ} (h : step s c = some s₁) :
    execAll step s (c :: cs) = execAll step s₁ cs := by
  rw [execAll, h, Option.bind_some]

/-- The condition on a run whose first call goes through. -/
theorem each_cons_some {c : α} {s₁ : σ} (h : step s c = some s₁) :
    Each step ok s (c :: cs) ↔ ok s c ∧ Each step ok s₁ cs := by
  rw [Each, h]
  simp

/-- A weaker condition holds in the same runs. -/
theorem Each.imp (himp : ∀ s c, ok s c → ok' s c) (h : Each step ok s cs) :
    Each step ok' s cs := by
  induction cs generalizing s with
  | nil => trivial
  | cons c cs ih => exact ⟨himp s c h.1, fun s' hs' => ih (h.2 s' hs')⟩

/-- Two conditions that hold hold together. -/
theorem each_and (h : Each step ok s cs) (h' : Each step ok' s cs) :
    Each step (fun s c => ok s c ∧ ok' s c) s cs := by
  induction cs generalizing s with
  | nil => trivial
  | cons c cs ih => exact ⟨⟨h.1, h'.1⟩, fun s' hs' => ih (h.2 s' hs') (h'.2 s' hs')⟩

/-- A condition that does not depend on the state. -/
theorem each_of_forall (h : ∀ c ∈ cs, ∀ s, ok s c) : Each step ok s cs := by
  induction cs generalizing s with
  | nil => trivial
  | cons c cs ih => exact ⟨h c (by simp) s, fun s' _ => ih fun d hd => h d (by simp [hd])⟩

/-- Calls that are runs of smaller steps. -/
theorem execAll_flatMap {β : Type*} {step' : σ → β → Option σ} {steps : α → List β}
    (h : ∀ c ∈ cs, ∀ s, step s c = execAll step' s (steps c)) :
    execAll step s cs = execAll step' s (cs.flatMap steps) := by
  induction cs generalizing s with
  | nil => rfl
  | cons c cs ih =>
    rw [List.flatMap_cons, execAll_append, execAll, h c (by simp)]
    exact congrArg _ (funext fun s' => ih fun d hd => h d (by simp [hd]))

/-- **The invariant rule.** -/
theorem exists_execAll (hstep : ∀ s c, I s → ok s c → ∃ s', step s c = some s' ∧ I s')
    (h0 : I s) (hok : Each step ok s cs) : ∃ s', execAll step s cs = some s' ∧ I s' := by
  induction cs generalizing s with
  | nil => exact ⟨s, rfl, h0⟩
  | cons c cs ih =>
    obtain ⟨s₁, hs₁, hi⟩ := hstep s c h0 hok.1
    obtain ⟨s', hs', hi'⟩ := ih hi (hok.2 s₁ hs₁)
    exact ⟨s', by rw [execAll, hs₁]; exact hs', hi'⟩

/-- The invariant rule for runs that may stop. -/
theorem inv_of_execAll (hstep : ∀ s c s', I s → ok s c → step s c = some s' → I s') {s' : σ}
    (h0 : I s) (hok : Each step ok s cs) (hs' : execAll step s cs = some s') : I s' := by
  induction cs generalizing s with
  | nil =>
    cases hs'
    exact h0
  | cons c cs ih =>
    rw [execAll, Option.bind_eq_some_iff] at hs'
    obtain ⟨s₁, hs₁, hrest⟩ := hs'
    exact ih (hstep s c s₁ h0 hok.1 hs₁) (hok.2 s₁ hs₁) hrest

/-- A run keeps `P` in every state, and `Q` at every call, if and only if every call meets
    `cond`: from states with the invariant, calls that meet `cond` keep it, and the others
    break `Q` at once or `P` in the next state. -/
theorem forall_split_iff {P : σ → Prop} {Q cond : σ → α → Prop} (hP : ∀ s, I s → P s)
    (hstep : ∀ s c s', I s → ok s c → cond s c → step s c = some s' → I s')
    (hQ : ∀ s c, I s → ok s c → cond s c → Q s c)
    (hcond : ∀ s c, I s → ok s c → Q s c → (∀ s', step s c = some s' → P s') → cond s c)
    (h0 : I s) (hok : Each step ok s cs) :
    (∀ pre post, cs = pre ++ post → ∀ s', execAll step s pre = some s' →
      P s' ∧ ∀ c next, post = c :: next → Q s' c) ↔ Each step cond s cs := by
  induction cs generalizing s with
  | nil =>
    refine iff_of_true (fun pre post hsplit s' hs' => ?_) trivial
    obtain ⟨rfl, rfl⟩ := List.append_eq_nil_iff.mp hsplit.symm
    cases hs'
    exact ⟨hP s h0, by simp⟩
  | cons c cs ih =>
    constructor
    · intro hall
      -- the first call, from the empty prefix and the one of it alone
      have hc : cond s c := by
        refine hcond s c h0 hok.1 ((hall [] _ rfl s rfl).2 c cs rfl) fun s' hs' => ?_
        refine (hall [c] cs rfl s' ?_).1
        rw [execAll, hs']
        rfl
      refine ⟨hc, fun s' hs' => ?_⟩
      refine (ih (hstep s c s' h0 hok.1 hc hs') (hok.2 s' hs')).mp fun pre post hsplit t ht => ?_
      refine hall (c :: pre) post (by rw [hsplit]; rfl) t ?_
      rw [execAll, hs', Option.bind_some, ht]
    · rintro ⟨hc, hrest⟩ pre post hsplit t ht
      cases pre with
      | nil =>
        cases ht
        rw [List.nil_append] at hsplit
        refine ⟨hP s h0, fun d next hpost => ?_⟩
        rw [hpost, List.cons.injEq] at hsplit
        rw [← hsplit.1]
        exact hQ s c h0 hok.1 hc
      | cons d pre =>
        rw [List.cons_append, List.cons.injEq] at hsplit
        obtain ⟨rfl, rfl⟩ := hsplit
        rw [execAll, Option.bind_eq_some_iff] at ht
        obtain ⟨s', hs', ht⟩ := ht
        exact (ih (hstep s c s' h0 hok.1 hc hs') (hok.2 s' hs')).mpr (hrest s' hs') pre post rfl t
          ht

end Run
