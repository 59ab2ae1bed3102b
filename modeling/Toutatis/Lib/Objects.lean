import Mathlib.Logic.Function.Basic
import Toutatis.Lib.Simulation

/-!
# Stores of objects

What an allocator is for: objects are handed out and given back, and each holds what was last
written to it. The store is abstract. Where a new object lies and what it holds in the
beginning is open, as long as it lies apart from all others.

## Key results

- `Separate.step`: objects stay apart
- `get_of_steps`: a cell keeps its contents until it is written or its object is given back
-/

namespace Objects

open Run

variable {α : Type*}

/-- The sizes of the objects in use, by address, and the contents of their cells. -/
structure Store (α : Type*) where
  size : Nat → Option Nat
  get : Nat → Nat → α

/-- One thing that happens: an object is handed out, given back, or one of its cells is
    written. -/
inductive Event (α : Type*) where
  | take (p n : Nat)
  | give (p : Nat)
  | put (p i : Nat) (x : α)

/-- Nothing is in use. -/
def Store.empty (x : α) : Store α := ⟨fun _ => none, fun _ _ => x⟩

/-- Objects in use do not overlap. -/
def Store.Separate (a : Store α) : Prop :=
  ∀ p q n k, a.size p = some n → a.size q = some k → p ≠ q → p + n ≤ q ∨ q + k ≤ p

/-- There is an object `p` with a cell `i`. -/
def Store.HasCell (a : Store α) (p i : Nat) : Prop := ∃ n, a.size p = some n ∧ i < n

/-- The steps of the store. -/
inductive Step : Store α → Event α → Store α → Prop where
  | take {a : Store α} {p n : Nat} (contents : Nat → α) (fresh : a.size p = none)
      (apart : ∀ q k, a.size q = some k → p + n ≤ q ∨ q + k ≤ p) :
      Step a (.take p n)
        ⟨Function.update a.size p (some n), Function.update a.get p contents⟩
  | give {a : Store α} {p n : Nat} (used : a.size p = some n) :
      Step a (.give p) ⟨Function.update a.size p none, a.get⟩
  | put {a : Store α} {p i : Nat} (x : α) (cell : a.HasCell p i) :
      Step a (.put p i x)
        ⟨a.size, Function.update a.get p (Function.update (a.get p) i x)⟩

/-- The event writes the cell or takes its object away. -/
def Event.Touches (p i : Nat) : Event α → Prop
  | .take _ _ => False
  | .give q => q = p
  | .put q j _ => q = p ∧ j = i

variable {a b : Store α} {e : Event α} {es : List (Event α)} {p i : Nat}

/-- A store without objects. -/
theorem Store.separate_empty (x : α) : (Store.empty x).Separate := by
  intro p q n k hp
  exact absurd hp (by simp [Store.empty])

/-- **Objects stay apart.** -/
theorem Separate.step (h : a.Separate) (hstep : Step a e b) : b.Separate := by
  cases hstep with
  | @take p n contents fresh apart =>
    intro q r k l hq hr hne
    simp only at hq hr
    by_cases hqp : q = p
    · subst hqp
      rw [Function.update_self, Option.some.injEq] at hq
      rw [Function.update_of_ne (Ne.symm hne)] at hr
      rw [← hq]
      exact apart r l hr
    · rw [Function.update_of_ne hqp] at hq
      by_cases hrp : r = p
      · subst hrp
        rw [Function.update_self, Option.some.injEq] at hr
        rw [← hr]
        exact (apart q k hq).symm
      · rw [Function.update_of_ne hrp] at hr
        exact h q r k l hq hr hne
  | @give p n used =>
    have hold : ∀ q k, Function.update a.size p none q = some k → a.size q = some k := by
      intro q k hq
      by_cases hqp : q = p
      · rw [hqp, Function.update_self] at hq
        exact absurd hq (by simp)
      · rwa [Function.update_of_ne hqp] at hq
    intro q r k l hq hr
    exact h q r k l (hold q k hq) (hold r l hr)
  | put x cell => exact h

/-- The objects stay apart in a whole run. -/
theorem Separate.steps (h : a.Separate) (hsteps : Steps Step a es b) : b.Separate :=
  hsteps.inv (fun _ _ _ ha (_ : True) hstep => Separate.step ha hstep) h fun _ _ => trivial

/-- What a step leaves of a cell that it does not touch. -/
theorem get_of_step (hstep : Step a e b) (hcell : a.HasCell p i) (hno : ¬ e.Touches p i) :
    b.HasCell p i ∧ b.get p i = a.get p i := by
  obtain ⟨n, hn, hi⟩ := hcell
  cases hstep with
  | @take q k contents fresh apart =>
    -- the new object is not the old one
    have hne : p ≠ q := by
      intro heq
      rw [← heq, hn] at fresh
      exact absurd fresh (by simp)
    refine ⟨⟨n, ?_, hi⟩, ?_⟩
    · simpa only [Function.update_of_ne hne] using hn
    · simp only [Function.update_of_ne hne]
  | @give q k used =>
    have hne : p ≠ q := fun heq => hno heq.symm
    refine ⟨⟨n, ?_, hi⟩, rfl⟩
    simpa only [Function.update_of_ne hne] using hn
  | @put q j x cell =>
    refine ⟨⟨n, hn, hi⟩, ?_⟩
    by_cases hpq : p = q
    · subst hpq
      have hne : i ≠ j := fun heq => hno ⟨rfl, heq.symm⟩
      simp only [Function.update_self, Function.update_of_ne hne]
    · simp only [Function.update_of_ne hpq]

/-- **A cell keeps its contents** until it is touched. -/
theorem get_of_steps (hsteps : Steps Step a es b) (hcell : a.HasCell p i)
    (hno : ∀ e ∈ es, ¬ e.Touches p i) : b.HasCell p i ∧ b.get p i = a.get p i := by
  have hkeep : ∀ c e d, c.HasCell p i ∧ c.get p i = a.get p i → ¬ e.Touches p i → Step c e d →
      d.HasCell p i ∧ d.get p i = a.get p i := by
    intro c e d hc he hstep
    obtain ⟨hd, hget⟩ := get_of_step hstep hc.1 he
    exact ⟨hd, hget.trans hc.2⟩
  apply hsteps.inv (I := fun c => c.HasCell p i ∧ c.get p i = a.get p i) hkeep
  · exact ⟨hcell, rfl⟩
  · exact hno

/-- A cell that is written holds what was written. -/
theorem get_put {x : α} (hstep : Step a (.put p i x) b) : b.HasCell p i ∧ b.get p i = x := by
  cases hstep with
  | put x cell =>
    exact ⟨cell, by simp only [Function.update_self]⟩

end Objects
