import Mathlib.Data.List.Basic
import Mathlib.Logic.Function.Iterate

/-!
# Linked lists

A stretch of nodes joined by two link functions: `Linked next prev p l q` holds when
`l` is linked in both directions, with `p` in front of its first node and `q` behind its
last. A null-terminated list is a stretch between `none` and `none`, a ring one between
its own last and first node. `Chained next p l` is the same for lists with one link: `p`
leads to the first node of `l`, and the last one to nothing.

## Key results

- `linked_append`: a concatenation is linked when both parts are
- `Linked.setStart` / `Linked.setEnd`: a new neighbour at one end
- `Linked.unlink`: a node is taken out
- `Ring.rotate`, `Ring.link`, `Ring.unlink`: a ring seen from its next node, a node put
  in front of the first one, the first one taken out
-/

namespace Links

variable {α : Type*} {next next' prev prev' : α → Option α} {p p' q q' : Option α}
  {a : α} {l r : List α}

/-- Nodes linked in both directions between `p` and `q`. -/
def Linked (next prev : α → Option α) : Option α → List α → Option α → Prop
  | _, [], _ => True
  | p, a :: l, q => prev a = p ∧ next a = l.head?.or q ∧ Linked next prev (some a) l q

/-- The last element of a list with one in front. -/
theorem getLast?_cons_or (a : α) (l : List α) (p : Option α) :
    (a :: l).getLast?.or p = l.getLast?.or (some a) := by
  cases l with
  | nil => rfl
  | cons b l => simp [List.getLast?_cons]

/-- Two lists that are linked to each other. -/
theorem linked_append :
    Linked next prev p (l ++ r) q ↔
      Linked next prev p l (r.head?.or q) ∧ Linked next prev (l.getLast?.or p) r q := by
  induction l generalizing p with
  | nil => simp [Linked]
  | cons a l ih =>
    rw [List.cons_append, Linked, ih, Linked, getLast?_cons_or, List.head?_append, Option.or_assoc]
    tauto

/-- A list depends on the links of its members only. -/
theorem Linked.congr (h : Linked next prev p l q)
    (hag : ∀ b ∈ l, next' b = next b ∧ prev' b = prev b) : Linked next' prev' p l q := by
  induction l generalizing p with
  | nil => trivial
  | cons a l ih =>
    obtain ⟨h1, h2, h3⟩ := h
    obtain ⟨hn, hp⟩ := hag a (by simp)
    exact ⟨by rw [hp, h1], by rw [hn, h2], ih h3 fun b hb => hag b (List.mem_cons_of_mem a hb)⟩

/-- A new successor of the last node. -/
theorem Linked.setEnd (h : Linked next prev p l q) (hnd : l.Nodup)
    (hlast : ∀ b, l.getLast? = some b → next' b = q')
    (hnext : ∀ b ∈ l, l.getLast? ≠ some b → next' b = next b)
    (hprev : ∀ b ∈ l, prev' b = prev b) : Linked next' prev' p l q' := by
  rcases List.eq_nil_or_concat l with rfl | ⟨l, a, rfl⟩
  · -- an empty list has no end
    trivial
  · rw [List.concat_eq_append] at *
    rw [linked_append] at h ⊢
    obtain ⟨hl, h1, -, -⟩ := h
    -- the last member is linked anew, the others are as before
    have hal : a ∉ l := fun ha => by
      have := List.nodup_append.mp hnd
      exact this.2.2 a ha a (by simp) rfl
    refine ⟨hl.congr fun b hb => ⟨hnext b (by simp [hb]) ?_, hprev b (by simp [hb])⟩,
      by rw [hprev a (by simp), h1], by simpa using hlast a (by simp), trivial⟩
    rw [List.getLast?_append]
    rintro hlast
    simp only [List.getLast?_singleton, Option.some_or, Option.some.injEq] at hlast
    exact hal (hlast ▸ hb)

/-- A new predecessor of the first node. -/
theorem Linked.setStart (h : Linked next prev p l q) (hnd : l.Nodup)
    (hfirst : ∀ b, l.head? = some b → prev' b = p')
    (hprev : ∀ b ∈ l, l.head? ≠ some b → prev' b = prev b)
    (hnext : ∀ b ∈ l, next' b = next b) : Linked next' prev' p' l q := by
  cases l with
  | nil => trivial
  | cons a l =>
    obtain ⟨-, h2, h3⟩ := h
    have hal := (List.nodup_cons.mp hnd).1
    refine ⟨hfirst a rfl, by rw [hnext a (by simp), h2], h3.congr fun b hb => ?_⟩
    have hb' := List.mem_cons_of_mem a hb
    refine ⟨hnext b hb', hprev b hb' ?_⟩
    rw [List.head?_cons, Ne, Option.some.injEq]
    rintro rfl
    exact hal hb

/-- **A node is taken out**: its neighbours are joined. -/
theorem Linked.unlink (h : Linked next prev p (l ++ a :: r) q) (hnd : (l ++ a :: r).Nodup)
    (hlast : ∀ b, l.getLast? = some b → next' b = r.head?.or q)
    (hfirst : ∀ b, r.head? = some b → prev' b = l.getLast?.or p)
    (hnext : ∀ b ∈ l ++ r, l.getLast? ≠ some b → next' b = next b)
    (hprev : ∀ b ∈ l ++ r, r.head? ≠ some b → prev' b = prev b) :
    Linked next' prev' p (l ++ r) q := by
  obtain ⟨hl, har⟩ := linked_append.mp h
  obtain ⟨-, -, hr⟩ := har
  obtain ⟨hndl, hndr, hdisj⟩ := List.nodup_append.mp hnd
  have hndr := (List.nodup_cons.mp hndr).2
  rw [linked_append]
  constructor
  · refine hl.setEnd hndl hlast (fun b hb => hnext b (by simp [hb])) fun b hb => ?_
    refine hprev b (by simp [hb]) fun hhead => ?_
    exact hdisj b hb b (List.mem_cons_of_mem a (List.mem_of_head? hhead)) rfl
  · refine hr.setStart hndr hfirst (fun b hb => hprev b (by simp [hb])) fun b hb => ?_
    refine hnext b (by simp [hb]) fun hlast => ?_
    exact hdisj b (List.mem_of_getLast? hlast) b (List.mem_cons_of_mem a hb) rfl

/-! ## Rings -/

/-- Nodes linked in a circle. -/
def Ring (next prev : α → Option α) (l : List α) : Prop :=
  Linked next prev l.getLast? l l.head?

/-- A ring seen from its second node. -/
theorem Ring.rotate (h : Ring next prev (a :: l)) : Ring next prev (l ++ [a]) := by
  obtain ⟨h1, h2, h3⟩ := h
  rw [Ring, linked_append]
  refine ⟨?_, ?_, ?_, trivial⟩
  · simpa using h3
  · rw [h1, List.getLast?_append]
    rw [List.getLast?_cons]
    cases hl : l.getLast? <;> simp
  · rw [h2]
    cases l with
    | nil => simp
    | cons b l => simp

/-- A link leads to a member, or out of the list. -/
theorem Linked.next_mem {b : α} (h : Linked next prev p l q) (hb : b ∈ l) :
    (∃ c ∈ l, next b = some c) ∨ next b = q := by
  induction l generalizing p with
  | nil => exact absurd hb List.not_mem_nil
  | cons a l ih =>
    obtain ⟨-, h2, h3⟩ := h
    rcases List.mem_cons.mp hb with rfl | hb
    · cases l with
      | nil => exact Or.inr h2
      | cons c l => exact Or.inl ⟨c, by simp, h2⟩
    · exact (ih h3 hb).imp_left fun ⟨c, hc, he⟩ => ⟨c, List.mem_cons_of_mem a hc, he⟩

/-- Inside a list the two directions are inverse to each other. -/
theorem Linked.inverse {b c : α} (h : Linked next prev p l none) (hb : b ∈ l) :
    (next b = some c → c ∈ l ∧ prev c = some b) ∧
      (prev b = some c → p = some c ∨ c ∈ l ∧ next c = some b) := by
  -- the neighbours of b are the ends of the two parts
  obtain ⟨l₁, l₂, rfl⟩ := List.append_of_mem hb
  obtain ⟨h₁, hprev, hnext, h₂⟩ := linked_append.mp h
  rw [Option.or_none] at hnext
  constructor
  · intro hc
    rw [hnext] at hc
    cases l₂ with
    | nil => exact absurd hc (by simp)
    | cons d l₂ =>
      obtain rfl : d = c := Option.some.inj hc
      exact ⟨by simp, h₂.1⟩
  · intro hc
    rw [hprev] at hc
    rcases List.eq_nil_or_concat l₁ with rfl | ⟨l₀, d, rfl⟩
    · exact Or.inl hc
    · rw [List.concat_eq_append] at *
      rw [List.getLast?_append, List.getLast?_singleton] at hc
      obtain rfl : d = c := Option.some.inj hc
      exact Or.inr ⟨by simp, (linked_append.mp h₁).2.2.1⟩

/-- The links do not lead out of a ring. -/
theorem Ring.iterate_mem {f : α → α} (h : Ring (fun b => some (f b)) prev (a :: l)) (i : Nat) :
    f^[i] a ∈ a :: l := by
  induction i with
  | zero => exact List.mem_cons_self
  | succ i ih =>
    rw [Function.iterate_succ_apply']
    rcases Linked.next_mem h ih with ⟨c, hc, he⟩ | he
    · rw [Option.some.inj he]
      exact hc
    · rw [Option.some.inj he]
      exact List.mem_cons_self

/-- The links reach every node of a stretch from its first one. -/
theorem Linked.mem_iterate {f : α → α} (h : Linked (fun b => some (f b)) prev p (a :: l) q) {b : α}
    (hb : b ∈ a :: l) : ∃ i, f^[i] a = b := by
  induction l generalizing p a with
  | nil => exact ⟨0, (List.mem_singleton.mp hb).symm⟩
  | cons c l ih =>
    rcases List.mem_cons.mp hb with rfl | hb
    · exact ⟨0, rfl⟩
    · obtain ⟨i, hi⟩ := ih h.2.2 hb
      have hac : f a = c := Option.some.inj h.2.1
      exact ⟨i + 1, by rw [Function.iterate_succ_apply, hac, hi]⟩

/-- The links count off the nodes of a stretch. -/
theorem Linked.iterate_getElem {f : α → α}
    (h : Linked (fun b => some (f b)) prev p (a :: l) q) {i : Nat} {b : α}
    (hb : (a :: l)[i]? = some b) : f^[i] a = b := by
  induction i generalizing p a l with
  | zero => exact Option.some.inj hb
  | succ i ih =>
    cases l with
    | nil => simp at hb
    | cons c l =>
      have hac : f a = c := Option.some.inj h.2.1
      rw [Function.iterate_succ_apply, hac]
      exact ih h.2.2 hb

/-- The link of the last node. -/
theorem Linked.iterate_length {f : α → α} {b : α}
    (h : Linked (fun b => some (f b)) prev p (a :: l) (some b)) : f^[l.length + 1] a = b := by
  induction l generalizing p a with
  | nil => exact Option.some.inj h.2.1
  | cons c l ih =>
    have hac : f a = c := Option.some.inj h.2.1
    rw [List.length_cons, Function.iterate_succ_apply, hac]
    exact ih h.2.2

/-- The number of links from the first node of a ring to another one is its place. -/
theorem Ring.distance_iff {f : α → α} (h : Ring (fun b => some (f b)) prev (a :: l))
    (hnd : (a :: l).Nodup) {d : Nat} {b : α} :
    (f^[d] a = b ∧ ∀ e < d, f^[e] a ≠ b) ↔ ∃ A B, a :: l = A ++ b :: B ∧ A.length = d := by
  constructor
  · rintro ⟨hd, hmin⟩
    have hlt : d < (a :: l).length := by
      -- once around, the links lead to the same nodes again
      by_contra hge
      rw [List.length_cons, Nat.not_lt] at hge
      refine hmin (d - (l.length + 1)) (by omega) ?_
      rw [← hd]
      conv_rhs => rw [← Nat.sub_add_cancel hge, Function.iterate_add_apply, h.iterate_length]
    have hb : (a :: l)[d] = b := by
      rw [← hd]
      exact (Linked.iterate_getElem h (List.getElem?_eq_getElem hlt)).symm
    refine ⟨(a :: l).take d, (a :: l).drop (d + 1), ?_, List.length_take_of_le (Nat.le_of_lt hlt)⟩
    rw [← hb, ← List.drop_eq_getElem_cons hlt, List.take_append_drop]
  · rintro ⟨A, B, heq, rfl⟩
    have hget : ∀ e c, (A ++ b :: B)[e]? = some c → f^[e] a = c := fun e c hc =>
      Linked.iterate_getElem h (heq ▸ hc)
    rw [heq] at hnd
    refine ⟨hget _ _ (by simp), fun e he hbe => ?_⟩
    have hA : (A ++ b :: B)[e]? = some A[e] := by
      rw [List.getElem?_append_left he, List.getElem?_eq_getElem he]
    rw [hget e _ hA] at hbe
    exact (List.nodup_append.mp hnd).2.2 b (hbe ▸ List.getElem_mem he) b (by simp) rfl

/-- **A node is put in front of the first one.** -/
theorem Ring.link {n : α} (h : Ring next prev (a :: l)) (hnd : (a :: l).Nodup)
    (hna : next' n = some a) (hnp : prev' n = (a :: l).getLast?) (ha : prev' a = some n)
    (hlast : ∀ b, (a :: l).getLast? = some b → next' b = some n)
    (hnext : ∀ b ∈ a :: l, (a :: l).getLast? ≠ some b → next' b = next b)
    (hprev : ∀ b ∈ l, prev' b = prev b) : Ring next' prev' (a :: l ++ [n]) := by
  have hstart : Linked next prev' (some n) (a :: l) (some a) := by
    -- the first member points back to the new one
    refine Linked.setStart h hnd (fun b hb => ?_) (fun b hb hne => ?_) fun _ _ => rfl
    · cases hb; exact ha
    · rcases List.mem_cons.mp hb with rfl | hb
      · exact absurd rfl hne
      · exact hprev b hb
  have hend : Linked next' prev' (some n) (a :: l) (some n) :=
    hstart.setEnd hnd hlast hnext fun _ _ => rfl
  have hring : Linked next' prev' (some n) (a :: l ++ [n]) (some a) := by
    rw [linked_append]
    refine ⟨by simpa using hend, ?_, by simpa using hna, trivial⟩
    rw [hnp, List.getLast?_cons]
    rfl
  rw [Ring, List.getLast?_append]
  exact hring

/-- **The first node is taken out.** -/
theorem Ring.unlink (h : Ring next prev (a :: l)) (hnd : (a :: l).Nodup)
    (hlast : ∀ b, l.getLast? = some b → next' b = l.head?)
    (hfirst : ∀ b, l.head? = some b → prev' b = l.getLast?)
    (hnext : ∀ b ∈ l, l.getLast? ≠ some b → next' b = next b)
    (hprev : ∀ b ∈ l, l.head? ≠ some b → prev' b = prev b) : Ring next' prev' l := by
  obtain ⟨-, -, hl⟩ := h
  have hnd := (List.nodup_cons.mp hnd).2
  have hstart : Linked next prev' l.getLast? l _ := hl.setStart hnd hfirst hprev fun _ _ => rfl
  exact hstart.setEnd hnd hlast hnext fun _ _ => rfl

/-! ## Singly linked lists -/

/-- The nodes reached from `p`, up to the null link. -/
def Chained (next : α → Option α) : Option α → List α → Prop
  | p, [] => p = none
  | p, a :: l => p = some a ∧ Chained next (next a) l

/-- A chain depends on the links of its members only. -/
theorem Chained.congr (h : Chained next p l) (hag : ∀ b ∈ l, next' b = next b) :
    Chained next' p l := by
  induction l generalizing p with
  | nil => exact h
  | cons a l ih =>
    refine ⟨h.1, ?_⟩
    rw [hag a (by simp)]
    exact ih h.2 fun b hb => hag b (List.mem_cons_of_mem a hb)

end Links
