import Mathlib.Data.List.Basic

/-!
# Ring buffers

A buffer of `n` slots with an index where the next element is taken and one where the next
element is put. The elements between the two are a queue; one slot stays free, so that equal
indices mean an empty queue.

## Key results

- `Queue.push` / `Queue.pop`: putting an element and taking one
- `Queue.empty_iff` / `Queue.full_iff`: the two tests on the indices
-/

namespace RingBuffer

/-- The slots from `r` up to `w`, around the end of the buffer, hold the queue `q`. -/
structure Queue {α : Type*} (n : Nat) (buf : Nat → α) (r w : Nat) (q : List α) : Prop where
  read_lt : r < n
  write_lt : w < n
  room : q.length < n
  write_eq : w = (r + q.length) % n
  slots : ∀ k x, q[k]? = some x → buf ((r + k) % n) = x

section

variable {α : Type*} {n r w : Nat} {buf : Nat → α} {q : List α} {x : α}

/-- Indices that are less than `n` apart name different slots. -/
private theorem add_mod_ne {a b : Nat} (hab : a < b) (hb : b < a + n) : a % n ≠ b % n := by
  intro heq
  have hdvd : n ∣ b - a := Nat.dvd_of_mod_eq_zero (Nat.sub_mod_eq_zero_of_mod_eq heq.symm)
  exact Nat.not_le_of_lt (by omega) (Nat.le_of_dvd (by omega) hdvd)

/-- The queue is empty when both indices are equal. -/
theorem Queue.empty_iff (h : Queue n buf r w q) : r = w ↔ q = [] := by
  constructor
  · intro hrw
    by_contra hne
    have hlen : 0 < q.length := List.length_pos_iff.mpr hne
    have hroom := h.room
    refine add_mod_ne (n := n) (a := r) (b := r + q.length) (by omega) (by omega) ?_
    rw [← h.write_eq, ← hrw, Nat.mod_eq_of_lt h.read_lt]
  · rintro rfl
    rw [h.write_eq, List.length_nil, Nat.add_zero, Nat.mod_eq_of_lt h.read_lt]

/-- The queue is full when one cell is left. -/
theorem Queue.full_iff (h : Queue n buf r w q) : (w + 1) % n = r ↔ q.length + 1 = n := by
  have hwrite : (w + 1) % n = (r + (q.length + 1)) % n := by
    rw [h.write_eq, Nat.mod_add_mod, Nat.add_assoc]
  have hroom := h.room
  rw [hwrite]
  constructor
  · intro hfull
    by_contra hne
    refine add_mod_ne (n := n) (a := r) (b := r + (q.length + 1)) (by omega) (by omega) ?_
    rw [hfull, Nat.mod_eq_of_lt h.read_lt]
  · intro hlen
    rw [hlen, Nat.add_mod_right, Nat.mod_eq_of_lt h.read_lt]

/-- An element is put behind the others. -/
theorem Queue.push (h : Queue n buf r w q) (hroom : (w + 1) % n ≠ r) (x : α) :
    Queue n (Function.update buf w x) r ((w + 1) % n) (q ++ [x]) := by
  have hlen : q.length + 1 ≠ n := fun heq => hroom (h.full_iff.mpr heq)
  have hlt := h.room
  refine ⟨h.read_lt, Nat.mod_lt _ (by omega), ?_, ?_, fun k y hk => ?_⟩
  · rw [List.length_append, List.length_singleton]
    omega
  · rw [h.write_eq, Nat.mod_add_mod, List.length_append, List.length_singleton, Nat.add_assoc]
  · by_cases hkq : k < q.length
    · -- an older element lies in another slot
      rw [List.getElem?_append_left hkq] at hk
      have hne : (r + k) % n ≠ w := by
        rw [h.write_eq]
        exact add_mod_ne (by omega) (by omega)
      rw [Function.update_of_ne hne]
      exact h.slots k y hk
    · obtain rfl : k = q.length := by
        have hk' := (List.getElem?_eq_some_iff.mp hk).1
        rw [List.length_append, List.length_singleton] at hk'
        omega
      rw [List.getElem?_concat_length, Option.some.injEq] at hk
      rw [← h.write_eq, Function.update_self, hk]

/-- The first element is taken. -/
theorem Queue.pop (h : Queue n buf r w (x :: q)) :
    buf r = x ∧ Queue n buf ((r + 1) % n) w q := by
  have hlt := h.room
  rw [List.length_cons] at hlt
  refine ⟨?_, Nat.mod_lt _ (by omega), h.write_lt, by omega, ?_, fun k y hk => ?_⟩
  · rw [← h.slots 0 x rfl, Nat.add_zero, Nat.mod_eq_of_lt h.read_lt]
  · rw [h.write_eq, List.length_cons, Nat.mod_add_mod, Nat.add_assoc, Nat.add_comm 1]
  · rw [← h.slots (k + 1) y hk, Nat.mod_add_mod, Nat.add_assoc, Nat.add_comm 1]

/-- An empty buffer. -/
theorem queue_nil (buf : Nat → α) (hn : 0 < n) : Queue n buf 0 0 [] :=
  ⟨hn, hn, hn, (Nat.zero_mod n).symm, fun k x hk => by simp at hk⟩

end

end RingBuffer
