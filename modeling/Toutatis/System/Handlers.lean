import Toutatis.Lib.Links
import Toutatis.Lib.Memory
import Toutatis.Lib.Run

/-!
# The registry of interrupt handlers

A shallow embedding of `attach_interrupt_handler`, `detach_interrupt_handler` and
`get_interrupt_handler` of `kernel/system.c`. Each vector has a row of `MAX_HANDLERS`
slots; the slots in use form a list, and `handlers_heads` has the index of its first
slot. A pointer into a row is the index of the slot, `none` is the null pointer.

`detach_interrupt_handler` moves the head index when the first handler goes and others
remain, but leaves it when the last one goes. A handler that is then attached gets slot
0, which is out of reach unless the index is 0.

## Key results

- `RowOk.attach` / `RowOk.detach`: the two calls on the row of one vector
- `chain_registered_iff`: which runs keep the list of every vector
- `ChainOk.attach` / `ChainOk.detach`: the chain that dispatch walks, when some handlers are
  out of reach
- `dispatch_terminates`: after every run, dispatch ends and visits no slot twice
-/

namespace Toutatis

open ByteMem Run Links

/-- `MAX_HANDLERS`. -/
def maxHandlers : Nat := 50

/-- `handler_t`; `handler` is `0` in a free slot. -/
structure Handler where
  handler : Nat
  num : Nat
  index : Nat
  next : Option Nat
  prev : Option Nat

/-- The row `handlers[num]` and `handlers_heads[num]`. -/
structure Row where
  slots : Nat → Handler
  head : Nat

/-- `while (h->next) h = h->next`; `none` when the fuel is used up. -/
def tailLoop (slots : Nat → Handler) : (fuel h : Nat) → Option Nat
  | 0, _ => none
  | fuel + 1, h =>
    match (slots h).next with
    | none => some h
    | some h' => tailLoop slots fuel h'

/-- The tail of the list, a null pointer when the slot of the head is free. -/
def findTail (t : Row) : Option (Option Nat) :=
  if (t.slots t.head).handler = 0 then some none
  else (tailLoop t.slots maxHandlers t.head).map some

/-- The first free slot. -/
def freeSlot (slots : Nat → Handler) : Option Nat :=
  (List.range maxHandlers).find? fun i => (slots i).handler = 0

/-- The handler is written to slot `n`, behind the tail `h`. -/
def fillSlot (slots : Nat → Handler) (num handler n : Nat) (h : Option Nat) : Nat → Handler :=
  let slots := Function.update slots n { slots n with handler := handler, num := num, next := none }
  match h with
  | some h =>
    let slots := Function.update slots n
      { slots n with index := add32 (slots h).index 1, prev := some h }
    Function.update slots h { slots h with next := some n }
  | none => Function.update slots n { slots n with index := 1, prev := none }

/-- `attach_interrupt_handler` on the row of its vector. -/
def attachRow (t : Row) (num handler : Nat) : Option Row :=
  (findTail t).map fun h =>
    match freeSlot t.slots with
    | some n => { t with slots := fillSlot t.slots num handler n h }
    | none => t

/-- `if (p) p->next = q`. -/
def setNext (slots : Nat → Handler) (p q : Option Nat) : Nat → Handler :=
  match p with
  | some p => Function.update slots p { slots p with next := q }
  | none => slots

/-- `if (q) q->prev = p`. -/
def setPrev (slots : Nat → Handler) (q p : Option Nat) : Nat → Handler :=
  match q with
  | some q => Function.update slots q { slots q with prev := p }
  | none => slots

/-- The body of the search when `h` has the handler: `h` is taken out of the list. The
    head moves when `h` is the first node and not the last. -/
def removeSlot (t : Row) (h : Nat) : Row :=
  let slots := setNext t.slots (t.slots h).prev (t.slots h).next
  let slots' := setPrev slots (slots h).next (slots h).prev
  { slots := Function.update slots' h { slots' h with handler := 0 }
    head := if (slots' h).prev = none then (slots h).next.getD t.head else t.head }

/-- The search from the tail to the head. -/
def detachLoop (t : Row) (handler : Nat) : (fuel h : Nat) → Option Row
  | 0, _ => none
  | fuel + 1, h =>
    if (t.slots h).handler = handler then some (removeSlot t h)
    else
      match (t.slots h).prev with
      | none => some t
      | some p => detachLoop t handler fuel p

/-- `detach_interrupt_handler` on the row of its vector. -/
def detachRow (t : Row) (handler : Nat) : Option Row :=
  if (t.slots t.head).handler = 0 then some t
  else (tailLoop t.slots maxHandlers t.head).bind fun h => detachLoop t handler maxHandlers h

/-- `get_interrupt_handler`. -/
def getInterruptHandler (t : Row) : Option Nat :=
  if (t.slots t.head).handler ≠ 0 then some t.head else none

/-- `while (h) { h->handler(regs); h = h->next; }` of `isr_handler` and `irq_handler`: the slots
    whose handlers are called, `none` when the fuel is used up. -/
def dispatchLoop (slots : Nat → Handler) : (fuel : Nat) → Option Nat → Option (List Nat)
  | _, none => some []
  | 0, some _ => none
  | fuel + 1, some h => (dispatchLoop slots fuel (slots h).next).map (h :: ·)

/-! ## The list of a row -/

/-- The slots in use are `L`, in the order of the list. -/
structure RowOk (t : Row) (L : List Nat) : Prop where
  nodup : L.Nodup
  lt : ∀ i ∈ L, i < maxHandlers
  used : ∀ i < maxHandlers, (t.slots i).handler ≠ 0 ↔ i ∈ L
  linked : Linked (fun i => (t.slots i).next) (fun i => (t.slots i).prev) none L none
  head : ∀ i, L.head? = some i → t.head = i
  head_lt : t.head < maxHandlers

/-- The chain that dispatch walks is `L`. Other slots may be in use too. -/
structure ChainOk (t : Row) (L : List Nat) : Prop where
  nodup : L.Nodup
  lt : ∀ i ∈ L, i < maxHandlers
  used : ∀ i ∈ L, (t.slots i).handler ≠ 0
  linked : Linked (fun i => (t.slots i).next) (fun i => (t.slots i).prev) none L none
  start : getInterruptHandler t = L.head?
  head_lt : t.head < maxHandlers

/-- The handlers met from a pointer on, following `next`. -/
def ChainFrom (slots : Nat → Handler) : Option Nat → List Nat → Prop
  | p, [] => p = none
  | p, f :: fs => ∃ i, p = some i ∧ (slots i).handler = f ∧ ChainFrom slots (slots i).next fs

/-- Without the last occurrence of `f`. -/
def eraseLast (fs : List Nat) (f : Nat) : List Nat := (fs.reverse.erase f).reverse

/-- The last occurrence is taken out. -/
theorem eraseLast_split {l r : List Nat} {f : Nat} (hr : f ∉ r) :
    eraseLast (l ++ f :: r) f = l ++ r := by
  have hr' : f ∉ r.reverse := by simpa using hr
  rw [eraseLast]
  simp [List.erase_append_right, hr']

/-- Nothing else is taken out. -/
theorem eraseLast_of_notMem {l : List Nat} {f : Nat} (h : f ∉ l) : eraseLast l f = l := by
  have h' : f ∉ l.reverse := by simpa using h
  rw [eraseLast, List.erase_of_not_mem h', List.reverse_reverse]

section Row

variable {t : Row} {L : List Nat} {handler num : Nat}

/-- A list that is linked both ways is walked by `next`. -/
theorem Linked.chainFrom {slots : Nat → Handler} {p : Option Nat} {L : List Nat}
    (h : Linked (fun i => (slots i).next) (fun i => (slots i).prev) p L none) :
    ChainFrom slots L.head? (L.map fun i => (slots i).handler) := by
  induction L generalizing p with
  | nil => rfl
  | cons a L ih =>
    have hnext : (slots a).next = L.head? := h.2.1.trans Option.or_none
    refine ⟨a, rfl, rfl, ?_⟩
    rw [hnext]
    exact ih h.2.2

/-- The slot of the head is free exactly when the list is empty. -/
theorem RowOk.head_used (h : RowOk t L) : (t.slots t.head).handler ≠ 0 ↔ L ≠ [] := by
  rw [h.used _ h.head_lt]
  cases L with
  | nil => simp
  | cons a L => simp [h.head a rfl]

/-- `get_interrupt_handler` gives the first handler of the row. -/
theorem RowOk.getInterruptHandler_eq (h : RowOk t L) : getInterruptHandler t = L.head? := by
  rw [getInterruptHandler]
  cases L with
  | nil =>
    rw [if_neg]
    · rfl
    · rw [h.head_used]; simp
  | cons a L => rw [if_pos (h.head_used.mpr (by simp)), h.head a rfl]; rfl

/-- From there the walk meets the handlers in the order of the row. -/
theorem RowOk.chainFrom (h : RowOk t L) :
    ChainFrom t.slots (getInterruptHandler t) (L.map fun i => (t.slots i).handler) := by
  rw [h.getInterruptHandler_eq]
  exact Linked.chainFrom h.linked

/-- The walk to the tail ends at the last node. -/
theorem tailLoop_spec {slots : Nat → Handler} {p : Option Nat} {L : List Nat} {a fuel : Nat}
    (h : Linked (fun i => (slots i).next) (fun i => (slots i).prev) p (a :: L) none)
    (hfuel : L.length < fuel) : tailLoop slots fuel a = (a :: L).getLast? := by
  induction L generalizing p a fuel with
  | nil =>
    obtain ⟨fuel, rfl⟩ : ∃ n, fuel = n + 1 := ⟨fuel - 1, by omega⟩
    have hnext : (slots a).next = none := h.2.1
    rw [tailLoop, hnext]
    rfl
  | cons b L ih =>
    obtain ⟨fuel, rfl⟩ : ∃ n, fuel = n + 1 := ⟨fuel - 1, by omega⟩
    rw [List.length_cons] at hfuel
    have hnext : (slots a).next = some b := h.2.1
    rw [tailLoop, hnext, List.getLast?_cons_cons]
    exact ih h.2.2 (by omega)

/-- A row whose head is right has the right links. -/
theorem RowOk.chainOk (h : RowOk t L) : ChainOk t L where
  nodup := h.nodup
  lt := h.lt
  used := fun i hi => (h.used i (h.lt i hi)).mpr hi
  linked := h.linked
  start := h.getInterruptHandler_eq
  head_lt := h.head_lt

/-- The slot of the head is free exactly when there is nothing to walk. -/
theorem ChainOk.head_used (h : ChainOk t L) : (t.slots t.head).handler ≠ 0 ↔ L ≠ [] := by
  have hstart := h.start
  unfold getInterruptHandler at hstart
  by_cases hne : (t.slots t.head).handler ≠ 0
  · rw [if_pos hne] at hstart
    refine iff_of_true hne ?_
    rintro rfl
    exact absurd hstart (by simp)
  · rw [if_neg hne] at hstart
    exact iff_of_false hne (not_not.mpr (List.head?_eq_none_iff.mp hstart.symm))

/-- The head of a row that is not empty is right. -/
theorem ChainOk.head (h : ChainOk t L) {i : Nat} (hi : L.head? = some i) : t.head = i := by
  have hstart := h.start
  unfold getInterruptHandler at hstart
  rw [hi] at hstart
  split at hstart
  · exact Option.some.inj hstart
  · exact absurd hstart (by simp)

/-- A row has at most `MAX_HANDLERS` handlers. -/
theorem ChainOk.length_le (h : ChainOk t L) : L.length ≤ maxHandlers := by
  have hsub : L ⊆ List.range maxHandlers := fun i hi => List.mem_range.mpr (h.lt i hi)
  simpa using (List.Nodup.subperm h.nodup hsub).length_le

/-- The walk to the end of a row finds its last handler. -/
theorem ChainOk.findTail_eq (h : ChainOk t L) : findTail t = some L.getLast? := by
  rw [findTail]
  cases L with
  | nil => rw [if_pos (by simpa using h.head_used)]; rfl
  | cons a L =>
    have hlen := h.length_le
    rw [List.length_cons] at hlen
    rw [if_neg (h.head_used.mpr (by simp)), h.head rfl,
      tailLoop_spec h.linked (by omega), List.getLast?_cons]
    rfl

/-- A free slot is found while the list is not full. -/
theorem RowOk.freeSlot_eq (h : RowOk t L) (hlen : L.length < maxHandlers) :
    ∃ n, freeSlot t.slots = some n ∧ n < maxHandlers ∧ n ∉ L ∧ (L = [] → n = 0) := by
  have hex : ∃ i ∈ List.range maxHandlers, (t.slots i).handler = 0 := by
    by_contra hall
    push Not at hall
    have hsub : List.range maxHandlers ⊆ L := fun i hi =>
      (h.used i (List.mem_range.mp hi)).mp (hall i hi)
    have := (List.Nodup.subperm List.nodup_range hsub).length_le
    rw [List.length_range] at this
    omega
  cases hf : freeSlot t.slots with
  | none =>
    obtain ⟨i, hi, h0⟩ := hex
    rw [freeSlot, List.find?_eq_none] at hf
    exact absurd h0 (by simpa using hf i hi)
  | some n =>
    have hn := List.find?_some hf
    have hlt := List.mem_range.mp (List.mem_of_find?_eq_some hf)
    simp only [decide_eq_true_eq] at hn
    refine ⟨n, rfl, hlt, fun hmem => (h.used n hlt).mpr hmem hn, ?_⟩
    rintro rfl
    -- every slot is free, so the first one is found
    have h0 : (t.slots 0).handler = 0 := by
      simpa using (h.used 0 (by decide)).not
    have hzero : freeSlot t.slots = some 0 := by
      rw [freeSlot, show List.range maxHandlers = 0 :: (List.range 49).map Nat.succ from rfl,
        List.find?_cons_of_pos (by simpa using h0)]
    rw [hf, Option.some.injEq] at hzero
    exact hzero

/-- The fields after a slot has been filled. -/
private theorem fillSlot_fields (slots : Nat → Handler) (num handler n : Nat) {h : Option Nat}
    (hn : h ≠ some n) :
    (∀ i, (fillSlot slots num handler n h i).handler =
      if i = n then handler else (slots i).handler) ∧
    (∀ i, (fillSlot slots num handler n h i).next =
      if i = n then none else if h = some i then some n else (slots i).next) ∧
    ∀ i, (fillSlot slots num handler n h i).prev = if i = n then h else (slots i).prev := by
  cases h with
  | none =>
    refine ⟨fun i => ?_, fun i => ?_, fun i => ?_⟩ <;> by_cases hi : i = n <;> simp [fillSlot, hi]
  | some h =>
    have hne : n ≠ h := fun e => hn (by rw [e])
    refine ⟨fun i => ?_, fun i => ?_, fun i => ?_⟩ <;> by_cases hi : i = n <;>
      by_cases hih : i = h <;> simp_all [fillSlot, eq_comm]

/-- The filled slot is linked behind the tail. -/
private theorem linked_fill {slots slots' : Nat → Handler} {n : Nat}
    (h : Linked (fun i => (slots i).next) (fun i => (slots i).prev) none L none) (hnd : L.Nodup)
    (hnL : n ∉ L)
    (hnext : ∀ i, (slots' i).next =
      if i = n then none else if L.getLast? = some i then some n else (slots i).next)
    (hprev : ∀ i, (slots' i).prev = if i = n then L.getLast? else (slots i).prev) :
    Linked (fun i => (slots' i).next) (fun i => (slots' i).prev) none (L ++ [n]) none := by
  have hne : ∀ i ∈ L, i ≠ n := fun i hi he => hnL (he ▸ hi)
  rw [linked_append]
  refine ⟨h.setEnd hnd ?_ ?_ ?_, ?_, ?_, trivial⟩
  · -- the last node points to the new one
    intro b hb
    refine (hnext b).trans ?_
    rw [if_neg (hne b (List.mem_of_getLast? hb)), if_pos hb]
    rfl
  · -- the nodes in front of it point where they did
    intro b hb hb'
    simp [hnext, hne b hb, hb']
  · -- the backward links of the list stay
    intro b hb
    simp [hprev, hne b hb]
  · simp [hprev]
  · simp [hnext]

/-- **Attaching** appends the handler, when the list is not empty or its head is slot 0. -/
theorem RowOk.attach (h : RowOk t L) (hlen : L.length < maxHandlers) (hf : handler ≠ 0)
    (hhead : L ≠ [] ∨ t.head = 0) (num : Nat) :
    ∃ t' L', attachRow t num handler = some t' ∧ RowOk t' L' ∧
      L'.map (fun i => (t'.slots i).handler) =
        L.map (fun i => (t.slots i).handler) ++ [handler] := by
  -- the new handler goes to a slot that is not in the list, so nothing of the list changes but the
  -- link of its last node
  obtain ⟨n, hfree, hlt, hnL, hzero⟩ := h.freeSlot_eq hlen
  have hlast : L.getLast? ≠ some n := fun he => hnL (List.mem_of_getLast? he)
  obtain ⟨hh, hnext, hprev⟩ := fillSlot_fields t.slots num handler n hlast
  have hne : ∀ i ∈ L, i ≠ n := fun i hi he => hnL (he ▸ hi)
  refine ⟨_, L ++ [n], by rw [attachRow, h.chainOk.findTail_eq, Option.map_some, hfree], ?_, ?_⟩
  · refine ⟨?_, ?_, ?_, ?_, ?_, h.head_lt⟩
    · exact List.concat_eq_append ▸ h.nodup.concat hnL
    · exact List.forall_mem_append.mpr ⟨h.lt, by simpa using hlt⟩
    · intro i hi
      simp only [hh, List.mem_append, List.mem_singleton]
      by_cases hin : i = n
      · simp [hin, hf]
      · rw [if_neg hin, h.used i hi]; simp [hin]
    · exact linked_fill h.linked h.nodup hnL hnext hprev
    · intro i hi
      -- the first slot is the head: of a list that was empty this is slot 0, by the hypothesis
      cases L with
      | nil =>
        have hn0 := hzero rfl
        rw [List.nil_append, List.head?_cons, Option.some.injEq] at hi
        rw [← hi, hn0]
        exact hhead.resolve_left (by simp)
      | cons a L => exact h.head i hi
  · rw [List.map_append]
    congr 1
    · exact List.map_congr_left fun i hi => by simp [hh, hne i hi]
    · simp [hh]

/-- Attaching to any chain: a slot that is filled is not in it, and joins it at the end or, when
    there is none, only as the slot of the head. -/
theorem ChainOk.attach (h : ChainOk t L) (hf : handler ≠ 0) (num : Nat) :
    ∃ t' L', attachRow t num handler = some t' ∧ ChainOk t' L' := by
  rw [attachRow, h.findTail_eq, Option.map_some]
  cases hfree : freeSlot t.slots with
  | none => exact ⟨t, L, rfl, h⟩
  | some n =>
    -- a slot that is free is not in the chain
    have hn0 : (t.slots n).handler = 0 := by simpa using List.find?_some hfree
    have hlt := List.mem_range.mp (List.mem_of_find?_eq_some hfree)
    have hnL : n ∉ L := fun hmem => h.used n hmem hn0
    have hlast : L.getLast? ≠ some n := fun he => hnL (List.mem_of_getLast? he)
    have hne : ∀ i ∈ L, i ≠ n := fun i hi he => hnL (he ▸ hi)
    obtain ⟨hh, hnext, hprev⟩ := fillSlot_fields t.slots num handler n hlast
    by_cases hempty : L = [] ∧ t.head ≠ n
    · -- the new handler is out of reach
      obtain ⟨rfl, hhead⟩ := hempty
      refine ⟨_, [], rfl, List.nodup_nil, by simp, by simp, trivial, ?_, h.head_lt⟩
      show (if _ then _ else _) = none
      rw [if_neg]
      rw [not_not]
      refine (hh t.head).trans ?_
      rw [if_neg hhead]
      simpa using h.head_used
    · refine ⟨_, L ++ [n], rfl, ?_, ?_, ?_, ?_, ?_, h.head_lt⟩
      · exact List.concat_eq_append ▸ h.nodup.concat hnL
      · exact List.forall_mem_append.mpr ⟨h.lt, by simpa using hlt⟩
      · intro i hi
        show (fillSlot t.slots num handler n L.getLast? i).handler ≠ 0
        rw [hh]
        by_cases hin : i = n
        · rw [if_pos hin]
          exact hf
        · rw [if_neg hin]
          exact h.used i ((List.mem_append.mp hi).resolve_right (by simpa using hin))
      · exact linked_fill h.linked h.nodup hnL hnext hprev
      · show (if _ then some t.head else none) = _
        have hstart : (L ++ [n]).head? = some t.head := by
          cases L with
          | nil =>
            rw [not_and_not_right] at hempty
            rw [hempty rfl]
            rfl
          | cons a L =>
            rw [h.head rfl]
            rfl
        rw [hstart, if_pos]
        show (fillSlot t.slots num handler n L.getLast? t.head).handler ≠ 0
        rw [hh]
        by_cases hin : t.head = n
        · rw [if_pos hin]
          exact hf
        · rw [if_neg hin]
          exact h.head_used.mpr fun hnil => hempty ⟨hnil, hin⟩

section

variable (slots : Nat → Handler) (p q : Option Nat) (i : Nat)

/-- A new `next` keeps every handler. -/
@[simp] theorem setNext_handler : (setNext slots p q i).handler = (slots i).handler := by
  cases p with
  | none => rfl
  | some p => by_cases hi : i = p <;> simp [setNext, hi]

/-- The `next` of all slots after one is set. -/
@[simp] theorem setNext_next :
    (setNext slots p q i).next = if p = some i then q else (slots i).next := by
  cases p with
  | none => rfl
  | some p => by_cases hi : i = p <;> simp [setNext, hi, eq_comm]

/-- A new `next` keeps every `prev`. -/
@[simp] theorem setNext_prev : (setNext slots p q i).prev = (slots i).prev := by
  cases p with
  | none => rfl
  | some p => by_cases hi : i = p <;> simp [setNext, hi]

/-- A new `prev` keeps every handler. -/
@[simp] theorem setPrev_handler : (setPrev slots q p i).handler = (slots i).handler := by
  cases q with
  | none => rfl
  | some q => by_cases hi : i = q <;> simp [setPrev, hi]

/-- A new `prev` keeps every `next`. -/
@[simp] theorem setPrev_next : (setPrev slots q p i).next = (slots i).next := by
  cases q with
  | none => rfl
  | some q => by_cases hi : i = q <;> simp [setPrev, hi]

/-- The `prev` of all slots after one is set. -/
@[simp] theorem setPrev_prev :
    (setPrev slots q p i).prev = if q = some i then p else (slots i).prev := by
  cases q with
  | none => rfl
  | some q => by_cases hi : i = q <;> simp [setPrev, hi, eq_comm]

end

/-- The fields after a slot has been taken out. -/
private theorem removeSlot_fields (t : Row) {h : Nat} (hp : (t.slots h).prev ≠ some h)
    (hq : (t.slots h).next ≠ some h) :
    (∀ i, ((removeSlot t h).slots i).handler = if i = h then 0 else (t.slots i).handler) ∧
    (∀ i, ((removeSlot t h).slots i).next =
      if (t.slots h).prev = some i then (t.slots h).next else (t.slots i).next) ∧
    (∀ i, ((removeSlot t h).slots i).prev =
      if (t.slots h).next = some i then (t.slots h).prev else (t.slots i).prev) ∧
    (removeSlot t h).head =
      if (t.slots h).prev = none then (t.slots h).next.getD t.head else t.head := by
  refine ⟨fun i => ?_, fun i => ?_, fun i => ?_, ?_⟩
  · by_cases hi : i = h <;> simp [removeSlot, hi]
  · by_cases hi : i = h <;> simp [removeSlot, hi, hp]
  · by_cases hi : i = h <;> simp [removeSlot, hi, hp, hq]
  · simp [removeSlot, hp, hq]

/-- A node of the chain is taken out of it. -/
theorem ChainOk.removeSlot {l r : List Nat} {a : Nat} (h : ChainOk t (l ++ a :: r)) :
    ChainOk (removeSlot t a) (l ++ r) ∧
      ∀ i, ((Toutatis.removeSlot t a).slots i).handler = if i = a then 0 else (t.slots i).handler := by
  obtain ⟨hl, hP, hQ, hr⟩ := linked_append.mp h.linked
  rw [Option.or_none] at hP hQ
  obtain ⟨hndl, hndr, hdisj⟩ := List.nodup_append.mp h.nodup
  obtain ⟨har, hndr⟩ := List.nodup_cons.mp hndr
  have hal : a ∉ l := fun ha => hdisj a ha a (by simp) rfl
  have hne : ∀ i ∈ l ++ r, i ≠ a := by
    rintro i hi rfl
    exact (List.mem_append.mp hi).elim hal har
  have hp : (t.slots a).prev ≠ some a := by
    rw [show (t.slots a).prev = _ from hP]
    exact fun he => hal (List.mem_of_getLast? he)
  have hq : (t.slots a).next ≠ some a := by
    rw [show (t.slots a).next = _ from hQ]
    exact fun he => har (List.mem_of_head? he)
  obtain ⟨hh, hnext, hprev, hhead⟩ := removeSlot_fields t hp hq
  simp only [show (t.slots a).prev = _ from hP, show (t.slots a).next = _ from hQ] at hnext hprev hhead
  have hmem : ∀ i ∈ l ++ r, i ∈ l ++ a :: r := by
    intro i hi
    simp at hi ⊢
    tauto
  have hused : ∀ i ∈ l ++ r, ((Toutatis.removeSlot t a).slots i).handler ≠ 0 := by
    intro i hi
    rw [hh, if_neg (hne i hi)]
    exact h.used i (hmem i hi)
  -- the head is the first of the rest, or the slot that has become free
  have hfirst : (Toutatis.removeSlot t a).head = ((l ++ r).head?).getD a := by
    rw [hhead]
    cases l with
    | nil =>
      cases r with
      | nil => exact h.head rfl
      | cons b r => rfl
    | cons b l =>
      rw [if_neg (by simp)]
      exact h.head rfl
  refine ⟨⟨?_, fun i hi => h.lt i (hmem i hi), hused, ?_, ?_, ?_⟩, hh⟩
  · exact List.nodup_append.mpr ⟨hndl, hndr, fun b hb c hc =>
      hdisj b hb c (List.mem_cons_of_mem a hc)⟩
  · refine h.linked.unlink h.nodup ?_ ?_ ?_ ?_
    · intro b hb
      rw [hnext, if_pos hb, Option.or_none]
    · intro b hb
      rw [hprev, if_pos hb, Option.or_none]
    · intro b _ hb
      rw [hnext, if_neg hb]
    · intro b _ hb
      rw [hprev, if_neg hb]
  · rw [getInterruptHandler, hfirst]
    cases hrest : (l ++ r).head? with
    | none =>
      rw [Option.getD_none, if_neg]
      rw [hh, if_pos rfl]
      exact not_not.mpr rfl
    | some b => rw [Option.getD_some, if_pos (hused b (List.mem_of_head? hrest))]
  · rw [hfirst]
    cases hrest : (l ++ r).head? with
    | none => exact h.lt a (by simp)
    | some b => exact h.lt b (hmem b (List.mem_of_head? hrest))

/-- A node is taken out of the list of a row. -/
theorem RowOk.removeSlot {l r : List Nat} {a : Nat} (h : RowOk t (l ++ a :: r)) :
    RowOk (removeSlot t a) (l ++ r) ∧
      ∀ i ∈ l ++ r, ((Toutatis.removeSlot t a).slots i).handler = (t.slots i).handler := by
  obtain ⟨hchain, hh⟩ := h.chainOk.removeSlot
  obtain ⟨-, hndr, hdisj⟩ := List.nodup_append.mp h.nodup
  have har := (List.nodup_cons.mp hndr).1
  have hal : a ∉ l := fun ha => hdisj a ha a (by simp) rfl
  refine ⟨⟨hchain.nodup, hchain.lt, ?_, hchain.linked, fun i hi => hchain.head hi,
    hchain.head_lt⟩, ?_⟩
  · intro i hi
    rw [hh]
    -- the slot is free now
    by_cases hia : i = a
    · subst hia
      simp [hal, har]
    · -- the other slots are in use as before
      rw [if_neg hia, h.used i hi]
      simp [hia]
  · -- their handlers are the same
    intro i hi
    rw [hh, if_neg]
    rintro rfl
    exact (List.mem_append.mp hi).elim hal har

/-- Taking out the last node with a handler. -/
theorem RowOk.removeSlot_map {l r : List Nat} {a : Nat} (h : RowOk t (l ++ a :: r))
    (hr : ∀ i ∈ r, (t.slots i).handler ≠ (t.slots a).handler) :
    (l ++ r).map (fun i => ((Toutatis.removeSlot t a).slots i).handler) =
      eraseLast ((l ++ a :: r).map fun i => (t.slots i).handler) (t.slots a).handler := by
  have hnot : (t.slots a).handler ∉ r.map fun i => (t.slots i).handler := by simpa using hr
  rw [List.map_congr_left h.removeSlot.2, List.map_append, List.map_append, List.map_cons,
    eraseLast_split hnot]

/-- The search from a node of the chain whose successors do not have the handler: it finds
    the last node that has it, or nothing. -/
theorem detachLoop_cases {l r : List Nat} {a fuel : Nat}
    (h : Linked (fun i => (t.slots i).next) (fun i => (t.slots i).prev) none (l ++ a :: r) none)
    (hr : ∀ i ∈ r, (t.slots i).handler ≠ handler) (hfuel : l.length < fuel) :
    (detachLoop t handler fuel a = some t ∧ ∀ i ∈ l ++ a :: r, (t.slots i).handler ≠ handler) ∨
    ∃ l' b r', l ++ a :: r = l' ++ b :: r' ∧ (t.slots b).handler = handler ∧
      (∀ i ∈ r', (t.slots i).handler ≠ handler) ∧
      detachLoop t handler fuel a = some (Toutatis.removeSlot t b) := by
  obtain ⟨fuel, rfl⟩ : ∃ n, fuel = n + 1 := ⟨fuel - 1, by omega⟩
  -- the source walks from the tail to the head, so the induction is on the part in front of the
  -- node
  induction l using List.reverseRecOn generalizing a r fuel with
  | nil =>
    rw [detachLoop]
    by_cases ha : (t.slots a).handler = handler
    · exact Or.inr ⟨[], a, r, rfl, ha, hr, if_pos ha⟩
    · have hprev : (t.slots a).prev = none := h.1
      refine Or.inl ⟨by rw [if_neg ha, hprev], ?_⟩
      intro i hi
      rcases List.mem_cons.mp hi with rfl | hi
      · exact ha
      · exact hr i hi
  | append_singleton l b ih =>
    rw [detachLoop]
    by_cases ha : (t.slots a).handler = handler
    · exact Or.inr ⟨l ++ [b], a, r, rfl, ha, hr, if_pos ha⟩
    · have hprev : (t.slots a).prev = some b := by
        have := (linked_append.mp h).2.1
        simpa using this
      obtain ⟨fuel, rfl⟩ : ∃ n, fuel = n + 1 := ⟨fuel - 1, by simp at hfuel; omega⟩
      have hsplit : l ++ [b] ++ a :: r = l ++ b :: (a :: r) := by simp
      rw [if_neg ha, hprev, hsplit]
      refine ih (hsplit ▸ h) (fun i hi => ?_) fuel (by simp at hfuel; omega)
      rcases List.mem_cons.mp hi with rfl | hi
      · exact ha
      · exact hr i hi

/-- `detach_interrupt_handler` changes nothing, or takes the last node with the handler out. -/
theorem ChainOk.detach_cases (h : ChainOk t L) (handler : Nat) :
    (detachRow t handler = some t ∧ ∀ i ∈ L, (t.slots i).handler ≠ handler) ∨
    ∃ l b r, L = l ++ b :: r ∧ (t.slots b).handler = handler ∧
      (∀ i ∈ r, (t.slots i).handler ≠ handler) ∧
      detachRow t handler = some (Toutatis.removeSlot t b) := by
  rw [detachRow]
  rcases List.eq_nil_or_concat L with rfl | ⟨l, a, rfl⟩
  · -- the row is empty
    exact Or.inl ⟨if_pos (by simpa using h.head_used), by simp⟩
  · -- the search starts at the tail
    rw [List.concat_eq_append] at *
    have htail := h.findTail_eq
    have hlen := h.length_le
    rw [findTail, if_neg (h.head_used.mpr (by simp))] at htail
    rw [if_neg (h.head_used.mpr (by simp))]
    have ha : tailLoop t.slots maxHandlers t.head = some a := by
      cases hl : tailLoop t.slots maxHandlers t.head with
      | none => rw [hl] at htail; simp at htail
      | some b => rw [hl] at htail; simpa using htail
    rw [ha, Option.bind_some]
    exact detachLoop_cases h.linked (by simp) (by simp at hlen; omega)

/-- Detaching returns, and keeps the links of the row. -/
theorem ChainOk.detach (h : ChainOk t L) (handler : Nat) :
    ∃ t' L', detachRow t handler = some t' ∧ ChainOk t' L' := by
  rcases h.detach_cases handler with ⟨hsame, -⟩ | ⟨l, b, r, rfl, -, -, hgone⟩
  · exact ⟨t, L, hsame, h⟩
  · exact ⟨_, _, hgone, h.removeSlot.1⟩

/-- **Detaching** removes the most recent registration of the handler. -/
theorem RowOk.detach (h : RowOk t L) (handler : Nat) :
    ∃ t' L', detachRow t handler = some t' ∧ RowOk t' L' ∧
      L'.map (fun i => (t'.slots i).handler) =
        eraseLast (L.map fun i => (t.slots i).handler) handler := by
  rcases h.chainOk.detach_cases handler with ⟨hsame, hnone⟩ | ⟨l, b, r, rfl, rfl, hr, hgone⟩
  · refine ⟨t, L, hsame, h, ?_⟩
    rw [eraseLast_of_notMem]
    simpa [eq_comm] using hnone
  · exact ⟨_, _, hgone, h.removeSlot.1, h.removeSlot_map hr⟩

end Row

/-! ## Runs -/

/-- A call on the registry. -/
inductive HandlerCall where
  | attach (num handler : Nat)
  | detach (num handler : Nat)

/-- `attach_interrupt_handler`. -/
def attachInterruptHandler (s : Nat → Row) (num handler : Nat) : Option (Nat → Row) :=
  (attachRow (s num) num handler).map (Function.update s num)

/-- `detach_interrupt_handler`. -/
def detachInterruptHandler (s : Nat → Row) (num handler : Nat) : Option (Nat → Row) :=
  (detachRow (s num) handler).map (Function.update s num)

/-- One call. -/
def HandlerCall.exec (s : Nat → Row) : HandlerCall → Option (Nat → Row)
  | .attach num handler => attachInterruptHandler s num handler
  | .detach num handler => detachInterruptHandler s num handler

/-- The static variables before the first call. -/
def noHandlers : Nat → Row := fun _ => ⟨fun _ => ⟨0, 0, 0, none, none⟩, 0⟩

/-- What a call does to the registered handlers, in order of registration. -/
def HandlerCall.register (reg : Nat → List Nat) : HandlerCall → Nat → List Nat
  | .attach num handler => Function.update reg num (reg num ++ [handler])
  | .detach num handler => Function.update reg num (eraseLast (reg num) handler)

/-- The handlers registered by a run. -/
def registered (calls : List HandlerCall) : Nat → List Nat :=
  calls.foldl HandlerCall.register fun _ => []

/-- The handler of a call. -/
def HandlerCall.handler : HandlerCall → Nat
  | .attach _ handler => handler
  | .detach _ handler => handler

/-- A handler is attached to a list that is not empty, or whose head index is 0. -/
def HandlerCall.Reaches (s : Nat → Row) : HandlerCall → Prop
  | .attach num _ => getInterruptHandler (s num) ≠ none ∨ (s num).head = 0
  | .detach _ _ => True

/-- The chain of every vector lists its registered handlers. -/
def Listed (s : Nat → Row) (reg : Nat → List Nat) : Prop :=
  ∀ num, ChainFrom (s num).slots (getInterruptHandler (s num)) (reg num) ∧
    (getInterruptHandler (s num) = none ↔ reg num = [])

/-- The invariant behind `Listed`. -/
def RegOk (s : Nat → Row) (reg : Nat → List Nat) : Prop :=
  ∀ num, ∃ L, RowOk (s num) L ∧ L.map (fun i => ((s num).slots i).handler) = reg num

section Runs

variable {s : Nat → Row} {reg : Nat → List Nat} {c : HandlerCall} {calls : List HandlerCall}

/-- The walks meet the registered handlers. -/
theorem RegOk.listed (h : RegOk s reg) : Listed s reg := by
  intro num
  obtain ⟨L, hL, hreg⟩ := h num
  rw [← hreg]
  refine ⟨hL.chainFrom, ?_⟩
  rw [hL.getInterruptHandler_eq]
  simp

/-- An empty row. -/
theorem rowOk_noHandlers (num : Nat) : RowOk (noHandlers num) [] := by
  refine ⟨List.nodup_nil, ?_, ?_, trivial, ?_, ?_⟩
  · simp
  · simp [noHandlers]
  · simp
  · exact Nat.zero_lt_succ _

/-- At the start nothing is registered. -/
theorem regOk_noHandlers : RegOk noHandlers fun _ => [] := fun num =>
  ⟨[], rowOk_noHandlers num, rfl⟩

/-- A row that has been replaced by a good one. -/
private theorem RegOk.update (h : RegOk s reg) {num : Nat} {t : Row} {L fs : List Nat}
    (hL : RowOk t L) (hfs : L.map (fun i => (t.slots i).handler) = fs) :
    RegOk (Function.update s num t) (Function.update reg num fs) := by
  intro k
  by_cases hk : k = num
  · subst hk
    exact ⟨L, by simpa using hL, by simpa using hfs⟩
  · simpa [hk] using h k

/-- A call that stays away from the wrong branch keeps the order. -/
theorem RegOk.step (h : RegOk s reg) (hf : c.handler ≠ 0)
    (hmax : ∀ num, (c.register reg num).length ≤ maxHandlers) (hr : c.Reaches s) :
    ∃ s', c.exec s = some s' ∧ RegOk s' (c.register reg) := by
  cases c with
  | attach num handler =>
    obtain ⟨L, hL, hreg⟩ := h num
    have hlen : L.length < maxHandlers := by
      have := hmax num
      simp only [HandlerCall.register, Function.update_self, ← hreg, List.length_append,
        List.length_map, List.length_singleton] at this
      omega
    -- the condition on the call is that slot 0 can be reached
    have hhead : L ≠ [] ∨ (s num).head = 0 := by
      refine hr.imp_left fun hne => ?_
      rintro rfl
      exact hne hL.getInterruptHandler_eq
    have hne : handler ≠ 0 := hf
    obtain ⟨t', L', ht', hL', hmap⟩ := hL.attach hlen hne hhead num
    rw [hreg] at hmap
    exact ⟨_, by rw [HandlerCall.exec, attachInterruptHandler, ht']; rfl, h.update hL' hmap⟩
  | detach num handler =>
    obtain ⟨L, hL, hreg⟩ := h num
    obtain ⟨t', L', ht', hL', hmap⟩ := hL.detach handler
    rw [hreg] at hmap
    exact ⟨_, by rw [HandlerCall.exec, detachInterruptHandler, ht']; rfl, h.update hL' hmap⟩

/-- A handler that is attached to an empty list with another head index is not listed. -/
theorem RegOk.not_listed (h : RegOk s reg) {num handler : Nat} {s' : Nat → Row}
    (hr : ¬ (HandlerCall.attach num handler).Reaches s)
    (hs' : (HandlerCall.attach num handler).exec s = some s') :
    ¬ Listed s' ((HandlerCall.attach num handler).register reg) := by
  obtain ⟨L, hL, hreg⟩ := h num
  rw [HandlerCall.Reaches, hL.getInterruptHandler_eq] at hr
  push Not at hr
  obtain ⟨hnone, hhead⟩ := hr
  obtain rfl : L = [] := by simpa using hnone
  obtain ⟨n, hn, -, -, hn0⟩ := hL.freeSlot_eq (by decide)
  obtain rfl := hn0 rfl
  have hempty : ((s num).slots (s num).head).handler = 0 := by simpa using hL.head_used
  -- the slot of the head is still free
  have hstill : (fillSlot (s num).slots num handler 0 none (s num).head).handler = 0 := by
    rw [(fillSlot_fields (s num).slots num handler 0 (by simp)).1, if_neg hhead, hempty]
  rw [HandlerCall.exec, attachInterruptHandler, attachRow, hL.chainOk.findTail_eq] at hs'
  simp only [List.getLast?_nil, Option.map_some, hn, Option.some.injEq] at hs'
  subst hs'
  intro hlisted
  have := (hlisted num).2.mp (by
    rw [Function.update_self, getInterruptHandler, if_neg]
    simpa using hstill)
  simp [HandlerCall.register] at this

/-- `registered` from any start. -/
private theorem listed_iff_each (h : RegOk s reg) (hf : ∀ c ∈ calls, c.handler ≠ 0)
    (hmax : ∀ pre, pre <+: calls → ∀ num,
      (pre.foldl HandlerCall.register reg num).length ≤ maxHandlers) :
    (∀ pre, pre <+: calls → ∃ s', execAll HandlerCall.exec s pre = some s' ∧
      Listed s' (pre.foldl HandlerCall.register reg)) ↔
    Each HandlerCall.exec HandlerCall.Reaches s calls := by
  induction calls generalizing s reg with
  | nil =>
    refine iff_of_true (fun pre hpre => ?_) trivial
    obtain rfl := List.prefix_nil.mp hpre
    exact ⟨s, rfl, h.listed⟩
  | cons c calls ih =>
    have hf' : ∀ c' ∈ calls, c'.handler ≠ 0 := fun c' hc' => hf c' (List.mem_cons_of_mem c hc')
    have hmax₁ := hmax [c] (by simp)
    have hmax' : ∀ pre, pre <+: calls → ∀ num,
        (pre.foldl HandlerCall.register (c.register reg) num).length ≤ maxHandlers :=
      fun pre hpre => hmax (c :: pre) (List.cons_prefix_cons.mpr ⟨rfl, hpre⟩)
    constructor
    · intro hall
      -- a handler that is attached out of reach is missing in the next state
      have hreach : c.Reaches s := by
        by_contra hr
        cases c with
        | attach num handler =>
          obtain ⟨s', hs', hlisted⟩ := hall [.attach num handler] (by simp)
          rw [execAll] at hs'
          cases he : HandlerCall.exec s (.attach num handler) with
          | none => rw [he] at hs'; simp at hs'
          | some s₁ =>
            rw [he] at hs'
            cases hs'
            exact h.not_listed hr he hlisted
        | detach num handler => exact hr trivial
      obtain ⟨s₁, hs₁, h₁⟩ := h.step (hf c (by simp)) hmax₁ hreach
      refine ⟨hreach, fun s' hs' => ?_⟩
      rw [hs₁, Option.some.injEq] at hs'
      subst hs'
      refine (ih h₁ hf' hmax').mp fun pre hpre => ?_
      obtain ⟨s', hs', hl⟩ := hall (c :: pre) (List.cons_prefix_cons.mpr ⟨rfl, hpre⟩)
      rw [execAll, hs₁, Option.bind_some] at hs'
      exact ⟨s', hs', hl⟩
    · rintro ⟨hreach, hrest⟩ pre hpre
      obtain ⟨s₁, hs₁, h₁⟩ := h.step (hf c (by simp)) hmax₁ hreach
      cases pre with
      | nil => exact ⟨s, rfl, h.listed⟩
      | cons d pre =>
        obtain ⟨rfl, hpre'⟩ := List.cons_prefix_cons.mp hpre
        obtain ⟨s', hs', hl⟩ := (ih h₁ hf' hmax').mpr (hrest s₁ hs₁) pre hpre'
        exact ⟨s', by rw [execAll, hs₁, Option.bind_some, hs'], hl⟩

/-- **The registry.** A run of calls with handlers that are not null, and with at most
    `MAX_HANDLERS` of them registered for a vector at a time, has in all its states the
    registered handlers of every vector in its chain, in order of registration, if and
    only if every attaching call finds the list of its vector not empty or its head
    index 0. -/
theorem chain_registered_iff (hf : ∀ c ∈ calls, c.handler ≠ 0)
    (hmax : ∀ pre, pre <+: calls → ∀ num, (registered pre num).length ≤ maxHandlers) :
    (∀ pre, pre <+: calls → ∃ s, execAll HandlerCall.exec noHandlers pre = some s ∧
      Listed s (registered pre)) ↔
    Each HandlerCall.exec HandlerCall.Reaches noHandlers calls :=
  listed_iff_each regOk_noHandlers hf hmax

/-- At most one handler is registered for each call. -/
theorem length_registered_le (calls : List HandlerCall) (num : Nat) :
    (registered calls num).length ≤ calls.length := by
  induction calls using List.reverseRecOn with
  | nil => exact Nat.le_refl 0
  | append_singleton calls c ih =>
    rw [registered, List.foldl_append]
    have hrec : (calls.foldl HandlerCall.register (fun _ => [])) num = registered calls num := rfl
    cases c with
    | attach k handler =>
      -- at most one handler more
      by_cases hk : num = k
      · subst hk; simp [HandlerCall.register, hrec, ih]
      · simp [HandlerCall.register, hk, hrec]; omega
    | detach k handler =>
      -- at most one handler less
      by_cases hk : num = k
      · subst hk
        have : ((registered calls num).reverse.erase handler).length ≤ _ := List.length_erase_le
        simp [HandlerCall.register, hrec, eraseLast] at this ⊢
        omega
      · simp [HandlerCall.register, hk, hrec]; omega

end Runs

/-- Two handlers, of which the first one goes. -/
theorem chain_registered_iff_two : ∃ s,
    execAll HandlerCall.exec noHandlers [.attach 32 1, .attach 32 2, .detach 32 1] = some s ∧
      Listed s (registered [.attach 32 1, .attach 32 2, .detach 32 1]) := by
  refine (chain_registered_iff (by decide) fun pre hpre num => ?_).mpr ?_ _ (List.prefix_refl _)
  · exact (length_registered_le pre num).trans (hpre.length_le.trans (by decide))
  · refine ⟨Or.inr rfl, fun s₁ h₁ => ?_⟩
    cases h₁
    refine ⟨Or.inl (by decide), fun s₂ h₂ => ?_⟩
    cases h₂
    exact ⟨trivial, fun _ _ => trivial⟩

/-- After both handlers have gone, the next one is out of reach. -/
theorem third_handler_unreachable : ∃ s,
    execAll HandlerCall.exec noHandlers
      [.attach 32 1, .attach 32 2, .detach 32 1, .detach 32 2, .attach 32 3] = some s ∧
    registered [.attach 32 1, .attach 32 2, .detach 32 1, .detach 32 2, .attach 32 3] 32 = [3] ∧
    getInterruptHandler (s 32) = none := by
  exact ⟨_, rfl, by decide, by decide⟩

/-! ## Dispatch -/

/-- Dispatch walks the chain. -/
theorem dispatchLoop_eq {slots : Nat → Handler} {p : Option Nat} {L : List Nat} {fuel : Nat}
    (h : Linked (fun i => (slots i).next) (fun i => (slots i).prev) p L none)
    (hfuel : L.length ≤ fuel) : dispatchLoop slots fuel L.head? = some L := by
  induction L generalizing p fuel with
  | nil =>
    cases fuel with
    | zero => rfl
    | succ fuel => rfl
  | cons a L ih =>
    obtain ⟨fuel, rfl⟩ : ∃ n, fuel = n + 1 := ⟨fuel - 1, by simp at hfuel; omega⟩
    have hnext : (slots a).next = L.head? := h.2.1.trans Option.or_none
    rw [List.head?_cons, dispatchLoop, hnext, ih h.2.2 (by simp at hfuel; omega)]
    rfl

/-- A row that has been replaced keeps the chains of the others. -/
private theorem chains_update {s : Nat → Row} (h : ∀ num, ∃ L, ChainOk (s num) L) {num : Nat}
    {t : Row} {L : List Nat} (hL : ChainOk t L) (k : Nat) :
    ∃ L, ChainOk (Function.update s num t k) L := by
  by_cases hk : k = num
  · subst hk
    rw [Function.update_self]
    exact ⟨L, hL⟩
  · rw [Function.update_of_ne hk]
    exact h k

/-- Every call keeps a chain in every row. -/
theorem HandlerCall.exec_chains {s : Nat → Row} {c : HandlerCall}
    (h : ∀ num, ∃ L, ChainOk (s num) L) (hf : c.handler ≠ 0) :
    ∃ s', c.exec s = some s' ∧ ∀ num, ∃ L, ChainOk (s' num) L := by
  cases c with
  | attach num handler =>
    obtain ⟨L, hL⟩ := h num
    obtain ⟨t', L', ht', hL'⟩ := hL.attach (show handler ≠ 0 from hf) num
    refine ⟨Function.update s num t', ?_, chains_update h hL'⟩
    rw [HandlerCall.exec, attachInterruptHandler, ht']
    rfl
  | detach num handler =>
    obtain ⟨L, hL⟩ := h num
    obtain ⟨t', L', ht', hL'⟩ := hL.detach handler
    refine ⟨Function.update s num t', ?_, chains_update h hL'⟩
    rw [HandlerCall.exec, detachInterruptHandler, ht']
    rfl

/-- **Dispatch terminates.** After every run of calls with handlers that are not null, whatever
    the order and however many, the walk of every vector ends within `MAX_HANDLERS` steps; it
    visits no slot twice, finds a handler in each, and along it `prev` is the inverse of
    `next`. -/
theorem dispatch_terminates (calls : List HandlerCall) (hf : ∀ c ∈ calls, c.handler ≠ 0) :
    ∃ s, execAll HandlerCall.exec noHandlers calls = some s ∧
    ∀ num, ∃ L, dispatchLoop (s num).slots maxHandlers (getInterruptHandler (s num)) = some L ∧
      L.Nodup ∧ L.length ≤ maxHandlers ∧
      (∀ i ∈ L, i < maxHandlers ∧ ((s num).slots i).handler ≠ 0) ∧
      ∀ i ∈ L, ∀ j,
        (((s num).slots i).next = some j → j ∈ L ∧ ((s num).slots j).prev = some i) ∧
        (((s num).slots i).prev = some j → j ∈ L ∧ ((s num).slots j).next = some i) := by
  -- ChainOk does not say that the head index leads to the chain, which a detach may break
  have hstart : ∀ num, ∃ L, ChainOk (noHandlers num) L :=
    fun num => ⟨[], (rowOk_noHandlers num).chainOk⟩
  obtain ⟨s, hs, hchains⟩ := exists_execAll
    (I := fun s : Nat → Row => ∀ num, ∃ L, ChainOk (s num) L)
    (fun s c h hc => HandlerCall.exec_chains h hc) hstart (each_of_forall fun c hc _ => hf c hc)
  refine ⟨s, hs, ?_⟩
  intro num
  obtain ⟨L, hL⟩ := hchains num
  refine ⟨L, ?_, hL.nodup, hL.length_le, fun i hi => ⟨hL.lt i hi, hL.used i hi⟩, ?_⟩
  · rw [hL.start]
    exact dispatchLoop_eq hL.linked hL.length_le
  · intro i hi j
    obtain ⟨hnext, hprev⟩ := hL.linked.inverse (c := j) hi
    refine ⟨hnext, fun h => ?_⟩
    exact (hprev h).resolve_left (by simp)

/-- A handler that is out of reach, and one attached twice behind it. -/
theorem dispatch_terminates_unreachable : ∃ s, execAll HandlerCall.exec noHandlers
    [.attach 32 1, .attach 32 2, .detach 32 1, .detach 32 2, .attach 32 3, .attach 32 3] = some s ∧
    ∃ L, dispatchLoop (s 32).slots maxHandlers (getInterruptHandler (s 32)) = some L := by
  obtain ⟨s, hs, h⟩ := dispatch_terminates [.attach 32 1, .attach 32 2, .detach 32 1,
    .detach 32 2, .attach 32 3, .attach 32 3] (by decide)
  obtain ⟨L, hL, -⟩ := h 32
  exact ⟨s, hs, L, hL⟩

end Toutatis
