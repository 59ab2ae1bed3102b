import Mathlib
import Toutatis.Lib.Links
import Toutatis.Lib.Run

/-!
# Vnodes

A shallow embedding of `kernel/vnode.c`. Nodes are records found under their address; a node
whose last reference is dropped goes to a free list of bounded length, or back to the heap.
What `kmalloc` returns is an argument of `vnode_init`, and what `reclaim` returns one of
`vnode_decref`. `none` stands for a failed assertion or `stop`.

Some fields are not in the source: `allocated` is the memory that `kmalloc` has handed out for
nodes, `refs` counts the references that clients hold, `inits` and `reclaims` the calls of
`vnode_init` that returned a node and the calls of its `reclaim`.

`ref_count` has 32 bits, and nothing stops `vnode_incref` from wrapping it around.

## Key results

- `VnodeOk.exec`: what a call preserves
- `vnodes_counted_iff`: the runs in which nodes are counted right
- `vnodes_miscounted`: a run in which they are not
- `releases_separate`: while no dead node is released, one is returned again only after its release
-/

namespace Toutatis

open Links Run

/-! ## Data -/

/-- `VNODE_CACHE_SIZE`. -/
def vnodeCacheSize : Nat := 100

/-- `struct vn_ops`, as far as it is used here; a null `reclaim` is `0`. -/
structure VnOps where
  reclaim : Nat

/-- `vnode_t`; `vfs` and `data` are addresses. -/
structure Vnode where
  refCount : Nat
  vfs : Nat
  freelist : Option Nat
  data : Nat
  ops : Option VnOps

/-- The state of `vnode.c`. -/
structure Vnodes where
  nodes : Nat → Vnode
  freelistSize : Nat
  freelistHead : Option Nat
  allocated : Nat → Bool
  refs : Nat → Nat
  inits : Nat → Nat
  reclaims : Nat → Nat

/-! ## Operations -/

/-- `vnode_get`; `fresh` is what `kmalloc` returns. -/
def vnodeGet (s : Vnodes) (fresh : Nat) : Option (Nat × Vnodes) :=
  if s.freelistSize > 0 then
    s.freelistHead.map fun node =>
      (node, { s with
        freelistHead := (s.nodes node).freelist
        freelistSize := s.freelistSize - 1 })
  else some (fresh, { s with allocated := Function.update s.allocated fresh true })

/-- `vnode_init`: the node it returns and the state. -/
def vnodeInit (s : Vnodes) (ops : Option VnOps) (vfs data fresh : Nat) : Option (Nat × Vnodes) :=
  if ops.isNone ∨ vfs = 0 then none
  else
    (vnodeGet s fresh).map fun (node, s) =>
      (node, { s with
        nodes := Function.update s.nodes node ⟨1, vfs, none, data, ops⟩
        refs := Function.update s.refs node (s.refs node + 1)
        inits := Function.update s.inits node (s.inits node + 1) })

/-- `vnode_kill`. -/
def vnodeKill (s : Vnodes) (node : Nat) : Option Vnodes :=
  if node = 0 ∨ (s.nodes node).refCount ≠ 1 then none
  else if s.freelistSize < vnodeCacheSize then
    some { s with
      nodes := Function.update s.nodes node { s.nodes node with freelist := s.freelistHead }
      freelistHead := some node
      freelistSize := s.freelistSize + 1 }
  else some { s with allocated := Function.update s.allocated node false }

/-- `vnode_incref`. -/
def vnodeIncref (s : Vnodes) (node : Nat) : Option Vnodes :=
  if node = 0 then none
  else
    some { s with
      nodes := Function.update s.nodes node
        { s.nodes node with refCount := ((s.nodes node).refCount + 1) % 2 ^ 32 }
      refs := Function.update s.refs node (s.refs node + 1) }

/-- `VOP_RECLAIM`, which stops when there is no such operation. -/
def vopReclaim (s : Vnodes) (node : Nat) : Option Vnodes :=
  match (s.nodes node).ops with
  | none => none
  | some ops =>
    if ops.reclaim = 0 then none
    else some { s with reclaims := Function.update s.reclaims node (s.reclaims node + 1) }

/-- `vnode_decref`; an error of `reclaim` is only reported. -/
def vnodeDecref (s : Vnodes) (node : Nat) : Option Vnodes :=
  let s' := { s with refs := Function.update s.refs node (s.refs node - 1) }
  if node = 0 ∨ (s.nodes node).refCount = 0 then none
  else if (s.nodes node).refCount > 1 then
    some { s' with
      nodes := Function.update s.nodes node
        { s.nodes node with refCount := (s.nodes node).refCount - 1 } }
  else (vopReclaim s' node).bind fun s' => vnodeKill s' node

/-- A call of a client. -/
inductive VnodeCall where
  | init (ops : Option VnOps) (vfs data fresh : Nat)
  | incref (node : Nat)
  | decref (node : Nat)

/-- One call. -/
def VnodeCall.exec (s : Vnodes) : VnodeCall → Option Vnodes
  | .init ops vfs data fresh => (vnodeInit s ops vfs data fresh).map Prod.snd
  | .incref node => vnodeIncref s node
  | .decref node => vnodeDecref s node

/-- `kmalloc` returns memory that is not in use, and a client names only nodes that it holds
    a reference to. -/
def VnodeCall.Valid (s : Vnodes) : VnodeCall → Prop
  | .init _ _ _ fresh => fresh ≠ 0 ∧ s.allocated fresh = false
  | .incref node => 0 < s.refs node
  | .decref node => 0 < s.refs node

instance (s : Vnodes) : (c : VnodeCall) → Decidable (c.Valid s)
  | .init _ _ _ fresh => inferInstanceAs (Decidable (fresh ≠ 0 ∧ s.allocated fresh = false))
  | .incref node => inferInstanceAs (Decidable (0 < s.refs node))
  | .decref node => inferInstanceAs (Decidable (0 < s.refs node))

/-- The start. -/
def startVnodes : Vnodes where
  nodes := fun _ => ⟨0, 0, none, 0, none⟩
  freelistSize := 0
  freelistHead := none
  allocated := fun _ => false
  refs := fun _ => 0
  inits := fun _ => 0
  reclaims := fun _ => 0

/-! ## What is to hold -/

/-- Nodes are counted right: the count of a live node is the number of its references, every
    lifetime but that of a live node has ended with one call of `reclaim`, and the free list
    holds as many nodes as it says, all different and none of them live. -/
structure Counted (s : Vnodes) : Prop where
  refs : ∀ a, 0 < s.refs a → (s.nodes a).refCount = s.refs a
  lives : ∀ a, s.inits a = s.reclaims a + if 0 < s.refs a then 1 else 0
  size_le : s.freelistSize ≤ vnodeCacheSize
  list : ∃ l, Chained (fun a => (s.nodes a).freelist) s.freelistHead l ∧ l.Nodup ∧
    l.length = s.freelistSize ∧ ∀ a ∈ l, s.refs a = 0

/-- `vnode_init` returns a node without references, and `vnode_decref` calls `reclaim` when
    it gives back the last one and only then. -/
def CallOk (s : Vnodes) : VnodeCall → Prop
  | .init ops vfs data fresh => ∀ r, vnodeInit s ops vfs data fresh = some r → s.refs r.1 = 0
  | .incref _ => True
  | .decref node => ∀ s', vnodeDecref s node = some s' →
      s'.reclaims node = s.reclaims node + if s.refs node = 1 then 1 else 0

/-- The count does not wrap around. -/
def VnodeCall.NoWrap (s : Vnodes) : VnodeCall → Prop
  | .incref node => (s.nodes node).refCount ≠ 2 ^ 32 - 1
  | _ => True

instance (s : Vnodes) : (c : VnodeCall) → Decidable (c.NoWrap s)
  | .incref node => inferInstanceAs (Decidable ((s.nodes node).refCount ≠ 2 ^ 32 - 1))
  | .init _ _ _ _ => inferInstanceAs (Decidable True)
  | .decref _ => inferInstanceAs (Decidable True)

/-! ## The invariant -/

/-- The invariant, with the free list. -/
structure VnodeOk (s : Vnodes) (l : List Nat) : Prop where
  chained : Chained (fun a => (s.nodes a).freelist) s.freelistHead l
  nodup : l.Nodup
  size : l.length = s.freelistSize
  size_le : s.freelistSize ≤ vnodeCacheSize
  dead : ∀ a ∈ l, s.refs a = 0
  null : s.allocated 0 = false
  owned : ∀ a, s.allocated a = true ↔ 0 < s.refs a ∨ a ∈ l
  refs : ∀ a, 0 < s.refs a → (s.nodes a).refCount = s.refs a
  count_lt : ∀ a, (s.nodes a).refCount < 2 ^ 32
  lives : ∀ a, s.inits a = s.reclaims a + if 0 < s.refs a then 1 else 0

section

variable {s s' : Vnodes} {l : List Nat} {node : Nat}

theorem VnodeOk.counted (h : VnodeOk s l) : Counted s :=
  ⟨h.refs, h.lives, h.size_le, l, h.chained, h.nodup, h.size, h.dead⟩

theorem VnodeOk.ne_zero (h : VnodeOk s l) (hnode : 0 < s.refs node) : node ≠ 0 := by
  rintro rfl
  have howned := (h.owned 0).mpr (Or.inl hnode)
  rw [h.null] at howned
  exact Bool.noConfusion howned

/-- **`vnode_get`** takes the first node of the free list, or fresh memory. -/
theorem VnodeOk.get (h : VnodeOk s l) {fresh : Nat} (hnull : fresh ≠ 0)
    (hfresh : s.allocated fresh = false) :
    ∃ node s₁ l₁, vnodeGet s fresh = some (node, s₁) ∧
      s₁ = { s with
        freelistSize := s₁.freelistSize
        freelistHead := s₁.freelistHead
        allocated := s₁.allocated } ∧
      node ≠ 0 ∧ node ∉ l₁ ∧ s.refs node = 0 ∧
      Chained (fun a => (s.nodes a).freelist) s₁.freelistHead l₁ ∧ l₁.Nodup ∧
      l₁.length = s₁.freelistSize ∧ s₁.freelistSize ≤ vnodeCacheSize ∧
      (∀ a ∈ l₁, s.refs a = 0) ∧ s₁.allocated 0 = false ∧
      ∀ a, s₁.allocated a = true ↔ (0 < s.refs a ∨ a ∈ l₁) ∨ a = node := by
  have hsize := h.size
  have hle := h.size_le
  cases l with
  | nil =>
    -- the free list is empty: the heap gives a new node
    rw [List.length_nil] at hsize
    refine ⟨fresh, _, [], if_neg (by omega), rfl, hnull, by simp, ?_, h.chained, List.nodup_nil,
      hsize, hle, by simp, ?_, fun a => ?_⟩
    · by_contra hne
      have howned := (h.owned fresh).mpr (Or.inl (Nat.pos_of_ne_zero hne))
      rw [hfresh] at howned
      exact Bool.noConfusion howned
    · simp only [Function.update_of_ne hnull.symm, h.null]
    · by_cases ha : a = fresh
      · simp [ha]
      · simpa [Function.update_of_ne ha, ha] using h.owned a
  | cons node l =>
    -- the first node of the free list
    obtain ⟨hhead, hrest⟩ := h.chained
    rw [List.length_cons] at hsize
    have hnode : node ≠ 0 := by
      rintro rfl
      have howned := (h.owned 0).mpr (Or.inr (by simp))
      rw [h.null] at howned
      exact Bool.noConfusion howned
    refine ⟨node, { s with
      freelistHead := (s.nodes node).freelist
      freelistSize := s.freelistSize - 1 }, l, ?_, rfl, hnode, (List.nodup_cons.mp h.nodup).1,
      h.dead node (by simp), hrest, (List.nodup_cons.mp h.nodup).2, ?_, ?_,
      fun a ha => h.dead a (by simp [ha]), h.null, fun a => ?_⟩
    · rw [vnodeGet, if_pos (by omega), hhead, Option.map_some]
    · simp only
      omega
    · simp only
      omega
    · rw [h.owned a, List.mem_cons]
      tauto

/-- **`vnode_init`** returns a node without references. -/
theorem VnodeOk.init (h : VnodeOk s l) {ops : Option VnOps} {vfs data fresh : Nat}
    (hnull : fresh ≠ 0) (hfresh : s.allocated fresh = false) {r : Nat × Vnodes}
    (hr : vnodeInit s ops vfs data fresh = some r) :
    s.refs r.1 = 0 ∧ ∃ l', VnodeOk r.2 l' := by
  obtain ⟨node, s₁, l₁, hget, heq, hnode, hnot, hdead, hchain, hnodup, hsize, hle, hlist, h0,
    howned⟩ := h.get hnull hfresh
  rw [vnodeInit] at hr
  split at hr
  · exact absurd hr (by simp)
  · rw [hget, Option.map_some, Option.some.injEq] at hr
    subst hr
    have hrefs : s₁.refs = s.refs := by rw [heq]
    have hnodes : s₁.nodes = s.nodes := by rw [heq]
    have hinits : s₁.inits = s.inits := by rw [heq]
    have hreclaims : s₁.reclaims = s.reclaims := by rw [heq]
    -- the node gets its first reference, and leaves the free list for good
    refine ⟨hdead, l₁, ?_, hnodup, hsize, hle, fun a ha => ?_, h0, fun a => ?_, fun a ha => ?_,
      fun a => ?_, fun a => ?_⟩
    · refine hchain.congr fun b hb => ?_
      have hne : b ≠ node := fun heq => hnot (heq ▸ hb)
      simp only [hnodes, Function.update_of_ne hne]
    · have hne : a ≠ node := fun heq => hnot (heq ▸ ha)
      simp only [hrefs, Function.update_of_ne hne]
      exact hlist a ha
    · simp only [hrefs, howned a]
      by_cases ha : a = node
      · simp [ha]
      · simp [ha]
    · simp only [hrefs, hnodes] at ha ⊢
      by_cases hne : a = node
      · simp [hne, hdead]
      · rw [Function.update_of_ne hne] at ha ⊢
        rw [Function.update_of_ne hne]
        exact h.refs a ha
    · simp only [hnodes]
      by_cases hne : a = node
      · simp [hne]
      · rw [Function.update_of_ne hne]
        exact h.count_lt a
    · have hlives := h.lives a
      simp only [hrefs, hinits, hreclaims]
      by_cases hne : a = node
      · simp [hne, hdead] at hlives ⊢
        exact hlives
      · rw [Function.update_of_ne hne, Function.update_of_ne hne]
        exact hlives

/-- Only the count of a node with references changes, together with them. -/
private theorem VnodeOk.recount (h : VnodeOk s l) (hnode : 0 < s.refs node) {n : Nat} (hn : 0 < n)
    (hlt : n < 2 ^ 32) :
    VnodeOk { s with
      nodes := Function.update s.nodes node { s.nodes node with refCount := n }
      refs := Function.update s.refs node n } l := by
  -- a node of the free list has no reference, so this one is not on the list
  have hnot : node ∉ l := fun hmem => by
    have := h.dead node hmem
    omega
  refine ⟨?_, h.nodup, h.size, h.size_le, fun a ha => ?_, h.null, fun a => ?_, fun a ha => ?_,
    fun a => ?_, fun a => ?_⟩
  · apply h.chained.congr
    intro b hb
    have hne : b ≠ node := fun heq => hnot (heq ▸ hb)
    simp only [Function.update_of_ne hne]
  · have hne : a ≠ node := fun heq => hnot (heq ▸ ha)
    simp only [Function.update_of_ne hne]
    exact h.dead a ha
  · rw [h.owned a]
    by_cases ha : a = node
    · simp [ha, hnode, hn]
    · simp [Function.update_of_ne ha]
  · by_cases hne : a = node
    · simp only [hne, Function.update_self]
    · simp only [Function.update_of_ne hne] at ha ⊢
      exact h.refs a ha
  · by_cases hne : a = node
    · simp only [hne, Function.update_self]
      exact hlt
    · simp only [Function.update_of_ne hne]
      exact h.count_lt a
  · have hlives := h.lives a
    by_cases hne : a = node
    · subst hne
      simp only [Function.update_self, if_pos hn]
      rwa [if_pos hnode] at hlives
    · simp only [Function.update_of_ne hne]
      exact hlives

/-- **`vnode_incref`**, when the count does not wrap around. -/
theorem VnodeOk.incref (h : VnodeOk s l) (hnode : 0 < s.refs node)
    (hwrap : (s.nodes node).refCount ≠ 2 ^ 32 - 1) (hs' : vnodeIncref s node = some s') :
    VnodeOk s' l := by
  have hcount := h.refs node hnode
  have hlt := h.count_lt node
  have hsucc : ((s.nodes node).refCount + 1) % 2 ^ 32 = s.refs node + 1 := by
    rw [Nat.mod_eq_of_lt (by omega), hcount]
  rw [vnodeIncref, if_neg (h.ne_zero hnode), Option.some.injEq, hsucc] at hs'
  subst hs'
  exact h.recount hnode (Nat.succ_pos _) (by omega)

/-- **`vnode_decref`** of one of several references. -/
theorem VnodeOk.decref_keep (h : VnodeOk s l) (hnode : 1 < s.refs node)
    (hs' : vnodeDecref s node = some s') :
    VnodeOk s' l ∧ s'.reclaims = s.reclaims := by
  have hcount := h.refs node (by omega)
  have hlt := h.count_lt node
  have hne := h.ne_zero (Nat.lt_of_succ_lt hnode)
  rw [vnodeDecref] at hs'
  simp only at hs'
  rw [if_neg (by omega), if_pos (by omega), Option.some.injEq, hcount] at hs'
  subst hs'
  exact ⟨h.recount (by omega) (by omega) (by omega), rfl⟩

/-- **`vnode_decref`** of the last reference: the node is reclaimed, and goes to the free list
    or to the heap. -/
theorem VnodeOk.decref_last (h : VnodeOk s l) (hnode : s.refs node = 1)
    (hs' : vnodeDecref s node = some s') :
    (∃ l', VnodeOk s' l') ∧ s'.reclaims node = s.reclaims node + 1 := by
  have hcount := h.refs node (by omega)
  have hne0 := h.ne_zero (show 0 < s.refs node by omega)
  have hnot : node ∉ l := fun hmem => by
    have := h.dead node hmem
    omega
  rw [vnodeDecref] at hs'
  simp only at hs'
  rw [if_neg (by omega), if_neg (by omega), Option.bind_eq_some_iff] at hs'
  obtain ⟨s₁, hs₁, hkill⟩ := hs'
  -- after `reclaim`
  obtain rfl : s₁ = { s with
      refs := Function.update s.refs node (s.refs node - 1)
      reclaims := Function.update s.reclaims node (s.reclaims node + 1) } := by
    rw [vopReclaim] at hs₁
    split at hs₁
    · exact absurd hs₁ (by simp)
    · split at hs₁
      · exact absurd hs₁ (by simp)
      · exact (Option.some.inj hs₁).symm
  have hrefs : ∀ a, Function.update s.refs node (s.refs node - 1) a =
      if a = node then 0 else s.refs a := by
    intro a
    by_cases ha : a = node
    · rw [ha, Function.update_self, if_pos rfl, hnode]
    · rw [Function.update_of_ne ha, if_neg ha]
  have hlives : ∀ a, s.inits a = Function.update s.reclaims node (s.reclaims node + 1) a +
      if 0 < (if a = node then 0 else s.refs a) then 1 else 0 := by
    intro a
    have hlives := h.lives a
    by_cases ha : a = node
    · subst ha
      simpa [hnode] using hlives
    · rwa [Function.update_of_ne ha, if_neg ha]
  have hdead : ∀ a ∈ l, (if a = node then 0 else s.refs a) = 0 := by
    intro a ha
    split
    · rfl
    · exact h.dead a ha
  have hsize := h.size
  rw [vnodeKill] at hkill
  simp only at hkill
  rw [if_neg (by omega)] at hkill
  split at hkill
  · -- the free list has room
    rename_i hroom
    obtain rfl := Option.some.inj hkill
    refine ⟨⟨node :: l, ⟨rfl, ?_⟩, List.nodup_cons.mpr ⟨hnot, h.nodup⟩, ?_, hroom, fun a ha => ?_,
      h.null, fun a => ?_, fun a ha => ?_, fun a => ?_, fun a => ?_⟩, by simp⟩
    · simp only [Function.update_self]
      refine h.chained.congr fun b hb => ?_
      have hne : b ≠ node := fun heq => hnot (heq ▸ hb)
      simp only [Function.update_of_ne hne]
    · rw [List.length_cons, hsize]
    · simp only [hrefs]
      rcases List.mem_cons.mp ha with rfl | ha
      · exact if_pos rfl
      · exact hdead a ha
    · simp only [hrefs, h.owned a, List.mem_cons]
      by_cases ha : a = node
      · simp [ha, hnode]
      · simp [ha]
    · simp only [hrefs] at ha ⊢
      have hne : a ≠ node := by
        rintro rfl
        simp at ha
      rw [Function.update_of_ne hne, if_neg hne]
      rw [if_neg hne] at ha
      exact h.refs a ha
    · by_cases hne : a = node
      · simp only [hne, Function.update_self]
        exact h.count_lt node
      · simp only [Function.update_of_ne hne]
        exact h.count_lt a
    · simp only [hrefs]
      exact hlives a
  · -- the node goes back to the heap
    obtain rfl := Option.some.inj hkill
    refine ⟨⟨l, h.chained, h.nodup, hsize, h.size_le, fun a ha => ?_, ?_, fun a => ?_,
      fun a ha => ?_, h.count_lt, fun a => ?_⟩, by simp⟩
    · simp only [hrefs]
      exact hdead a ha
    · simp only [Function.update_of_ne hne0.symm]
      exact h.null
    · simp only [hrefs]
      by_cases ha : a = node
      · simp [ha, hnot]
      · simpa [Function.update_of_ne ha, ha] using h.owned a
    · simp only [hrefs] at ha ⊢
      have hne : a ≠ node := by
        rintro rfl
        simp at ha
      rw [if_neg hne] at ha ⊢
      exact h.refs a ha
    · simp only [hrefs]
      exact hlives a

/-- **What a call preserves.** -/
theorem VnodeOk.exec (h : VnodeOk s l) {c : VnodeCall} (hc : c.Valid s) (hwrap : c.NoWrap s)
    (hs' : c.exec s = some s') : ∃ l', VnodeOk s' l' := by
  cases c with
  | init ops vfs data fresh =>
    rw [VnodeCall.exec, Option.map_eq_some_iff] at hs'
    obtain ⟨r, hr, rfl⟩ := hs'
    exact (h.init hc.1 hc.2 hr).2
  | incref node => exact ⟨l, h.incref hc hwrap hs'⟩
  | decref node =>
    by_cases hlast : s.refs node = 1
    · exact (h.decref_last hlast hs').1
    · have hc : 0 < s.refs node := hc
      exact ⟨l, (h.decref_keep (by omega) hs').1⟩

/-- What a call returns and whom it reclaims. -/
theorem VnodeOk.callOk (h : VnodeOk s l) {c : VnodeCall} (hc : c.Valid s) : CallOk s c := by
  cases c with
  | init ops vfs data fresh => exact fun r hr => (h.init hc.1 hc.2 hr).1
  | incref node => trivial
  | decref node =>
    intro s' hs'
    by_cases hlast : s.refs node = 1
    · rw [if_pos hlast]
      exact (h.decref_last hlast hs').2
    · have hc : 0 < s.refs node := hc
      rw [if_neg hlast, (h.decref_keep (by omega) hs').2, Nat.add_zero]

/-- A count that wraps around is wrong at once. -/
theorem VnodeOk.noWrap (h : VnodeOk s l) {c : VnodeCall} (hc : c.Valid s)
    (hnext : ∀ s', c.exec s = some s' → Counted s') : c.NoWrap s := by
  cases c with
  | init ops vfs data fresh => trivial
  | decref node => trivial
  | incref node =>
    intro hmax
    have hnode : 0 < s.refs node := hc
    have hcounted := (hnext _ (if_neg (h.ne_zero hnode))).refs node
    simp only [Function.update_self, hmax] at hcounted
    exact absurd (hcounted (Nat.succ_pos _)) (by simp)

end

/-- The start has an empty free list. -/
theorem vnodeOk_start : VnodeOk startVnodes [] :=
  ⟨rfl, List.nodup_nil, rfl, by decide, by simp, rfl, by simp [startVnodes],
    by simp [startVnodes], by simp [startVnodes], by simp [startVnodes]⟩

/-- **Lifetimes of vnodes.** Take any run of calls that name only nodes the client holds a
    reference to. In every state of the run nodes are counted right, `vnode_init` always
    returns a node without references, and `vnode_decref` calls `reclaim` just for the last
    reference, if and only if no call of `vnode_incref` finds a count of `2 ^ 32 - 1`. -/
theorem vnodes_counted_iff {calls : List VnodeCall}
    (hvalid : Each VnodeCall.exec VnodeCall.Valid startVnodes calls) :
    (∀ pre post, calls = pre ++ post → ∀ s, execAll VnodeCall.exec startVnodes pre = some s →
      Counted s ∧ ∀ c next, post = c :: next → CallOk s c) ↔
    Each VnodeCall.exec VnodeCall.NoWrap startVnodes calls := by
  refine forall_split_iff (I := fun s => ∃ l, VnodeOk s l) ?_ ?_ ?_ ?_ ⟨[], vnodeOk_start⟩ hvalid
  · rintro s ⟨l, h⟩
    exact h.counted
  · rintro s c s' ⟨l, h⟩ hc hwrap hs'
    exact h.exec hc hwrap hs'
  · rintro s c ⟨l, h⟩ hc -
    exact h.callOk hc
  · rintro s c ⟨l, h⟩ hc - hnext
    exact h.noWrap hc hnext

/-- A node that is made, referenced twice and given up. -/
def oneVnode : List VnodeCall := [.init (some ⟨1⟩) 1 0 8, .incref 8, .decref 8, .decref 8]

/-- Nodes are counted right in a run of four calls. -/
theorem vnodes_counted_iff_oneVnode :
    Each VnodeCall.exec VnodeCall.Valid startVnodes oneVnode ∧
      ∀ s, execAll VnodeCall.exec startVnodes oneVnode = some s → Counted s := by
  have hvalid : Each VnodeCall.exec VnodeCall.Valid startVnodes oneVnode := by
    refine ⟨⟨by decide, rfl⟩, fun s hs => ?_⟩
    cases hs
    refine ⟨by decide, fun s hs => ?_⟩
    cases hs
    refine ⟨by decide, fun s hs => ?_⟩
    cases hs
    exact ⟨by decide, fun s _ => trivial⟩
  refine ⟨hvalid, fun s hs => ?_⟩
  refine ((vnodes_counted_iff hvalid).mpr ?_ oneVnode [] rfl s hs).1
  refine ⟨trivial, fun s hs => ?_⟩
  cases hs
  refine ⟨by decide, fun s hs => ?_⟩
  exact ⟨trivial, fun s _ => ⟨trivial, fun s _ => trivial⟩⟩

/-- `k` calls of `vnode_incref` for one node. -/
theorem incref_replicate {s : Vnodes} {node : Nat} (hnode : node ≠ 0) (hrefs : 0 < s.refs node)
    (hlt : (s.nodes node).refCount < 2 ^ 32) (k : Nat) :
    Each VnodeCall.exec VnodeCall.Valid s (List.replicate k (.incref node)) ∧
      ∃ s', execAll VnodeCall.exec s (List.replicate k (.incref node)) = some s' ∧
        s'.refs node = s.refs node + k ∧
        (s'.nodes node).refCount = ((s.nodes node).refCount + k) % 2 ^ 32 := by
  induction k generalizing s with
  | zero => exact ⟨trivial, s, rfl, rfl, (Nat.mod_eq_of_lt hlt).symm⟩
  | succ k ih =>
    have hexec : vnodeIncref s node = some _ := if_neg hnode
    rw [List.replicate_succ]
    -- the references are counted in Nat, ref_count modulo 2 ^ 32
    have hnext := @ih { s with
      nodes := Function.update s.nodes node
        { s.nodes node with refCount := ((s.nodes node).refCount + 1) % 2 ^ 32 }
      refs := Function.update s.refs node (s.refs node + 1) } (by simp)
      (by simp only [Function.update_self]; omega)
    simp only [Function.update_self] at hnext
    obtain ⟨hvalid, s', hs', hrefs', hcount'⟩ := hnext
    refine ⟨⟨hrefs, fun t ht => ?_⟩, s', ?_, ?_, ?_⟩
    · rw [VnodeCall.exec, hexec] at ht
      cases ht
      exact hvalid
    · rw [execAll, VnodeCall.exec, hexec, Option.bind_some]
      exact hs'
    · omega
    · omega

/-- After `2 ^ 32 - 1` calls of `vnode_incref` the count of a live node is `0`. -/
theorem vnodes_miscounted :
    ∃ calls s, Each VnodeCall.exec VnodeCall.Valid startVnodes calls ∧
      execAll VnodeCall.exec startVnodes calls = some s ∧
      s.refs 8 = 2 ^ 32 ∧ (s.nodes 8).refCount = 0 := by
  obtain ⟨s₁, hs₁, hrefs, hcount⟩ : ∃ s₁,
      VnodeCall.exec startVnodes (.init (some ⟨1⟩) 1 0 8) = some s₁ ∧ s₁.refs 8 = 1 ∧
        (s₁.nodes 8).refCount = 1 := ⟨_, rfl, rfl, rfl⟩
  obtain ⟨hvalid, s, hs, hrefs', hcount'⟩ := incref_replicate (s := s₁) (by decide : 8 ≠ 0)
    (by omega) (by omega) (2 ^ 32 - 1)
  refine ⟨.init (some ⟨1⟩) 1 0 8 :: List.replicate (2 ^ 32 - 1) (.incref 8), s, ⟨⟨by decide, rfl⟩,
    fun t ht => ?_⟩, ?_, ?_, ?_⟩
  · rw [hs₁] at ht
    cases ht
    exact hvalid
  · rw [execAll, hs₁, Option.bind_some]
    -- all references are released, but the count wraps around
    exact hs
  · omega
  · omega

/-! ## Releases -/

/-- The free list ends, and no node is in it twice. -/
def FreelistSimple (s : Vnodes) : Prop :=
  ∃ l, Chained (fun a => (s.nodes a).freelist) s.freelistHead l ∧ l.Nodup

/-- `kmalloc` returns memory that is not in use, clients name nodes that have memory, and release
    none that is on the free list: its last reference was dropped when it went there. -/
def VnodeCall.NotDead (s : Vnodes) : VnodeCall → Prop
  | .init _ _ _ fresh => fresh ≠ 0 ∧ s.allocated fresh = false
  | .incref node => s.allocated node = true
  | .decref node => s.allocated node = true ∧
      ∀ l, Chained (fun a => (s.nodes a).freelist) s.freelistHead l → node ∉ l

/-- The free list with its size; its nodes have memory. -/
structure ListOk (s : Vnodes) (l : List Nat) : Prop where
  chained : Chained (fun a => (s.nodes a).freelist) s.freelistHead l
  nodup : l.Nodup
  size : l.length = s.freelistSize
  owned : ∀ a ∈ l, s.allocated a = true

/-- A node with memory that is not on the free list. -/
def InUse (s : Vnodes) (l : List Nat) (a : Nat) : Prop := s.allocated a = true ∧ a ∉ l

section

variable {s s' : Vnodes} {l : List Nat} {node a : Nat}

/-- **`vnode_init`** takes the first node of the free list, or fresh memory: no node that is in
    use. -/
theorem ListOk.init (h : ListOk s l) {ops : Option VnOps} {vfs data fresh : Nat}
    (hfresh : s.allocated fresh = false) {r : Nat × Vnodes}
    (hr : vnodeInit s ops vfs data fresh = some r) :
    ∃ l', ListOk r.2 l' ∧ InUse r.2 l' r.1 ∧ ∀ a, InUse s l a → a ≠ r.1 ∧ InUse r.2 l' a := by
  have hsize := h.size
  rw [vnodeInit] at hr
  split at hr
  · exact absurd hr (by simp)
  · obtain ⟨⟨node, s₁⟩, hget, rfl⟩ := Option.map_eq_some_iff.mp hr
    rw [vnodeGet] at hget
    cases l with
    | nil =>
      -- the free list is empty: the heap gives a new node
      rw [List.length_nil] at hsize
      rw [if_neg (by omega), Option.some.injEq, Prod.mk.injEq] at hget
      obtain ⟨rfl, rfl⟩ := hget
      refine ⟨[], ⟨h.chained, List.nodup_nil, hsize, by simp⟩, ⟨Function.update_self _ _ _, by simp⟩,
        fun a ha => ?_⟩
      have hne : a ≠ fresh := by
        rintro rfl
        exact absurd (hfresh.symm.trans ha.1) (by decide)
      exact ⟨hne, (Function.update_of_ne hne _ _).trans ha.1, by simp⟩
    | cons b l =>
      obtain ⟨hhead, hrest⟩ := h.chained
      rw [List.length_cons] at hsize
      rw [if_pos (by omega), hhead, Option.map_some, Option.some.injEq, Prod.mk.injEq] at hget
      obtain ⟨rfl, rfl⟩ := hget
      obtain ⟨hnot, hnodup⟩ := List.nodup_cons.mp h.nodup
      refine ⟨l, ⟨hrest.congr fun c hc => ?_, hnodup, ?_, fun c hc => ?_⟩,
        ⟨h.owned b List.mem_cons_self, hnot⟩, fun a ha => ⟨?_, ha.1, ?_⟩⟩
      · have hne : c ≠ b := fun heq => hnot (heq ▸ hc)
        simp only [Function.update_of_ne hne]
      · simp only
        omega
      · exact h.owned c (List.mem_cons_of_mem b hc)
      · rintro rfl
        exact ha.2 List.mem_cons_self
      · exact fun hmem => ha.2 (List.mem_cons_of_mem b hmem)

/-- A count that changes is no link. -/
theorem ListOk.recount (h : ListOk s l) (n : Nat) (refs : Nat → Nat) : ListOk { s with
    nodes := Function.update s.nodes node { s.nodes node with refCount := n }
    refs := refs } l := by
  refine ⟨h.chained.congr fun b _ => ?_, h.nodup, h.size, h.owned⟩
  by_cases hb : b = node
  · rw [hb]
    simp only [Function.update_self]
  · simp only [Function.update_of_ne hb]

/-- **`vnode_decref`** of a node that is not on the free list. A node goes out of use only with its
    last reference. -/
theorem ListOk.decref (h : ListOk s l) (hnode : InUse s l node)
    (hs' : vnodeDecref s node = some s') :
    ∃ l', ListOk s' l' ∧
      ∀ a, InUse s l a → (a = node → (s.nodes node).refCount ≠ 1) → InUse s' l' a := by
  rw [vnodeDecref] at hs'
  simp only at hs'
  split at hs'
  · exact absurd hs' (by simp)
  · split at hs'
    · obtain rfl := Option.some.inj hs'
      exact ⟨l, h.recount _ _, fun a ha _ => ha⟩
    · obtain ⟨s₁, hs₁, hkill⟩ := Option.bind_eq_some_iff.mp hs'
      -- reclaim leaves the list and the memory alone
      obtain ⟨hnodes, hhead, hfree, halloc⟩ : s₁.nodes = s.nodes ∧
          s₁.freelistHead = s.freelistHead ∧ s₁.freelistSize = s.freelistSize ∧
          s₁.allocated = s.allocated := by
        rw [vopReclaim] at hs₁
        split at hs₁
        · exact absurd hs₁ (by simp)
        · split at hs₁
          · exact absurd hs₁ (by simp)
          · rw [← Option.some.inj hs₁]
            exact ⟨rfl, rfl, rfl, rfl⟩
      have hcount : (s.nodes node).refCount = 1 := by omega
      have hother : ∀ {a}, (a = node → (s.nodes node).refCount ≠ 1) → a ≠ node :=
        fun hlast heq => hlast heq hcount
      rw [vnodeKill, hnodes] at hkill
      split at hkill
      · exact absurd hkill (by simp)
      · split at hkill
        · -- the free list has room
          obtain rfl := Option.some.inj hkill
          refine ⟨node :: l, ⟨⟨rfl, ?_⟩, List.nodup_cons.mpr ⟨hnode.2, h.nodup⟩, ?_, fun a ha => ?_⟩,
            fun a ha hlast => ⟨?_, ?_⟩⟩
          · simp only [Function.update_self, hhead]
            apply h.chained.congr
            intro b hb
            have hne : b ≠ node := fun heq => hnode.2 (heq ▸ hb)
            simp only [Function.update_of_ne hne]
          · simp only [List.length_cons, h.size, hfree]
          · simp only [halloc]
            rcases List.mem_cons.mp ha with rfl | ha
            · exact hnode.1
            · exact h.owned a ha
          · simp only [halloc]
            exact ha.1
          · intro hmem
            rcases List.mem_cons.mp hmem with heq | hmem
            · exact hother hlast heq
            · exact ha.2 hmem
        · -- the node goes back to the heap
          obtain rfl := Option.some.inj hkill
          refine ⟨l, ⟨?_, h.nodup, ?_, fun a ha => ?_⟩, fun a ha hlast => ⟨?_, ha.2⟩⟩
          · simp only [hhead]
            exact h.chained
          · simp only [hfree]
            exact h.size
          · have hne : a ≠ node := fun heq => hnode.2 (heq ▸ ha)
            simp only [halloc, Function.update_of_ne hne]
            exact h.owned a ha
          · simp only [halloc, Function.update_of_ne (hother hlast)]
            exact ha.1

/-- **One call** keeps the free list, and the nodes in use but for one that loses its last
    reference. -/
theorem ListOk.exec (h : ListOk s l) {c : VnodeCall} (hc : c.NotDead s)
    (hs' : c.exec s = some s') :
    ∃ l', ListOk s' l' ∧
      ∀ a, InUse s l a → (c = .decref a → (s.nodes a).refCount ≠ 1) → InUse s' l' a := by
  cases c with
  | init ops vfs data fresh =>
    -- a node is taken from the free list, or made
    obtain ⟨r, hr, rfl⟩ := Option.map_eq_some_iff.mp hs'
    obtain ⟨l', h', -, hothers⟩ := h.init hc.2 hr
    exact ⟨l', h', fun a ha _ => (hothers a ha).2⟩
  | incref node =>
    rw [VnodeCall.exec, vnodeIncref] at hs'
    -- the list does not depend on a count
    split at hs'
    · exact absurd hs' (by simp)
    · obtain rfl := Option.some.inj hs'
      exact ⟨l, h.recount _ _, fun a ha _ => ha⟩
  | decref node =>
    -- a node that loses its last reference goes to the list
    obtain ⟨l', h', hothers⟩ := h.decref ⟨hc.1, hc.2 l h.chained⟩ hs'
    exact ⟨l', h', fun a ha hlast => hothers a ha fun heq => heq ▸ hlast (by rw [heq])⟩

/-- A node stays in use until its last reference is dropped. -/
theorem ListOk.inUse_or_released {calls : List VnodeCall} (h : ListOk s l) (ha : InUse s l a)
    (hok : Each VnodeCall.exec VnodeCall.NotDead s calls)
    (hs' : execAll VnodeCall.exec s calls = some s') :
    (∃ l', ListOk s' l' ∧ InUse s' l' a) ∨
      ∃ cs ds t, calls = cs ++ .decref a :: ds ∧ execAll VnodeCall.exec s cs = some t ∧
        (t.nodes a).refCount = 1 := by
  induction calls generalizing s l with
  | nil =>
    obtain rfl := Option.some.inj hs'
    exact Or.inl ⟨l, h, ha⟩
  | cons c calls ih =>
    obtain ⟨s₁, hs₁, hrest⟩ := Option.bind_eq_some_iff.mp hs'
    by_cases hlast : c = .decref a ∧ (s.nodes a).refCount = 1
    · -- this call releases the node
      exact Or.inr ⟨[], calls, s, by rw [hlast.1]; rfl, rfl, hlast.2⟩
    · -- the node is still in use behind it
      obtain ⟨l₁, h₁, hothers⟩ := h.exec hok.1 hs₁
      have ha₁ := hothers a ha fun heq hone => hlast ⟨heq, hone⟩
      rcases ih h₁ ha₁ (hok.2 s₁ hs₁) hrest with hkeeps | ⟨cs, ds, t, rfl, ht, hone⟩
      · exact Or.inl hkeeps
      · refine Or.inr ⟨c :: cs, ds, t, rfl, ?_, hone⟩
        rw [execAll, hs₁, Option.bind_some]
        exact ht

end

/-- Two calls of `vnode_init` in a run, of which the second returns the node of the first, have
    a release of it between them: the `vnode_decref` that drops its last reference. -/
def Separated (calls : List VnodeCall) : Prop :=
  ∀ pre mid post ops vfs data fresh ops' vfs' data' fresh' s₁ r₁ s₂ r₂,
    calls = pre ++ .init ops vfs data fresh :: (mid ++ .init ops' vfs' data' fresh' :: post) →
    execAll VnodeCall.exec startVnodes pre = some s₁ →
    vnodeInit s₁ ops vfs data fresh = some r₁ →
    execAll VnodeCall.exec r₁.2 mid = some s₂ →
    vnodeInit s₂ ops' vfs' data' fresh' = some r₂ → r₁.1 = r₂.1 →
    ∃ cs ds s, mid = cs ++ .decref r₁.1 :: ds ∧ execAll VnodeCall.exec r₁.2 cs = some s ∧
      (s.nodes r₁.1).refCount = 1

/-- **Releases.** In every run in which no node is released that is on the free list, the free list
    never contains a node twice, and `vnode_init` returns a node again only after the release of
    its last reference. -/
theorem releases_separate (calls : List VnodeCall)
    (hcalls : Each VnodeCall.exec VnodeCall.NotDead startVnodes calls) :
    (∀ pre post, calls = pre ++ post → ∀ s, execAll VnodeCall.exec startVnodes pre = some s →
      FreelistSimple s) ∧ Separated calls := by
  have hlist : ∀ pre post, calls = pre ++ post → ∀ s,
      execAll VnodeCall.exec startVnodes pre = some s →
      (∃ l, ListOk s l) ∧ Each VnodeCall.exec VnodeCall.NotDead s post := by
    rintro pre post rfl s hs
    rw [each_append] at hcalls
    refine ⟨?_, hcalls.2 s hs⟩
    have hstart : ListOk startVnodes [] := ⟨rfl, List.nodup_nil, rfl, by simp⟩
    exact inv_of_execAll (I := fun s => ∃ l, ListOk s l)
      (fun s c s' ⟨l, h⟩ hc hs' => (h.exec hc hs').imp fun _ h' => h'.1) ⟨[], hstart⟩ hcalls.1 hs
  constructor
  · intro pre post hsplit s hs
    obtain ⟨⟨l, h⟩, -⟩ := hlist pre post hsplit s hs
    exact ⟨l, h.chained, h.nodup⟩
  · intro pre mid post ops vfs data fresh ops' vfs' data' fresh' s₁ r₁ s₂ r₂ hsplit hs₁ hr₁ hs₂
      hr₂ hsame
    obtain ⟨⟨l, h⟩, hfirst⟩ := hlist pre _ hsplit s₁ hs₁
    obtain ⟨l₁, h₁, hinUse, -⟩ := h.init hfirst.1.2 hr₁
    have hexec : VnodeCall.exec s₁ (.init ops vfs data fresh) = some r₁.2 := by
      rw [VnodeCall.exec, hr₁, Option.map_some]
    have hbetween := hfirst.2 _ hexec
    rw [each_append] at hbetween
    refine (h₁.inUse_or_released hinUse hbetween.1 hs₂).resolve_left ?_
    -- a node in use is not the one that the second call returns
    rintro ⟨l₂, h₂, hinUse₂⟩
    obtain ⟨_, -, -, hothers⟩ := h₂.init (hbetween.2 s₂ hs₂).1.2 hr₂
    exact (hothers r₁.1 hinUse₂).1 hsame

/-- A node that is made, held twice, released, and made again. -/
theorem releases_separate_again :
    Separated [.init (some ⟨1⟩) 1 0 8, .incref 8, .decref 8, .decref 8,
      .init (some ⟨1⟩) 1 0 16] := by
  have hempty : ∀ {next : Nat → Option Nat} {l : List Nat}, Chained next none l → 8 ∉ l := by
    intro next l hl
    cases l with
    | nil => simp
    | cons a l => exact absurd hl.1 (by simp)
  refine (releases_separate _ ?_).2
  refine ⟨⟨by decide, rfl⟩, fun s hs => ?_⟩
  cases hs
  refine ⟨rfl, fun s hs => ?_⟩
  cases hs
  refine ⟨⟨rfl, fun l hl => hempty hl⟩, fun s hs => ?_⟩
  cases hs
  refine ⟨⟨rfl, fun l hl => hempty hl⟩, fun s hs => ?_⟩
  cases hs
  exact ⟨⟨by decide, rfl⟩, fun s _ => trivial⟩

/-- A free list whose first node is its own successor does not end. -/
theorem not_freelistSimple {s : Vnodes} {a : Nat} (hhead : s.freelistHead = some a)
    (hnext : (s.nodes a).freelist = some a) : ¬ FreelistSimple s := by
  rintro ⟨l, hl, hnd⟩
  rw [hhead] at hl
  match l, hl with
  | [], hl => exact absurd hl (by simp [Chained])
  | [b], ⟨hb, hl⟩ =>
    obtain rfl : a = b := Option.some.inj hb
    exact absurd (hnext.symm.trans hl) (by simp)
  | b :: c :: l, ⟨hb, hc, _⟩ =>
    obtain rfl : a = b := Option.some.inj hb
    obtain rfl : a = c := Option.some.inj (hnext.symm.trans hc)
    exact absurd hnd (by simp)

/-- A second release passes both assertions: the node is its own successor in the free list, and
    the next two calls of `vnode_init` return it. -/
theorem over_release_unnoticed : ∃ s r r',
    execAll VnodeCall.exec startVnodes [.init (some ⟨1⟩) 1 0 8, .decref 8, .decref 8] = some s ∧
    ¬ FreelistSimple s ∧
    vnodeInit s (some ⟨1⟩) 1 0 16 = some r ∧ vnodeInit r.2 (some ⟨1⟩) 1 0 16 = some r' ∧
    r.1 = 8 ∧ r'.1 = 8 := by
  refine ⟨_, _, _, rfl, ?_, rfl, rfl, rfl, rfl⟩
  exact not_freelistSimple rfl rfl

end Toutatis
