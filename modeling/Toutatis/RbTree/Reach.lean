import Mathlib.Data.Set.Card
import Toutatis.RbTree.Tree

/-!
# Nodes reachable from the root

`follow` walks links from a node, `Reachable` is what some walk finds. In memory
that holds a tree, a walk ends at a node of the tree and each node is the end of
exactly one walk (`reachable_iff`, `ValidTree.unique_path`); the counters of a
valid tree count keys and chained nodes.
-/

namespace Toutatis

open ByteMem RedBlack RedBlack.ColorTree

/-- The node at the end of a walk along `link[i]`; `0` once a link is `NULL`. -/
def follow (m : Mem) : (a : Nat) → List (Fin 3) → Nat
  | a, [] => a
  | a, i :: p => if a = 0 then 0 else follow m (getLink m a i.val) p

/-- Some walk from `root` ends at the node `a`. -/
def Reachable (m : Mem) (root a : Nat) : Prop := a ≠ 0 ∧ ∃ p, follow m root p = a

/-- The node of the tree at the end of a walk. -/
def At : ColorTree Entry → List (Fin 3) → Nat → Prop
  | .nil, _, _ => False
  | .node _ _ x _, [], a => a = x.addr
  | .node _ l _ _, 0 :: p, a => At l p a
  | .node _ _ _ r, 1 :: p, a => At r p a
  | .node _ _ x _, 2 :: p, a => (∀ i ∈ p, i = 2) ∧ x.dups[p.length]? = some a

/-- From the null link no path leads anywhere. -/
theorem follow_zero (m : Mem) (p : List (Fin 3)) : follow m 0 p = 0 := by
  cases p <;> simp [follow]

section

variable {m : Mem} {T : ColorTree Entry} {a : Nat} {p q : List (Fin 3)}

/-- A walk that starts in a duplicate chain stays in it. -/
private theorem follow_chain {key : Nat} {D : List Nat} (hch : Chain (view m) key D)
    (hpos : ∀ b ∈ D, b ≠ 0) (ha : a ≠ 0) :
    follow m (D.headD 0) p = a ↔ (∀ i ∈ p, i = 2) ∧ D[p.length]? = some a := by
  induction D generalizing p with
  | nil =>
    rw [List.headD_nil, follow_zero]
    simp [ha.symm]
  | cons b D ih =>
    obtain ⟨⟨-, hkid, hdup⟩, hch'⟩ := hch
    have hb := hpos b List.mem_cons_self
    have ih' := fun p => ih (p := p) hch' fun c hc => hpos c (List.mem_cons_of_mem _ hc)
    rw [List.headD_cons]
    cases p with
    | nil => simp [follow]
    | cons i p =>
      rw [follow, if_neg hb]
      -- a node of a chain has no children, so only link 2 leads on
      have hlink : i ≠ 2 → getLink m b i.val = 0 := by
        intro hi
        have h0 : getLink m b 0 = 0 := hkid false
        have h1 : getLink m b 1 = 0 := hkid true
        fin_cases i
        · exact h0
        · exact h1
        · exact absurd rfl hi
      by_cases hi : i = 2
      · have hdup' : getLink m b 2 = D.headD 0 := hdup
        subst hi
        rw [show ((2 : Fin 3).val) = 2 from rfl, hdup', ih' p]
        simp
      · rw [hlink hi, follow_zero]
        simp [hi, ha.symm]

/-- Walks in memory are walks in the tree. -/
theorem follow_iff (hm : Models (view m) T) (hpos : ∀ b ∈ treeNodes T, b ≠ 0) (ha : a ≠ 0) :
    follow m (rootAddr T) p = a ↔ At T p a := by
  induction T generalizing p with
  | nil => simp [rootAddr, follow_zero, At, ha.symm]
  | node c l x r ihl ihr =>
    obtain ⟨⟨-, -, hdup, hch⟩, hl, hr, hml, hmr⟩ := hm
    simp only [treeNodes, List.mem_append, Entry.nodes, List.mem_cons] at hpos
    have hx : x.addr ≠ 0 := hpos _ (Or.inl (Or.inl rfl))
    have hl' : getLink m x.addr 0 = rootAddr l := hl
    have hr' : getLink m x.addr 1 = rootAddr r := hr
    have hd' : getLink m x.addr 2 = x.dups.headD 0 := hdup
    cases p with
    | nil =>
      show x.addr = a ↔ a = x.addr
      exact eq_comm
    | cons i p =>
      rw [rootAddr, follow, if_neg hx]
      -- one case for each link: the two children and the chain
      fin_cases i
      · show follow m (getLink m x.addr 0) p = a ↔ At l p a
        rw [hl']
        exact ihl hml fun b hb => hpos b (Or.inr (Or.inl hb))
      · show follow m (getLink m x.addr 1) p = a ↔ At r p a
        rw [hr']
        exact ihr hmr fun b hb => hpos b (Or.inr (Or.inr hb))
      · show follow m (getLink m x.addr 2) p = a ↔ (∀ i ∈ p, i = 2) ∧ x.dups[p.length]? = some a
        rw [hd']
        exact follow_chain hch (fun b hb => hpos b (Or.inl (Or.inr hb))) ha

/-- Where a walk ends is decided by its first link. -/
theorem At.of_node {c : Bool} {l r : ColorTree Entry} {x : Entry}
    (h : At (.node c l x r) p a) :
    (p = [] ∧ a = x.addr) ∨ (∃ p', p = 0 :: p' ∧ At l p' a) ∨ (∃ p', p = 1 :: p' ∧ At r p' a) ∨
      (∃ j, p = 2 :: List.replicate j 2 ∧ x.dups[j]? = some a) := by
  cases p with
  | nil => exact Or.inl ⟨rfl, h⟩
  | cons i p =>
    right
    fin_cases i
    · exact Or.inl ⟨p, rfl, h⟩
    · exact Or.inr (Or.inl ⟨p, rfl, h⟩)
    · -- only links of the chain can follow
      have hdup : (∀ i ∈ p, i = 2) ∧ x.dups[p.length]? = some a := h
      have hp : p = List.replicate p.length 2 := List.eq_replicate_iff.mpr ⟨rfl, hdup.1⟩
      exact Or.inr (Or.inr ⟨p.length, congrArg (List.cons 2) hp, hdup.2⟩)

/-- A place in the tree is one of its nodes. -/
theorem At.mem (h : At T p a) : a ∈ treeNodes T := by
  induction T generalizing p with
  | nil => exact h.elim
  | node c l x r ihl ihr =>
    simp only [treeNodes, List.mem_append, Entry.nodes, List.mem_cons]
    obtain ⟨-, ha⟩ | ⟨p', -, hl⟩ | ⟨p', -, hr⟩ | ⟨j, -, hj⟩ := h.of_node
    · exact Or.inl (Or.inl ha)
    · exact Or.inr (Or.inl (ihl hl))
    · exact Or.inr (Or.inr (ihr hr))
    · exact Or.inl (Or.inr (List.mem_of_getElem? hj))

/-- A walk through a chain link ends at a duplicate. -/
theorem At.mem_dups (h : At T p a) (h2 : 2 ∈ p) : a ∈ T.toList.flatMap Entry.dups := by
  induction T generalizing p with
  | nil => exact h.elim
  | node c l x r ihl ihr =>
    simp only [toList_node, List.flatMap_append, List.flatMap_cons, List.mem_append]
    obtain ⟨rfl, -⟩ | ⟨p', rfl, hl⟩ | ⟨p', rfl, hr⟩ | ⟨j, -, hj⟩ := h.of_node
    · exact absurd h2 List.not_mem_nil
    · exact Or.inl (ihl hl (by simpa using h2))
    · exact Or.inr (Or.inr (ihr hr (by simpa using h2)))
    · exact Or.inr (Or.inl (List.mem_of_getElem? hj))

/-- Every duplicate has a place. -/
theorem exists_at_of_dup (h : a ∈ T.toList.flatMap Entry.dups) : ∃ p, 2 ∈ p ∧ At T p a := by
  induction T with
  | nil => simp at h
  | node c l x r ihl ihr =>
    simp only [toList_node, List.flatMap_append, List.flatMap_cons, List.mem_append] at h
    rcases h with h | h | h
    · obtain ⟨p, h2, hp⟩ := ihl h
      exact ⟨0 :: p, by simp [h2], hp⟩
    · obtain ⟨j, hj⟩ := List.mem_iff_getElem?.mp h
      refine ⟨2 :: List.replicate j 2, by simp, ?_, ?_⟩
      · intro i hi
        exact (List.mem_replicate.mp hi).2
      · rw [List.length_replicate]; exact hj
    · obtain ⟨p, h2, hp⟩ := ihr h
      exact ⟨1 :: p, by simp [h2], hp⟩

/-- Every node has a place. -/
theorem exists_at (h : a ∈ treeNodes T) : ∃ p, At T p a := by
  induction T with
  | nil => simp [treeNodes] at h
  | node c l x r ihl ihr =>
    simp only [treeNodes, List.mem_append, Entry.nodes, List.mem_cons] at h
    rcases h with (h | h) | h | h
    · exact ⟨[], h⟩
    · obtain ⟨p, -, hp⟩ := exists_at_of_dup (T := .node c l x r) (a := a) (by simp [h])
      exact ⟨p, hp⟩
    · obtain ⟨p, hp⟩ := ihl h
      exact ⟨0 :: p, hp⟩
    · obtain ⟨p, hp⟩ := ihr h
      exact ⟨1 :: p, hp⟩

/-- Two walks to one node are the same walk. -/
theorem At.unique (hn : (treeNodes T).Nodup) (h : At T p a) (h' : At T q a) : p = q := by
  induction T generalizing p q with
  | nil => exact h.elim
  | node c l x r ihl ihr =>
    simp only [treeNodes, List.nodup_append, Entry.nodes, List.nodup_cons, List.mem_cons,
      List.mem_append] at hn
    obtain ⟨⟨hxd, hdd⟩, ⟨hln, hrn, hlr⟩, hxlr⟩ := hn
    -- walks that part lead to different nodes, since a node occurs once in the tree
    rcases h.of_node with ⟨rfl, ha⟩ | ⟨p', rfl, hp⟩ | ⟨p', rfl, hp⟩ | ⟨j, rfl, hj⟩ <;>
      rcases h'.of_node with ⟨rfl, hb⟩ | ⟨q', rfl, hq⟩ | ⟨q', rfl, hq⟩ | ⟨k, rfl, hk⟩
    · rfl
    · exact absurd ha.symm (hxlr _ (Or.inl rfl) a (Or.inl hq.mem))
    · exact absurd ha.symm (hxlr _ (Or.inl rfl) a (Or.inr hq.mem))
    · exact absurd (ha ▸ List.mem_of_getElem? hk) hxd
    · exact absurd hb.symm (hxlr _ (Or.inl rfl) a (Or.inl hp.mem))
    · rw [ihl hln hp hq]
    · exact absurd rfl (hlr a hp.mem a hq.mem)
    · exact absurd rfl (hxlr a (Or.inr (List.mem_of_getElem? hk)) a (Or.inl hp.mem))
    · exact absurd hb.symm (hxlr _ (Or.inl rfl) a (Or.inr hp.mem))
    · exact absurd rfl (hlr a hq.mem a hp.mem)
    · rw [ihr hrn hp hq]
    · exact absurd rfl (hxlr a (Or.inr (List.mem_of_getElem? hk)) a (Or.inr hp.mem))
    · exact absurd (hb ▸ List.mem_of_getElem? hj) hxd
    · exact absurd rfl (hxlr a (Or.inr (List.mem_of_getElem? hj)) a (Or.inl hq.mem))
    · exact absurd rfl (hxlr a (Or.inr (List.mem_of_getElem? hj)) a (Or.inr hq.mem))
    · have hlt : j < x.dups.length := (List.getElem?_eq_some_iff.mp hj).1
      rw [(List.getElem?_inj hlt hdd).mp (hj.trans hk.symm)]

end

section

variable {A : Type} {m : Mem} {tree : RbTree A} {T : ColorTree Entry} {a : Nat}

/-- No node is the null link. -/
theorem ValidTree.ne_zero (h : ValidTree m tree T) (ha : a ∈ treeNodes T) : a ≠ 0 := by
  have := h.nodes.pos a ha
  omega

/-- What is reachable from the root are the nodes of the tree. -/
theorem ValidTree.reachable_iff (h : ValidTree m tree T) :
    Reachable m tree.root a ↔ a ∈ treeNodes T := by
  rw [Reachable, h.root]
  constructor
  · rintro ⟨ha, p, hp⟩
    exact ((follow_iff h.models (fun _ => h.ne_zero) ha).mp hp).mem
  · intro ha
    obtain ⟨p, hp⟩ := exists_at ha
    have ha0 := h.ne_zero ha
    exact ⟨ha0, p, (follow_iff h.models (fun _ => h.ne_zero) ha0).mpr hp⟩

/-- No node is reachable twice. -/
theorem ValidTree.unique_path (h : ValidTree m tree T) {p q : List (Fin 3)} (ha : a ≠ 0)
    (hp : follow m tree.root p = a) (hq : follow m tree.root q = a) : p = q := by
  rw [h.root, follow_iff h.models (fun _ => h.ne_zero) ha] at hp hq
  exact hp.unique h.nodes.nodup hq

/-- The key of a node of the tree is the key of its entry. -/
theorem data_of_mem (hm : Models (view m) T) {e : Entry} (he : e ∈ T.toList) (ha : a ∈ e.nodes) :
    nodeData m a = e.key := by
  have hchain : ∀ {key : Nat} {D : List Nat}, Chain (view m) key D → a ∈ D → nodeData m a = key := by
    intro key D hch hmem
    induction D with
    | nil => simp at hmem
    | cons b D ih =>
      rcases List.mem_cons.mp hmem with rfl | hmem
      · exact hch.1.1
      · exact ih hch.2 hmem
  induction T with
  | nil => simp at he
  | node c l x r ihl ihr =>
    obtain ⟨⟨hdata, -, -, hch⟩, -, -, hml, hmr⟩ := hm
    simp only [toList_node, List.mem_append, List.mem_cons] at he
    rcases he with he | rfl | he
    · exact ihl hml he
    · rcases List.mem_cons.mp ha with rfl | ha
      · exact hdata
      · exact hchain hch ha
    · exact ihr hmr he

/-- The nodes are those of the entries, duplicates included. -/
theorem mem_treeNodes_iff : a ∈ treeNodes T ↔ ∃ e ∈ T.toList, a ∈ e.nodes := by
  rw [(perm_treeNodes T).mem_iff, List.mem_flatMap]

/-- `num_nodes` counts the distinct keys. -/
theorem ValidTree.ncard_keys (h : ValidTree m tree T) (hT : T ≠ .nil) :
    {k | ∃ a, Reachable m tree.root a ∧ nodeData m a = k}.ncard = tree.numNodes := by
  have hset : {k | ∃ a, Reachable m tree.root a ∧ nodeData m a = k} =
      ((T.toList.map Entry.key).toFinset : Set Nat) := by
    ext k
    simp only [Set.mem_ofPred_eq, List.coe_toFinset, List.mem_map, h.reachable_iff]
    constructor
    · rintro ⟨a, ha, rfl⟩
      obtain ⟨e, he, hae⟩ := mem_treeNodes_iff.mp ha
      exact ⟨e, he, (data_of_mem h.models he hae).symm⟩
    · rintro ⟨e, he, rfl⟩
      exact ⟨e.addr, mem_treeNodes_iff.mpr ⟨e, he, e.addr_mem_nodes⟩,
        data_of_mem h.models he e.addr_mem_nodes⟩
  have hnd : (T.toList.map Entry.key).Nodup :=
    List.Pairwise.map _ (fun _ _ hlt => Nat.ne_of_lt hlt) h.sorted
  rw [hset, Set.ncard_coe_finset, List.toFinset_card_of_nodup hnd, List.length_map,
    (h.count hT).1]

/-- `num_dup` counts the nodes behind a chain link. -/
theorem ValidTree.ncard_dups (h : ValidTree m tree T) (hT : T ≠ .nil) :
    {a | a ≠ 0 ∧ ∃ p, 2 ∈ p ∧ follow m tree.root p = a}.ncard = tree.numDup := by
  -- a walk over a link 2 ends in a chain, and every node of a chain is the end of one
  have hset : {a | a ≠ 0 ∧ ∃ p, 2 ∈ p ∧ follow m tree.root p = a} =
      ((T.toList.flatMap Entry.dups).toFinset : Set Nat) := by
    ext a
    simp only [Set.mem_ofPred_eq, List.coe_toFinset, h.root]
    constructor
    · rintro ⟨ha, p, h2, hp⟩
      exact ((follow_iff h.models (fun _ => h.ne_zero) ha).mp hp).mem_dups h2
    · intro ha
      obtain ⟨p, h2, hp⟩ := exists_at_of_dup ha
      have ha0 := h.ne_zero hp.mem
      exact ⟨ha0, p, h2, (follow_iff h.models (fun _ => h.ne_zero) ha0).mpr hp⟩
  have hsub : (T.toList.flatMap Entry.dups).Sublist (T.toList.flatMap Entry.nodes) := by
    generalize T.toList = L
    induction L with
    | nil => exact List.Sublist.slnil
    | cons e L ih =>
      simp only [List.flatMap_cons]
      exact List.Sublist.append (List.sublist_cons_self _ _) ih
  have hnd := ((perm_treeNodes T).nodup_iff.mp h.nodes.nodup).sublist hsub
  rw [hset, Set.ncard_coe_finset, List.toFinset_card_of_nodup hnd, List.length_flatMap,
    (h.count hT).2, dupCount]

end

end Toutatis
