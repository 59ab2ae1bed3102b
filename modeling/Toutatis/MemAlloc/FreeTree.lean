import Toutatis.MemAlloc.Compare

/-!
# The tree of free blocks

The red-black tree with the comparison functions of the allocator: `FreeTree` is
a valid tree searched with `compare` and `select_dup`. Insertions and removals
of any kind keep it valid, over every sequence of calls, and it refines the set
of the nodes in it.

## Key results

- `tree_valid_after_calls`: after every sequence of calls the tree is a valid
  red-black tree
- `FreeTree.insert` / `FreeTree.remove`: one call
- `FreeTree.remove_address`, `best_fit`: the node that a search takes
-/

namespace Toutatis

open ByteMem RedBlack

/-- A valid tree that is searched with the functions of the allocator. -/
structure FreeTree (m : Mem) (tree : RbTree AllocArgs) (T : ColorTree Entry) : Prop
    extends ValidTree m tree T where
  compare_eq : tree.compare = compare
  select_eq : tree.selectDup = selectDup

section Calls

variable {m : Mem} {tree : RbTree AllocArgs} {T : ColorTree Entry}

/-- Bytes outside the nodes are no part of the tree. -/
theorem FreeTree.congr {m' : Mem} (h : FreeTree m tree T)
    (hm : ∀ a ∈ treeNodes T, ∀ x, a ≤ x → x < a + 16 → m' x = m x) : FreeTree m' tree T := by
  refine ⟨⟨h.root, h.models.congr fun a ha => ?_, h.nodes, h.black, h.sorted, h.count⟩,
    h.compare_eq, h.select_eq⟩
  exact view_congr fun k hk => load32_congr fun x h1 h2 => hm a ha x (by omega) (by omega)

/-- `insert_rbnode` with `args` `NULL`. -/
theorem FreeTree.insert (h : FreeTree m tree T) {node : Nat} (hN : NodesOk (node :: treeNodes T)) :
    ∃ m' tree' T' dup, insertRbnode m tree node none = some (1, m', tree') ∧
      FreeTree m' tree' T' ∧ Inserted node (nodeData m node) T.toList T'.toList dup ∧
      SameOff (node :: treeNodes T) m m' := by
  have hcmp : ∀ m' a, tree.compare m' a (nodeData m node) none =
      exactCmp (nodeData m' a) (nodeData m node) := fun m' a => by
    rw [h.compare_eq]
    exact compareKey_exact _ _ _ rfl
  obtain ⟨m', tree', T', dup, hr, hv, hins, hc, hs, hoff⟩ :=
    insertRbnode_spec h.toValidTree hN hcmp
  exact ⟨m', tree', T', dup, hr, ⟨hv, hc.trans h.compare_eq, hs.trans h.select_eq⟩, hins, hoff⟩

/-- The match of a search: the last node on the search path that `compare` accepts. -/
def bestMatch (T : ColorTree Entry) (data : Nat) (args : Option AllocArgs) : Option Entry :=
  lastMatch (fun e => compareKey e.addr e.key data args) none T

/-- The node that `remove_rbnode` takes: a selected duplicate of the match first. -/
def removedNode (m : Mem) (T : ColorTree Entry) (data : Nat) (args : Option AllocArgs) : Nat :=
  pick (fun a => selectDup m a args) (bestMatch T data args)

/-- `compare` sees a node by its address and its key. -/
theorem FreeTree.compare_entry (h : FreeTree m tree T) (data : Nat) (args : Option AllocArgs)
    (m' : Mem) (e : Entry) (he : nodeData m' e.addr = e.key) :
    tree.compare m' e.addr data args = compareKey e.addr e.key data args := by
  rw [h.compare_eq, compare, he]

/-- `select_dup` does not look into the memory. -/
theorem FreeTree.select_node (h : FreeTree m tree T) (args : Option AllocArgs) (m' : Mem)
    (a : Nat) : tree.selectDup m' a args = selectDup m a args := by
  rw [h.select_eq]
  rfl

/-- `remove_rbnode` with any arguments. -/
theorem FreeTree.remove (h : FreeTree m tree T) (data : Nat) (args : Option AllocArgs) :
    ∃ m' tree' T' kind,
      removeRbnode m tree data args = some (removedNode m T data args, m', tree') ∧
      FreeTree m' tree' T' ∧ Removed T.toList T'.toList (removedNode m T data args) kind ∧
      SameOff (treeNodes T) m m' := by
  obtain ⟨m', tree', T', kind, hr, hv, hrem, hc, hs, hoff⟩ :=
    removeRbnode_spec h.toValidTree (h.compare_entry data args) (h.select_node args)
      (matchesDown_compare h.sorted data args)
  exact ⟨m', tree', T', kind, hr, ⟨hv, hc.trans h.compare_eq, hs.trans h.select_eq⟩, hrem, hoff⟩

end Calls

/-! ## Sequences of calls -/

/-- A tree with its memory. `nodes` are the nodes inserted and not removed again. -/
structure TreeRun where
  mem : Mem
  tree : RbTree AllocArgs
  nodes : List Nat

/-- What can happen to a tree: the two calls, and writes to the memory around it. -/
inductive TreeCall where
  | insert (node : Nat)
  | remove (data : Nat) (args : Option AllocArgs)
  | write (mem : Mem)

/-- The effect of a call. -/
def TreeCall.exec (s : TreeRun) : TreeCall → Option TreeRun
  | .insert node => (insertRbnode s.mem s.tree node none).map fun (_, mem, tree) =>
      ⟨mem, tree, node :: s.nodes⟩
  | .remove data args => (removeRbnode s.mem s.tree data args).map fun (f, mem, tree) =>
      ⟨mem, tree, s.nodes.erase f⟩
  | .write mem => some { s with mem := mem }

/-- A node to insert is a structure at an even address apart from the nodes in the
    tree; writes leave the nodes in the tree alone. -/
def TreeCall.Allowed (s : TreeRun) : TreeCall → Prop
  | .insert node => node % 2 = 0 ∧ 0 < node ∧ node + 16 ≤ 2 ^ 32 ∧
      ∀ a ∈ s.nodes, a + 16 ≤ node ∨ node + 16 ≤ a
  | .remove _ _ => True
  | .write mem => ∀ a ∈ s.nodes, ∀ x, a ≤ x → x < a + 16 → mem x = s.mem x

/-- A sequence of calls. -/
def TreeRun.execAll (s : TreeRun) : List TreeCall → Option TreeRun
  | [] => some s
  | c :: calls => (c.exec s).bind fun s' => s'.execAll calls

/-- Every call of the sequence is allowed where it is made. -/
def TreeRun.AllAllowed (s : TreeRun) : List TreeCall → Prop
  | [] => True
  | c :: calls => c.Allowed s ∧ ∀ s', c.exec s = some s' → s'.AllAllowed calls

/-- The tree is valid and holds the nodes it should. -/
def TreeRun.Good (s : TreeRun) : Prop :=
  ∃ T, FreeTree s.mem s.tree T ∧ (treeNodes T).Perm s.nodes

/-- The empty tree after `init_rbtree`. -/
def TreeRun.init (m : Mem) (tree : RbTree AllocArgs) : TreeRun :=
  ⟨m, initRbtree tree compare selectDup, []⟩

theorem Inserted.perm_treeNodes {T T' : ColorTree Entry} {node key : Nat} {dup : Bool}
    (h : Inserted node key T.toList T'.toList dup) :
    (treeNodes T').Perm (node :: treeNodes T) :=
  (Toutatis.perm_treeNodes T').trans
    (h.perm_nodes.trans ((Toutatis.perm_treeNodes T).symm.cons _))

theorem Removed.perm_treeNodes {T T' : ColorTree Entry} {r : Nat} {kind : Removal}
    (h : Removed T.toList T'.toList r kind) :
    (treeNodes T).Perm (kind.node? r ++ treeNodes T') :=
  (Toutatis.perm_treeNodes T).trans
    (h.perm_nodes.trans ((Toutatis.perm_treeNodes T').symm.append_left _))

/-- What a removal returns is a node of the tree, or `0` when nothing is removed. -/
theorem Removed.node?_eq {T T' : ColorTree Entry} {r : Nat} {kind : Removal}
    (h : Removed T.toList T'.toList r kind) (hpos : ∀ a ∈ treeNodes T, 0 < a) :
    kind.node? r = if r = 0 then [] else [r] := by
  have hmem : ∀ a ∈ kind.node? r, 0 < a := fun a ha =>
    hpos a (h.perm_treeNodes.mem_iff.mpr (List.mem_append_left _ ha))
  cases h with
  | nothing _ => rfl
  | dup A B x C D a _ _ _ =>
    have := hmem r (by simp [Removal.node?])
    rw [if_neg (by omega)]; rfl
  | promote A B x a D _ _ _ =>
    have := hmem x.addr (by simp [Removal.node?])
    rw [if_neg (by omega)]; rfl
  | node A B x _ _ _ =>
    have := hmem x.addr (by simp [Removal.node?])
    rw [if_neg (by omega)]; rfl

theorem nodesOk_cons {N : List Nat} {node : Nat} (hN : NodesOk N) (he : node % 2 = 0)
    (hp : 0 < node) (hb : node + 16 ≤ 2 ^ 32)
    (ha : ∀ a ∈ N, a + 16 ≤ node ∨ node + 16 ≤ a) : NodesOk (node :: N) where
  nodup := List.nodup_cons.mpr ⟨fun h => by have := ha node h; omega, hN.nodup⟩
  even := List.forall_mem_cons.mpr ⟨he, hN.even⟩
  pos := List.forall_mem_cons.mpr ⟨hp, hN.pos⟩
  bound := List.forall_mem_cons.mpr ⟨hb, hN.bound⟩
  apart := by
    intro a h b h' hne
    rcases List.mem_cons.mp h with rfl | h₁ <;> rcases List.mem_cons.mp h' with rfl | h₂
    · exact absurd rfl hne
    · have := ha b h₂; omega
    · exact ha a h₁
    · exact hN.apart a h₁ b h₂ hne

/-- One call returns and keeps the tree valid. -/
theorem TreeCall.exec_good {s : TreeRun} {c : TreeCall} (h : s.Good) (hc : c.Allowed s) :
    ∃ s', c.exec s = some s' ∧ s'.Good := by
  obtain ⟨T, hT, hp⟩ := h
  cases c with
  | insert node =>
    obtain ⟨h1, h2, h3, h4⟩ := hc
    have hN := nodesOk_cons hT.nodes h1 h2 h3 fun a ha => h4 a (hp.mem_iff.mp ha)
    obtain ⟨m', tree', T', dup, hr, hv, hins, -⟩ := hT.insert hN
    refine ⟨_, by rw [TreeCall.exec, hr, Option.map_some], T', hv, ?_⟩
    exact hins.perm_treeNodes.trans (hp.cons _)
  | remove data args =>
    obtain ⟨m', tree', T', kind, hr, hv, hrem, -⟩ := hT.remove data args
    refine ⟨_, by rw [TreeCall.exec, hr, Option.map_some], T', hv, ?_⟩
    -- the list of nodes is kept up to order, so removing a node is List.erase
    have hperm := hrem.perm_treeNodes
    rw [hrem.node?_eq hT.nodes.pos] at hperm
    by_cases h0 : removedNode s.mem T data args = 0
    · rw [if_pos h0] at hperm
      have hnot : 0 ∉ s.nodes := fun hmem => by
        have := hT.nodes.pos 0 (hp.mem_iff.mpr hmem)
        omega
      simp only [h0, List.erase_of_not_mem hnot]
      exact hperm.symm.trans hp
    · rw [if_neg h0] at hperm
      have h' := (hperm.symm.trans hp).erase (removedNode s.mem T data args)
      simpa using h'
  | write mem =>
    exact ⟨_, rfl, T, hT.congr fun a ha => hc a (hp.mem_iff.mp ha), hp⟩

/-- Every call of an allowed sequence returns and keeps the tree valid. -/
theorem TreeRun.execAll_good {s : TreeRun} {calls : List TreeCall} (h : s.Good)
    (hc : s.AllAllowed calls) : ∃ s', s.execAll calls = some s' ∧ s'.Good := by
  induction calls generalizing s with
  | nil => exact ⟨s, rfl, h⟩
  | cons c calls ih =>
    obtain ⟨s₁, h₁, hg₁⟩ := TreeCall.exec_good h hc.1
    obtain ⟨s₂, h₂, hg₂⟩ := ih hg₁ (hc.2 s₁ h₁)
    exact ⟨s₂, by rw [execAll, h₁, Option.bind_some, h₂], hg₂⟩

/-- `init_rbtree` makes an empty tree. -/
theorem FreeTree.init (m : Mem) (tree : RbTree AllocArgs) :
    FreeTree m (initRbtree tree compare selectDup) .nil :=
  ⟨⟨rfl, trivial, ⟨List.nodup_nil, by simp [treeNodes], by simp [treeNodes],
    by simp [treeNodes], by simp [treeNodes]⟩, ⟨0, .nil⟩, List.Pairwise.nil, by simp⟩, rfl, rfl⟩

theorem TreeRun.init_good (m : Mem) (tree : RbTree AllocArgs) : (TreeRun.init m tree).Good :=
  ⟨.nil, FreeTree.init m tree, List.Perm.refl _⟩

/-- **The tree stays a red-black tree.** After any sequence of calls from
    `init_rbtree` on, each of which returns, the memory holds a valid red-black
    tree of the nodes inserted and not removed, and no path from its root to a leaf
    is longer than twice the logarithm of the number of its nodes. -/
theorem tree_valid_after_calls (m : Mem) (tree : RbTree AllocArgs) (calls : List TreeCall)
    (hc : (TreeRun.init m tree).AllAllowed calls) :
    ∃ s T, (TreeRun.init m tree).execAll calls = some s ∧ ValidTree s.mem s.tree T ∧
      (∀ a, a ∈ treeNodes T ↔ a ∈ s.nodes) ∧
      T.height ≤ 2 * Nat.log 2 (s.tree.numNodes + 1) := by
  obtain ⟨s, hs, T, hT, hp⟩ := TreeRun.execAll_good (TreeRun.init_good m tree) hc
  refine ⟨s, T, hs, hT.toValidTree, fun a => hp.mem_iff, ?_⟩
  by_cases h0 : T = .nil
  · subst h0
    simp [ColorTree.height]
  · obtain ⟨n, hb⟩ := hT.black
    rw [(hT.count h0).1]
    exact hb.height_le_log

/-- Memory for four nodes, with the keys 16, 32, 48 and 32. -/
def fourMem : Mem :=
  store32 (store32 (store32 (store32 (fun _ => 0) 0x1000 16) 0x1010 32) 0x1020 48) 0x1030 32

/-- The nodes are inserted, the last one as a duplicate; the third insertion rotates the tree. Then
    the key 32 is removed twice, and a node comes back. -/
def fourCalls : List TreeCall :=
  [.insert 0x1000, .insert 0x1010, .insert 0x1020, .insert 0x1030, .remove 32 none, .remove 32 none,
    .insert 0x1040]

theorem tree_valid_after_insert_remove :
    ∃ s T, (TreeRun.init fourMem ⟨0, 0, 0, compare, selectDup⟩).execAll fourCalls = some s ∧
      ValidTree s.mem s.tree T ∧ (∀ a, a ∈ treeNodes T ↔ a ∈ s.nodes) ∧
      T.height ≤ 2 * Nat.log 2 (s.tree.numNodes + 1) := by
  have hinsert : ∀ {s s' : TreeRun} {node : Nat}, (TreeCall.insert node).exec s = some s' →
      s'.nodes = node :: s.nodes := by
    intro s s' node hs
    obtain ⟨r, -, rfl⟩ := Option.map_eq_some_iff.mp hs
    rfl
  have hremove : ∀ {s s' : TreeRun}, (TreeCall.remove 32 none).exec s = some s' →
      ∀ a ∈ s'.nodes, a ∈ s.nodes := by
    intro s s' hs
    obtain ⟨r, -, rfl⟩ := Option.map_eq_some_iff.mp hs
    exact fun a ha => List.mem_of_mem_erase ha
  refine tree_valid_after_calls _ _ _ ?_
  refine ⟨⟨by decide, by decide, by decide, by decide⟩, fun s₁ h₁ => ?_⟩
  have hn₁ : s₁.nodes = [0x1000] := hinsert h₁
  refine ⟨⟨by decide, by decide, by decide, by rw [hn₁]; decide⟩, fun s₂ h₂ => ?_⟩
  have hn₂ : s₂.nodes = [0x1010, 0x1000] := by rw [hinsert h₂, hn₁]
  refine ⟨⟨by decide, by decide, by decide, by rw [hn₂]; decide⟩, fun s₃ h₃ => ?_⟩
  have hn₃ : s₃.nodes = [0x1020, 0x1010, 0x1000] := by rw [hinsert h₃, hn₂]
  refine ⟨⟨by decide, by decide, by decide, by rw [hn₃]; decide⟩, fun s₄ h₄ => ?_⟩
  have hn₄ : s₄.nodes = [0x1030, 0x1020, 0x1010, 0x1000] := by rw [hinsert h₄, hn₃]
  refine ⟨trivial, fun s₅ h₅ => ⟨trivial, fun s₆ h₆ => ⟨⟨by decide, by decide, by decide, ?_⟩,
    fun _ _ => trivial⟩⟩⟩
  intro a ha
  have ha₄ := hremove h₅ a (hremove h₆ a ha)
  rw [hn₄] at ha₄
  exact (by decide : ∀ a ∈ [0x1030, 0x1020, 0x1010, 0x1000], a + 16 ≤ 0x1040 ∨ 0x1040 + 16 ≤ a) a ha₄

/-- The root is the middle one of the three keys, and the fourth node is a duplicate of it. -/
example : ((TreeRun.init fourMem ⟨0, 0, 0, compare, selectDup⟩).execAll (fourCalls.take 4)).map
    (fun s => (s.tree.root, s.tree.numNodes, s.tree.numDup)) = some (0x1010, 3, 1) := by
  decide +kernel

/-! ## Refinement of a set of nodes -/

section Refinement

variable {m : Mem} {tree : RbTree AllocArgs} {T : ColorTree Entry}

/-- A removal takes out the node it returns, or nothing. -/
theorem FreeTree.remove_reachable (h : FreeTree m tree T) (data : Nat)
    (args : Option AllocArgs) :
    ∃ m' tree' T', removeRbnode m tree data args = some (removedNode m T data args, m', tree') ∧
      FreeTree m' tree' T' ∧
      ((removedNode m T data args = 0 ∧
          ∀ a, Reachable m' tree'.root a ↔ Reachable m tree.root a) ∨
        (Reachable m tree.root (removedNode m T data args) ∧ ∀ a, Reachable m' tree'.root a ↔
          Reachable m tree.root a ∧ a ≠ removedNode m T data args)) ∧
      ∀ a, Reachable m tree.root a → nodeData m' a = nodeData m a := by
  obtain ⟨m', tree', T', kind, hr, hv, hrem, hoff⟩ := h.remove data args
  -- the nodes before are those after, with the removed one if there is one
  have hperm := hrem.perm_treeNodes
  rw [hrem.node?_eq h.nodes.pos] at hperm
  refine ⟨m', tree', T', hr, hv, ?_, fun a hreach => ?_⟩
  · by_cases h0 : removedNode m T data args = 0
    · rw [if_pos h0] at hperm
      exact Or.inl ⟨h0, fun a => by rw [hv.reachable_iff, h.reachable_iff, hperm.mem_iff]; rfl⟩
    · rw [if_neg h0] at hperm
      have hnd := hperm.nodup_iff.mp h.nodes.nodup
      refine Or.inr ⟨h.reachable_iff.mpr (hperm.mem_iff.mpr (by simp)), fun a => ?_⟩
      rw [hv.reachable_iff, h.reachable_iff, hperm.mem_iff, List.singleton_append, List.mem_cons]
      constructor
      · intro ha
        refine ⟨Or.inr ha, ?_⟩
        rintro rfl
        exact (List.nodup_cons.mp hnd).1 ha
      · rintro ⟨ha | ha, hne⟩
        · exact absurd ha hne
        · exact ha
  · exact hoff.nodeData h.nodes (h.reachable_iff.mp hreach)

/-- **The tree refines a finite set of nodes.** An insertion adds its node to what
    the links reach, a removal takes out the node it returns or changes nothing,
    keys stay, every node is reached by one walk only, and the counters count
    keys and chained nodes. -/
theorem tree_refines_set (h : FreeTree m tree T) :
    (∀ node, node % 2 = 0 → 0 < node → node + 16 ≤ 2 ^ 32 →
      (∀ a, Reachable m tree.root a → a + 16 ≤ node ∨ node + 16 ≤ a) →
      ∃ m' tree' T', insertRbnode m tree node none = some (1, m', tree') ∧ FreeTree m' tree' T' ∧
        (∀ a, Reachable m' tree'.root a ↔ a = node ∨ Reachable m tree.root a) ∧
        ∀ a, Reachable m' tree'.root a → nodeData m' a = nodeData m a) ∧
    (∀ data args, ∃ f m' tree' T', removeRbnode m tree data args = some (f, m', tree') ∧
      FreeTree m' tree' T' ∧
      ((f = 0 ∧ ∀ a, Reachable m' tree'.root a ↔ Reachable m tree.root a) ∨
        (Reachable m tree.root f ∧
          ∀ a, Reachable m' tree'.root a ↔ Reachable m tree.root a ∧ a ≠ f)) ∧
      ∀ a, Reachable m tree.root a → nodeData m' a = nodeData m a) ∧
    (∀ a, Reachable m tree.root a → ∃! p, follow m tree.root p = a) ∧
    (tree.root ≠ 0 →
      {k | ∃ a, Reachable m tree.root a ∧ nodeData m a = k}.ncard = tree.numNodes ∧
      {a | a ≠ 0 ∧ ∃ p, 2 ∈ p ∧ follow m tree.root p = a}.ncard = tree.numDup) := by
  refine ⟨?_, ?_, ?_, ?_⟩
  -- an insertion: the nodes of the tree are a permutation of the old ones and the new one
  · intro node he hp hb ha
    have hN := nodesOk_cons h.nodes he hp hb fun a hmem => ha a (h.reachable_iff.mpr hmem)
    obtain ⟨m', tree', T', dup, hr, hv, hins, hoff⟩ := h.insert hN
    have hmem := fun a => (hins.perm_treeNodes.mem_iff (a := a)).trans List.mem_cons
    refine ⟨m', tree', T', hr, hv, fun a => ?_, fun a hreach => ?_⟩
    · rw [hv.reachable_iff, h.reachable_iff, hmem]
    · rw [hv.reachable_iff, hins.perm_treeNodes.mem_iff] at hreach
      exact hoff.nodeData hN hreach
  · intro data args
    obtain ⟨m', tree', T', hr, hv, hset, hkeys⟩ := h.remove_reachable data args
    exact ⟨_, m', tree', T', hr, hv, hset, hkeys⟩
  · rintro a ⟨ha, p, hp⟩
    exact ⟨p, hp, fun q hq => h.unique_path ha hq hp⟩
  · intro hroot
    have hT : T ≠ .nil := by
      rintro rfl
      exact hroot h.root
    exact ⟨h.ncard_keys hT, h.ncard_dups hT⟩

/-- A tree of one node of size 64, at an address whose user pointer is a multiple of
    32, with a duplicate that is not aligned. -/
def twinMem : Mem :=
  store32 (store32 (store32 (fun _ => 0) 0x101c 64) 0x1028 0x2000) 0x2000 64

/-- The tree structure for `twinMem`. -/
def twinTree : RbTree AllocArgs := ⟨0x101c, 1, 1, compare, selectDup⟩

theorem twin_free : FreeTree twinMem twinTree
    (.node false .nil ⟨0x101c, 64, [0x2000]⟩ .nil) := by
  refine ⟨⟨rfl, ?_, ⟨by decide, by decide, by decide, by decide, by decide⟩, ⟨1, .black .nil .nil⟩,
    by simp [Sorted], fun _ => by decide⟩, rfl, rfl⟩
  refine ⟨⟨by decide, by decide, by decide, ⟨⟨by decide, ?_, by decide⟩, trivial⟩⟩, by decide,
    by decide, trivial, trivial⟩
  intro d
  cases d <;> decide

/-- The counters and the walks of the tree of two nodes. -/
theorem tree_refines_set_twin :
    {k | ∃ a, Reachable twinMem twinTree.root a ∧ nodeData twinMem a = k}.ncard = 1 ∧
      {a | a ≠ 0 ∧ ∃ p, 2 ∈ p ∧ follow twinMem twinTree.root p = a}.ncard = 1 :=
  (tree_refines_set twin_free).2.2.2 (by decide)

end Refinement

/-! ## Removal by address -/

section Address

variable {m : Mem} {tree : RbTree AllocArgs} {T : ColorTree Entry}

/-- Nodes that are too small change nothing. -/
theorem lastMatch_of_neg {cmp : Entry → Int} (h : ∀ x ∈ T.toList, cmp x < 0)
    (found : Option Entry) : lastMatch cmp found T = found := by
  induction T with
  | nil => rfl
  | node c l x r ihl ihr =>
    rw [ColorTree.toList] at h
    rw [lastMatch, if_pos (h x (by simp))]
    exact ihr fun y hy => h y (by simp [hy])

/-- In a sorted tree an exact search finds the node with the key. -/
theorem lastMatch_exact {cmp : Entry → Int} {e : Entry}
    (hcmp : ∀ x, cmp x = exactCmp x.key e.key) (hsort : Sorted T.toList) (he : e ∈ T.toList)
    (found : Option Entry) : lastMatch cmp found T = some e := by
  induction T generalizing found with
  | nil => exact absurd he List.not_mem_nil
  | node c l x r ihl ihr =>
    rw [ColorTree.toList] at he hsort
    obtain ⟨hl, hxr, hlt⟩ := List.pairwise_append.mp hsort
    obtain ⟨hx, hr⟩ := List.pairwise_cons.mp hxr
    rw [lastMatch, hcmp]
    -- the order of the keys sends the search to the side of the node; behind a match it only turns
    -- right
    rcases List.mem_append.mp he with hmem | hmem
    · have hgt := hlt e hmem x (by simp)
      have hone : exactCmp x.key e.key = 1 := by rw [exactCmp, if_neg (by omega), if_pos hgt]
      rw [hone, if_neg (by decide)]
      exact ihl hl hmem _
    · rcases List.mem_cons.mp hmem with rfl | hmem
      · rw [exactCmp_eq_zero.mpr rfl, if_neg (by decide), if_pos rfl]
        refine lastMatch_of_neg (fun y hy => ?_) _
        rw [hcmp, exactCmp, if_pos (hlt y hy e (by simp))]
        decide
      · rw [exactCmp, if_pos (hx e hmem), if_pos (by decide)]
        exact ihr hr hmem _

/-- With an address `select_dup` accepts the node there only. -/
theorem selectDup_address (m : Mem) {x a : Nat} (hx : x ≠ 0) (ha : a ≠ 0) :
    selectDup m x (some ⟨0, a⟩) = decide (x = a) := by
  by_cases hxa : x = a
  · simp [selectDup, hxa, ha]
  · simp [selectDup, hx, hxa, ha]

/-- Of the nodes of one key the one at the address is taken. -/
theorem pick_address (m : Mem) {e : Entry} {a : Nat} (ha : a ∈ e.nodes)
    (h0 : ∀ x ∈ e.nodes, x ≠ 0) : pick (fun x => selectDup m x (some ⟨0, a⟩)) (some e) = a := by
  -- with an address, select_dup accepts that node and no other
  have hsel : ∀ x ∈ e.nodes, selectDup m x (some ⟨0, a⟩) = decide (x = a) := fun x hx =>
    selectDup_address m (h0 x hx) (h0 a ha)
  rw [pick]
  by_cases hd : e.dups = []
  · rw [if_pos hd]
    rw [Entry.nodes, hd, List.mem_singleton] at ha
    exact ha.symm
  · rw [if_neg hd]
    cases hf : e.dups.find? fun x => selectDup m x (some ⟨0, a⟩) with
    | none =>
      have hnot : a ∉ e.dups := fun hmem => by
        have := List.find?_eq_none.mp hf a hmem
        rw [hsel a ha, decide_eq_true rfl] at this
        exact absurd rfl this
      obtain rfl : a = e.addr := (List.mem_cons.mp ha).resolve_right hnot
      rw [Option.getD_none, if_pos (by rw [hsel _ ha, decide_eq_true rfl])]
    | some x =>
      have hx := List.find?_some hf
      rw [hsel x (List.mem_cons_of_mem _ (List.mem_of_find?_eq_some hf))] at hx
      exact of_decide_eq_true hx

/-- `remove_rbnode` with the size and the address of a node takes just this node. -/
theorem FreeTree.remove_address (h : FreeTree m tree T) {a : Nat} (ha : a ∈ treeNodes T) :
    ∃ m' tree' T', removeRbnode m tree (nodeData m a) (some ⟨0, a⟩) = some (a, m', tree') ∧
      FreeTree m' tree' T' ∧ (treeNodes T).Perm (a :: treeNodes T') ∧
      SameOff (treeNodes T) m m' := by
  obtain ⟨m', tree', T', kind, hr, hv, hrem, hoff⟩ := h.remove (nodeData m a) (some ⟨0, a⟩)
  obtain ⟨e, he, hae⟩ := mem_treeNodes_iff.mp ha
  have hkey := data_of_mem h.models he hae
  have hnode : removedNode m T (nodeData m a) (some ⟨0, a⟩) = a := by
    rw [removedNode, bestMatch, lastMatch_exact (fun x => ?_) h.sorted he,
      pick_address m hae fun x hx => h.ne_zero (mem_treeNodes_iff.mpr ⟨e, he, hx⟩)]
    rw [compareKey_exact _ _ _ rfl, hkey]
  rw [hnode] at hr hrem
  refine ⟨m', tree', T', hr, hv, ?_, hoff⟩
  have hperm := hrem.perm_treeNodes
  rwa [hrem.node?_eq h.nodes.pos, if_neg (h.ne_zero ha)] at hperm

end Address

/-! ## Best fit -/

theorem pad_one (node : Nat) : pad node 1 = 0 := by
  rw [pad, Nat.mod_one, padLoop_of_stop (Or.inl rfl)]

/-- With an alignment of 1 every block that is big enough is a match. -/
theorem compareKey_one (node data : Nat) {key : Nat} (address : Nat) (hkey : key < 2 ^ 32) :
    compareKey node key data (some ⟨1, address⟩) = if key < data then -1 else 0 := by
  have hal : alignmentOf (some ⟨1, address⟩) = 1 := rfl
  rw [compareKey, hal, if_pos Nat.one_ne_zero, pad_one, sub32_of_le (Nat.zero_le _) hkey,
    Nat.sub_zero]
  split
  · rfl
  · rfl

/-- In a sorted tree the last match is the first node that is big enough. -/
theorem lastMatch_eq_find? {T : ColorTree Entry} {data : Nat} {cmp : Entry → Int}
    (hcmp : ∀ e ∈ T.toList, cmp e = if e.key < data then -1 else 0) (hsort : Sorted T.toList)
    (found : Option Entry) :
    lastMatch cmp found T = (T.toList.find? fun e => decide (data ≤ e.key)).or found := by
  induction T generalizing found with
  | nil => rfl
  | node c l x r ihl ihr =>
    rw [ColorTree.toList] at hcmp hsort ⊢
    obtain ⟨hl, hxr, hlt⟩ := List.pairwise_append.mp hsort
    have hr := (List.pairwise_cons.mp hxr).2
    have hx := hcmp x (by simp)
    rw [lastMatch, hx, List.find?_append, List.find?_cons]
    by_cases hsmall : x.key < data
    · -- what lies to the left is smaller still
      have hnone : l.toList.find? (fun e => decide (data ≤ e.key)) = none := by
        refine List.find?_eq_none.mpr fun e he hle => ?_
        have := hlt e he x (by simp)
        have := of_decide_eq_true hle
        omega
      rw [if_pos hsmall, if_pos (by decide), hnone, decide_eq_false (by omega)]
      exact ihr (fun e he => hcmp e (by simp [he])) hr found
    · rw [if_neg hsmall, if_neg (by decide), if_pos rfl, decide_eq_true (by omega),
        ihl (fun e he => hcmp e (by simp [he])) hl]
      cases l.toList.find? fun e => decide (data ≤ e.key) with
      | none => rfl
      | some e => rfl

/-- In a sorted list the first entry that is big enough is the smallest such. -/
theorem find?_le {L : List Entry} {data : Nat} {e e' : Entry} (hsort : Sorted L)
    (hfound : (L.find? fun e => decide (data ≤ e.key)) = some e) (he' : e' ∈ L)
    (hle : data ≤ e'.key) : e.key ≤ e'.key := by
  induction L with
  | nil => exact absurd he' List.not_mem_nil
  | cons x L ih =>
    obtain ⟨hx, hL⟩ := List.pairwise_cons.mp hsort
    rw [List.find?_cons] at hfound
    rcases List.mem_cons.mp he' with rfl | hmem
    · rw [decide_eq_true hle] at hfound
      rw [Option.some.inj hfound]
    · split at hfound
      · rw [← Option.some.inj hfound]
        exact (hx e' hmem).le
      · exact ih hL hfound hmem

/-! ## Aligned requests -/

section Aligned

variable {m : Mem} {tree : RbTree AllocArgs} {T : ColorTree Entry}

/-- The node that a best-fit request gets: without an address every duplicate is
    selected, so the first one of the match is taken. -/
def fitNode (e : Entry) : Nat := e.dups.headD e.addr

theorem fitNode_mem (e : Entry) : fitNode e ∈ e.nodes := by
  cases hd : e.dups <;> simp [fitNode, Entry.nodes, hd]

theorem removedNode_fit (h : FreeTree m tree T) (data alignment : Nat) :
    removedNode m T data (some ⟨alignment, 0⟩) =
      ((bestMatch T data (some ⟨alignment, 0⟩)).map fitNode).getD 0 := by
  rw [removedNode]
  cases hb : bestMatch T data (some ⟨alignment, 0⟩) with
  | none => rfl
  | some e =>
    have he := (lastMatch_mem hb).1
    cases hd : e.dups with
    | nil => simp [pick, fitNode, hd]
    | cons a D =>
      have ha : a ≠ 0 := h.ne_zero (mem_treeNodes_iff.mpr ⟨e, he, by simp [Entry.nodes, hd]⟩)
      simp [pick, fitNode, hd, selectDup, ha]

/-- A best-fit request with a match: the first duplicate of the match is returned, with
    the size of the match. -/
theorem FreeTree.remove_fit (h : FreeTree m tree T) {data alignment : Nat} {e : Entry}
    (hb : bestMatch T data (some ⟨alignment, 0⟩) = some e) :
    ∃ m' tree', removeRbnode m tree data (some ⟨alignment, 0⟩) = some (fitNode e, m', tree') ∧
      fitNode e ≠ 0 ∧ nodeData m' (fitNode e) = e.key ∧ e.key < 2 ^ 32 := by
  obtain ⟨m', tree', T', kind, hr, -, -, hoff⟩ := h.remove data (some ⟨alignment, 0⟩)
  rw [removedNode_fit h, hb, Option.map_some, Option.getD_some] at hr
  have he := (lastMatch_mem hb).1
  have hnode := mem_treeNodes_iff.mpr ⟨e, he, fitNode_mem e⟩
  have hkey : nodeData m' (fitNode e) = e.key := by
    rw [hoff.nodeData h.nodes hnode]
    exact data_of_mem h.models he (fitNode_mem e)
  exact ⟨m', tree', hr, h.ne_zero hnode, hkey, hkey ▸ load32_lt m' _⟩

theorem FreeTree.key_lt (h : FreeTree m tree T) {e : Entry} (he : e ∈ T.toList) :
    e.key < 2 ^ 32 := by
  rw [← data_of_mem h.models he (List.mem_cons_self)]
  exact load32_lt m _

/-- `remove_rbnode` without an alignment: a node of the smallest size that is big enough. -/
theorem FreeTree.remove_best (h : FreeTree m tree T) (data : Nat) :
    ∃ f m' tree' T', removeRbnode m tree data (some ⟨1, 0⟩) = some (f, m', tree') ∧
      FreeTree m' tree' T' ∧ SameOff (treeNodes T) m m' ∧
      (f = 0 ∧ (∀ a ∈ treeNodes T, nodeData m a < data) ∧ (treeNodes T).Perm (treeNodes T') ∨
        f ∈ treeNodes T ∧ data ≤ nodeData m f ∧
          (∀ a ∈ treeNodes T, data ≤ nodeData m a → nodeData m f ≤ nodeData m a) ∧
          (treeNodes T).Perm (f :: treeNodes T')) := by
  have hbest : bestMatch T data (some ⟨1, 0⟩) =
      T.toList.find? fun e => decide (data ≤ e.key) := by
    rw [bestMatch, lastMatch_eq_find? (fun e he => compareKey_one _ _ _ (h.key_lt he)) h.sorted,
      Option.or_none]
  -- the size of a node is the key of its entry
  have hnode : ∀ a ∈ treeNodes T, ∃ e ∈ T.toList, nodeData m a = e.key := by
    intro a ha
    obtain ⟨e, he, hae⟩ := mem_treeNodes_iff.mp ha
    exact ⟨e, he, data_of_mem h.models he hae⟩
  obtain ⟨m', tree', T', kind, hr, hv, hrem, hoff⟩ := h.remove data (some ⟨1, 0⟩)
  have hperm := hrem.perm_treeNodes
  rw [hrem.node?_eq h.nodes.pos] at hperm
  refine ⟨_, m', tree', T', hr, hv, hoff, ?_⟩
  rw [removedNode_fit h] at hperm ⊢
  cases hb : bestMatch T data (some ⟨1, 0⟩) with
  | none =>
    rw [hb] at hperm
    refine Or.inl ⟨rfl, fun a ha => ?_, hperm⟩
    obtain ⟨e, he, hkey⟩ := hnode a ha
    have := List.find?_eq_none.mp (hbest.symm.trans hb) e he
    rw [decide_eq_true_eq] at this
    omega
  | some e =>
    rw [hb, Option.map_some, Option.getD_some] at hperm
    rw [Option.map_some, Option.getD_some]
    have he := (lastMatch_mem hb).1
    have hmem : fitNode e ∈ treeNodes T := mem_treeNodes_iff.mpr ⟨e, he, fitNode_mem e⟩
    have hkey := data_of_mem h.models he (fitNode_mem e)
    have hfound := hbest.symm.trans hb
    have hle : data ≤ e.key := by
      have := List.find?_some hfound
      exact of_decide_eq_true this
    rw [if_neg (h.ne_zero hmem)] at hperm
    refine Or.inr ⟨hmem, by omega, fun a ha hbig => ?_, hperm⟩
    obtain ⟨e', he', hkeya⟩ := hnode a ha
    rw [hkey, hkeya]
    rw [hkeya] at hbig
    exact find?_le h.sorted hfound he' hbig

/-- **Best fit.** Without an alignment `remove_rbnode` returns a node of the smallest size that
    is big enough, among all nodes that the tree holds, and a null pointer just when all of
    them are too small. -/
theorem best_fit (h : FreeTree m tree T) (data : Nat) :
    ∃ f m' tree', removeRbnode m tree data (some ⟨1, 0⟩) = some (f, m', tree') ∧
      (f = 0 ↔ ∀ a, Reachable m tree.root a → nodeData m a < data) ∧
      (f ≠ 0 → Reachable m tree.root f ∧ data ≤ nodeData m f ∧ nodeData m' f = nodeData m f ∧
        ∀ a, Reachable m tree.root a → data ≤ nodeData m a → nodeData m f ≤ nodeData m a) := by
  obtain ⟨f, m', tree', T', hr, -, hoff, hcases⟩ := h.remove_best data
  simp only [h.reachable_iff]
  rcases hcases with ⟨rfl, hsmall, -⟩ | ⟨hmem, hle, hleast, -⟩
  · exact ⟨0, m', tree', hr, iff_of_true rfl hsmall, fun hne => absurd rfl hne⟩
  · refine ⟨f, m', tree', hr, iff_of_false (h.ne_zero hmem) fun hall => ?_,
      fun _ => ⟨hmem, hle, hoff.nodeData h.nodes hmem, hleast⟩⟩
    have := hall f hmem
    omega

/-- The smallest block that is big enough, of two blocks of 64 bytes. -/
theorem best_fit_twin :
    ∃ f m' tree', removeRbnode twinMem twinTree 60 (some ⟨1, 0⟩) = some (f, m', tree') ∧
      f ≠ 0 := by
  obtain ⟨f, m', tree', hr, hnull, -⟩ := best_fit twin_free 60
  refine ⟨f, m', tree', hr, fun h0 => ?_⟩
  have hroot : Reachable twinMem twinTree.root 0x101c :=
    twin_free.reachable_iff.mpr (mem_treeNodes_iff.mpr ⟨_, List.mem_singleton_self _,
      List.mem_cons_self⟩)
  exact absurd (hnull.mp h0 _ hroot) (by decide)

/-- **Aligned best fit.** `remove_rbnode` with an alignment returns, and the node it
    returns has itself room for the aligned request if and only if this holds of the
    first duplicate of the last match on the search path, or of that match when it
    has none. -/
theorem removed_fits_iff (h : FreeTree m tree T) (data : Nat) {alignment : Nat}
    (h0 : 1 ≤ alignment) (h1 : alignment < 2 ^ 32) :
    (∃ f m' tree', removeRbnode m tree data (some ⟨alignment, 0⟩) = some (f, m', tree') ∧
      (f ≠ 0 → compare m' f data (some ⟨alignment, 0⟩) = 0 ∧
        frontOffset f alignment + data ≤ nodeData m' f)) ↔
    ∀ e, bestMatch T data (some ⟨alignment, 0⟩) = some e →
      frontOffset (fitNode e) alignment + data ≤ e.key := by
  constructor
  · rintro ⟨f, m₂, tree₂, hr₂, hfit⟩ e he
    -- the comparison has accepted the match, but what is returned may be a duplicate of it at
    -- another address
    obtain ⟨m', tree', hr, hne, hkey, -⟩ := h.remove_fit he
    rw [hr, Option.some.injEq, Prod.mk.injEq, Prod.mk.injEq] at hr₂
    obtain ⟨rfl, rfl, rfl⟩ := hr₂
    rw [← hkey]
    exact (hfit hne).2
  · intro hfit
    cases hb : bestMatch T data (some ⟨alignment, 0⟩) with
    | none =>
      obtain ⟨m', tree', T', kind, hr, -⟩ := h.remove data (some ⟨alignment, 0⟩)
      rw [removedNode_fit h, hb] at hr
      exact ⟨0, m', tree', hr, fun hne => absurd rfl hne⟩
    | some e =>
      obtain ⟨m', tree', hr, -, hkey, hlt⟩ := h.remove_fit hb
      refine ⟨_, m', tree', hr, fun _ => ⟨?_, by rw [hkey]; exact hfit e hb⟩⟩
      rw [compare, hkey]
      exact compareKey_of_fits 0 h0 h1 hlt (hfit e hb)

/-- The equivalence on the tree of the two blocks of 64 bytes. -/
theorem removed_fits_iff_twin :
    (∃ f m' tree', removeRbnode twinMem twinTree 64 (some ⟨4, 0⟩) = some (f, m', tree') ∧
      (f ≠ 0 → compare m' f 64 (some ⟨4, 0⟩) = 0 ∧ frontOffset f 4 + 64 ≤ nodeData m' f)) ↔
    ∀ e, bestMatch (.node false .nil ⟨0x101c, 64, [0x2000]⟩ .nil) 64 (some ⟨4, 0⟩) = some e →
      frontOffset (fitNode e) 4 + 64 ≤ e.key :=
  removed_fits_iff twin_free 64 (by decide) (by decide)

/-- For 60 bytes aligned to 32 the search finds the aligned block, but its duplicate is
    returned, which has only 36 bytes left behind its padding. -/
theorem twin_removed_unfit :
    FreeTree twinMem twinTree (.node false .nil ⟨0x101c, 64, [0x2000]⟩ .nil) ∧
    ∃ m' tree', removeRbnode twinMem twinTree 60 (some ⟨32, 0⟩) = some (0x2000, m', tree') ∧
      compare m' 0x2000 60 (some ⟨32, 0⟩) ≠ 0 := by
  refine ⟨twin_free, ?_⟩
  obtain ⟨m', tree', hr, -, hkey, -⟩ :=
    twin_free.remove_fit (show bestMatch _ 60 (some ⟨32, 0⟩) = some ⟨0x101c, 64, [0x2000]⟩ by decide)
  have hfit : fitNode ⟨0x101c, 64, [0x2000]⟩ = 0x2000 := rfl
  rw [hfit] at hr hkey
  refine ⟨m', tree', hr, ?_⟩
  rw [compare, hkey]
  decide

end Aligned

end Toutatis
