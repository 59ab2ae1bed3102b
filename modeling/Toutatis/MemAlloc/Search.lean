import Toutatis.MemAlloc.FreeTree
import Toutatis.RbTree.Lookup

/-!
# What the searches of the free tree find

A removal by size and address, a lookup by size and an aligned search, each
compared with the set of nodes that the tree holds.

## Key results

- `removed_by_identity`: removal by size and address takes just that node
- `removed_matches_iff`: the address is not tested for a node without duplicates
- `lookup_finds_iff`: `lookup_rbnode` sees one side of the tree only
- `aligned_search_iff`: an aligned search sees the right side of the tree only
-/

namespace Toutatis

open ByteMem RedBlack RedBlack.ColorTree

/-- No two entries share a key. -/
theorem Sorted.eq_of_key {L : List Entry} (h : Sorted L) {e e' : Entry} (he : e ∈ L) (he' : e' ∈ L)
    (hkey : e.key = e'.key) : e = e' := by
  have hnd : (L.map Entry.key).Nodup := by
    refine List.pairwise_map.mpr (h.imp fun {a b} hlt => ?_)
    omega
  exact List.inj_on_of_nodup_map hnd he he' hkey

theorem mem_of_mem_sideSpine {d : Bool} {T : ColorTree Entry} {e : Entry}
    (h : e ∈ T.sideSpine d) : e ∈ T.toList := by
  induction T with
  | nil => exact absurd h List.not_mem_nil
  | node c l x r ihl ihr =>
    rw [sideSpine, List.mem_cons] at h
    rcases h with rfl | h
    · simp
    · cases d
      · simp [ihl h]
      · simp [ihr h]

section

variable {m : Mem} {tree : RbTree AllocArgs} {T : ColorTree Entry}

/-- The nodes of an entry are found by walks, under its key. -/
theorem FreeTree.reachable_entry (h : FreeTree m tree T) {e : Entry} (he : e ∈ T.toList) {a : Nat}
    (ha : a ∈ e.nodes) : Reachable m tree.root a ∧ nodeData m a = e.key :=
  ⟨h.reachable_iff.mpr (mem_treeNodes_iff.mpr ⟨e, he, ha⟩), data_of_mem h.models he ha⟩

/-- The found node of the descent of `remove_rbnode`. -/
theorem FreeTree.descent (h : FreeTree m tree T) (data : Nat) (args : Option AllocArgs) :
    ∃ m₁ v, removeDescent m tree data args = some (m₁, v) ∧
      v.f = ((bestMatch T data args).map Entry.addr).getD 0 := by
  obtain ⟨m₁, V₁, ctx₁, v₁, hr, -, hinv⟩ := removeDescent_spec h.toValidTree
    (h.compare_entry data args) (matchesDown_compare h.sorted data args)
  refine ⟨m₁, v₁, hr, ?_⟩
  have hfound := hinv.foundAt
  rw [bestMatch]
  cases hb : lastMatch (fun e => compareKey e.addr e.key data args) none T with
  | none =>
    rw [hb] at hfound
    exact hfound
  | some e =>
    rw [hb] at hfound
    exact hfound.1

/-- The match of an exact search: the entry with the key. -/
theorem FreeTree.bestMatch_exact (h : FreeTree m tree T) {e : Entry} (he : e ∈ T.toList)
    {args : Option AllocArgs} (hargs : alignmentOf args = 0) :
    bestMatch T e.key args = some e :=
  lastMatch_exact (fun _ => compareKey_exact _ _ _ hargs) h.sorted he none

theorem bestMatch_key {data : Nat} {args : Option AllocArgs} (hargs : alignmentOf args = 0)
    {e : Entry} (hb : bestMatch T data args = some e) : e ∈ T.toList ∧ e.key = data := by
  obtain ⟨he, h0⟩ := lastMatch_mem hb
  rw [compareKey_exact _ _ _ hargs, exactCmp_eq_zero] at h0
  exact ⟨he, h0⟩

/-! ## Removal by size and address -/

/-- **Removal by identity.** With the size and the address of a node in the tree or in a chain,
    `remove_rbnode` returns this node, and all others stay under their keys. If the node heads a
    chain, its first duplicate has after the call the place, the children and the colour that
    the node had when the descent ended, and the rest of the chain. -/
theorem removed_by_identity (h : FreeTree m tree T) {x : Nat} (hx : Reachable m tree.root x) :
    ∃ m' tree' T', removeRbnode m tree (nodeData m x) (some ⟨0, x⟩) = some (x, m', tree') ∧
      FreeTree m' tree' T' ∧
      (∀ a, Reachable m' tree'.root a ↔ Reachable m tree.root a ∧ a ≠ x) ∧
      (∀ a, Reachable m tree.root a → nodeData m' a = nodeData m a) ∧
      ∀ key a D, ⟨x, key, a :: D⟩ ∈ T.toList → ∃ m₁ v ctx c l r,
        removeDescent m tree (nodeData m x) (some ⟨0, x⟩) = some (m₁, v) ∧
        TreeAt m₁ (getLink m₁ headAddr 1) (plug ctx (.node c l ⟨x, key, a :: D⟩ r)) ∧
        TreeAt m' tree'.root ((plug ctx (.node c l ⟨a, key, D⟩ r)).paint false) := by
  obtain ⟨e, he, hxe⟩ := mem_treeNodes_iff.mp (h.reachable_iff.mp hx)
  have hkey := (h.reachable_entry he hxe).2
  have hne : ∀ e ∈ T.toList, ∀ b ∈ e.nodes, b ≠ 0 := fun e he b hb => (h.reachable_entry he hb).1.1
  have hnode : removedNode m T (nodeData m x) (some ⟨0, x⟩) = x := by
    rw [removedNode, hkey, h.bestMatch_exact he rfl, pick_address m hxe (hne e he)]
  obtain ⟨m', tree', T', hr, hv, hset, hkeys⟩ :=
    h.remove_reachable (nodeData m x) (some ⟨0, x⟩)
  rw [hnode] at hr hset
  refine ⟨m', tree', T', hr, hv, ?_, hkeys, fun key a D hmem => ?_⟩
  · rcases hset with ⟨h0, -⟩ | ⟨-, hset⟩
    · exact absurd h0 hx.1
    · exact hset
  · -- the duplicates are other nodes, so the match itself is selected
    obtain rfl : nodeData m x = key := (h.reachable_entry hmem (by simp [Entry.nodes])).2
    have hlast := h.bestMatch_exact hmem (show alignmentOf (some ⟨0, x⟩) = 0 from rfl)
    rw [bestMatch] at hlast
    have hnd : (x :: a :: D).Nodup := by
      have hall := ((perm_treeNodes T).nodup_iff.mp h.nodes.nodup)
      exact (List.nodup_flatMap.mp hall).1 _ hmem
    have hno : ∀ b ∈ a :: D, selectDup m b (some ⟨0, x⟩) = false := by
      intro b hb
      have hb0 := hne _ hmem b (List.mem_cons_of_mem _ hb)
      rw [selectDup_address m hb0 hx.1, decide_eq_false]
      rintro rfl
      exact (List.nodup_cons.mp hnd).1 hb
    have hself : selectDup m x (some ⟨0, x⟩) = true := by
      rw [selectDup_address m hx.1 hx.1, decide_eq_true rfl]
    obtain ⟨m₂, tree₂, m₁, v, ctx, c, l, r, hr₂, hdesc, hbefore, hafter⟩ :=
      removeRbnode_promote h.toValidTree (h.compare_entry _ _) (h.select_node _)
        (matchesDown_compare h.sorted _ _) hlast rfl hno hself
    rw [hr, Option.some.injEq, Prod.mk.injEq, Prod.mk.injEq] at hr₂
    obtain ⟨-, rfl, rfl⟩ := hr₂
    exact ⟨m₁, v, ctx, c, l, r, hdesc, hbefore, hafter⟩

/-- The head of the chain of two blocks of 64 bytes. -/
theorem removed_by_identity_twin :
    Reachable twinMem twinTree.root 0x101c ∧
    ∃ m' tree', removeRbnode twinMem twinTree (nodeData twinMem 0x101c) (some ⟨0, 0x101c⟩) =
      some (0x101c, m', tree') := by
  have hx : Reachable twinMem twinTree.root 0x101c :=
    (twin_free.reachable_entry (List.mem_singleton_self _) (List.mem_cons_self)).1
  obtain ⟨m', tree', -, hr, -⟩ := removed_by_identity twin_free hx
  exact ⟨hx, m', tree', hr⟩

/-- A chain yields nothing, or a node that is selected. -/
theorem pick_selected (sel : Nat → Bool) {e : Entry} (hd : e.dups ≠ []) :
    pick sel (some e) = 0 ∨ pick sel (some e) ∈ e.nodes ∧ sel (pick sel (some e)) = true := by
  rw [pick, if_neg hd]
  cases hf : e.dups.find? sel with
  | some a =>
    exact Or.inr ⟨List.mem_cons_of_mem _ (List.mem_of_find?_eq_some hf), List.find?_some hf⟩
  | none =>
    rw [Option.getD_none]
    by_cases hs : sel e.addr = true
    · rw [if_pos hs]
      exact Or.inr ⟨e.addr_mem_nodes, hs⟩
    · rw [if_neg hs]
      exact Or.inl rfl

/-- **The address of a removal.** The node that `remove_rbnode` takes out and returns is the one
    at the given address, or none when no node of that size is there, if and only if the tree
    has no node of that size that stands alone at another address. -/
theorem removed_matches_iff (h : FreeTree m tree T) (key : Nat) {address : Nat}
    (ha : address ≠ 0) :
    (∃ f m' tree', removeRbnode m tree key (some ⟨0, address⟩) = some (f, m', tree') ∧
      (f = 0 ∧ (∀ a, Reachable m' tree'.root a ↔ Reachable m tree.root a) ∨
        f = address ∧ ∀ a, Reachable m' tree'.root a ↔ Reachable m tree.root a ∧ a ≠ address) ∧
      (¬(Reachable m tree.root address ∧ nodeData m address = key) → f = 0)) ↔
    ∀ e ∈ T.toList, e.key = key → e.dups = [] → e.addr = address := by
  obtain ⟨m₁, tree₁, T₁, hr, hv, hset, hkeys⟩ := h.remove_reachable key (some ⟨0, address⟩)
  constructor
  · rintro ⟨f, m', tree', hr', hf, -⟩ e he hk hd
    have hnode : removedNode m T key (some ⟨0, address⟩) = e.addr := by
      rw [removedNode, ← hk, h.bestMatch_exact he rfl, pick, if_pos hd]
    rw [hr, hnode, Option.some.injEq, Prod.mk.injEq] at hr'
    have hne := (h.reachable_entry he e.addr_mem_nodes).1.1
    rcases hf with ⟨h0, -⟩ | ⟨h1, -⟩
    · exact absurd (hr'.1.trans h0) hne
    · exact hr'.1.trans h1
  · intro hall
    -- what is returned is nothing or the node at the address, which has the size
    have hnode : removedNode m T key (some ⟨0, address⟩) = 0 ∨
        removedNode m T key (some ⟨0, address⟩) = address ∧ Reachable m tree.root address ∧
          nodeData m address = key := by
      rw [removedNode]
      cases hb : bestMatch T key (some ⟨0, address⟩) with
      | none => exact Or.inl rfl
      | some e =>
        obtain ⟨he, hk⟩ := bestMatch_key rfl hb
        by_cases hd : e.dups = []
        · have haddr := hall e he hk hd
          rw [pick, if_pos hd]
          obtain ⟨hreach, hdata⟩ := h.reachable_entry he e.addr_mem_nodes
          rw [haddr] at hreach hdata
          exact Or.inr ⟨haddr, hreach, hdata.trans hk⟩
        · rcases pick_selected (fun a => selectDup m a (some ⟨0, address⟩)) hd with
            h0 | ⟨hmem, hsel⟩
          · exact Or.inl h0
          · obtain ⟨hreach, hdata⟩ := h.reachable_entry he hmem
            rw [selectDup_address m hreach.1 ha, decide_eq_true_eq] at hsel
            rw [hsel] at hreach hdata
            exact Or.inr ⟨hsel, hreach, hdata.trans hk⟩
    refine ⟨_, m₁, tree₁, hr, ?_, fun hnone => ?_⟩
    · rcases hset with hset | ⟨hreach, hset⟩
      · exact Or.inl hset
      · rcases hnode with h0 | ⟨h1, -⟩
        · exact absurd h0 hreach.1
        · rw [h1] at hset ⊢
          exact Or.inr ⟨rfl, hset⟩
    · rcases hnode with h0 | ⟨-, hyes⟩
      · exact h0
      · exact absurd hyes hnone

/-- The lone block of 64 bytes at `0x2000`. -/
def loneMem : Mem := store32 (fun _ => 0) 0x2000 64

/-- The tree structure for `loneMem`. -/
def loneTree : RbTree AllocArgs := ⟨0x2000, 1, 0, compare, selectDup⟩

theorem lone_free : FreeTree loneMem loneTree (.node false .nil ⟨0x2000, 64, []⟩ .nil) := by
  refine ⟨⟨rfl, ?_, ⟨by decide, by decide, by decide, by decide, by decide⟩, ⟨1, .black .nil .nil⟩,
    by simp [Sorted], fun _ => by decide⟩, rfl, rfl⟩
  exact ⟨⟨by decide, by decide, by decide, trivial⟩, by decide, by decide, trivial, trivial⟩

/-- The equivalence on the tree of the two blocks of 64 bytes. -/
theorem removed_matches_iff_twin :
    (∃ f m' tree', removeRbnode twinMem twinTree 64 (some ⟨0, 0x3000⟩) = some (f, m', tree') ∧
      (f = 0 ∧ (∀ a, Reachable m' tree'.root a ↔ Reachable twinMem twinTree.root a) ∨
        f = 0x3000 ∧ ∀ a, Reachable m' tree'.root a ↔
          Reachable twinMem twinTree.root a ∧ a ≠ 0x3000) ∧
      (¬(Reachable twinMem twinTree.root 0x3000 ∧ nodeData twinMem 0x3000 = 64) → f = 0)) ↔
    ∀ e ∈ (ColorTree.node false .nil (⟨0x101c, 64, [0x2000]⟩ : Entry) .nil).toList,
      e.key = 64 → e.dups = [] → e.addr = 0x3000 :=
  removed_matches_iff twin_free 64 (by decide)

/-- Asked for a block of 64 bytes at `0x3000`, `remove_rbnode` returns the one at `0x2000`. -/
theorem lone_removed_elsewhere :
    FreeTree loneMem loneTree (.node false .nil ⟨0x2000, 64, []⟩ .nil) ∧
    ∃ m' tree', removeRbnode loneMem loneTree 64 (some ⟨0, 0x3000⟩) = some (0x2000, m', tree') ∧
      ¬Reachable m' tree'.root 0x2000 := by
  refine ⟨lone_free, ?_⟩
  obtain ⟨m', tree', T', hr, -, hset, -⟩ := lone_free.remove_reachable 64 (some ⟨0, 0x3000⟩)
  have hnode : removedNode loneMem (.node false .nil ⟨0x2000, 64, []⟩ .nil) 64
      (some ⟨0, 0x3000⟩) = 0x2000 := by decide
  rw [hnode] at hr hset
  refine ⟨m', tree', hr, fun hreach => ?_⟩
  rcases hset with ⟨h0, -⟩ | ⟨-, hset⟩
  · exact absurd h0 (by decide)
  · exact ((hset _).mp hreach).2 rfl

/-! ## Lookup -/

/-- The side that a lookup walks down, by its first comparison. -/
def lookupSide (x : Entry) (key : Nat) : Bool := decide (x.key < key)

theorem exactCmp_neg (key data : Nat) : exactCmp key data < 0 ↔ key < data := by
  rw [exactCmp]
  split
  · simp [*]
  · split <;> simp [*]

/-- What `lookup_rbnode` returns in a tree with the root `x`. -/
theorem FreeTree.lookup {c : Bool} {l r : ColorTree Entry} {x : Entry}
    (h : FreeTree m tree (.node c l x r)) (key : Nat) :
    lookupRbnode m tree key none = some (matchNode (fun e => exactCmp e.key key)
      ((ColorTree.node c l x r).sideSpine (lookupSide x key))) := by
  have hspec : lookupRbnode m tree key none = some (matchNode (fun e => exactCmp e.key key)
      ((ColorTree.node c l x r).sideSpine (decide (exactCmp x.key key < 0)))) :=
    lookupRbnode_spec h.toValidTree fun e he => by
      rw [h.compare_entry key none m e he, compareKey_exact _ _ _ rfl]
  simp only [exactCmp_neg] at hspec
  exact hspec

theorem matchNode_cases {L : List Entry} (key : Nat) :
    (matchNode (fun e => exactCmp e.key key) L = 0 ∧ ∀ e ∈ L, e.key ≠ key) ∨
      ∃ e ∈ L, e.key = key ∧ matchNode (fun e => exactCmp e.key key) L = e.addr := by
  rw [matchNode]
  cases hf : L.find? fun e => decide (exactCmp e.key key = 0) with
  | none =>
    refine Or.inl ⟨rfl, fun e he hk => ?_⟩
    have := List.find?_eq_none.mp hf e he
    rw [decide_eq_true_eq, exactCmp_eq_zero] at this
    exact this hk
  | some e =>
    have h0 := List.find?_some hf
    rw [decide_eq_true_eq, exactCmp_eq_zero] at h0
    exact Or.inr ⟨e, List.mem_of_find?_eq_some hf, h0, rfl⟩

/-- **Lookup.** `lookup_rbnode` returns a node of the key if there is one and a null pointer
    otherwise, as the descent of `remove_rbnode` does, if and only if the tree has a root and
    the node of the key, if any, is met on the way that always keeps the direction of the first
    comparison. -/
theorem lookup_finds_iff (h : FreeTree m tree T) (key : Nat) :
    (∃ f, lookupRbnode m tree key none = some f ∧
      (f ≠ 0 ↔ ∃ a, Reachable m tree.root a ∧ nodeData m a = key) ∧
      (f ≠ 0 → Reachable m tree.root f ∧ nodeData m f = key) ∧
      ∃ m₁ v, removeDescent m tree key none = some (m₁, v) ∧ v.f = f) ↔
    ∃ c l x r, T = .node c l x r ∧
      ∀ e ∈ T.toList, e.key = key → e ∈ T.sideSpine (lookupSide x key) := by
  constructor
  · -- the node that is found is on the spine, and there is one node of each key
    rintro ⟨f, hr, hiff, -, -⟩
    cases T with
    | nil =>
      have hroot : tree.root = 0 := h.root
      rw [lookupRbnode, if_pos hroot] at hr
      exact absurd hr (by simp)
    | node c l x r =>
      refine ⟨c, l, x, r, rfl, fun e he hk => ?_⟩
      rw [h.lookup key, Option.some.injEq] at hr
      obtain ⟨hreach, hdata⟩ := h.reachable_entry he e.addr_mem_nodes
      rcases matchNode_cases (L := (ColorTree.node c l x r).sideSpine (lookupSide x key)) key with
        ⟨h0, -⟩ | ⟨e', he', hk', -⟩
      · exact absurd (hr.symm.trans h0) (hiff.mpr ⟨e.addr, hreach, hdata.trans hk⟩)
      · rw [h.sorted.eq_of_key he (mem_of_mem_sideSpine he') (hk.trans hk'.symm)]
        exact he'
  · rintro ⟨c, l, x, r, rfl, hall⟩
    obtain ⟨m₁, v, hdesc, hf⟩ := h.descent key none
    refine ⟨_, h.lookup key, ?_⟩
    rcases matchNode_cases (L := (ColorTree.node c l x r).sideSpine (lookupSide x key)) key with
      ⟨h0, hno⟩ | ⟨e, he, hk, haddr⟩
    · -- no node of the key at all
      have hnone : ¬∃ a, Reachable m tree.root a ∧ nodeData m a = key := by
        rintro ⟨a, ha, hdata⟩
        obtain ⟨e, he, hae⟩ := mem_treeNodes_iff.mp (h.reachable_iff.mp ha)
        have hk := (h.reachable_entry he hae).2.symm.trans hdata
        exact hno e (hall e he hk) hk
      have hbest : bestMatch (.node c l x r) key none = none := by
        cases hb : bestMatch (.node c l x r) key none with
        | none => rfl
        | some e =>
          obtain ⟨he, hk⟩ := bestMatch_key rfl hb
          exact absurd hk (hno e (hall e he hk))
      rw [hbest] at hf
      rw [h0]
      exact ⟨iff_of_false (fun hne => hne rfl) hnone, fun hne => absurd rfl hne, m₁, v, hdesc, hf⟩
    · -- lookup and removal meet the same node
      obtain ⟨hreach, hdata⟩ := h.reachable_entry (mem_of_mem_sideSpine he) e.addr_mem_nodes
      rw [← hk, h.bestMatch_exact (mem_of_mem_sideSpine he) rfl] at hf
      rw [haddr]
      exact ⟨iff_of_true hreach.1 ⟨e.addr, hreach, hdata.trans hk⟩,
        fun _ => ⟨hreach, hdata.trans hk⟩, m₁, v, hdesc, hf⟩

/-- The lookup of the size 64 in the tree of two such blocks. -/
theorem lookup_finds_iff_twin :
    (∃ f, lookupRbnode twinMem twinTree 64 none = some f ∧
      (f ≠ 0 ↔ ∃ a, Reachable twinMem twinTree.root a ∧ nodeData twinMem a = 64) ∧
      (f ≠ 0 → Reachable twinMem twinTree.root f ∧ nodeData twinMem f = 64) ∧
      ∃ m₁ v, removeDescent twinMem twinTree 64 none = some (m₁, v) ∧ v.f = f) :=
  (lookup_finds_iff twin_free 64).mpr
    ⟨false, .nil, ⟨0x101c, 64, [0x2000]⟩, .nil, rfl, fun _ he _ => he⟩

/-- Sizes 20 at the root, 10 and 30 below it, and 15 between 10 and 20: what insertions of 10,
    20, 30 and 15 in this order build. -/
def turnMem : Mem :=
  store32 (store32 (store32 (store32 (store32 (store32 (store32 (store32 (fun _ => 0) 0x1000 10)
    0x1008 0x1300) 0x1100 20) 0x1104 0x1000) 0x1108 0x1200) 0x1200 30) 0x1300 15) 0x1304 1

/-- The tree structure for `turnMem`. -/
def turnTree : RbTree AllocArgs := ⟨0x1100, 4, 0, compare, selectDup⟩

theorem turn_free : FreeTree turnMem turnTree
    (.node false (.node false .nil ⟨0x1000, 10, []⟩ (.node true .nil ⟨0x1300, 15, []⟩ .nil))
      ⟨0x1100, 20, []⟩ (.node false .nil ⟨0x1200, 30, []⟩ .nil)) := by
  refine ⟨⟨rfl, ?_, ⟨by decide, by decide, by decide, by decide, by decide⟩,
    ⟨2, .black (.black .nil (.red .nil .nil)) (.black .nil .nil)⟩, by simp [Sorted],
    fun _ => by decide⟩, rfl, rfl⟩
  exact ⟨⟨by decide, by decide, by decide, trivial⟩, by decide, by decide,
    ⟨⟨by decide, by decide, by decide, trivial⟩, by decide, by decide, trivial,
      ⟨by decide, by decide, by decide, trivial⟩, by decide, by decide, trivial, trivial⟩,
    ⟨by decide, by decide, by decide, trivial⟩, by decide, by decide, trivial, trivial⟩

/-- The search for 15 turns left at the root and goes on to the left: the node of 15 is missed.
    In the empty tree the search goes through a null pointer. -/
theorem lookup_misses :
    lookupRbnode turnMem turnTree 15 none = some 0 ∧ Reachable turnMem turnTree.root 0x1300 ∧
      nodeData turnMem 0x1300 = 15 ∧
    lookupRbnode (fun _ => 0) (initRbtree turnTree compare selectDup) 15 none = none := by
  refine ⟨?_, ⟨by decide, [0, 1], by decide⟩, by decide, rfl⟩
  rw [turn_free.lookup 15]
  decide

/-! ## Aligned search -/

/-- Without a node that is too big, the search goes right until it has a match, and has one
    from then on. -/
theorem lastMatch_eq_none_iff {cmp : Entry → Int} (hle : ∀ e, cmp e ≤ 0) :
    lastMatch cmp none T = none ↔ ∀ e ∈ T.sideSpine true, cmp e ≠ 0 := by
  -- a match is replaced by another one, but never dropped
  have hsome : ∀ (t : ColorTree Entry) (e : Entry), lastMatch cmp (some e) t ≠ none := by
    intro t
    induction t with
    | nil => simp [lastMatch]
    | node c l x r ihl ihr =>
      intro e
      rw [lastMatch]
      split
      · exact ihr e
      · split
        · exact ihl x
        · exact ihl e
  induction T with
  | nil => simp [lastMatch, sideSpine]
  | node c l x r ihl ihr =>
    rw [lastMatch, sideSpine, cond_true]
    by_cases hneg : cmp x < 0
    · rw [if_pos hneg]
      refine ihr.trans ?_
      simp only [List.mem_cons, forall_eq_or_imp]
      exact (and_iff_right (by omega)).symm
    · have h0 : cmp x = 0 := by
        have := hle x
        omega
      rw [if_neg hneg, if_pos h0]
      exact iff_of_false (hsome l x) fun hall => hall x (by simp) h0

/-- **The aligned search.** `remove_rbnode` with an alignment returns a node whenever some block
    holds the request behind the padding that its own address needs, if and only if no block
    does or `compare` accepts a node on the right side of the tree: the root, its right child,
    the right child of that one, and so on. -/
theorem aligned_search_iff (h : FreeTree m tree T) (data : Nat) {alignment : Nat}
    (h0 : 1 < alignment) :
    ((∃ a, Reachable m tree.root a ∧ padding (add32 a 4) alignment + data ≤ nodeData m a) →
      ∃ f m' tree', removeRbnode m tree data (some ⟨alignment, 0⟩) = some (f, m', tree') ∧
        f ≠ 0) ↔
    ((∀ a, Reachable m tree.root a → nodeData m a < padding (add32 a 4) alignment + data) ∨
      ∃ e ∈ T.sideSpine true, compare m e.addr data (some ⟨alignment, 0⟩) = 0) := by
  obtain ⟨m₁, tree₁, T₁, kind, hr, -⟩ := h.remove data (some ⟨alignment, 0⟩)
  have hne : alignmentOf (some ⟨alignment, 0⟩) ≠ 0 := by
    show alignment ≠ 0
    omega
  -- a node is returned just when the search meets a match
  have hnull : removedNode m T data (some ⟨alignment, 0⟩) ≠ 0 ↔
      ∃ e ∈ T.sideSpine true, compare m e.addr data (some ⟨alignment, 0⟩) = 0 := by
    have hmatch : bestMatch T data (some ⟨alignment, 0⟩) = none ↔
        ∀ e ∈ T.sideSpine true, compareKey e.addr e.key data (some ⟨alignment, 0⟩) ≠ 0 :=
      lastMatch_eq_none_iff fun e => compareKey_fit_le _ _ _ hne
    have hcmp : ∀ e ∈ T.sideSpine true, compare m e.addr data (some ⟨alignment, 0⟩) =
        compareKey e.addr e.key data (some ⟨alignment, 0⟩) := fun e he => by
      rw [compare, (h.reachable_entry (mem_of_mem_sideSpine he) e.addr_mem_nodes).2]
    rw [removedNode_fit h]
    cases hb : bestMatch T data (some ⟨alignment, 0⟩) with
    | none =>
      refine iff_of_false (fun hne => hne rfl) ?_
      rintro ⟨e, he, hz⟩
      exact hmatch.mp hb e he ((hcmp e he).symm.trans hz)
    | some e =>
      have he := (lastMatch_mem hb).1
      refine iff_of_true (h.reachable_entry he (fitNode_mem e)).1.1 ?_
      by_contra hno
      have hall : ∀ e ∈ T.sideSpine true,
          compareKey e.addr e.key data (some ⟨alignment, 0⟩) ≠ 0 :=
        fun e he hz => hno ⟨e, he, (hcmp e he).trans hz⟩
      rw [hmatch.mpr hall] at hb
      exact absurd hb (by simp)
  have hres : (∃ f m' tree', removeRbnode m tree data (some ⟨alignment, 0⟩) =
      some (f, m', tree') ∧ f ≠ 0) ↔ removedNode m T data (some ⟨alignment, 0⟩) ≠ 0 := by
    constructor
    · rintro ⟨f, m', tree', hr', hf⟩
      rw [hr, Option.some.injEq, Prod.mk.injEq] at hr'
      rwa [hr'.1]
    · intro hf
      exact ⟨_, m₁, tree₁, hr, hf⟩
  rw [hres, ← hnull]
  by_cases hfit : ∃ a, Reachable m tree.root a ∧
      padding (add32 a 4) alignment + data ≤ nodeData m a
  · have hnot : ¬∀ a, Reachable m tree.root a →
        nodeData m a < padding (add32 a 4) alignment + data := by
      obtain ⟨a, ha, hle⟩ := hfit
      intro hall
      have := hall a ha
      omega
    rw [or_iff_right hnot]
    exact ⟨fun himp => himp hfit, fun hn _ => hn⟩
  · refine iff_of_true (fun hf => absurd hf hfit) (Or.inl fun a ha => ?_)
    by_contra hle
    exact hfit ⟨a, ha, by omega⟩

/-- The equivalence on the tree of the two blocks of 64 bytes. -/
theorem aligned_search_iff_twin :
    ∃ f m' tree', removeRbnode twinMem twinTree 36 (some ⟨32, 0⟩) = some (f, m', tree') ∧ f ≠ 0 :=
  (aligned_search_iff twin_free 36 (by decide)).mpr
    (Or.inr ⟨⟨0x101c, 64, [0x2000]⟩, List.mem_cons_self, by decide⟩)
    ⟨0x101c, (twin_free.reachable_entry (List.mem_singleton_self _) List.mem_cons_self).1,
      by decide⟩

/-- A block of 64 bytes that needs 28 bytes of padding for a multiple of 32, and on its left
    one of 60 bytes that is aligned. -/
def leftMem : Mem :=
  store32 (store32 (store32 (store32 (fun _ => 0) 0x2000 64) 0x2004 0x101c) 0x101c 60) 0x1020 1

/-- The tree structure for `leftMem`. -/
def leftTree : RbTree AllocArgs := ⟨0x2000, 2, 0, compare, selectDup⟩

theorem left_free : FreeTree leftMem leftTree
    (.node false (.node true .nil ⟨0x101c, 60, []⟩ .nil) ⟨0x2000, 64, []⟩ .nil) := by
  refine ⟨⟨rfl, ?_, ⟨by decide, by decide, by decide, by decide, by decide⟩,
    ⟨1, .black (.red .nil .nil) .nil⟩, by simp [Sorted], fun _ => by decide⟩, rfl, rfl⟩
  exact ⟨⟨by decide, by decide, by decide, trivial⟩, by decide, by decide,
    ⟨⟨by decide, by decide, by decide, trivial⟩, by decide, by decide, trivial, trivial⟩, trivial⟩

/-- For 60 bytes aligned to 32 the aligned block on the left is missed. -/
theorem aligned_search_misses :
    FreeTree leftMem leftTree
      (.node false (.node true .nil ⟨0x101c, 60, []⟩ .nil) ⟨0x2000, 64, []⟩ .nil) ∧
    (Reachable leftMem leftTree.root 0x101c ∧
      padding (add32 0x101c 4) 32 + 60 ≤ nodeData leftMem 0x101c) ∧
    ∃ m' tree', removeRbnode leftMem leftTree 60 (some ⟨32, 0⟩) = some (0, m', tree') := by
  have he : (⟨0x101c, 60, []⟩ : Entry) ∈ (ColorTree.node false
      (.node true .nil (⟨0x101c, 60, []⟩ : Entry) .nil) ⟨0x2000, 64, []⟩ .nil).toList := by simp
  refine ⟨left_free, ⟨(left_free.reachable_entry he List.mem_cons_self).1, by decide⟩, ?_⟩
  obtain ⟨m', tree', T', kind, hr, -⟩ := left_free.remove 60 (some ⟨32, 0⟩)
  have hnode : removedNode leftMem (.node false (.node true .nil ⟨0x101c, 60, []⟩ .nil)
      ⟨0x2000, 64, []⟩ .nil) 60 (some ⟨32, 0⟩) = 0 := by decide
  rw [hnode] at hr
  exact ⟨m', tree', hr⟩

end

end Toutatis
