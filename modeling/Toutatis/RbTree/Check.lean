import Toutatis.RbTree.Tree

/-!
# The checker of the tree

`assert_tree` of `rb_tree.c`, on trees of nodes in memory. It prints a message and stops in an
endless loop at the first violation that it meets, which is an `error` here; the fuel bounds the
depth of its recursion, `none` when it is used up.

Red nodes and black heights are checked on the whole tree. The order is checked between a node and
its children only, and a grandchild that is out of range is not found.

## Key results

- `assertTree_spec`: what `assert_tree` returns
- `SearchTree.locallyOrdered`: a search tree is ordered at every node
- `assert_tree_iff`: the trees on which the checker is right
- `assertTree_of_valid`: the trees of this module pass
-/

namespace Toutatis

open ByteMem RedBlack RedBlack.ColorTree

/-! ## The function -/

/-- What `assert_tree` reports. -/
inductive TreeViolation where
  | red
  | binaryTree
  | black
deriving DecidableEq

/-- `assert_tree` -/
def assertTree (m : Mem) : (fuel root : Nat) → Option (Except TreeViolation Nat)
  | 0, _ => none
  | fuel + 1, root =>
    if root = 0 then some (.ok 1)
    else
      let ln := getLink m root 0
      let rn := getLink m root 1
      if isRed m root && (isRed m ln || isRed m rn) then some (.error .red)
      else
        (assertTree m fuel ln).bind fun
          | .error v => some (.error v)
          | .ok lh =>
            (assertTree m fuel rn).bind fun
              | .error v => some (.error v)
              | .ok rh =>
                if (ln ≠ 0 ∧ nodeData m ln ≥ nodeData m root) ∨
                    (rn ≠ 0 ∧ nodeData m rn ≤ nodeData m root) then some (.error .binaryTree)
                else if lh ≠ 0 ∧ rh ≠ 0 ∧ lh ≠ rh then some (.error .black)
                else if lh ≠ 0 ∧ rh ≠ 0 then some (.ok (if isRed m root then lh else lh + 1))
                else some (.ok 0)

/-! ## Trees of keys -/

/-- The pointer `root` shows a tree of coloured nodes with their keys. -/
def KeyTreeAt (m : Mem) : (root : Nat) → ColorTree Nat → Prop
  | root, .nil => root = 0
  | root, .node c l key r =>
    root ≠ 0 ∧ isRed m root = c ∧ nodeData m root = key ∧ KeyTreeAt m (getLink m root 0) l ∧
      KeyTreeAt m (getLink m root 1) r

/-- Every key is below `key`, or above it. -/
def KeysBelow (t : ColorTree Nat) (key : Nat) : Prop := ∀ k ∈ t.toList, k < key

@[inherit_doc KeysBelow]
def KeysAbove (t : ColorTree Nat) (key : Nat) : Prop := ∀ k ∈ t.toList, key < k

/-- The keys are strictly ordered over whole subtrees. -/
def SearchTree : ColorTree Nat → Prop
  | .nil => True
  | .node _ l key r => KeysBelow l key ∧ KeysAbove r key ∧ SearchTree l ∧ SearchTree r

/-- The keys at the root of a tree: one, or none. -/
def rootKeys : ColorTree Nat → List Nat
  | .nil => []
  | .node _ _ key _ => [key]

/-- Every node is strictly ordered with its children. -/
def LocallyOrdered : ColorTree Nat → Prop
  | .nil => True
  | .node _ l key r => (∀ k ∈ rootKeys l, k < key) ∧ (∀ k ∈ rootKeys r, key < k) ∧
      LocallyOrdered l ∧ LocallyOrdered r

/-- No red node has a red child, and all paths have the same number of black nodes. -/
def RedBlackOk (t : ColorTree Nat) : Prop := ∃ c n, Balanced t c n

section

variable {m : Mem} {root fuel : Nat} {t : ColorTree Nat} {c : Bool}

/-- The keys that are compared are keys of the tree. -/
theorem rootKeys_subset (t : ColorTree Nat) : ∀ k ∈ rootKeys t, k ∈ t.toList := by
  cases t with
  | nil => exact fun k hk => absurd hk List.not_mem_nil
  | node c l key r =>
    intro k hk
    rw [List.mem_singleton.mp hk, toList_node]
    exact List.mem_append_right _ List.mem_cons_self

/-- A search tree is ordered at every node. -/
theorem SearchTree.locallyOrdered (h : SearchTree t) : LocallyOrdered t := by
  induction t with
  | nil => trivial
  | node c l key r ihl ihr =>
    obtain ⟨hbelow, habove, hl, hr⟩ := h
    exact ⟨fun k hk => hbelow k (rootKeys_subset l k hk),
      fun k hk => habove k (rootKeys_subset r k hk), ihl hl, ihr hr⟩

/-- What the checker looks for holds in both subtrees as well. -/
theorem subtrees_ok {l r : ColorTree Nat} {key : Nat}
    (h : RedBlackOk (.node c l key r) ∧ LocallyOrdered (.node c l key r)) :
    (RedBlackOk l ∧ LocallyOrdered l) ∧ (RedBlackOk r ∧ LocallyOrdered r) := by
  obtain ⟨⟨c', n, hbal⟩, -, -, hlocall, hlocalr⟩ := h
  cases hbal with
  | red hl hr => exact ⟨⟨⟨_, _, hl⟩, hlocall⟩, ⟨_, _, hr⟩, hlocalr⟩
  | black hl hr => exact ⟨⟨⟨_, _, hl⟩, hlocall⟩, ⟨_, _, hr⟩, hlocalr⟩

/-- `is_red` reads the color of the root. -/
theorem KeyTreeAt.isRed_eq (h : KeyTreeAt m root t) : isRed m root = t.isRed := by
  cases t with
  | nil =>
    have hroot : root = 0 := h
    rw [hroot]
    exact isRed_zero m
  | node c l key r => exact h.2.1

/-- The comparison with a child. -/
theorem KeyTreeAt.rootKeys_iff {P : Nat → Prop} (h : KeyTreeAt m root t) :
    (∀ k ∈ rootKeys t, P k) ↔ root ≠ 0 → P (nodeData m root) := by
  cases t with
  | nil =>
    have hroot : root = 0 := h
    exact ⟨fun _ hne => absurd hroot hne, fun _ k hk => absurd hk List.not_mem_nil⟩
  | node c l key r =>
    obtain ⟨hne, -, hkey, -⟩ := h
    unfold rootKeys
    rw [hkey]
    exact ⟨fun hall _ => hall key List.mem_cons_self, fun hp k hk => by
      rw [List.mem_singleton.mp hk]
      exact hp hne⟩

/-- The end of `assert_tree` at a node whose subtrees have passed. -/
theorem assertTree_node {ln rn nl nr key : Nat} {l r : ColorTree Nat} {cl cr : Bool}
    (hl : KeyTreeAt m ln l) (hr : KeyTreeAt m rn r) (hbl : Balanced l cl nl)
    (hbr : Balanced r cr nr) (hlocall : LocallyOrdered l) (hlocalr : LocallyOrdered r)
    (hlinks : ¬ (c && (l.isRed || r.isRed)) = true) :
    let res : Option (Except TreeViolation Nat) :=
      if (ln ≠ 0 ∧ nodeData m ln ≥ key) ∨ (rn ≠ 0 ∧ nodeData m rn ≤ key) then
        some (.error .binaryTree)
      else if nl + 1 ≠ 0 ∧ nr + 1 ≠ 0 ∧ nl + 1 ≠ nr + 1 then some (.error .black)
      else if nl + 1 ≠ 0 ∧ nr + 1 ≠ 0 then some (.ok (if c = true then nl + 1 else nl + 1 + 1))
      else some (.ok 0)
    (∃ c' n, Balanced (.node c l key r) c' n ∧ LocallyOrdered (.node c l key r) ∧
      res = some (.ok (n + 1))) ∨
    (¬ (RedBlackOk (.node c l key r) ∧ LocallyOrdered (.node c l key r)) ∧
      ∃ v, res = some (.error v)) := by
  simp only
  -- the comparisons with the children are the local order at this node
  have hleft : (∀ k ∈ rootKeys l, k < key) ↔ ¬ (ln ≠ 0 ∧ nodeData m ln ≥ key) := by
    rw [hl.rootKeys_iff]
    omega
  have hright : (∀ k ∈ rootKeys r, key < k) ↔ ¬ (rn ≠ 0 ∧ nodeData m rn ≤ key) := by
    rw [hr.rootKeys_iff]
    omega
  by_cases horder : (ln ≠ 0 ∧ nodeData m ln ≥ key) ∨ (rn ≠ 0 ∧ nodeData m rn ≤ key)
  · -- a child that is out of order
    right
    rw [if_pos horder]
    refine ⟨fun hok => ?_, .binaryTree, rfl⟩
    cases horder with
    | inl hchild => exact hleft.mp hok.2.1 hchild
    | inr hchild => exact hright.mp hok.2.2.1 hchild
  · rw [if_neg horder]
    by_cases hheights : nl = nr
    · subst hheights
      left
      have hlocal : LocallyOrdered (.node c l key r) :=
        ⟨hleft.mpr fun h => horder (Or.inl h), hright.mpr fun h => horder (Or.inr h), hlocall,
          hlocalr⟩
      rw [if_neg (by omega), if_pos (by omega)]
      cases c with
      | true =>
        -- a red node has passed the first test, so both children are black
        rw [hbl.isRed_eq, hbr.isRed_eq] at hlinks
        have hblack : cl = false ∧ cr = false := by
          cases cl <;> cases cr <;> simp_all
        rw [hblack.1] at hbl
        rw [hblack.2] at hbr
        exact ⟨true, nl, Balanced.red hbl hbr, hlocal, rfl⟩
      | false => exact ⟨false, nl + 1, Balanced.black hbl hbr, hlocal, rfl⟩
    · -- two black heights
      right
      rw [if_pos (by omega)]
      refine ⟨fun hok => ?_, .black, rfl⟩
      obtain ⟨c', n, hbal⟩ := hok.1
      cases hbal with
      | red hbl' hbr' => exact hheights ((hbl.height_unique hbl').trans (hbr'.height_unique hbr))
      | black hbl' hbr' => exact hheights ((hbl.height_unique hbl').trans (hbr'.height_unique hbr))

/-- `assert_tree` returns one more than the black height, or reports a violation. -/
theorem assertTree_spec (h : KeyTreeAt m root t) (hfuel : t.height < fuel) :
    (∃ c n, Balanced t c n ∧ LocallyOrdered t ∧ assertTree m fuel root = some (.ok (n + 1))) ∨
      (¬ (RedBlackOk t ∧ LocallyOrdered t) ∧ ∃ v, assertTree m fuel root = some (.error v)) := by
  induction t generalizing root fuel with
  | nil =>
    cases fuel with
    | zero => exact absurd hfuel (Nat.not_lt_zero _)
    | succ fuel =>
      have hroot : root = 0 := h
      left
      refine ⟨false, 0, Balanced.nil, trivial, ?_⟩
      unfold assertTree
      rw [if_pos hroot]
  | node c l key r ihl ihr =>
    cases fuel with
    | zero => exact absurd hfuel (Nat.not_lt_zero _)
    | succ fuel =>
      obtain ⟨hne, hred, hkey, hl, hr⟩ := h
      have hheight : max l.height r.height + 1 < fuel + 1 := hfuel
      unfold assertTree
      simp only
      rw [if_neg hne, hred, hl.isRed_eq, hr.isRed_eq, hkey]
      by_cases hlinks : (c && (l.isRed || r.isRed)) = true
      · -- a red node with a red child
        right
        rw [if_pos hlinks]
        refine ⟨fun hok => ?_, .red, rfl⟩
        obtain ⟨c', n, hbal⟩ := hok.1
        cases hbal with
        | red hbl hbr =>
          rw [hbl.isRed_eq, hbr.isRed_eq] at hlinks
          exact absurd hlinks (by decide)
        | black _ _ => exact absurd hlinks (by simp)
      · rw [if_neg hlinks]
        cases ihl hl (show l.height < fuel by omega) with
        | inr hbad =>
          -- the violation of a subtree is the one of the whole tree
          right
          obtain ⟨hnot, v, hv⟩ := hbad
          rw [hv]
          exact ⟨fun hok => hnot (subtrees_ok hok).1, v, rfl⟩
        | inl hgood =>
          obtain ⟨cl, nl, hbl, hlocall, hrunl⟩ := hgood
          rw [hrunl, Option.bind_some]
          simp only
          cases ihr hr (show r.height < fuel by omega) with
          | inr hbad =>
            right
            obtain ⟨hnot, v, hv⟩ := hbad
            rw [hv]
            exact ⟨fun hok => hnot (subtrees_ok hok).2, v, rfl⟩
          | inl hgood =>
            obtain ⟨cr, nr, hbr, hlocalr, hrunr⟩ := hgood
            rw [hrunr, Option.bind_some]
            simp only
            exact assertTree_node hl hr hbl hbr hlocall hlocalr hlinks

/-! ## Soundness and completeness -/

/-- The checker returns, with a black height, for the red-black search trees, and reports a
    violation for all others. -/
def CheckerRight (m : Mem) (root : Nat) (t : ColorTree Nat) : Prop :=
  ∀ fuel, t.height < fuel →
    ((∃ k, k ≠ 0 ∧ assertTree m fuel root = some (.ok k)) ↔ RedBlackOk t ∧ SearchTree t) ∧
      (¬ (RedBlackOk t ∧ SearchTree t) → ∃ v, assertTree m fuel root = some (.error v))

/-- **The checker** is right about a tree if and only if the tree, when it is red-black and every
    node is ordered with its children, is ordered over whole subtrees too. -/
theorem assert_tree_iff (h : KeyTreeAt m root t) :
    CheckerRight m root t ↔ (RedBlackOk t → LocallyOrdered t → SearchTree t) := by
  constructor
  · -- the local order is all that the checker has seen when it returns
    intro hright hbal hlocal
    cases assertTree_spec h (Nat.lt_succ_self t.height) with
    | inl hgood =>
      obtain ⟨c, n, -, -, hrun⟩ := hgood
      exact ((hright _ (Nat.lt_succ_self _)).1.mp ⟨n + 1, Nat.succ_ne_zero n, hrun⟩).2
    | inr hbad => exact absurd ⟨hbal, hlocal⟩ hbad.1
  · intro hglobal fuel hfuel
    cases assertTree_spec h hfuel with
    | inl hgood =>
      obtain ⟨c, n, hbal, hlocal, hrun⟩ := hgood
      have hok : RedBlackOk t ∧ SearchTree t := ⟨⟨c, n, hbal⟩, hglobal ⟨c, n, hbal⟩ hlocal⟩
      exact ⟨⟨fun _ => hok, fun _ => ⟨n + 1, Nat.succ_ne_zero n, hrun⟩⟩,
        fun hnot => absurd hok hnot⟩
    | inr hbad =>
      obtain ⟨hnot, v, hv⟩ := hbad
      refine ⟨⟨fun hret => ?_, fun hok => ?_⟩, fun _ => ⟨v, hv⟩⟩
      · obtain ⟨k, -, hrun⟩ := hret
        rw [hv] at hrun
        exact absurd hrun (by simp)
      · exact absurd ⟨hok.1, hok.2.locallyOrdered⟩ hnot

end

/-! ## The trees of the module -/

/-- The keys of the entries of a tree. -/
def keyTree : ColorTree Entry → ColorTree Nat
  | .nil => .nil
  | .node c l x r => .node c (keyTree l) x.key (keyTree r)

/-- The records that link up to a tree show its keys. -/
theorem keyTreeAt_of_models {m : Mem} {t : ColorTree Entry} (h : Models (view m) t)
    (hpos : ∀ a ∈ treeNodes t, a ≠ 0) : KeyTreeAt m (rootAddr t) (keyTree t) := by
  induction t with
  | nil => rfl
  | node c l x r ihl ihr =>
    obtain ⟨⟨hkey, hred, -, -⟩, hleft, hright, hl, hr⟩ := h
    have hroot : x.addr ≠ 0 := hpos x.addr (rootAddr_mem (t := .node c l x r) (by simp))
    have hposl : ∀ a ∈ treeNodes l, a ≠ 0 := fun a ha => hpos a (by simp [treeNodes, ha])
    have hposr : ∀ a ∈ treeNodes r, a ≠ 0 := fun a ha => hpos a (by simp [treeNodes, ha])
    refine ⟨hroot, ?_, hkey, ?_, ?_⟩
    · -- `is_red` tests the low bit of the first link
      have hcolor : (linkWord m x.addr 0 % 2 == 1) = c := hred
      show (x.addr != 0 && linkWord m x.addr 0 &&& 1 != 0) = c
      have hbit : linkWord m x.addr 0 % 2 = 0 ∨ linkWord m x.addr 0 % 2 = 1 :=
        Nat.mod_two_eq_zero_or_one _
      rw [Nat.and_one_is_mod, bne_iff_ne.mpr hroot, Bool.true_and, ← hcolor]
      cases hbit with
      | inl h0 => rw [h0]; rfl
      | inr h1 => rw [h1]; rfl
    · have hlink : getLink m (rootAddr (.node c l x r)) 0 = rootAddr l := hleft
      rw [hlink]
      exact ihl hl hposl
    · have hlink : getLink m (rootAddr (.node c l x r)) 1 = rootAddr r := hright
      rw [hlink]
      exact ihr hr hposr

/-- The tree of the keys is balanced as the tree is. -/
theorem balanced_keyTree {T : ColorTree Entry} {c : Bool} {n : Nat} (h : Balanced T c n) :
    Balanced (keyTree T) c n := by
  induction h with
  | nil => exact Balanced.nil
  | red _ _ ihl ihr => exact Balanced.red ihl ihr
  | black _ _ ihl ihr => exact Balanced.black ihl ihr

/-- Its elements are the keys in order. -/
theorem toList_keyTree (T : ColorTree Entry) : (keyTree T).toList = T.toList.map Entry.key := by
  induction T with
  | nil => rfl
  | node c l x r ihl ihr =>
    unfold keyTree
    rw [toList_node, toList_node, ihl, ihr, List.map_append, List.map_cons]

/-- Its height is the same. -/
theorem height_keyTree (T : ColorTree Entry) : (keyTree T).height = T.height := by
  induction T with
  | nil => rfl
  | node c l x r ihl ihr =>
    show max (keyTree l).height (keyTree r).height + 1 = max l.height r.height + 1
    rw [ihl, ihr]

/-- A tree is a search tree when its keys are increasing from left to right. -/
theorem searchTree_of_pairwise {t : ColorTree Nat} (h : t.toList.Pairwise (· < ·)) :
    SearchTree t := by
  induction t with
  | nil => trivial
  | node c l key r ihl ihr =>
    rw [toList_node, List.pairwise_append, List.pairwise_cons] at h
    obtain ⟨hl, ⟨habove, hr⟩, hcross⟩ := h
    exact ⟨fun k hk => hcross k hk key List.mem_cons_self, habove, ihl hl, ihr hr⟩

/-- **The trees of the module** pass the checker: the calls that the source has in comments would
    return. -/
theorem assertTree_of_valid {A : Type} {m : Mem} {tree : RbTree A} {T : ColorTree Entry}
    {fuel : Nat} (h : ValidTree m tree T) (hfuel : T.height < fuel) :
    ∃ k, k ≠ 0 ∧ assertTree m fuel tree.root = some (.ok k) := by
  have htree : KeyTreeAt m tree.root (keyTree T) := by
    rw [h.root]
    exact keyTreeAt_of_models h.models fun a ha => Nat.ne_of_gt (h.nodes.pos a ha)
  obtain ⟨n, hbal⟩ := h.black
  have hsearch : SearchTree (keyTree T) := by
    apply searchTree_of_pairwise
    rw [toList_keyTree, List.pairwise_map]
    exact h.sorted
  cases assertTree_spec htree (by rw [height_keyTree]; exact hfuel) with
  | inl hgood =>
    obtain ⟨c, k, -, -, hrun⟩ := hgood
    exact ⟨k + 1, Nat.succ_ne_zero k, hrun⟩
  | inr hbad => exact absurd ⟨⟨_, _, balanced_keyTree hbal⟩, hsearch.locallyOrdered⟩ hbad.1

/-- Nodes of four words from `0x1000` on. -/
def nodesMem (ws : List Nat) : Mem := fun x =>
  UInt8.ofNat (ws.getD ((x - 0x1000) / 4) 0 / 256 ^ ((x - 0x1000) % 4))

/-- The black nodes 5, 10 and 15. -/
theorem assert_tree_iff_three :
    CheckerRight (nodesMem [10, 0x1010, 0x1020, 0, 5, 0, 0, 0, 15, 0, 0, 0]) 0x1000
      (.node false (.node false .nil 5 .nil) 10 (.node false .nil 15 .nil)) := by
  have htree : KeyTreeAt (nodesMem [10, 0x1010, 0x1020, 0, 5, 0, 0, 0, 15, 0, 0, 0]) 0x1000
      (.node false (.node false .nil 5 .nil) 10 (.node false .nil 15 .nil)) := by
    simp only [KeyTreeAt]
    decide
  refine (assert_tree_iff htree).mpr fun _ _ => ?_
  simp only [SearchTree, KeysBelow, KeysAbove]
  decide

/-- The black nodes 5, 10 and 15, with a red node 20 on the right of 5. -/
def corruptTree : ColorTree Nat :=
  .node false (.node false .nil 5 (.node true .nil 20 .nil)) 10 (.node false .nil 15 .nil)

/-- The node 20 below 5 is in the left subtree of 10, and `assert_tree` returns 3. -/
theorem corruptTree_passes :
    KeyTreeAt (nodesMem [10, 0x1010, 0x1020, 0, 5, 0, 0x1030, 0, 15, 0, 0, 0, 20, 1, 0, 0]) 0x1000
        corruptTree ∧
      ¬ SearchTree corruptTree ∧
      assertTree (nodesMem [10, 0x1010, 0x1020, 0, 5, 0, 0x1030, 0, 15, 0, 0, 0, 20, 1, 0, 0]) 4 0x1000 =
        some (.ok 3) ∧
      ¬ CheckerRight (nodesMem [10, 0x1010, 0x1020, 0, 5, 0, 0x1030, 0, 15, 0, 0, 0, 20, 1, 0, 0])
        0x1000 corruptTree := by
  have htree : KeyTreeAt (nodesMem [10, 0x1010, 0x1020, 0, 5, 0, 0x1030, 0, 15, 0, 0, 0, 20, 1, 0, 0])
      0x1000 corruptTree := by
    simp only [KeyTreeAt, corruptTree]
    decide
  have hrun : assertTree (nodesMem [10, 0x1010, 0x1020, 0, 5, 0, 0x1030, 0, 15, 0, 0, 0, 20, 1, 0, 0])
      4 0x1000 = some (.ok 3) := by decide +kernel
  have hnot : ¬ SearchTree corruptTree := by
    simp only [SearchTree, KeysBelow, KeysAbove, corruptTree]
    decide
  have hheight : corruptTree.height < 4 := by decide
  refine ⟨htree, hnot, hrun, fun h => hnot ?_⟩
  exact ((h 4 hheight).1.mp ⟨3, Nat.succ_ne_zero 2, hrun⟩).2

end Toutatis
