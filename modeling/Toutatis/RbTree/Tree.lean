import Mathlib.Algebra.Order.BigOperators.Group.List
import Mathlib.Data.Finset.Card
import Toutatis.RbTree.Cursor

/-!
# Valid trees

`ValidTree m tree T`: the structure `tree` and the memory `m` hold the red-black
tree `T`, with a black root, keys in strict order and the counters right.

`enter_tree` and `Sim.leave` are the two ends of both operations: the tree is
hung below the dummy root, and taken back with its root painted black.
-/

namespace Toutatis

open ByteMem RedBlack RedBlack.ColorTree

/-- Keys ascend strictly. -/
def Sorted (L : List Entry) : Prop := L.Pairwise (fun a b => a.key < b.key)

/-- Number of nodes that hang in duplicate chains. -/
def dupCount (L : List Entry) : Nat := (L.map fun e => e.dups.length).sum

/-- Distinct `rb_node_t` structures in the address space: even addresses, no
    overlap. -/
structure NodesOk (N : List Nat) : Prop where
  nodup : N.Nodup
  even : ∀ a ∈ N, a % 2 = 0
  pos : ∀ a ∈ N, 0 < a
  bound : ∀ a ∈ N, a + 16 ≤ 2 ^ 32
  apart : ∀ a ∈ N, ∀ b ∈ N, a ≠ b → a + 16 ≤ b ∨ b + 16 ≤ a

/-- The tree structure and the memory hold the red-black tree `T`. The counters
    of an empty tree are never read. -/
structure ValidTree {A : Type} (m : Mem) (tree : RbTree A) (T : ColorTree Entry) : Prop where
  root : tree.root = rootAddr T
  models : Models (view m) T
  nodes : NodesOk (treeNodes T)
  black : ∃ n, Balanced T false n
  sorted : Sorted T.toList
  count : T ≠ .nil → tree.numNodes = T.toList.length ∧ tree.numDup = dupCount T.toList

/-- Below `2 ^ 32`, `m'` differs from `m` in the link words of the nodes `N` only. -/
def SameOff (N : List Nat) (m m' : Mem) : Prop :=
  ∀ x < 2 ^ 32, (∀ a ∈ N, x < a + 4 ∨ a + 16 ≤ x) → m' x = m x

/-- The nodes an operation may touch: `N` and the dummy root. -/
def withHead (N : List Nat) : Set Nat := {a | a = headAddr ∨ a ∈ N}

/-- Memory agrees with itself outside of the nodes. -/
theorem SameOff.refl (N : List Nat) (m : Mem) : SameOff N m m := fun _ _ _ => rfl

/-- Two steps that keep what is outside of the nodes. -/
theorem SameOff.trans {N : List Nat} {m m₁ m₂ : Mem} (h₁ : SameOff N m m₁)
    (h₂ : SameOff N m₁ m₂) : SameOff N m m₂ := by
  intro x hx hoff
  rw [h₂ x hx hoff, h₁ x hx hoff]

/-- What keeps all outside of some nodes keeps all outside of more. -/
theorem SameOff.mono {N N' : List Nat} {m m' : Mem} (h : SameOff N m m')
    (hsub : ∀ a ∈ N, a ∈ N') : SameOff N' m m' :=
  fun x hx hoff => h x hx fun a ha => hoff a (hsub a ha)

/-- The keys of the nodes stay. -/
theorem SameOff.nodeData {N : List Nat} {m m' : Mem} (h : SameOff N m m') (hN : NodesOk N)
    {a : Nat} (ha : a ∈ N) : nodeData m' a = nodeData m a := by
  refine load32_congr fun i hi hi' => h _ ?_ fun b hb => ?_
  · have := hN.bound a ha
    omega
  · by_cases hab : a = b
    · omega
    · have := hN.apart a ha b hb hab
      omega

/-- The record of a node elsewhere stays. -/
theorem SameOff.view_eq {N : List Nat} {m m' : Mem} (h : SameOff N m m') {a : Nat}
    (ha : a + 16 ≤ 2 ^ 32) (hoff : ∀ b ∈ N, a + 16 ≤ b + 4 ∨ b + 16 ≤ a) :
    view m' a = view m a := by
  refine view_congr fun k hk => load32_congr fun i hi hi' => h _ (by omega) fun b hb => ?_
  have := hoff b hb
  omega

section

variable {N : List Nat} {m m₀ : Mem} {V : Nat → NodeView} {T : ColorTree Entry}

/-- The order of the nodes is no matter. -/
theorem NodesOk.perm {N' : List Nat} (h : NodesOk N) (hp : N'.Perm N) : NodesOk N' where
  nodup := hp.nodup_iff.mpr h.nodup
  even a ha := h.even a (hp.mem_iff.mp ha)
  pos a ha := h.pos a (hp.mem_iff.mp ha)
  bound a ha := h.bound a (hp.mem_iff.mp ha)
  apart a ha b hb := h.apart a (hp.mem_iff.mp ha) b (hp.mem_iff.mp hb)

/-- Fewer nodes are places for nodes as well. -/
theorem NodesOk.subset {N' : List Nat} (h : NodesOk N) (hn : N'.Nodup) (hs : ∀ a ∈ N', a ∈ N) :
    NodesOk N' where
  nodup := hn
  even a ha := h.even a (hs a ha)
  pos a ha := h.pos a (hs a ha)
  bound a ha := h.bound a (hs a ha)
  apart a ha b hb := h.apart a (hs a ha) b (hs b hb)

/-- The dummy root lies above all nodes. -/
theorem NodesOk.space (h : NodesOk N) : NodeSpace (withHead N) where
  even a ha := by
    -- the head lies behind all addresses
    rcases ha with rfl | ha
    · decide
    · exact h.even a ha
  pos a ha := by
    rcases ha with rfl | ha
    · decide
    · exact h.pos a ha
  bound a ha hne := by
    rcases ha with rfl | ha
    · exact absurd rfl hne
    · exact h.bound a ha
  apart a ha b hb hab := by
    have hh : headAddr = 2 ^ 32 := rfl
    rcases ha with rfl | ha <;> rcases hb with rfl | hb
    · -- the head is apart from every node
      exact absurd rfl hab
    · have := h.bound b hb
      omega
    · have := h.bound a ha
      omega
    · exact h.apart a ha b hb hab

/-- Only so many nodes fit into the address space. -/
theorem NodesOk.length_le (h : NodesOk N) : N.length ≤ 2 ^ 28 := by
  rw [← List.toFinset_card_of_nodup h.nodup, ← Finset.card_range (2 ^ 28)]
  refine Finset.card_le_card_of_injOn (fun a => a / 16) ?_ ?_
  · intro a ha
    have := h.bound a (by simpa using ha)
    simp only [Finset.coe_range, Set.mem_Iio]
    omega
  · intro a ha b hb hab
    have ha' : a ∈ N := by simpa using ha
    have hb' : b ∈ N := by simpa using hb
    by_contra hne
    have := h.apart a ha' b hb' hne
    dsimp only at hab
    omega

/-- Every node is a tree node or a duplicate. -/
theorem length_toList_le (T : ColorTree Entry) :
    T.toList.length + dupCount T.toList = (treeNodes T).length := by
  rw [(perm_treeNodes T).length_eq, dupCount]
  generalize T.toList = L
  induction L with
  | nil => rfl
  | cons e L ih =>
    simp only [List.length_cons, List.map_cons, List.sum_cons, List.flatMap_cons,
      List.length_append, Entry.nodes] at ih ⊢
    omega

/-- The duplicates of one entry are among those that are counted. -/
theorem dups_le_dupCount {L : List Entry} {e : Entry} (h : e ∈ L) :
    e.dups.length ≤ dupCount L :=
  List.le_sum_of_mem (List.mem_map_of_mem h)

/-- The head of a descent is no node of the tree. -/
theorem headAddr_not_mem (h : NodesOk N) : headAddr ∉ N := by
  intro hmem
  have := h.bound headAddr hmem
  simp only [headAddr] at this
  omega

/-- `head` is a local variable: setting it up changes no node. -/
private theorem initHead_below {x : Nat} (hx : x < 2 ^ 32) : initHead m x = m x := by
  have hh : headAddr = 2 ^ 32 := rfl
  rw [initHead, store32_apply_of_disjoint _ _ (by omega),
    store32_apply_of_disjoint _ _ (by omega), store32_apply_of_disjoint _ _ (by omega),
    store32_apply_of_disjoint _ _ (by omega)]

/-- The head has no children. -/
private theorem initHead_kid (d : Bool) : (view (initHead m) headAddr).kid d = 0 := by
  have h0 : ∀ i, i < 2 → linkWord (initHead m) headAddr i = 0 := by
    intro i hi
    obtain rfl | rfl : i = 0 ∨ i = 1 := by omega
    · rw [initHead, linkWord, load32_store32_of_disjoint _ _ (by omega),
        load32_store32_of_disjoint _ _ (by omega), load32_store32_self, Nat.zero_mod]
    · rw [initHead, linkWord, load32_store32_of_disjoint _ _ (by omega), load32_store32_self,
        Nat.zero_mod]
  show getLink (initHead m) headAddr d.toNat = 0
  rw [getLink_eq, h0 _ (by have := d.toNat_le; omega)]

/-- Hang the tree below the dummy root. -/
theorem enter_tree (hN : NodesOk N) (hT : Models (view m) T) (hn : (treeNodes T).Nodup)
    (hsub : ∀ a ∈ treeNodes T, a ∈ N) :
    ∃ V, Sim (withHead N) (initHead m) (setLink (initHead m) headAddr 1 (rootAddr T)) V ∧
      Zip (withHead N) V [] T ∧ ∀ a ∈ N, V a = view m a := by
  have hs := Sim.refl hN.space (initHead m)
  -- the dummy root lies above all addresses, so writing it changes no node
  have hsame : ∀ a ∈ N, view (initHead m) a = view m a := by
    intro a ha
    exact SameOff.view_eq (N := []) (fun x hx _ => initHead_below hx) (hN.bound a ha) (by simp)
  have hne : ∀ a ∈ N, a ≠ headAddr := fun a ha hah => headAddr_not_mem hN (hah ▸ ha)
  have hlink : IsLink (withHead N) (rootAddr T) := by
    cases T with
    | nil => exact Or.inl rfl
    | node c l x r =>
      have hmem := hsub _ (rootAddr_mem (t := .node c l x r) (by simp))
      exact Or.inr ⟨Or.inr hmem, hne _ hmem⟩
  have hV : ∀ a ∈ N, setKid (view (initHead m)) headAddr true (rootAddr T) a = view m a := by
    intro a ha
    rw [setKid_of_ne _ _ _ (hne a ha), hsame a ha]
  refine ⟨_, hs.setLink_kid (Or.inl rfl) hlink true, ⟨⟨by simp, ?_⟩, ?_, ?_, ?_, Or.inl rfl⟩, hV⟩
  · rw [setKid_kid, if_neg (by simp)]
    exact initHead_kid false
  · exact hT.congr fun a ha => hV a (hsub a ha)
  · simpa [zipNodes, ctxNodes] using hn
  · intro a ha
    have ha' := hsub a (by simpa [zipNodes, ctxNodes] using ha)
    exact ⟨Or.inr ha', hne a ha'⟩

/-- What the simulation keeps, read back. -/
theorem Sim.sameOff (hs : Sim (withHead N) m₀ m V) : SameOff N m₀ m := by
  intro x hx hoff
  refine hs.frame x fun a ha => ?_
  rcases ha with rfl | ha
  · simp only [headAddr]
    omega
  · exact hoff a ha

/-- To clear the head changes nothing outside of the nodes and the head. -/
theorem initHead_sameOff (m : Mem) : SameOff N m (initHead m) :=
  fun _ hx _ => initHead_below hx

/-- The pointer below the dummy root. -/
theorem Sim.getLink_head (hs : Sim (withHead N) m₀ m V) (hz : Zip (withHead N) V [] T) :
    getLink m headAddr 1 = rootAddr T := by
  have h := hs.getLink_kid hz.head true
  rw [Bool.toNat_true] at h
  exact h.trans hz.path.1

/-- Take the tree back from the dummy root, with its root black. -/
theorem Sim.leave (hs : Sim (withHead N) m₀ m V) (hz : Zip (withHead N) V [] T) :
    ∃ m', (if rootAddr T ≠ 0 then paintBlack m (rootAddr T) else m) = m' ∧
      Models (view m') (T.paint false) ∧ SameOff N m₀ m' := by
  refine ⟨_, rfl, ?_⟩
  have hback : ∀ {m' V'}, Sim (withHead N) m₀ m' V' → Zip (withHead N) V' [] (T.paint false) →
      Models (view m') (T.paint false) := by
    intro m' V' hs' hz'
    exact hz'.tree.congr fun a ha => hs'.view_eq a (hz'.mem_tree ha).1
  cases T with
  -- the empty tree has no root to paint
  | nil => exact ⟨trivial, hs.sameOff⟩
  | node c l x r =>
    -- the root turns black
    have hpos : rootAddr (.node c l x r) ≠ 0 := by
      have := hs.space.pos _ (hz.root_mem (by simp)).1
      omega
    rw [if_pos hpos]
    have hs' := (hs.paint_hand hz (by simp)).2
    exact ⟨hback hs' (hz.paint_root (by simp) false).1, hs'.sameOff⟩

end

end Toutatis
