import Toutatis.RbTree.Reach

/-!
# `lookup_rbnode`

The search that leaves the tree alone. The loop compares into a variable of its
own, so the direction of the first comparison is kept to the end: the walk goes
down one side of the tree only.

## Key results

- `lookupRbnode_spec`: the call returns the first match on that side
-/

namespace Toutatis

open ByteMem RedBlack

/-- The `while` loop of `lookup_rbnode`. -/
def lookupLoop {A : Type} : (fuel : Nat) → Mem → RbTree A → (data : Nat) → Option A → (res : Int) →
    (node : Nat) → (found : Bool) → Option Nat
  | 0, _, _, _, _, _, _, _ => none
  | fuel + 1, m, tree, data, args, res, node, found =>
    if !found ∧ getLink m node (decide (res < 0)).toNat ≠ 0 then
      let node := getLink m node (decide (res < 0)).toNat
      -- this `res` is declared inside the loop and hides the outer one
      let found := if tree.compare m node data args = 0 then true else found
      lookupLoop fuel m tree data args res node found
    else some (if found then node else 0)

/-- `lookup_rbnode`. The root is compared before anything is tested: `none` is the access
    through a null pointer in an empty tree. -/
def lookupRbnode {A : Type} (m : Mem) (tree : RbTree A) (data : Nat) (args : Option A) :
    Option Nat :=
  if tree.root = 0 then none
  else
    let res := tree.compare m tree.root data args
    lookupLoop loopBound m tree data args res tree.root (decide (res = 0))

section

open RedBlack.ColorTree

variable {A : Type} {m : Mem} {tree : RbTree A} {T t : ColorTree Entry} {data : Nat}
variable {args : Option A} {cmp : Entry → Int}

/-- The node of the first match in a list. -/
def matchNode (cmp : Entry → Int) (L : List Entry) : Nat :=
  ((L.find? fun e => decide (cmp e = 0)).map Entry.addr).getD 0

/-- The first entry of a list is taken if it fits. -/
theorem matchNode_cons (cmp : Entry → Int) (x : Entry) (L : List Entry) :
    matchNode cmp (x :: L) = if cmp x = 0 then x.addr else matchNode cmp L := by
  by_cases h : cmp x = 0 <;> simp [matchNode, h]

/-- A loop that has found its node returns it. -/
private theorem lookupLoop_found (fuel : Nat) (res : Int) (node : Nat) :
    lookupLoop (fuel + 1) m tree data args res node true = some node := by
  rw [lookupLoop, if_neg (by simp), if_pos rfl]

/-- From a node whose subtree on the side of the search is `t`. -/
theorem lookupLoop_spec (hm : Models (view m) t) (hne : ∀ a ∈ treeNodes t, a ≠ 0)
    (hcmp : ∀ e : Entry, nodeData m e.addr = e.key → tree.compare m e.addr data args = cmp e)
    {fuel : Nat} (hfuel : t.toList.length + 2 ≤ fuel) (node : Nat) (res : Int)
    (hlink : getLink m node (decide (res < 0)).toNat = rootAddr t) :
    lookupLoop fuel m tree data args res node false =
      some (matchNode cmp (t.sideSpine (decide (res < 0)))) := by
  induction t generalizing fuel node with
  | nil =>
    obtain ⟨fuel, rfl⟩ : ∃ f, fuel = f + 1 := ⟨fuel - 1, by omega⟩
    rw [lookupLoop, hlink, if_neg (by simp [rootAddr])]
    rfl
  | node c l x r ihl ihr =>
    obtain ⟨fuel, rfl⟩ : ∃ f, fuel = f + 2 := ⟨fuel - 2, by omega⟩
    obtain ⟨hx, hl, hr, hml, hmr⟩ := hm
    have hx0 : rootAddr (.node c l x r) ≠ 0 := hne _ (rootAddr_mem (by simp))
    rw [toList_node, List.length_append, List.length_cons] at hfuel
    rw [lookupLoop, hlink, if_pos ⟨by simp, hx0⟩]
    have hx' : rootAddr (.node c l x r) = x.addr := rfl
    simp only [hx', hcmp x hx.1]
    rw [sideSpine, matchNode_cons]
    by_cases h0 : cmp x = 0
    · rw [if_pos h0, if_pos h0, lookupLoop_found]
    · rw [if_neg h0, if_neg h0]
      -- res is not assigned in the loop, so the side stays the same
      by_cases hdir : res < 0
      · rw [decide_eq_true hdir] at ihr ⊢
        exact ihr hmr (fun a ha => hne a (by simp [treeNodes, ha])) (by omega) _ hr
      · rw [decide_eq_false hdir] at ihl ⊢
        exact ihl hml (fun a ha => hne a (by simp [treeNodes, ha])) (by omega) _ hl

/-- **`lookup_rbnode`** in a tree with the root `x`: the first match among the nodes on one
    side, the one that `x` sends the search to. -/
theorem lookupRbnode_spec {c : Bool} {l r : ColorTree Entry} {x : Entry}
    (h : ValidTree m tree (.node c l x r))
    (hcmp : ∀ e : Entry, nodeData m e.addr = e.key → tree.compare m e.addr data args = cmp e) :
    lookupRbnode m tree data args =
      some (matchNode cmp ((ColorTree.node c l x r).sideSpine (decide (cmp x < 0)))) := by
  have hroot : tree.root = x.addr := h.root
  have hx0 : tree.root ≠ 0 := by
    rw [hroot]
    exact h.ne_zero (rootAddr_mem (t := .node c l x r) (by simp))
  obtain ⟨hx, hl, hr, hml, hmr⟩ := h.models
  have hlen := length_toList_le (.node c l x r)
  have hle := h.nodes.length_le
  rw [toList_node, List.length_append, List.length_cons] at hlen
  rw [lookupRbnode, if_neg hx0]
  simp only [hroot, hcmp x hx.1]
  rw [sideSpine, matchNode_cons]
  -- the loop keeps the direction of this first comparison
  by_cases h0 : cmp x = 0
  · rw [decide_eq_true h0, if_pos h0]
    exact lookupLoop_found _ _ _
  · rw [decide_eq_false h0, if_neg h0]
    by_cases hdir : cmp x < 0
    · have hloop := lookupLoop_spec hmr (fun a ha => h.ne_zero (by simp [treeNodes, ha])) hcmp
        (show _ ≤ loopBound by simp only [loopBound]; omega) x.addr (cmp x)
        (by rw [decide_eq_true hdir]; exact hr)
      rw [decide_eq_true hdir] at hloop ⊢
      exact hloop
    · have hloop := lookupLoop_spec hml (fun a ha => h.ne_zero (by simp [treeNodes, ha])) hcmp
        (show _ ≤ loopBound by simp only [loopBound]; omega) x.addr (cmp x)
        (by rw [decide_eq_false hdir]; exact hl)
      rw [decide_eq_false hdir] at hloop ⊢
      exact hloop

end

end Toutatis
