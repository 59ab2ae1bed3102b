import Toutatis.RbTree.Basic

/-!
# Nodes as records

The words of a node seen as a record (`NodeView`), and the effect of the link
macros on that view. `Sim S m₀ m V` says that on the node addresses `S` the
memory `m` shows the records `V`, and that `m` differs from `m₀` at most in the
link words of those nodes. Each macro keeps `Sim`, changing one record.

Two nodes of `S` do not overlap (`NodeSpace`), which is all the link macros need
to act on one record at a time.
-/

namespace Toutatis

open ByteMem

/-- The contents of a node: the colour apart from the links it shares a word with. -/
structure NodeView where
  data : Nat
  red : Bool
  kid : Bool → Nat
  dup : Nat

/-- The record that memory shows at a node. -/
def view (m : Mem) (a : Nat) : NodeView where
  data := nodeData m a
  red := linkWord m a 0 % 2 == 1
  kid d := getLink m a d.toNat
  dup := getLink m a 2

/-- The record depends on the four words of the node. -/
theorem view_congr {m m' : Mem} {a : Nat}
    (h : ∀ k, k + 4 ≤ 16 → load32 m' (a + k) = load32 m (a + k)) : view m' a = view m a := by
  have hl : ∀ i, i < 3 → linkWord m' a i = linkWord m a i := by
    intro i hi
    have := h (4 + 4 * i) (by omega)
    rw [← Nat.add_assoc] at this
    exact this
  have hkid : ∀ d : Bool, linkWord m' a d.toNat = linkWord m a d.toNat := by
    intro d
    exact hl _ (by have := d.toNat_le; omega)
  simp only [view, nodeData, getLink, hkid, hl 0 (by omega), hl 2 (by omega)]
  rw [show load32 m' a = load32 m a from h 0 (by omega)]

/-- A set of node addresses: even, not `NULL`, inside memory (or the dummy
    root), and pairwise 16 bytes apart. -/
structure NodeSpace (S : Set Nat) : Prop where
  even : ∀ a ∈ S, a % 2 = 0
  pos : ∀ a ∈ S, 0 < a
  bound : ∀ a ∈ S, a ≠ headAddr → a + 16 ≤ 2 ^ 32
  apart : ∀ a ∈ S, ∀ b ∈ S, a ≠ b → a + 16 ≤ b ∨ b + 16 ≤ a

/-- A pointer that a link can hold: `NULL` or a node other than the dummy root. -/
def IsLink (S : Set Nat) (v : Nat) : Prop := v = 0 ∨ (v ∈ S ∧ v ≠ headAddr)

/-! ## Updates of the records -/

/-- Change one child link. -/
def setKid (V : Nat → NodeView) (a : Nat) (d : Bool) (v : Nat) : Nat → NodeView :=
  Function.update V a { V a with kid := Function.update (V a).kid d v }

/-- Change the head of the duplicate chain. -/
def setDup (V : Nat → NodeView) (a : Nat) (v : Nat) : Nat → NodeView :=
  Function.update V a { V a with dup := v }

/-- Change the colour. -/
def setRed (V : Nat → NodeView) (a : Nat) (c : Bool) : Nat → NodeView :=
  Function.update V a { V a with red := c }

section Updates

variable (V : Nat → NodeView) (a b v : Nat) (c d e : Bool)

/-- A new child of one node leaves the other nodes alone. -/
theorem setKid_of_ne {a b : Nat} (h : b ≠ a) : setKid V a d v b = V b :=
  Function.update_of_ne h _ _

/-- A new duplicate of one node leaves the other nodes alone. -/
theorem setDup_of_ne {a b : Nat} (h : b ≠ a) : setDup V a v b = V b :=
  Function.update_of_ne h _ _

/-- A new color of one node leaves the other nodes alone. -/
theorem setRed_of_ne {a b : Nat} (h : b ≠ a) : setRed V a c b = V b :=
  Function.update_of_ne h _ _

/-- A new child keeps the key of every node. -/
@[simp] theorem setKid_data : (setKid V a d v b).data = (V b).data := by
  by_cases h : b = a
  · subst h; simp [setKid]
  · rw [setKid_of_ne V v d h]

/-- A new child keeps the color of every node. -/
@[simp] theorem setKid_red : (setKid V a d v b).red = (V b).red := by
  by_cases h : b = a
  · subst h; simp [setKid]
  · rw [setKid_of_ne V v d h]

/-- A new child keeps the duplicate of every node. -/
@[simp] theorem setKid_dup : (setKid V a d v b).dup = (V b).dup := by
  by_cases h : b = a
  · subst h; simp [setKid]
  · rw [setKid_of_ne V v d h]

/-- The children of all nodes after one is set. -/
theorem setKid_kid :
    (setKid V a d v b).kid e = if b = a ∧ e = d then v else (V b).kid e := by
  by_cases h : b = a
  · subst h
    by_cases he : e = d
    · subst he; simp [setKid]
    · simp [setKid, he]
  · rw [setKid_of_ne V v d h]; simp [h]

/-- The child that was set. -/
@[simp] theorem setKid_kid_self : (setKid V a d v a).kid d = v := by
  simp [setKid_kid]

/-- The other child of that node. -/
@[simp] theorem setKid_kid_not : (setKid V a d v a).kid (!d) = (V a).kid (!d) := by
  simp [setKid_kid]

/-- The same, seen from the other side. -/
@[simp] theorem setKid_not_kid : (setKid V a (!d) v a).kid d = (V a).kid d := by
  simp [setKid_kid]

/-- A new duplicate keeps the key of every node. -/
@[simp] theorem setDup_data : (setDup V a v b).data = (V b).data := by
  by_cases h : b = a
  · subst h; simp [setDup]
  · rw [setDup_of_ne V v h]

/-- A new duplicate keeps the color of every node. -/
@[simp] theorem setDup_red : (setDup V a v b).red = (V b).red := by
  by_cases h : b = a
  · subst h; simp [setDup]
  · rw [setDup_of_ne V v h]

/-- A new duplicate keeps the children of every node. -/
@[simp] theorem setDup_kid : (setDup V a v b).kid = (V b).kid := by
  by_cases h : b = a
  · subst h; simp [setDup]
  · rw [setDup_of_ne V v h]

/-- The duplicate that was set. -/
@[simp] theorem setDup_dup_self : (setDup V a v a).dup = v := by
  simp [setDup]

/-- A new color keeps the key of every node. -/
@[simp] theorem setRed_data : (setRed V a c b).data = (V b).data := by
  by_cases h : b = a
  · subst h; simp [setRed]
  · rw [setRed_of_ne V c h]

/-- The color that was set. -/
@[simp] theorem setRed_red_self : (setRed V a c a).red = c := by
  simp [setRed]

/-- A new color keeps the children of every node. -/
@[simp] theorem setRed_kid : (setRed V a c b).kid = (V b).kid := by
  by_cases h : b = a
  · subst h; simp [setRed]
  · rw [setRed_of_ne V c h]

/-- A new color keeps the duplicate of every node. -/
@[simp] theorem setRed_dup : (setRed V a c b).dup = (V b).dup := by
  by_cases h : b = a
  · subst h; simp [setRed]
  · rw [setRed_of_ne V c h]

end Updates

/-! ## Simulation -/

/-- On the nodes `S` the memory `m` shows `V`; outside the link words of `S` it
    is `m₀`. -/
structure Sim (S : Set Nat) (m₀ m : Mem) (V : Nat → NodeView) : Prop where
  space : NodeSpace S
  view_eq : ∀ a ∈ S, view m a = V a
  frame : ∀ x, (∀ a ∈ S, x < a + 4 ∨ a + 16 ≤ x) → m x = m₀ x

section

variable {S : Set Nat} {m₀ m : Mem} {V : Nat → NodeView} {a v : Nat}

/-- Any node space starts a simulation. -/
theorem Sim.refl (hS : NodeSpace S) (m : Mem) : Sim S m m (view m) :=
  ⟨hS, fun _ _ => rfl, fun _ _ => rfl⟩

/-- Bit 0 of a link is free for the color. -/
theorem IsLink.even (hS : NodeSpace S) (hv : IsLink S v) : v % 2 = 0 := by
  rcases hv with rfl | ⟨hv, -⟩
  · rfl
  · exact hS.even v hv

/-- A link fits into a word. -/
theorem IsLink.lt (hS : NodeSpace S) (hv : IsLink S v) : v < 2 ^ 32 := by
  rcases hv with rfl | ⟨hv, hne⟩
  · omega
  · have := hS.bound v hv hne
    omega

/-- The word of a link has 32 bits. -/
theorem linkWord_lt (m : Mem) (a i : Nat) : linkWord m a i < 2 ^ 32 := load32_lt _ _

/-- A link is its word without bit 0. -/
theorem getLink_eq (m : Mem) (a i : Nat) : getLink m a i = linkWord m a i / 2 * 2 := by
  rw [getLink, and_not_one (linkWord_lt m a i)]

/-- `get_link` reads the children of the view. -/
theorem Sim.getLink_kid (h : Sim S m₀ m V) (ha : a ∈ S) (d : Bool) :
    getLink m a d.toNat = (V a).kid d := by
  rw [← h.view_eq a ha]; rfl

/-- `get_link` reads the duplicate of the view. -/
theorem Sim.getLink_dup (h : Sim S m₀ m V) (ha : a ∈ S) : getLink m a 2 = (V a).dup := by
  rw [← h.view_eq a ha]; rfl

/-- The key of a node is the one of the view. -/
theorem Sim.nodeData_eq (h : Sim S m₀ m V) (ha : a ∈ S) : nodeData m a = (V a).data := by
  rw [← h.view_eq a ha]; rfl

/-- `is_red` reads the color of the view. -/
theorem Sim.isRed_eq (h : Sim S m₀ m V) (ha : a ∈ S) : isRed m a = (V a).red := by
  have hpos := h.space.pos a ha
  rw [← h.view_eq a ha]
  simp only [isRed, view, and_one]
  have : (a != 0) = true := by simp; omega
  rw [this, Bool.true_and]
  have h2 := Nat.mod_two_eq_zero_or_one (linkWord m a 0)
  rcases h2 with h2 | h2 <;> simp [h2]

/-- The null link counts as black. -/
theorem isRed_zero (m : Mem) : isRed m 0 = false := by
  simp [isRed]

/-- A store to link word `i` of a node changes the record of that node only. -/
private theorem Sim.store_link (h : Sim S m₀ m V) (ha : a ∈ S) {i w : Nat} (hi : i < 3)
    {r : NodeView} (hr : view (store32 m (a + 4 + 4 * i) w) a = r) :
    Sim S m₀ (store32 m (a + 4 + 4 * i) w) (Function.update V a r) := by
  refine ⟨h.space, ?_, ?_⟩
  · intro b hb
    by_cases hab : b = a
    · subst hab; rw [hr, Function.update_self]
    · rw [Function.update_of_ne hab, ← h.view_eq b hb]
      have hsep := h.space.apart b hb a ha hab
      -- another node lies at least 16 bytes away, so all its words are kept
      have hload : ∀ k, k < 16 → k % 4 = 0 →
          load32 (store32 m (a + 4 + 4 * i) w) (b + k) = load32 m (b + k) :=
        fun k hk hk4 => load32_store32_of_disjoint m w (by omega)
      have h0 := hload 0 (by omega) rfl
      have h1 := hload 4 (by omega) rfl
      have h2 := hload 8 (by omega) rfl
      have h3 := hload 12 (by omega) rfl
      simp only [view, nodeData, getLink, linkWord, NodeView.mk.injEq]
      refine ⟨h0, by rw [Nat.mul_zero, Nat.add_zero, h1], ?_, by rw [h3]⟩
      funext d
      cases d
      · simpa using congrArg (· &&& 0xfffffffe) h1
      · simpa using congrArg (· &&& 0xfffffffe) h2
  · intro x hx
    have := hx a ha
    rw [store32_apply_of_disjoint m w (by omega)]
    exact h.frame x hx

/-- Reading a link word after a store to a link word of the same node. -/
private theorem linkWord_store (m : Mem) (a w : Nat) {i j : Nat} :
    linkWord (store32 m (a + 4 + 4 * i) w) a j = if j = i then w % 2 ^ 32 else linkWord m a j := by
  by_cases hij : j = i
  · subst hij; rw [if_pos rfl]; exact load32_store32_self m _ w
  · rw [if_neg hij]; exact load32_store32_of_disjoint m w (by omega)

/-- A store to a link of a node leaves its key alone. -/
private theorem nodeData_store (m : Mem) (a w i : Nat) :
    nodeData (store32 m (a + 4 + 4 * i) w) a = nodeData m a :=
  load32_store32_of_disjoint m w (by omega)

/-- The word that `set_link` writes. -/
private theorem setLink_word (w : Nat) (hv : v % 2 = 0) (hlt : v < 2 ^ 32) :
    ((w &&& 1) ||| (v &&& 0xfffffffe)) = v + w % 2 := by
  rw [and_one, and_not_one hlt, or_bit (by omega)]
  omega

/-- `set_link` for a child. -/
theorem Sim.setLink_kid (h : Sim S m₀ m V) (ha : a ∈ S) (hv : IsLink S v) (d : Bool) :
    Sim S m₀ (setLink m a d.toNat v) (setKid V a d v) := by
  have he := hv.even h.space
  have hlt := hv.lt h.space
  have hd := d.toNat_le
  have hw := setLink_word (v := v) (linkWord m a d.toNat) he hlt
  rw [setLink, hw]
  refine h.store_link ha (by omega) ?_
  rw [← h.view_eq a ha]
  simp only [view, nodeData_store, getLink_eq, linkWord_store, NodeView.mk.injEq, true_and]
  refine ⟨?_, ?_, ?_⟩
  · -- link 0 holds the left child and the color
    cases d
    · simp only [Bool.toNat_false, if_true]
      congr 1; omega
    · simp
  · -- the child that is set, and the other one
    funext e
    cases d <;> cases e <;> simp <;> omega
  · -- the duplicate is link 2
    cases d <;> simp

/-- `set_link` for a duplicate. -/
theorem Sim.setLink_dup (h : Sim S m₀ m V) (ha : a ∈ S) (hv : IsLink S v) :
    Sim S m₀ (setLink m a 2 v) (setDup V a v) := by
  have he := hv.even h.space
  have hlt := hv.lt h.space
  have hw := setLink_word (v := v) (linkWord m a 2) he hlt
  rw [setLink, hw]
  refine h.store_link ha (by omega) ?_
  rw [← h.view_eq a ha]
  simp only [view, nodeData_store, getLink_eq, linkWord_store, NodeView.mk.injEq, true_and]
  refine ⟨by simp, ?_, ?_⟩
  · funext e
    cases e <;> simp
  · simp only [if_true]; omega

/-- Writing the colour bit of a node. -/
private theorem Sim.store_color (h : Sim S m₀ m V) (ha : a ∈ S) (c : Bool) {w : Nat}
    (hw : w = linkWord m a 0 / 2 * 2 + c.toNat) :
    Sim S m₀ (store32 m (a + 4) w) (setRed V a c) := by
  have hlt := linkWord_lt m a 0
  have hc := c.toNat_le
  refine h.store_link (i := 0) ha (by omega) ?_
  rw [← h.view_eq a ha]
  simp only [view, nodeData_store, getLink_eq, linkWord_store, NodeView.mk.injEq, true_and, if_true]
  refine ⟨?_, ?_, by simp⟩
  · -- the color is bit 0 of the left link
    cases c
    · simp only [Bool.toNat_false] at hw ⊢; simp; omega
    · simp only [Bool.toNat_true] at hw ⊢; simp; omega
  · -- the links are the other bits
    funext e
    cases e
    · simp only [Bool.toNat_false, if_true]; omega
    · simp

/-- The node is red afterwards. -/
theorem Sim.paintRed_sim (h : Sim S m₀ m V) (ha : a ∈ S) :
    Sim S m₀ (paintRed m a) (setRed V a true) := by
  rw [paintRed]
  exact h.store_color ha true (by rw [or_one, Bool.toNat_true])

/-- The node is black afterwards. -/
theorem Sim.paintBlack_sim (h : Sim S m₀ m V) (ha : a ∈ S) :
    Sim S m₀ (paintBlack m a) (setRed V a false) := by
  rw [paintBlack]
  exact h.store_color ha false
    (by rw [and_not_one (linkWord_lt m a 0), Bool.toNat_false, Nat.add_zero])

/-- Painting changes no link. -/
theorem Sim.getLink_paint (h : Sim S m₀ m V) {b : Nat} (ha : a ∈ S) (hb : b ∈ S) (d : Bool) :
    getLink (paintRed m a) b d.toNat = getLink m b d.toNat ∧
      getLink (paintBlack m a) b d.toNat = getLink m b d.toNat := by
  rw [(h.paintRed_sim ha).getLink_kid hb, (h.paintBlack_sim ha).getLink_kid hb, h.getLink_kid hb]
  simp

/-- The node gets the color of the other one. -/
theorem Sim.copyColor_sim (h : Sim S m₀ m V) {b : Nat} (ha : a ∈ S) (hb : b ∈ S) :
    Sim S m₀ (copyColor m b a) (setRed V a (V b).red) := by
  rw [copyColor]
  refine h.store_color ha _ ?_
  rw [and_not_one (linkWord_lt m a 0), and_one, Nat.or_comm, or_bit (by omega), ← h.view_eq b hb]
  congr 1
  simp only [view]
  rcases Nat.mod_two_eq_zero_or_one (linkWord m b 0) with h2 | h2 <;> simp [h2]

/-- The rotation, on records. -/
def rotateView (V : Nat → NodeView) (root : Nat) (dir : Bool) : Nat → NodeView :=
  let save := (V root).kid (!dir)
  setRed (setRed (setKid (setKid V root (!dir) ((V save).kid dir)) save dir root) root true)
    save false

/-- `rotate` moves the sibling up, and returns it. -/
theorem Sim.rotate_sim (h : Sim S m₀ m V) (ha : a ∈ S) (hne : a ≠ headAddr) {d : Bool}
    (hs : (V a).kid (!d) ∈ S) (hk : IsLink S ((V ((V a).kid (!d))).kid d)) :
    Sim S m₀ (rotate m a d).1 (rotateView V a d) ∧ (rotate m a d).2 = (V a).kid (!d) := by
  have hsave : getLink m a (!d).toNat = (V a).kid (!d) := h.getLink_kid ha (!d)
  have hkid : getLink m ((V a).kid (!d)) d.toNat = (V ((V a).kid (!d))).kid d :=
    h.getLink_kid hs d
  simp only [rotate, hsave, hkid, and_true]
  exact (((h.setLink_kid ha hk (!d)).setLink_kid hs (Or.inr ⟨ha, hne⟩) d).paintRed_sim
    ha).paintBlack_sim hs

end

end Toutatis
