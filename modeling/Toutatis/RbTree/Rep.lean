import Toutatis.Lib.RedBlack
import Toutatis.RbTree.View

/-!
# Trees in memory

An `Entry` is a tree node with its chain of duplicates; a `ColorTree Entry` is
what the links of a tree describe. `Models V t` says that the node records `V`
link up to `t`, `CtxModels` says the same for the path above the node in hand,
up to the dummy root.

The link operations of `rb_tree.c` are then tree operations: `models_rotate` is
the rotation, `CtxModels.set_hole` hangs another subtree below the path.
-/

namespace Toutatis

open ByteMem RedBlack RedBlack.ColorTree

/-- A tree node: its address, its key (`data`) and its duplicates, in chain order. -/
structure Entry where
  addr : Nat
  key : Nat
  dups : List Nat
  deriving DecidableEq, Repr

/-- All nodes of one key. -/
def Entry.nodes (e : Entry) : List Nat := e.addr :: e.dups

/-- The pointer to a subtree. -/
def rootAddr : ColorTree Entry → Nat
  | .nil => 0
  | .node _ _ x _ => x.addr

/-- All nodes of a tree, duplicates included. -/
def treeNodes : ColorTree Entry → List Nat
  | .nil => []
  | .node _ l x r => x.nodes ++ (treeNodes l ++ treeNodes r)

/-- All nodes of a context, duplicates included. -/
def ctxNodes : List (Frame Entry) → List Nat
  | [] => []
  | f :: ctx => f.x.nodes ++ (treeNodes f.sib ++ ctxNodes ctx)

/-- The pointer to the innermost node of a context: the dummy root when empty. -/
def top : List (Frame Entry) → Nat
  | [] => headAddr
  | f :: _ => f.x.addr

/-- The side of the focus below the innermost node. -/
def topDir : List (Frame Entry) → Bool
  | [] => true
  | f :: _ => f.dir

/-- The colour of the innermost node; the dummy root counts as black. -/
def topRed : List (Frame Entry) → Bool
  | [] => false
  | f :: _ => f.red

/-- A duplicate chain: nodes of one key, with no children. -/
def Chain (V : Nat → NodeView) (key : Nat) : List Nat → Prop
  | [] => True
  | a :: rest =>
    ((V a).data = key ∧ (∀ d, (V a).kid d = 0) ∧ (V a).dup = rest.headD 0) ∧ Chain V key rest

/-- The record of a tree node, children apart. -/
def EntryModels (V : Nat → NodeView) (c : Bool) (e : Entry) : Prop :=
  (V e.addr).data = e.key ∧ (V e.addr).red = c ∧ (V e.addr).dup = e.dups.headD 0 ∧
    Chain V e.key e.dups

/-- The records `V` link up to the tree. -/
def Models (V : Nat → NodeView) : ColorTree Entry → Prop
  | .nil => True
  | .node c l x r =>
    EntryModels V c x ∧ (V x.addr).kid false = rootAddr l ∧ (V x.addr).kid true = rootAddr r ∧
      Models V l ∧ Models V r

/-- The records `V` link up to the context, whose focus is at `hole`. -/
def CtxModels (V : Nat → NodeView) : List (Frame Entry) → (hole : Nat) → Prop
  | [], hole => (V headAddr).kid true = hole ∧ (V headAddr).kid false = 0
  | f :: ctx, hole =>
    EntryModels V f.red f.x ∧ (V f.x.addr).kid f.dir = hole ∧
      (V f.x.addr).kid (!f.dir) = rootAddr f.sib ∧ Models V f.sib ∧ CtxModels V ctx f.x.addr

/-! ## Nodes -/

/-- The root of a joined tree is the node that joins it. -/
@[simp] theorem rootAddr_join (c d : Bool) (x : Entry) (s o : ColorTree Entry) :
    rootAddr (join c x d s o) = x.addr := by
  cases d <;> rfl

/-- Painting keeps the root. -/
@[simp] theorem rootAddr_paint (c : Bool) (t : ColorTree Entry) :
    rootAddr (t.paint c) = rootAddr t := by
  cases t <;> rfl

/-- Painting keeps the nodes. -/
@[simp] theorem treeNodes_paint (c : Bool) (t : ColorTree Entry) :
    treeNodes (t.paint c) = treeNodes t := by
  cases t <;> rfl

/-- A tree node is among the nodes of its entry. -/
theorem Entry.addr_mem_nodes (e : Entry) : e.addr ∈ e.nodes := List.mem_cons_self

/-- The nodes of a joined tree. -/
theorem mem_treeNodes_join {a : Nat} {c d : Bool} {x : Entry} {s o : ColorTree Entry} :
    a ∈ treeNodes (join c x d s o) ↔ a ∈ x.nodes ∨ a ∈ treeNodes s ∨ a ∈ treeNodes o := by
  cases d
  · simp [join, treeNodes]
  · simp [join, treeNodes, or_comm]

/-- The same with the number of times they occur. -/
theorem perm_treeNodes_join (c d : Bool) (x : Entry) (s o : ColorTree Entry) :
    (treeNodes (join c x d s o)).Perm (x.nodes ++ (treeNodes s ++ treeNodes o)) := by
  cases d
  · exact List.Perm.refl _
  · exact List.Perm.append_left _ List.perm_append_comm

/-- The root of a tree that is not empty is a node of it. -/
theorem rootAddr_mem {t : ColorTree Entry} (h : t ≠ .nil) : rootAddr t ∈ treeNodes t := by
  cases t with
  | nil => exact absurd rfl h
  | node c l x r => simp [rootAddr, treeNodes, Entry.nodes]

/-- The nodes of a tree are those of its entries. -/
theorem perm_treeNodes (t : ColorTree Entry) :
    (treeNodes t).Perm (t.toList.flatMap Entry.nodes) := by
  induction t with
  | nil => exact List.Perm.refl _
  | node c l x r ihl ihr =>
    simp only [treeNodes, toList_node, List.flatMap_append, List.flatMap_cons]
    refine (((ihl.append ihr).append_left x.nodes).trans ?_)
    rw [← List.append_assoc, ← List.append_assoc]
    exact List.perm_append_comm.append_right _

/-- The nodes of a context are those of its entries. -/
theorem perm_ctxNodes (ctx : List (Frame Entry)) :
    (ctxNodes ctx).Perm ((ctxList ctx).flatMap Entry.nodes) := by
  induction ctx with
  | nil => exact List.Perm.refl _
  | cons f ctx ih =>
    simp only [ctxNodes, ctxList, List.flatMap_append, List.flatMap_cons]
    exact ((perm_treeNodes _).append ih).append_left _

/-- The nodes of a focused tree, however it is focused. -/
theorem perm_zipNodes (ctx : List (Frame Entry)) (t : ColorTree Entry) :
    (ctxNodes ctx ++ treeNodes t).Perm ((plug ctx t).toList.flatMap Entry.nodes) := by
  refine ((perm_ctxNodes ctx).append (perm_treeNodes t)).trans ?_
  rw [← List.flatMap_append]
  exact (perm_ctxList ctx t).symm.flatMap_right _

/-! ## Agreement -/

section Congr

variable {V V' : Nat → NodeView}

/-- A chain depends on the views of its nodes only. -/
theorem Chain.congr {key : Nat} {l : List Nat} (h : ∀ a ∈ l, V' a = V a)
    (hc : Chain V key l) : Chain V' key l := by
  induction l with
  | nil => trivial
  | cons a rest ih =>
    refine ⟨?_, ih (fun b hb => h b (List.mem_cons_of_mem _ hb)) hc.2⟩
    rw [h a List.mem_cons_self]
    exact hc.1

/-- An entry depends on the views of its nodes only. -/
theorem EntryModels.congr {c : Bool} {e : Entry} (h : ∀ a ∈ e.nodes, V' a = V a)
    (hm : EntryModels V c e) : EntryModels V' c e := by
  obtain ⟨hd, hr, hdup, hch⟩ := hm
  have ha := h e.addr e.addr_mem_nodes
  refine ⟨?_, ?_, ?_, hch.congr fun a hmem => h a (List.mem_cons_of_mem _ hmem)⟩
  · rw [ha]; exact hd
  · rw [ha]; exact hr
  · rw [ha]; exact hdup

/-- A tree depends on the views of its nodes only. -/
theorem Models.congr {t : ColorTree Entry} (h : ∀ a ∈ treeNodes t, V' a = V a)
    (hm : Models V t) : Models V' t := by
  induction t with
  | nil => trivial
  | node c l x r ihl ihr =>
    obtain ⟨he, hl, hr, hml, hmr⟩ := hm
    have hx := h x.addr (by simp [treeNodes, Entry.nodes])
    refine ⟨he.congr fun a ha => h a ?_, by rw [hx]; exact hl, by rw [hx]; exact hr,
      ihl (fun a ha => h a ?_) hml, ihr (fun a ha => h a ?_) hmr⟩
    · exact List.mem_append_left _ ha
    · exact List.mem_append_right _ (List.mem_append_left _ ha)
    · exact List.mem_append_right _ (List.mem_append_right _ ha)

/-- A context depends on the views of its nodes and of the head only. -/
theorem CtxModels.congr {ctx : List (Frame Entry)} {hole : Nat}
    (h : ∀ a ∈ ctxNodes ctx, V' a = V a) (hh : V' headAddr = V headAddr)
    (hm : CtxModels V ctx hole) : CtxModels V' ctx hole := by
  induction ctx generalizing hole with
  | nil => simp only [CtxModels, hh] at hm ⊢; exact hm
  | cons f ctx ih =>
    obtain ⟨he, hd, hs, hms, hctx⟩ := hm
    have hx := h f.x.addr (by simp [ctxNodes, Entry.nodes])
    refine ⟨he.congr fun a ha => h a ?_, by rw [hx]; exact hd, by rw [hx]; exact hs,
      hms.congr fun a ha => h a ?_, ih (fun a ha => h a ?_) hctx⟩
    · exact List.mem_append_left _ ha
    · exact List.mem_append_right _ (List.mem_append_left _ ha)
    · exact List.mem_append_right _ (List.mem_append_right _ ha)

end Congr

/-! ## Shapes -/

section Shapes

variable {V : Nat → NodeView}

/-- A joined tree lies in memory when its parts do and its root links them. -/
theorem models_join {c d : Bool} {x : Entry} {s o : ColorTree Entry} :
    Models V (join c x d s o) ↔ EntryModels V c x ∧ (V x.addr).kid d = rootAddr s ∧
      (V x.addr).kid (!d) = rootAddr o ∧ Models V s ∧ Models V o := by
  cases d
  · rfl
  · simp only [join, Models, Bool.not_true]
    constructor
    · rintro ⟨h1, h2, h3, h4, h5⟩; exact ⟨h1, h3, h2, h5, h4⟩
    · rintro ⟨h1, h2, h3, h4, h5⟩; exact ⟨h1, h3, h2, h5, h4⟩

/-- Moving the cursor up one frame. -/
theorem ctxModels_cons {f : Frame Entry} {ctx : List (Frame Entry)} {t : ColorTree Entry} :
    CtxModels V (f :: ctx) (rootAddr t) ∧ Models V t ↔
      CtxModels V ctx f.x.addr ∧ Models V (join f.red f.x f.dir t f.sib) := by
  rw [models_join]
  simp only [CtxModels]
  constructor
  · rintro ⟨⟨h1, h2, h3, h4, h5⟩, h6⟩; exact ⟨h5, h1, h2, h3, h6, h4⟩
  · rintro ⟨h5, h1, h2, h3, h6, h4⟩; exact ⟨⟨h1, h2, h3, h4, h5⟩, h6⟩

/-- The whole tree hangs below the dummy root. -/
theorem models_plug {ctx : List (Frame Entry)} {t : ColorTree Entry} :
    CtxModels V ctx (rootAddr t) ∧ Models V t ↔
      CtxModels V [] (rootAddr (plug ctx t)) ∧ Models V (plug ctx t) := by
  induction ctx generalizing t with
  | nil => rfl
  | cons f ctx ih =>
    rw [ctxModels_cons, plug, ← ih, rootAddr_join]

end Shapes

/-! ## Link operations as tree operations -/

section Moves

variable {V : Nat → NodeView}

/-- A child link is no part of the record of an entry. -/
theorem EntryModels.setKid {c d : Bool} {e : Entry} {a v : Nat} (ha : a ∉ e.dups)
    (h : EntryModels V c e) : EntryModels (setKid V a d v) c e := by
  obtain ⟨hd, hr, hdup, hch⟩ := h
  refine ⟨by simpa using hd, by simpa using hr, by simpa using hdup, hch.congr fun b hb => ?_⟩
  exact setKid_of_ne V v d (fun hab => ha (hab ▸ hb))

/-- The color of another node is no matter to an entry. -/
theorem EntryModels.setRed {c c' : Bool} {e : Entry} {a : Nat} (ha : a ∉ e.nodes)
    (h : EntryModels V c e) : EntryModels (setRed V a c') c e :=
  h.congr fun _ hb => setRed_of_ne V c' (fun hab => ha (hab ▸ hb))

/-- The color of its tree node is the one of the entry. -/
theorem EntryModels.setRed_self {c c' : Bool} {e : Entry} (he : e.addr ∉ e.dups)
    (h : EntryModels V c e) : EntryModels (Toutatis.setRed V e.addr c') c' e := by
  obtain ⟨hd, -, hdup, hch⟩ := h
  refine ⟨by simpa using hd, by simp, by simpa using hdup, hch.congr fun b hb => ?_⟩
  exact setRed_of_ne V c' (fun hab => he (hab ▸ hb))

/-- A child of a node outside is no matter to a tree. -/
theorem Models.setKid {d : Bool} {t : ColorTree Entry} {a v : Nat} (ha : a ∉ treeNodes t)
    (h : Models V t) : Models (setKid V a d v) t :=
  h.congr fun _ hb => setKid_of_ne V v d (fun hab => ha (hab ▸ hb))

/-- The color of a node outside is no matter to a tree. -/
theorem Models.setRed {c : Bool} {t : ColorTree Entry} {a : Nat} (ha : a ∉ treeNodes t)
    (h : Models V t) : Models (setRed V a c) t :=
  h.congr fun _ hb => setRed_of_ne V c (fun hab => ha (hab ▸ hb))

/-- The color of a node outside is no matter to a context. -/
theorem CtxModels.setRed {c : Bool} {ctx : List (Frame Entry)} {hole a : Nat}
    (ha : a ∉ ctxNodes ctx) (hh : a ≠ headAddr) (h : CtxModels V ctx hole) :
    CtxModels (setRed V a c) ctx hole :=
  h.congr (fun _ hb => setRed_of_ne V c (fun hab => ha (hab ▸ hb)))
    (setRed_of_ne V c hh.symm)

/-- Outside the two nodes it turns, a rotation changes nothing. -/
theorem rotateView_of_ne {g b : Nat} {d : Bool} (hg : b ≠ g) (hs : b ≠ (V g).kid (!d)) :
    rotateView V g d b = V b := by
  simp only [rotateView]
  rw [setRed_of_ne _ _ hs, setRed_of_ne _ _ hg, setKid_of_ne _ _ _ hs, setKid_of_ne _ _ _ hg]

/-- **Rotation.** The child `s` of `g` on side `!d` becomes its parent: `g` is
    painted red and takes over the inner subtree `x`, `s` is painted black. -/
theorem models_rotate {cg cs d : Bool} {g s : Entry} {x y z : ColorTree Entry}
    (hn : (treeNodes (join cg g (!d) (join cs s d x y) z)).Nodup)
    (hm : Models V (join cg g (!d) (join cs s d x y) z)) :
    Models (rotateView V g.addr d) (join false s d (join true g (!d) x z) y) := by
  rw [models_join, models_join] at hm
  obtain ⟨hg, hgs, hgz, ⟨hs, hsx, hsy, hx, hy⟩, hz⟩ := hm
  rw [rootAddr_join] at hgs
  rw [Bool.not_not] at hgz
  rw [(perm_treeNodes_join _ _ _ _ _).nodup_iff] at hn
  simp only [List.nodup_append, mem_treeNodes_join, List.mem_append, Entry.nodes, List.mem_cons,
    List.nodup_cons] at hn
  obtain ⟨⟨hgg, -⟩, ⟨hns, -, hsz⟩, hdisj⟩ := hn
  rw [(perm_treeNodes_join _ _ _ _ _).nodup_iff] at hns
  simp only [List.nodup_append, List.mem_append, Entry.nodes, List.mem_cons,
    List.nodup_cons] at hns
  obtain ⟨⟨hss, -⟩, -, hdisj'⟩ := hns
  have hgs_ne : g.addr ≠ s.addr := by grind
  -- the rotation leaves every node of the subtrees and chains alone
  have hout : ∀ b, b ≠ g.addr → b ≠ s.addr → rotateView V g.addr d b = V b := by
    intro b h1 h2
    exact rotateView_of_ne h1 (by rw [hgs]; exact h2)
  have hsub : ∀ t : ColorTree Entry, (∀ b ∈ treeNodes t, b ≠ g.addr ∧ b ≠ s.addr) →
      Models V t → Models (rotateView V g.addr d) t := by
    intro t ht h
    exact h.congr fun b hb => hout b (ht b hb).1 (ht b hb).2
  have hch : ∀ (k : Nat) (l : List Nat), (∀ b ∈ l, b ≠ g.addr ∧ b ≠ s.addr) → Chain V k l →
      Chain (rotateView V g.addr d) k l := by
    intro k l hl h
    exact h.congr fun b hb => hout b (hl b hb).1 (hl b hb).2
  rw [models_join, models_join, rootAddr_join]
  refine ⟨⟨?_, ?_, ?_, hch _ _ (by grind) hs.2.2.2⟩, ?_, ?_,
    ⟨⟨?_, ?_, ?_, hch _ _ (by grind) hg.2.2.2⟩, ?_, ?_, hsub x (by grind) hx,
      hsub z (by grind) hz⟩, hsub y (by grind) hy⟩
  · simpa [rotateView] using hs.1
  · simp [rotateView, hgs]
  · simpa [rotateView] using hs.2.2.1
  · simp [rotateView, hgs]
  · simpa [rotateView, hgs, setKid_kid, Ne.symm hgs_ne] using hsy
  · simpa [rotateView] using hg.1
  · rw [rotateView, hgs, setRed_of_ne _ _ hgs_ne, setRed_red_self]
  · simpa [rotateView] using hg.2.2.1
  · simpa [rotateView, hgs, setKid_kid, hgs_ne] using hsx
  · simpa [rotateView, hgs, setKid_kid, hgs_ne] using hgz

/-- Hang another subtree below a node. -/
theorem models_setKid_child {c d : Bool} {x : Entry} {s s' o : ColorTree Entry}
    (hx : x.addr ∉ x.dups) (hs : x.addr ∉ treeNodes s') (ho : x.addr ∉ treeNodes o)
    (hm : Models V (join c x d s o)) (hm' : Models V s') :
    Models (setKid V x.addr d (rootAddr s')) (join c x d s' o) := by
  rw [models_join] at hm ⊢
  obtain ⟨he, -, hko, -, hmo⟩ := hm
  refine ⟨he.setKid hx, by simp, ?_, hm'.setKid hs, hmo.setKid ho⟩
  rw [setKid_kid_not]
  exact hko

/-- Repaint a root. -/
theorem models_setRed_root {c c' d : Bool} {x : Entry} {s o : ColorTree Entry}
    (hx : x.addr ∉ x.dups) (hs : x.addr ∉ treeNodes s) (ho : x.addr ∉ treeNodes o)
    (hm : Models V (join c x d s o)) :
    Models (setRed V x.addr c') (join c' x d s o) := by
  rw [models_join] at hm ⊢
  obtain ⟨he, hks, hko, hms, hmo⟩ := hm
  exact ⟨he.setRed_self hx, by simpa using hks, by simpa using hko, hms.setRed hs,
    hmo.setRed ho⟩

/-- Hang another subtree below a path. -/
theorem CtxModels.set_hole {ctx : List (Frame Entry)} {hole hole' : Nat}
    (hn : (ctxNodes ctx).Nodup) (hh : headAddr ∉ ctxNodes ctx) (h : CtxModels V ctx hole) :
    CtxModels (Toutatis.setKid V (top ctx) (topDir ctx) hole') ctx hole' := by
  cases ctx with
  | nil =>
    refine ⟨by simp [top, topDir], ?_⟩
    simpa [top, topDir, setKid_kid] using h.2
  | cons f ctx =>
    obtain ⟨he, hd, hs, hms, hctx⟩ := h
    simp only [ctxNodes, List.nodup_append, List.mem_append, Entry.nodes, List.mem_cons,
      List.nodup_cons] at hn hh
    refine ⟨he.setKid hn.1.1, by simp [top, topDir], ?_, hms.setKid ?_, ?_⟩
    · simpa [top, topDir] using hs
    · -- a node is not its own descendant
      intro hmem
      exact hn.2.2 f.x.addr (Or.inl rfl) f.x.addr (Or.inl hmem) rfl
    · refine hctx.congr (fun b hb => setKid_of_ne _ _ _ ?_) (setKid_of_ne _ _ _ ?_)
      · -- no other node of the path is written to
        intro hbf
        exact hn.2.2 f.x.addr (Or.inl rfl) b (Or.inr hb) hbf.symm
      · -- the head is not a node of the tree
        intro hf
        exact hh (Or.inl (Or.inl hf))

/-- The link to the focus. -/
theorem CtxModels.hole_eq {ctx : List (Frame Entry)} {hole : Nat} (h : CtxModels V ctx hole) :
    (V (top ctx)).kid (topDir ctx) = hole := by
  cases ctx with
  | nil => exact h.1
  | cons f ctx => exact h.2.1

/-- The comparison with the right link finds the side of the focus. -/
theorem CtxModels.dir_eq {ctx : List (Frame Entry)} {hole : Nat} (h : CtxModels V ctx hole)
    (h0 : hole ≠ 0) (hn : hole ∉ ctxNodes ctx) :
    ((V (top ctx)).kid true == hole) = topDir ctx := by
  cases ctx with
  | nil => simp only [top, topDir, h.1, BEq.rfl]
  | cons f ctx =>
    obtain ⟨-, hd, hs, -, -⟩ := h
    simp only [top, topDir]
    cases hdir : f.dir with
    -- the right child
    | true => rw [hdir] at hd; rw [hd]; exact BEq.rfl
    | false =>
      -- the left child: the sibling is another node, or null
      rw [hdir, Bool.not_false] at hs
      rw [hs, beq_eq_false_iff_ne]
      intro heq
      cases hsib : f.sib with
      | nil => rw [hsib] at heq; exact h0 heq.symm
      | node c l x r =>
        apply hn
        have hmem : rootAddr f.sib ∈ treeNodes f.sib := rootAddr_mem (by simp [hsib])
        rw [← heq]
        simp [ctxNodes, hmem]

end Moves

end Toutatis
