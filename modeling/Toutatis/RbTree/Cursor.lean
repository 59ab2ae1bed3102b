import Toutatis.RbTree.Rep

/-!
# A cursor into a tree in memory

`Zip S V ctx t`: the node records `V` hold the tree `plug ctx t`, hung below the
dummy root, with all its nodes distinct and in `S`. `Sim.rotate_hang` is the
statement `set_link(parent, dir, rotate(node, d))` of both algorithms;
`Zip.paint_root` recolours the node in hand.

Each operation also says which records it leaves alone (`Off`), so that facts
about a node outside the tree survive the descent.
-/

namespace Toutatis

open ByteMem RedBlack RedBlack.ColorTree

/-- The nodes of a focused tree. -/
def zipNodes (ctx : List (Frame Entry)) (t : ColorTree Entry) : List Nat :=
  ctxNodes ctx ++ treeNodes t

/-- The records `V` hold the tree `plug ctx t` below the dummy root. -/
structure Zip (S : Set Nat) (V : Nat → NodeView) (ctx : List (Frame Entry))
    (t : ColorTree Entry) : Prop where
  path : CtxModels V ctx (rootAddr t)
  tree : Models V t
  nodup : (zipNodes ctx t).Nodup
  mem : ∀ a ∈ zipNodes ctx t, a ∈ S ∧ a ≠ headAddr
  head : headAddr ∈ S

/-- `V'` differs from `V` on the listed nodes and the dummy root only. -/
def Off (nodes : List Nat) (V V' : Nat → NodeView) : Prop :=
  ∀ b, b ∉ nodes → b ≠ headAddr → V' b = V b

/-- Views agree with themselves outside of the nodes. -/
theorem Off.refl (nodes : List Nat) (V : Nat → NodeView) : Off nodes V V :=
  fun _ _ _ => rfl

/-- Two steps, the second of which touches nodes of the first one only. -/
theorem Off.trans {n₁ n₂ : List Nat} {V V₁ V₂ : Nat → NodeView} (h₁ : Off n₁ V V₁)
    (h₂ : Off n₂ V₁ V₂) (hsub : ∀ a ∈ n₂, a ∈ n₁) : Off n₁ V V₂ := by
  intro b hb hh
  rw [h₂ b (fun h => hb (hsub b h)) hh, h₁ b hb hh]

/-- The two subtrees of a joined tree change places with its direction. -/
theorem join_not (c d : Bool) (x : Entry) (s o : ColorTree Entry) :
    join c x (!d) s o = join c x d o s := by
  cases d <;> rfl

section

variable {S : Set Nat} {m₀ m : Mem} {V : Nat → NodeView}
variable {ctx : List (Frame Entry)} {t : ColorTree Entry}

/-- Two focusings with the same in-order list have the same nodes. -/
theorem perm_zipNodes_of_toList {ctx' : List (Frame Entry)} {t' : ColorTree Entry}
    (h : (plug ctx' t').toList = (plug ctx t).toList) :
    (zipNodes ctx' t').Perm (zipNodes ctx t) := by
  have h₁ := perm_zipNodes ctx' t'
  rw [h] at h₁
  exact h₁.trans (perm_zipNodes ctx t).symm

/-- A rearrangement of the same nodes, hung on other records. -/
theorem Zip.of_perm {V' : Nat → NodeView} {ctx' : List (Frame Entry)} {t' : ColorTree Entry}
    (hz : Zip S V ctx t) (hp : (zipNodes ctx' t').Perm (zipNodes ctx t))
    (hc : CtxModels V' ctx' (rootAddr t')) (ht : Models V' t') : Zip S V' ctx' t' where
  path := hc
  tree := ht
  nodup := hp.nodup_iff.mpr hz.nodup
  mem a ha := hz.mem a (hp.mem_iff.mp ha)
  head := hz.head

/-- Move the cursor up to the parent. -/
theorem Zip.up {f : Frame Entry} (hz : Zip S V (f :: ctx) t) :
    Zip S V ctx (join f.red f.x f.dir t f.sib) := by
  have h := ctxModels_cons.mp ⟨hz.path, hz.tree⟩
  exact hz.of_perm (perm_zipNodes_of_toList (by rw [plug])) (by rw [rootAddr_join]; exact h.1) h.2

/-- Move the cursor down to a child. -/
theorem Zip.down {c d : Bool} {x : Entry} {s o : ColorTree Entry}
    (hz : Zip S V ctx (join c x d s o)) : Zip S V (⟨c, x, d, o⟩ :: ctx) s := by
  have hpath := hz.path
  rw [rootAddr_join] at hpath
  have h := ctxModels_cons (f := ⟨c, x, d, o⟩).mpr ⟨hpath, hz.tree⟩
  exact hz.of_perm (perm_zipNodes_of_toList (by rw [plug])) h.1 h.2

/-- The cursor at the top. -/
theorem Zip.plug_all (hz : Zip S V ctx t) : Zip S V [] (plug ctx t) := by
  have h := models_plug.mp ⟨hz.path, hz.tree⟩
  exact hz.of_perm (perm_zipNodes_of_toList rfl) h.1 h.2

/-- A node of the subtree is one that may be read and is not the head. -/
theorem Zip.mem_tree (hz : Zip S V ctx t) {a : Nat} (ha : a ∈ treeNodes t) :
    a ∈ S ∧ a ≠ headAddr :=
  hz.mem a (List.mem_append_right _ ha)

/-- The root of the subtree may be read and is not the head. -/
theorem Zip.root_mem (hz : Zip S V ctx t) (h : t ≠ .nil) :
    rootAddr t ∈ S ∧ rootAddr t ≠ headAddr :=
  hz.mem_tree (rootAddr_mem h)

/-- The parent of the subtree may be read. -/
theorem Zip.top_mem (hz : Zip S V ctx t) : top ctx ∈ S := by
  cases ctx with
  | nil => exact hz.head
  | cons f ctx => exact (hz.mem f.x.addr (by simp [zipNodes, ctxNodes, Entry.nodes])).1

/-- The root of the subtree is a link. -/
theorem Zip.isLink_root (hz : Zip S V ctx t) : IsLink S (rootAddr t) := by
  cases t with
  | nil => exact Or.inl rfl
  | node c l x r => exact Or.inr (hz.root_mem (by simp))

/-- No node is twice in the context. -/
theorem Zip.ctx_nodup (hz : Zip S V ctx t) :
    (ctxNodes ctx).Nodup ∧ headAddr ∉ ctxNodes ctx := by
  refine ⟨(List.nodup_append.mp hz.nodup).1, fun h => ?_⟩
  exact (hz.mem headAddr (List.mem_append_left _ h)).2 rfl

/-- No node is twice in the subtree. -/
theorem Zip.tree_nodup (hz : Zip S V ctx t) : (treeNodes t).Nodup :=
  (List.nodup_append.mp hz.nodup).2.1

/-- A node of the focus is no node of the context, nor the dummy root. -/
theorem Zip.not_mem_ctx (hz : Zip S V ctx t) {a : Nat} (ha : a ∈ treeNodes t) :
    a ∉ ctxNodes ctx := by
  intro hc
  exact (List.nodup_append.mp hz.nodup).2.2 a hc a ha rfl

/-- A node of the subtree is not its parent. -/
theorem Zip.ne_top (hz : Zip S V ctx t) {a : Nat} (ha : a ∈ treeNodes t) : a ≠ top ctx := by
  cases ctx with
  | nil => exact (hz.mem_tree ha).2
  | cons f ctx =>
    rintro rfl
    exact hz.not_mem_ctx ha (by simp [top, ctxNodes, Entry.nodes])

/-- The colour of a subtree is the colour bit of its root. -/
theorem Sim.isRed_root (hs : Sim S m₀ m V) (ht : Models V t)
    (hmem : ∀ a ∈ treeNodes t, a ∈ S) : isRed m (rootAddr t) = t.isRed := by
  cases t with
  | nil => exact isRed_zero m
  | node c l x r =>
    rw [hs.isRed_eq (hmem _ (rootAddr_mem (by simp)))]
    exact ht.1.2.1

/-- The colour of a child, read through the link. -/
theorem Sim.isRed_child (hs : Sim S m₀ m V) {c d : Bool} {x : Entry} {s o : ColorTree Entry}
    (hz : Zip S V ctx (join c x d s o)) :
    isRed m (getLink m x.addr d.toNat) = s.isRed := by
  have hx := hz.root_mem (by cases d <;> simp [join])
  rw [rootAddr_join] at hx
  have hm := models_join.mp hz.tree
  rw [hs.getLink_kid hx.1, hm.2.1]
  exact hs.isRed_root hm.2.2.2.1
    (fun a ha => (hz.mem_tree (mem_treeNodes_join.mpr (Or.inr (Or.inl ha)))).1)

/-- Hang the subtree at `new` below the path. -/
theorem Zip.hang {V₁ : Nat → NodeView} {m₁ : Mem} {t' : ColorTree Entry} {hole : Nat}
    (hz : Zip S V ctx t) (hs₁ : Sim S m₀ m₁ V₁) (hp : (treeNodes t').Perm (treeNodes t))
    (hc : CtxModels V₁ ctx hole) (ht : Models V₁ t') :
    Sim S m₀ (setLink m₁ (top ctx) (topDir ctx).toNat (rootAddr t'))
        (setKid V₁ (top ctx) (topDir ctx) (rootAddr t')) ∧
      Zip S (setKid V₁ (top ctx) (topDir ctx) (rootAddr t')) ctx t' := by
  have hlink : IsLink S (rootAddr t') := by
    cases t' with
    | nil => exact Or.inl rfl
    | node c l x r =>
      exact Or.inr (hz.mem_tree (hp.mem_iff.mp (rootAddr_mem (by simp))))
  refine ⟨hs₁.setLink_kid hz.top_mem hlink _, ?_⟩
  refine hz.of_perm (hp.append_left _) (hc.set_hole hz.ctx_nodup.1 hz.ctx_nodup.2)
    (ht.setKid fun hmem => ?_)
  exact hz.ne_top (hp.mem_iff.mp hmem) rfl

/-- Rotate the node in hand and hang the new root below the path. -/
theorem Sim.rotate_hang (hs : Sim S m₀ m V) {cg cs d : Bool} {g s : Entry}
    {x y z : ColorTree Entry} (hz : Zip S V ctx (join cg g (!d) (join cs s d x y) z)) :
    (rotate m g.addr d).2 = s.addr ∧
    ∃ V', Sim S m₀ (setLink (rotate m g.addr d).1 (top ctx) (topDir ctx).toNat s.addr) V' ∧
      Zip S V' ctx (join false s d (join true g (!d) x z) y) ∧
      Off (zipNodes ctx (join cg g (!d) (join cs s d x y) z)) V V' := by
  have hm := models_join.mp hz.tree
  have hms := models_join.mp hm.2.2.2.1
  have hgs : (V g.addr).kid (!d) = s.addr := by rw [hm.2.1, rootAddr_join]
  have hgmem : g.addr ∈ treeNodes (join cg g (!d) (join cs s d x y) z) :=
    mem_treeNodes_join.mpr (Or.inl g.addr_mem_nodes)
  have hsmem : s.addr ∈ treeNodes (join cg g (!d) (join cs s d x y) z) :=
    mem_treeNodes_join.mpr (Or.inr (Or.inl (mem_treeNodes_join.mpr (Or.inl s.addr_mem_nodes))))
  have hxlink : IsLink S (rootAddr x) := hz.down.down.isLink_root
  obtain ⟨hrot, htop⟩ := hs.rotate_sim (d := d) (hz.mem_tree hgmem).1 (hz.mem_tree hgmem).2
    (by rw [hgs]; exact (hz.mem_tree hsmem).1) (by rw [hgs, hms.2.1]; exact hxlink)
  rw [hgs] at htop
  -- the rotation only touches `g` and `s`
  have hoff : ∀ b, b ≠ g.addr → b ≠ s.addr → rotateView V g.addr d b = V b := by
    intro b h1 h2
    exact rotateView_of_ne h1 (by rw [hgs]; exact h2)
  have hctx : CtxModels (rotateView V g.addr d) ctx g.addr := by
    have hpath := hz.path
    rw [rootAddr_join] at hpath
    refine hpath.congr (fun b hb => hoff b ?_ ?_) (hoff _ ?_ ?_)
    · rintro rfl; exact hz.not_mem_ctx hgmem hb
    · rintro rfl; exact hz.not_mem_ctx hsmem hb
    · exact (hz.mem_tree hgmem).2.symm
    · exact (hz.mem_tree hsmem).2.symm
  have hperm : (treeNodes (join false s d (join true g (!d) x z) y)).Perm
      (treeNodes (join cg g (!d) (join cs s d x y) z)) := by
    refine (perm_treeNodes _).trans (List.Perm.trans ?_ (perm_treeNodes _).symm)
    cases d <;> simp [join]
  have h := hz.hang hrot hperm hctx (models_rotate hz.tree_nodup hz.tree)
  rw [rootAddr_join] at h
  refine ⟨htop, _, h.1, h.2, ?_⟩
  intro b hb hh
  have hmem : ∀ a ∈ treeNodes (join cg g (!d) (join cs s d x y) z), b ≠ a := by
    rintro a ha rfl
    exact hb (List.mem_append_right _ ha)
  rw [setKid_of_ne, hoff b (hmem _ hgmem) (hmem _ hsmem)]
  cases ctx with
  | nil => exact hh
  | cons f ctx =>
    rintro rfl
    exact hb (by simp [zipNodes, ctxNodes, top, Entry.nodes])

/-- Recolour the node in hand. -/
theorem Zip.paint_root (hz : Zip S V ctx t) (ht : t ≠ .nil) (c : Bool) :
    Zip S (setRed V (rootAddr t) c) ctx (t.paint c) ∧
      Off (zipNodes ctx t) V (setRed V (rootAddr t) c) := by
  have hmem := rootAddr_mem ht
  refine ⟨?_, fun b hb _ => setRed_of_ne V c ?_⟩
  · have hpath := hz.path.setRed (c := c) (hz.not_mem_ctx hmem) (hz.mem_tree hmem).2
    have htree : Models (setRed V (rootAddr t) c) (t.paint c) := by
      cases t with
      | nil => exact absurd rfl ht
      | node c' l x r =>
        have hn := hz.tree_nodup
        simp only [treeNodes, List.nodup_append, List.mem_append, Entry.nodes, List.mem_cons,
          List.nodup_cons] at hn
        refine models_setRed_root (d := false) hn.1.1 ?_ ?_ hz.tree
        · exact fun h => hn.2.2 x.addr (Or.inl rfl) _ (Or.inl h) rfl
        · exact fun h => hn.2.2 x.addr (Or.inl rfl) _ (Or.inr h) rfl
    exact hz.of_perm (by rw [zipNodes, treeNodes_paint]; exact List.Perm.refl _)
      (by rw [rootAddr_paint]; exact hpath) htree
  · rintro rfl
    exact hb (List.mem_append_right _ hmem)

/-- `paint_red(node)` and `paint_black(node)` on the node in hand. -/
theorem Sim.paint_hand (hs : Sim S m₀ m V) (hz : Zip S V ctx t) (ht : t ≠ .nil) :
    Sim S m₀ (paintRed m (rootAddr t)) (setRed V (rootAddr t) true) ∧
      Sim S m₀ (paintBlack m (rootAddr t)) (setRed V (rootAddr t) false) :=
  ⟨hs.paintRed_sim (hz.root_mem ht).1, hs.paintBlack_sim (hz.root_mem ht).1⟩

/-- Paint the node in hand red and both its children black. -/
theorem Sim.flip_hand (hs : Sim S m₀ m V) {c : Bool} {l r : ColorTree Entry} {x : Entry}
    (hz : Zip S V ctx (.node c l x r)) (hlne : l ≠ .nil) (hrne : r ≠ .nil) :
    ∃ V', Sim S m₀ (paintBlack (paintBlack (paintRed m x.addr)
        (getLink (paintRed m x.addr) x.addr 0))
        (getLink (paintBlack (paintRed m x.addr) (getLink (paintRed m x.addr) x.addr 0))
          x.addr 1)) V' ∧
      Zip S V' ctx (.node true (l.paint false) x (r.paint false)) ∧
      Off (zipNodes ctx (.node c l x r)) V V' := by
  have hrmem : rootAddr r ∈ zipNodes ctx (.node c l x r) := by
    simp [zipNodes, treeNodes, rootAddr_mem hrne]
  have hlmem : rootAddr l ∈ zipNodes ctx (.node c l x r) := by
    simp [zipNodes, treeNodes, rootAddr_mem hlne]
  have hxmem : x.addr ∈ zipNodes ctx (.node c l x r) := by
    simp [zipNodes, treeNodes, Entry.nodes]
  -- paint the node, then step down to each child and paint it
  have hs₁ := (hs.paint_hand hz (by simp)).1
  have hz₁ : Zip S (setRed V x.addr true) ctx (join true x false l r) :=
    (hz.paint_root (by simp) true).1
  have hxS := hz₁.root_mem (by simp [join])
  rw [rootAddr_join] at hxS
  have hgl : getLink (paintRed m x.addr) x.addr 0 = rootAddr l := by
    have h := hs₁.getLink_kid (a := x.addr) hxS.1 false
    rw [Bool.toNat_false] at h
    exact h.trans (models_join.mp hz₁.tree).2.1
  have hs₂ := (hs₁.paint_hand hz₁.down hlne).2
  have hz₂ := (hz₁.down.paint_root hlne false).1.up
  dsimp only at hz₂
  rw [← join_not] at hz₂
  have hgr : getLink (paintBlack (paintRed m x.addr) (rootAddr l)) x.addr 1 = rootAddr r := by
    have h := hs₂.getLink_kid (a := x.addr) hxS.1 true
    rw [Bool.toNat_true] at h
    exact h.trans (models_join.mp hz₂.tree).2.1
  have hs₃ := (hs₂.paint_hand hz₂.down hrne).2
  have hz₃ := (hz₂.down.paint_root hrne false).1.up
  rw [hgl, hgr]
  refine ⟨_, hs₃, hz₃, ?_⟩
  intro b hb _
  have hne : ∀ a, a ∈ zipNodes ctx (.node c l x r) → b ≠ a := fun a ha hba => hb (hba ▸ ha)
  rw [setRed_of_ne _ _ (hne _ hrmem), setRed_of_ne _ _ (hne _ hlmem)]
  exact setRed_of_ne _ _ (hne _ hxmem)

end

end Toutatis
