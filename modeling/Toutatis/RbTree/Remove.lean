import Toutatis.RbTree.Tree

/-!
# `remove_rbnode` is correct

The descent of `remove_rbnode` pushes a red node down in front of it
(`RedBlack.pushDown`), so that the last visited node can be cut out at the
bottom. The found node `f` and its parent `fp` are followed through the
rotations by the `spine` of the cursor: below `f` the search only turns right,
so it ends at the in-order predecessor of `f`.
-/

namespace Toutatis

open ByteMem RedBlack RedBlack.ColorTree

/-- The visited nodes with the side the search took, innermost first. -/
def spine (ctx : List (Frame Entry)) : List (Entry × Bool) := ctx.map fun f => (f.x, f.dir)

/-- The pointer to the innermost node of a spine. -/
def spineTop : List (Entry × Bool) → Nat
  | [] => headAddr
  | f :: _ => f.1.addr

theorem spineTop_spine (ctx : List (Frame Entry)) : spineTop (spine ctx) = top ctx := by
  cases ctx <;> rfl

/-- How a push rearranges the visited nodes and keeps `fp` the parent of `f`. -/
inductive PushShape (v v' : RemoveVars) (x : Entry) (d : Bool) (sp sp' : List (Entry × Bool)) :
    Prop where
  | same : sp' = sp → v'.fp = v.fp → PushShape v v' x d sp sp'
  | turnNode (y : Entry) : sp' = (y, d) :: sp →
      (v'.fp = if v.f = x.addr then y.addr else v.fp) → PushShape v v' x d sp sp'
  | turnParent (p y : Entry) (e : Bool) (rest : List (Entry × Bool)) : sp = (p, e) :: rest →
      sp' = (p, e) :: (y, e) :: rest →
      (v'.fp = if v.f = p.addr then y.addr else v.fp) → PushShape v v' x d sp sp'

/-- The result of a push: the cursor stands on the child on side `d`. -/
structure Pushed (S : Set Nat) (m₀ : Mem) (v : RemoveVars) (ctx : List (Frame Entry)) (c : Bool)
    (x : Entry) (d : Bool) (s o : ColorTree Entry) (r : Mem × RemoveVars) : Prop where
  cursor : ∃ V', Sim S m₀ r.1 V' ∧ Zip S V' (pushDown ctx c x d s o) s
  shape : ∃ c' o' ctx', pushDown ctx c x d s o = ⟨c', x, d, o'⟩ :: ctx' ∧ r.2.p = top ctx' ∧
    PushShape v r.2 x d (spine ctx) (spine ctx')
  hand : r.2.n = v.n ∧ r.2.dir = v.dir ∧ r.2.f = v.f

section

variable {S : Set Nat} {m₀ m : Mem} {V : Nat → NodeView} {ctx rest : List (Frame Entry)}
variable {c d : Bool} {x : Entry} {s o t : ColorTree Entry} {v : RemoveVars}

theorem join_ne_nil : join c x d s o ≠ .nil := by cases d <;> simp [join]

/-- The rotation at the node itself, when its other child is red. -/
private theorem push_turnNode (hs : Sim S m₀ m V) {oc : Bool} {ol or : ColorTree Entry}
    {ox : Entry} (hz : Zip S V ctx (join false x d s (.node oc ol ox or))) :
    (rotate m x.addr d).2 = ox.addr ∧
    ∃ V', Sim S m₀ (setLink (rotate m x.addr d).1 (top ctx) (topDir ctx).toNat ox.addr) V' ∧
      Zip S V' (⟨true, x, d, (node oc ol ox or).child d⟩ ::
        ⟨false, ox, d, (node oc ol ox or).child (!d)⟩ :: ctx) s := by
  rw [← join_not, node_eq_join oc d] at hz
  obtain ⟨htop, V', hs', hz', -⟩ := hs.rotate_hang hz
  rw [join_not] at hz'
  exact ⟨htop, V', hs', hz'.down.down⟩

/-- The colours after the rotations at the parent. -/
private theorem push_paint (hs : Sim S m₀ m V) {p y : Entry} {e : Bool} {a b : ColorTree Entry}
    (hz : Zip S V rest (join false y e (join true p (!e) a (join c x d s o)) b)) (hb : b ≠ .nil) :
    ∃ V', Sim S m₀ (paintBlack (paintBlack (paintRed (paintRed m x.addr) y.addr)
        (getLink (paintRed (paintRed m x.addr) y.addr) y.addr 0))
        (getLink (paintBlack (paintRed (paintRed m x.addr) y.addr)
          (getLink (paintRed (paintRed m x.addr) y.addr) y.addr 0)) y.addr 1)) V' ∧
      Zip S V' (⟨true, x, d, o⟩ :: ⟨false, p, e, a⟩ :: ⟨true, y, e, b.paint false⟩ :: rest) s := by
  rw [join_not] at hz
  have hz₁ := hz.down.down
  have hs₂ := (hs.paint_hand hz₁ join_ne_nil).1
  have hz₂ := (hz₁.paint_root join_ne_nil true).1.up.up
  rw [rootAddr_join] at hs₂ hz₂
  rw [paint_join] at hz₂
  -- the source paints link 0 and link 1; which of them is p depends on the direction
  obtain ⟨V', hs', hz'⟩ : ∃ V', Sim S m₀ (paintBlack (paintBlack
        (paintRed (paintRed m x.addr) y.addr)
        (getLink (paintRed (paintRed m x.addr) y.addr) y.addr 0))
        (getLink (paintBlack (paintRed (paintRed m x.addr) y.addr)
          (getLink (paintRed (paintRed m x.addr) y.addr) y.addr 0)) y.addr 1)) V' ∧
      Zip S V' rest (join true y e (join false p e (join true x d s o) a) (b.paint false)) := by
    cases e with
    | false =>
      obtain ⟨V', hs', hz', -⟩ := hs₂.flip_hand hz₂ join_ne_nil hb
      exact ⟨V', hs', by rw [paint_join] at hz'; exact hz'⟩
    | true =>
      obtain ⟨V', hs', hz', -⟩ := hs₂.flip_hand hz₂ hb join_ne_nil
      exact ⟨V', hs', by rw [paint_join] at hz'; exact hz'⟩
  exact ⟨V', hs', hz'.down.down.down⟩

/-- The colour flip with the sibling. -/
private theorem push_flip (hs : Sim S m₀ m V) {p : Frame Entry} {sc : Bool}
    {sl sr : ColorTree Entry} {sx : Entry} (hp : p.sib = .node sc sl sx sr)
    (hz : Zip S V (p :: rest) (join c x d s o)) :
    ∃ V', Sim S m₀ (paintRed (paintRed (paintBlack m p.x.addr) sx.addr) x.addr) V' ∧
      Zip S V' (⟨true, x, d, o⟩ :: ⟨false, p.x, p.dir, .node true sl sx sr⟩ :: rest) s := by
  have hz₀ := hz.up
  rw [hp] at hz₀
  have hs₁ := (hs.paint_hand hz₀ join_ne_nil).2
  have hz₁ := (hz₀.paint_root join_ne_nil false).1
  rw [paint_join, ← join_not false p.dir] at hz₁
  rw [rootAddr_join] at hs₁ hz₁
  have hs₂ := (hs₁.paint_hand hz₁.down (by simp)).1
  have hz₂ := (hz₁.down.paint_root (by simp) true).1.up
  simp only [join_not] at hz₂
  have hs₃ := (hs₂.paint_hand hz₂.down join_ne_nil).1
  have hz₃ := (hz₂.down.paint_root join_ne_nil true).1
  rw [paint_join] at hz₃
  rw [rootAddr_join] at hs₃ hz₃
  exact ⟨_, hs₃, hz₃.down⟩

/-- The rest of `removeRotate`, after its rotations have put `y` above `p`. -/
private theorem removeRotate_tail (hs : Sim S m₀ m V) {p y : Entry} {e : Bool}
    {a b : ColorTree Entry}
    (hz : Zip S V rest (join false y e (join true p (!e) a (join c x d s o)) b)) (hb : b ≠ .nil) :
    ∃ m' V',
      (let m := paintRed m x.addr
       let m := paintRed m (getLink m (top rest) (topDir rest).toNat)
       let m := paintBlack m (getLink m (getLink m (top rest) (topDir rest).toNat) 0)
       paintBlack m (getLink m (getLink m (top rest) (topDir rest).toNat) 1)) = m' ∧
      getLink m' (top rest) (topDir rest).toNat = y.addr ∧ Sim S m₀ m' V' ∧
      Zip S V' (⟨true, x, d, o⟩ :: ⟨false, p, e, a⟩ :: ⟨true, y, e, b.paint false⟩ :: rest) s := by
  obtain ⟨V', hs', hz'⟩ := push_paint hs hz hb
  have hy : y.addr ∈ S := by
    have h := hz.root_mem join_ne_nil
    rw [rootAddr_join] at h
    exact h.1
  have hx : x.addr ∈ S := by
    have h := hz.down
    rw [join_not] at h
    have h' := h.down.root_mem join_ne_nil
    rw [rootAddr_join] at h'
    exact h'.1
  have ht := hz.top_mem
  -- the links above the rotated nodes and the child painted in between
  have h₀ : getLink m (top rest) (topDir rest).toNat = y.addr := by
    rw [hs.getLink_kid ht, hz.path.hole_eq, rootAddr_join]
  have hs₁ := hs.paintRed_sim hx
  have h₁ := ((hs.getLink_paint hx ht (topDir rest)).1).trans h₀
  have hs₂ := hs₁.paintRed_sim hy
  have h₂ := ((hs₁.getLink_paint hy ht (topDir rest)).1).trans h₁
  have hk : getLink (paintRed (paintRed m x.addr) y.addr) y.addr 0 ∈ S := by
    have h := hs₂.getLink_kid hy false
    rw [Bool.toNat_false] at h
    rw [h, setRed_kid, setRed_kid]
    have hm := models_join.mp hz.tree
    cases e with
    | false =>
      rw [hm.2.1, rootAddr_join]
      have h' := hz.down.root_mem join_ne_nil
      rw [rootAddr_join] at h'
      exact h'.1
    | true =>
      rw [← Bool.not_true, hm.2.2.1]
      rw [← join_not] at hz
      exact (hz.down.root_mem hb).1
  have h₃ := ((hs₂.getLink_paint hk ht (topDir rest)).2).trans h₂
  refine ⟨_, V', ?_, ?_, hs', hz'⟩
  · dsimp only
    rw [h₁, h₂, h₃]
  · rw [hs'.getLink_kid ht, hz'.up.up.up.path.hole_eq, rootAddr_join]

/-- The rotations at the parent, when the sibling has a red child. -/
private theorem removeRotate_spec (hs : Sim S m₀ m V) {p : Frame Entry} {sc : Bool}
    {sl sr : ColorTree Entry} {sx : Entry} (hp : p.sib = .node sc sl sx sr)
    (hz : Zip S V (p :: rest) (join false x d s o)) (hsb : s.isRed = false)
    (hob : o.isRed = false) (hred : (!sl.isRed && !sr.isRed) = false)
    (hvn : v.n = x.addr) (hvp : v.p = p.x.addr) (hvg : v.g = top rest) :
    Pushed S m₀ v (p :: rest) false x d s o (removeRotate m v sx.addr p.dir) := by
  have hup := hz.up
  have hpS : p.x.addr ∈ S := hz.top_mem
  have hp0 : p.x.addr ≠ 0 := by have := hs.space.pos _ hpS; omega
  have hpmem : p.x.addr ∈ treeNodes (join p.red p.x p.dir (join false x d s o) p.sib) :=
    mem_treeNodes_join.mpr (Or.inl p.x.addr_mem_nodes)
  -- the side of `p` below `g`
  have hdir2 : (getLink m v.g 1 == v.p) = topDir rest := by
    have h1 := hs.getLink_kid hup.top_mem true
    rw [Bool.toNat_true] at h1
    have hpath := hup.path
    rw [rootAddr_join] at hpath
    rw [hvg, hvp, h1]
    exact hpath.dir_eq hp0 (hup.not_mem_ctx hpmem)
  rw [hp, ← join_not p.red p.dir, node_eq_join sc p.dir] at hup
  have hsib := hup.down
  have hfar : isRed m (getLink m sx.addr p.dir.toNat) =
      ((node sc sl sx sr).child p.dir).isRed := hs.isRed_child hsib
  have hnear : isRed m (getLink m sx.addr (!p.dir).toNat) =
      ((node sc sl sx sr).child (!p.dir)).isRed := by
    rw [← join_not sc p.dir] at hsib
    exact hs.isRed_child hsib
  have hkid : getLink m p.x.addr (!p.dir).toNat = sx.addr := by
    rw [hs.getLink_kid hpS, (models_join.mp hup.tree).2.1, rootAddr_join]
  -- after the rotations only the colours are left
  have hdone : ∀ {m₂ V₂ y a b}, Sim S m₀ m₂ V₂ →
      Zip S V₂ rest (join false y p.dir (join true p.x (!p.dir) a (join false x d s o)) b) →
      b ≠ .nil → pushDown (p :: rest) false x d s o = ⟨true, x, d, o⟩ :: ⟨false, p.x, p.dir, a⟩ ::
        ⟨true, y, p.dir, b.paint false⟩ :: rest →
      (∀ {m'}, (let m := paintRed m₂ x.addr
          let m := paintRed m (getLink m (top rest) (topDir rest).toNat)
          let m := paintBlack m (getLink m (getLink m (top rest) (topDir rest).toNat) 0)
          paintBlack m (getLink m (getLink m (top rest) (topDir rest).toNat) 1)) = m' →
        removeRotate m v sx.addr p.dir = (m', if v.f = v.p then
          { v with fp := getLink m' (top rest) (topDir rest).toNat } else v)) →
      Pushed S m₀ v (p :: rest) false x d s o (removeRotate m v sx.addr p.dir) := by
    intro m₂ V₂ y a b hs₂ hz₂ hb hpush heq
    obtain ⟨m', V', hm', hlink, hs', hz'⟩ := removeRotate_tail hs₂ hz₂ hb
    rw [heq hm', hlink]
    refine ⟨⟨V', hs', by rw [hpush]; exact hz'⟩, ⟨true, o, _, hpush, ?_, ?_⟩, ?_⟩
    · dsimp only
      split <;> exact hvp
    · refine .turnParent p.x y p.dir (spine rest) rfl rfl ?_
      rw [← hvp]
      split <;> rfl
    · dsimp only
      split <;> exact ⟨rfl, rfl, rfl⟩
  by_cases hn : ((node sc sl sx sr).child (!p.dir)).isRed = true
  · -- single rotation
    obtain ⟨htop, V₂, hs₂, hz₂, -⟩ := hs.rotate_hang hup
    refine hdone hs₂ hz₂ ?_ ?_ ?_
    · intro h0
      rw [h0] at hn
      exact absurd hn (by simp)
    · simp only [pushDown, hsb, hob, Bool.or_self, Bool.false_eq_true, if_false, hp, hred, if_pos hn]
    · intro m' hm'
      simp only [removeRotate, hdir2, hnear, hn, if_true]
      rw [hvp, hvg, hvn, htop, hm']
  · -- double rotation
    rw [Bool.not_eq_true] at hn
    have hf : ((node sc sl sx sr).child p.dir).isRed = true := by
      cases hd : p.dir <;> simp_all
    cases hc : (node sc sl sx sr).child p.dir with
    | nil => rw [hc] at hf; exact absurd hf (by simp)
    | node rc rl rx rr =>
      have hsib' : Zip S V (⟨p.red, p.x, !p.dir, join false x d s o⟩ :: rest)
          (join sc sx (! !p.dir) (join rc rx (!p.dir) ((node rc rl rx rr).child (!p.dir))
            ((node rc rl rx rr).child p.dir)) ((node sc sl sx sr).child (!p.dir))) := by
        rw [Bool.not_not, join_not, ← node_eq_join, ← hc]
        exact hsib
      obtain ⟨htop₁, V₁, hs₁, hz₁, -⟩ := hs.rotate_hang hsib'
      have hz₁' := hz₁.up
      dsimp only at hz₁'
      rw [join_not false p.dir, Bool.not_not] at hz₁'
      obtain ⟨htop₂, V₂, hs₂, hz₂, -⟩ := hs₁.rotate_hang hz₁'
      refine hdone hs₂ hz₂ join_ne_nil ?_ ?_
      · rw [paint_join]
        simp only [pushDown, hsb, hob, Bool.or_self, Bool.false_eq_true, if_false, hp, hred, hn, hc]
      · intro m' hm'
        simp only [removeRotate, hdir2, hnear, hn, hfar, hf, Bool.false_eq_true, if_true, if_false]
        rw [hvp, hvg, hvn, hkid, htop₁]
        simp only [top, topDir] at htop₂
        rw [htop₂]
        rw [← hm']
        rfl

/-- **One push.** The second half of an iteration is `pushDown` in memory. -/
theorem removePush_spec (hs : Sim S m₀ m V) (hz : Zip S V ctx (join c x d s o))
    (hvn : v.n = x.addr) (hvd : v.dir = d) (hvp : v.p = top ctx)
    (hvg : ∀ p rest, ctx = p :: rest → v.g = top rest) :
    Pushed S m₀ v ctx c x d s o (removePush m v (topDir ctx)) := by
  have hxS : x.addr ∈ S := by
    have h := hz.root_mem join_ne_nil
    rw [rootAddr_join] at h
    exact h.1
  have hcn : isRed m v.n = c := by
    rw [hvn, hs.isRed_eq hxS, (models_join.mp hz.tree).1.2.1]
  have hcs : isRed m (getLink m v.n v.dir.toNat) = s.isRed := by
    rw [hvn, hvd]; exact hs.isRed_child hz
  have hco : isRed m (getLink m v.n (!v.dir).toNat) = o.isRed := by
    rw [hvn, hvd]
    rw [← join_not] at hz
    exact hs.isRed_child hz
  -- whatever the reason, a push that does nothing
  have hidle : pushDown ctx c x d s o = ⟨c, x, d, o⟩ :: ctx →
      Pushed S m₀ v ctx c x d s o (m, v) := by
    intro hpush
    exact ⟨⟨V, hs, by rw [hpush]; exact hz.down⟩, ⟨c, o, ctx, hpush, hvp, .same rfl rfl⟩,
      rfl, rfl, rfl⟩
  simp only [removePush, hcn, hcs, hco]
  by_cases hquiet : (c || s.isRed) = true
  · have hq : ¬ ((!c && !s.isRed) = true) := by
      rw [← Bool.not_or, hquiet]; simp
    rw [if_neg hq]
    exact hidle (by simp only [pushDown, hquiet, if_true])
  · rw [Bool.not_eq_true] at hquiet
    obtain ⟨rfl, hsb⟩ := Bool.or_eq_false_iff.mp hquiet
    rw [if_pos (by rw [hsb]; rfl)]
    by_cases hob : o.isRed = true
    · -- the other child is red
      cases o with
      | nil => exact absurd hob (by simp)
      | node oc ol ox or =>
        obtain ⟨htop, V', hs', hz'⟩ := push_turnNode hs hz
        have hpush : pushDown ctx false x d s (.node oc ol ox or) =
            ⟨true, x, d, (node oc ol ox or).child d⟩ ::
              ⟨false, ox, d, (node oc ol ox or).child (!d)⟩ :: ctx := by
          simp only [pushDown, hquiet, hob, Bool.false_eq_true, if_false, if_true]
        have hlink : getLink (setLink (rotate m x.addr d).1 (top ctx) (topDir ctx).toNat ox.addr)
            (top ctx) (topDir ctx).toNat = ox.addr := by
          rw [hs'.getLink_kid hz.top_mem, hz'.up.up.path.hole_eq, rootAddr_join]
        rw [if_pos hob, hvn, hvd, hvp, htop, hlink]
        refine ⟨⟨V', hs', by rw [hpush]; exact hz'⟩, ⟨true, _, _, hpush, ?_, ?_⟩, ?_⟩
        · dsimp only
          split <;> rfl
        · refine .turnNode ox rfl ?_
          dsimp only
          split <;> rfl
        · dsimp only
          split <;> exact ⟨hvn.symm, hvd.symm, rfl⟩
    · rw [Bool.not_eq_true] at hob
      rw [if_neg (by rw [hob]; simp)]
      cases ctx with
      | nil =>
        -- the root has no sibling
        have h0 : getLink m v.p (!topDir []).toNat = 0 := by
          rw [hvp, hs.getLink_kid hz.top_mem]
          exact hz.path.2
        rw [if_neg (by rw [h0]; simp)]
        exact hidle (by simp only [pushDown, hquiet, hob, Bool.false_eq_true, if_false])
      | cons p rest =>
        have hsib : getLink m v.p (!topDir (p :: rest)).toNat = rootAddr p.sib := by
          rw [hvp, hs.getLink_kid hz.top_mem]
          exact hz.path.2.2.1
        rw [hsib]
        cases hp : p.sib with
        | nil =>
          rw [if_neg (by simp [rootAddr])]
          exact hidle (by simp only [pushDown, hquiet, hob, hp, Bool.false_eq_true, if_false])
        | node sc sl sx sr =>
          have hup := hz.up
          rw [hp, ← join_not] at hup
          have hsx : sx.addr ∈ S := (hup.down.root_mem (by simp)).1
          have hne : rootAddr (.node sc sl sx sr) ≠ 0 := by
            have := hs.space.pos _ hsx
            simp only [rootAddr]
            omega
          have hl : isRed m (getLink m (rootAddr (.node sc sl sx sr)) 0) = sl.isRed :=
            hs.isRed_child (d := false) (s := sl) (o := sr) hup.down
          have hr : isRed m (getLink m (rootAddr (.node sc sl sx sr)) 1) = sr.isRed :=
            hs.isRed_child (d := true) (s := sr) (o := sl) hup.down
          rw [if_pos hne, hl, hr]
          by_cases hbb : (!sl.isRed && !sr.isRed) = true
          · -- both children of the sibling are black
            obtain ⟨V', hs', hz'⟩ := push_flip hs hp hz
            have hpush : pushDown (p :: rest) false x d s o =
                ⟨true, x, d, o⟩ :: ⟨false, p.x, p.dir, .node true sl sx sr⟩ :: rest := by
              simp only [pushDown, hquiet, hob, hp, hbb, Bool.false_eq_true, if_false, if_true]
            rw [if_pos hbb, hvp, hvn]
            exact ⟨⟨V', hs', by rw [hpush]; exact hz'⟩,
              ⟨true, o, _, hpush, hvp, .same rfl rfl⟩, rfl, rfl, rfl⟩
          · rw [if_neg hbb]
            rw [Bool.not_eq_true] at hbb
            exact removeRotate_spec hs hp hz hsb hob hbb hvn hvp (hvg p rest rfl)

end

/-! ## The descent -/

/-- The last node on the search path that the comparison accepts. -/
def lastMatch (cmp : Entry → Int) : (found : Option Entry) → ColorTree Entry → Option Entry
  | found, .nil => found
  | found, .node _ l x r =>
    if cmp x < 0 then lastMatch cmp found r
    else lastMatch cmp (if cmp x = 0 then some x else found) l

/-- What stands before a match is a match or too small. -/
def MatchesDown (cmp : Entry → Int) (L : List Entry) : Prop :=
  L.Pairwise fun a b => cmp b = 0 → cmp a ≤ 0

/-- `f` is the found node, `fp` its parent; from `f` the search turned left, and
    only right after that. -/
def FoundAt (v : RemoveVars) (sp : List (Entry × Bool)) : Option Entry → Prop
  | none => v.f = 0
  | some e => v.f = e.addr ∧ ∃ below above, sp = below ++ (e, false) :: above ∧
      (∀ b ∈ below, b.2 = true) ∧ v.fp = spineTop above

/-- What holds at the head of the loop. -/
structure RemoveInv (S : Set Nat) (m₀ m : Mem) (V : Nat → NodeView) (ctx : List (Frame Entry))
    (t : ColorTree Entry) (cmp : Entry → Int) (v : RemoveVars) (found : Option Entry) : Prop where
  sim : Sim S m₀ m V
  zip : Zip S V ctx t
  balanced : ∃ k, Balanced t t.isRed k ∧ CtxBalanced ctx t.isRed k
  ready : Ready ctx t
  hand : v.n = top ctx ∧ v.dir = topDir ctx
  parent : ∀ p rest, ctx = p :: rest → v.p = top rest
  foundAt : FoundAt v (spine ctx) found
  match_zero : ∀ e, found = some e → cmp e = 0
  matches_down : MatchesDown cmp (plug ctx t).toList

theorem spine_sublist (ctx : List (Frame Entry)) :
    ((spine ctx).map fun e => e.1.addr).Sublist (ctxNodes ctx) := by
  induction ctx with
  | nil => exact List.Sublist.slnil
  | cons f ctx ih =>
    simp only [spine, List.map_cons, ctxNodes, Entry.nodes, List.cons_append] at ih ⊢
    refine List.Sublist.cons_cons _ (ih.trans ?_)
    rw [← List.append_assoc]
    exact List.sublist_append_right _ _

theorem mem_after_of_spine {ctx : List (Frame Entry)} {e : Entry} (h : (e, false) ∈ spine ctx) :
    e ∈ after ctx := by
  induction ctx with
  | nil => simp [spine] at h
  | cons f ctx ih =>
    simp only [spine, List.map_cons, List.mem_cons, Prod.mk.injEq] at h
    simp only [after, List.mem_append]
    rcases h with ⟨rfl, hd⟩ | h
    · left
      rw [← hd]
      simp
    · exact Or.inr (ih h)

/-- A push keeps the parent of a node that has just been found. -/
private theorem foundAt_new {v v' : RemoveVars} {x : Entry} {sp sp' : List (Entry × Bool)}
    (hf : v.f = x.addr) (hfp : v.fp = spineTop sp) (hv : v'.f = v.f)
    (hne : ∀ e ∈ sp, e.1.addr ≠ x.addr) (h : PushShape v v' x false sp sp') :
    FoundAt v' ((x, false) :: sp') (some x) := by
  refine ⟨hv.trans hf, [], sp', rfl, by simp, ?_⟩
  cases h with
  | same h1 h2 => rw [h2, hfp, h1]
  | turnNode y h1 h2 => rw [h2, if_pos hf, h1]; rfl
  | turnParent p y e rest h1 h2 h3 =>
    have hp : v.f ≠ p.addr := by
      rw [hf]
      exact (hne (p, e) (by simp [h1])).symm
    rw [h3, if_neg hp, hfp, h1, h2]
    rfl

/-- A push keeps the parent of a node that has been found above. -/
private theorem foundAt_old {v v' : RemoveVars} {x e : Entry} {sp sp' : List (Entry × Bool)}
    (hf : FoundAt v sp (some e)) (hv : v'.f = v.f) (hne : ∀ e ∈ sp, e.1.addr ≠ x.addr)
    (hnd : (sp.map fun e => e.1.addr).Nodup) (h : PushShape v v' x true sp sp') :
    FoundAt v' ((x, true) :: sp') (some e) := by
  obtain ⟨hfe, below, above, hsp, hbelow, hfp⟩ := hf
  have hex : v.f ≠ x.addr := by
    rw [hfe]
    exact hne (e, false) (by simp [hsp])
  refine ⟨hv.trans hfe, ?_⟩
  cases h with
  | same h1 h2 =>
    refine ⟨(x, true) :: below, above, by rw [h1, hsp]; rfl, ?_, by rw [h2, hfp]⟩
    simpa using hbelow
  | turnNode y h1 h2 =>
    refine ⟨(x, true) :: (y, true) :: below, above, by rw [h1, hsp]; rfl, ?_, ?_⟩
    · simpa using hbelow
    · rw [h2, if_neg hex, hfp]
  | turnParent p y s rest h1 h2 h3 =>
    cases below with
    | nil =>
      -- the found node is the parent that was turned
      rw [h1] at hsp
      simp only [List.nil_append, List.cons.injEq, Prod.mk.injEq] at hsp
      obtain ⟨⟨rfl, rfl⟩, rfl⟩ := hsp
      refine ⟨[(x, true)], (y, false) :: rest, by rw [h2]; rfl, by simp, ?_⟩
      rw [h3, if_pos hfe]
      rfl
    | cons b below =>
      rw [h1] at hsp
      simp only [List.cons_append, List.cons.injEq] at hsp
      obtain ⟨rfl, rfl⟩ := hsp
      have hs : s = true := hbelow (p, s) (by simp)
      subst hs
      have hpe : v.f ≠ p.addr := by
        rw [h1] at hnd
        simp only [List.map_cons, List.map_append, List.nodup_cons, List.mem_append,
          List.mem_cons, not_or] at hnd
        rw [hfe]
        exact Ne.symm hnd.1.2.1
      refine ⟨(x, true) :: (p, true) :: (y, true) :: below, above, by rw [h2]; rfl, ?_, ?_⟩
      · simpa using hbelow
      · rw [h3, if_neg hpe, hfp]

section Descent

variable {A : Type} {S : Set Nat} {m₀ m : Mem} {V : Nat → NodeView} {ctx : List (Frame Entry)}
variable {t : ColorTree Entry} {cmp : Entry → Int} {v : RemoveVars} {found : Option Entry}
variable {tree : RbTree A} {data : Nat} {args : Option A}

/-- One iteration at a node: the comparison, then the push. -/
private theorem removeLoop_succ (fuel : Nat) {c : Bool} {l r : ColorTree Entry} {x : Entry}
    (hcmp : ∀ m (e : Entry), nodeData m e.addr = e.key → tree.compare m e.addr data args = cmp e)
    (h : RemoveInv S m₀ m V ctx (.node c l x r) cmp v found) :
    ∃ v₁, removeLoop (fuel + 1) m tree data args v =
        removeLoop fuel (removePush m v₁ (topDir ctx)).1 tree data args
          (removePush m v₁ (topDir ctx)).2 ∧
      v₁.n = x.addr ∧ v₁.p = top ctx ∧ v₁.g = v.p ∧ v₁.dir = decide (cmp x < 0) ∧
      (if cmp x = 0 then v₁.f = x.addr ∧ v₁.fp = top ctx else v₁.f = v.f ∧ v₁.fp = v.fp) := by
  have hxS := h.zip.root_mem (by simp)
  have hlink : getLink m v.n v.dir.toNat = x.addr := by
    rw [h.hand.1, h.hand.2, h.sim.getLink_kid h.zip.top_mem, h.zip.path.hole_eq]
    rfl
  have hx0 : x.addr ≠ 0 := by
    have := h.sim.space.pos _ hxS.1
    simp only [rootAddr] at this
    omega
  have hkey : nodeData m x.addr = x.key := by
    rw [h.sim.nodeData_eq (a := x.addr) hxS.1]
    exact h.zip.tree.1.1
  -- the found node is noted on a match; the search goes on to the bottom all the same
  refine ⟨if cmp x = 0 then
      { v with g := v.p, p := top ctx, n := x.addr, dir := decide (cmp x < 0), f := x.addr,
               fp := top ctx }
    else { v with g := v.p, p := top ctx, n := x.addr, dir := decide (cmp x < 0) }, ?_, ?_⟩
  · rw [removeLoop, hlink, if_pos hx0]
    simp only [hcmp m x hkey, h.hand.1, h.hand.2]
  · by_cases h0 : cmp x = 0
    · simp only [if_pos h0, and_self]
    · simp only [if_neg h0, and_self]

/-- A node before a match is a match or too small. -/
private theorem RemoveInv.cmp_le {c : Bool} {l r : ColorTree Entry} {x e : Entry}
    (h : RemoveInv S m₀ m V ctx (.node c l x r) cmp v (some e)) : cmp x ≤ 0 := by
  have hpw := h.matches_down
  rw [toList_plug] at hpw
  have he : e ∈ after ctx := by
    obtain ⟨-, below, above, hsp, -⟩ := h.foundAt
    exact mem_after_of_spine (by simp [hsp])
  obtain ⟨-, hpw, -⟩ := List.pairwise_append.mp hpw
  exact (List.pairwise_append.mp hpw).2.2 x (by simp) e he (h.match_zero e rfl)

/-- One iteration keeps the invariant, one level further down. -/
private theorem removeLoop_step (fuel : Nat) {c : Bool} {l r : ColorTree Entry} {x : Entry}
    (hcmp : ∀ m (e : Entry), nodeData m e.addr = e.key → tree.compare m e.addr data args = cmp e)
    (h : RemoveInv S m₀ m V ctx (.node c l x r) cmp v found) {d : Bool}
    (hdx : d = decide (cmp x < 0)) :
    ∃ m' V' ctx' v', removeLoop (fuel + 1) m tree data args v =
        removeLoop fuel m' tree data args v' ∧
      (plug ctx' ((ColorTree.node c l x r).child d)).toList =
        (plug ctx (.node c l x r)).toList ∧
      RemoveInv S m₀ m' V' ctx' ((ColorTree.node c l x r).child d) cmp v'
        (if cmp x = 0 then some x else found) := by
  obtain ⟨v₁, heq, hn, hp, hg, hd, hf⟩ := removeLoop_succ fuel hcmp h
  rw [← hdx] at hd
  obtain ⟨k, hbt, hbc⟩ := h.balanced
  have hle : ∀ e, found = some e → cmp x ≤ 0 := by
    rintro e rfl
    exact h.cmp_le
  -- the nodes of the spine are other nodes
  have hne : ∀ e ∈ spine ctx, e.1.addr ≠ x.addr := by
    intro e he hex
    refine h.zip.not_mem_ctx (a := x.addr) (by simp [treeNodes, Entry.nodes]) ?_
    rw [← hex]
    exact (spine_sublist ctx).subset (List.mem_map.mpr ⟨e, he, rfl⟩)
  have hnd : ((spine ctx).map fun e => e.1.addr).Nodup :=
    h.zip.ctx_nodup.1.sublist (spine_sublist ctx)
  have hz := h.zip
  have hready := h.ready
  have hmatch := h.matches_down
  rw [node_eq_join c d] at hz hready hbt hmatch ⊢
  generalize (ColorTree.node c l x r).child d = s at *
  generalize (ColorTree.node c l x r).child (!d) = o at *
  rw [isRed_join] at hbt
  rw [isRed_node] at hbc
  obtain ⟨⟨V', hs', hz'⟩, ⟨c', o', ctx', hpush, hvp, hshape⟩, hvn, hvd, hvf⟩ :=
    removePush_spec h.sim hz hn hd hp (fun p rest hc => hg.trans (h.parent p rest hc))
  have hbal := pushDown_balanced hbc hbt hready
  have hlist := toList_pushDown ctx c x d s o
  rw [hpush] at hz' hbal hlist
  rw [child_join_same]
  refine ⟨_, V', ⟨c', x, d, o'⟩ :: ctx', _, heq, hlist, hs', hz', hbal.1, hbal.2, ⟨hvn.trans hn,
    hvd.trans hd⟩, ?_, ?_, ?_, by rw [hlist]; exact hmatch⟩
  · rintro p rest hc
    cases hc
    exact hvp
  · show FoundAt _ ((x, d) :: spine ctx') _
    by_cases h0 : cmp x = 0
    · rw [if_pos h0] at hf ⊢
      have hd0 : d = false := by rw [hdx]; simp [h0]
      subst hd0
      exact foundAt_new hf.1 (by rw [spineTop_spine]; exact hf.2) hvf hne hshape
    · rw [if_neg h0] at hf ⊢
      have hfound := h.foundAt
      cases found with
      | none => exact hvf.trans (hf.1.trans hfound)
      | some e =>
        have hd1 : d = true := by
          have := hle e rfl
          rw [hdx, decide_eq_true_iff]
          omega
        subst hd1
        refine foundAt_old ?_ hvf hne hnd hshape
        obtain ⟨h1, below, above, h2, h3, h4⟩ := hfound
        exact ⟨hf.1.trans h1, below, above, h2, h3, hf.2.trans h4⟩
  · intro e he
    by_cases h0 : cmp x = 0
    · rw [if_pos h0, Option.some.injEq] at he
      rw [← he]; exact h0
    · rw [if_neg h0] at he
      exact h.match_zero e he

theorem lastMatch_node (cmp : Entry → Int) (found : Option Entry) (c : Bool)
    (l r : ColorTree Entry) (x : Entry) :
    lastMatch cmp found (.node c l x r) = lastMatch cmp (if cmp x = 0 then some x else found)
      ((ColorTree.node c l x r).child (decide (cmp x < 0))) := by
  rw [lastMatch]
  by_cases h : cmp x < 0
  · have h0 : cmp x ≠ 0 := by omega
    simp [h, h0]
  · simp [h]

/-- What a search returns is a node of the tree that the comparison accepts. -/
theorem lastMatch_mem {e : Entry} (h : lastMatch cmp none t = some e) :
    e ∈ t.toList ∧ cmp e = 0 := by
  -- for any match so far, since the search hands one on
  have key : ∀ found, lastMatch cmp found t = some e →
      found = some e ∨ (e ∈ t.toList ∧ cmp e = 0) := by
    clear h
    induction t with
    | nil => exact fun found h => Or.inl h
    | node c l x r ihl ihr =>
      intro found h
      rw [lastMatch] at h
      by_cases hneg : cmp x < 0
      · rw [if_pos hneg] at h
        rcases ihr found h with h | ⟨h1, h2⟩
        · exact Or.inl h
        · exact Or.inr ⟨by simp [h1], h2⟩
      · rw [if_neg hneg] at h
        rcases ihl _ h with h | ⟨h1, h2⟩
        · by_cases h0 : cmp x = 0
          · rw [if_pos h0, Option.some.injEq] at h
            subst h
            exact Or.inr ⟨by simp, h0⟩
          · rw [if_neg h0] at h
            exact Or.inl h
        · exact Or.inr ⟨by simp [h1], h2⟩
  rcases key none h with h | h
  · exact absurd h (by simp)
  · exact h

/-- **The descent of `remove_rbnode`.** From any state of the loop it ends at the
    bottom of the tree, with the last match of the search path as `f`. -/
theorem removeLoop_spec
    (hcmp : ∀ m (e : Entry), nodeData m e.addr = e.key → tree.compare m e.addr data args = cmp e)
    {fuel : Nat} (hfuel : t.toList.length + 1 ≤ fuel)
    (h : RemoveInv S m₀ m V ctx t cmp v found) :
    ∃ m' V' ctx' v', removeLoop fuel m tree data args v = some (m', v') ∧
      (plug ctx' .nil).toList = (plug ctx t).toList ∧
      RemoveInv S m₀ m' V' ctx' .nil cmp v' (lastMatch cmp found t) := by
  -- on the size of the subtree below the cursor
  induction hlen : t.toList.length using Nat.strong_induction_on
    generalizing fuel m V ctx v found t with
  | _ len ih =>
    obtain ⟨fuel, rfl⟩ : ∃ f, fuel = f + 1 := ⟨fuel - 1, by omega⟩
    cases t with
    | nil =>
      have hlink : getLink m v.n v.dir.toNat = 0 := by
        rw [h.hand.1, h.hand.2, h.sim.getLink_kid h.zip.top_mem, h.zip.path.hole_eq]
        rfl
      refine ⟨m, V, ctx, v, ?_, rfl, h⟩
      rw [removeLoop, hlink, if_neg (by simp)]
    | node c l x r =>
      obtain ⟨m₁, V₁, ctx₁, v₁, heq, hlist, hinv⟩ := removeLoop_step fuel hcmp h rfl
      have hsmall := length_child_lt c (decide (cmp x < 0)) l r x
      rw [hlen] at hsmall
      have hfuel' : ((ColorTree.node c l x r).child (decide (cmp x < 0))).toList.length + 1 ≤
          fuel := by omega
      obtain ⟨m', V', ctx', v', hr, hlist', hinv'⟩ := ih _ hsmall hfuel' hinv rfl
      refine ⟨m', V', ctx', v', heq.trans hr, hlist'.trans hlist, ?_⟩
      rw [lastMatch_node]
      exact hinv'

end Descent

/-! ## Duplicates -/

section Duplicates

variable {A : Type} {S : Set Nat} {m₀ m : Mem} {V : Nat → NodeView} {ctx : List (Frame Entry)}
variable {tree : RbTree A} {args : Option A} {sel : Nat → Bool}

theorem chain_append {key : Nat} {C D : List Nat} (h : Chain V key (C ++ D)) : Chain V key D := by
  induction C with
  | nil => exact h
  | cons a C ih => exact ih h.2

/-- The walk along a chain stops at the first node that is selected. -/
private theorem dupLoop_spec (hs : Sim S m₀ m V) (hsel : ∀ m a, tree.selectDup m a args = sel a)
    {key : Nat} {D : List Nat} (hch : Chain V key D) (hD : ∀ a ∈ D, a ∈ S) {fuel : Nat}
    (hfuel : D.length + 1 ≤ fuel) (prev : Nat) :
    (∀ a ∈ D, sel a = false) ∧ (∃ q, dupLoop fuel m tree args (D.headD 0) prev = some (0, q)) ∨
    ∃ C a D', D = C ++ a :: D' ∧ (∀ b ∈ C, sel b = false) ∧ sel a = true ∧
      dupLoop fuel m tree args (D.headD 0) prev = some (a, (prev :: C).getLast (by simp)) := by
  induction D generalizing fuel prev with
  | nil =>
    obtain ⟨fuel, rfl⟩ : ∃ f, fuel = f + 1 := ⟨fuel - 1, by omega⟩
    exact Or.inl ⟨by simp, prev, by rw [dupLoop, if_neg (by simp)]; rfl⟩
  | cons a D ih =>
    rw [List.length_cons] at hfuel
    obtain ⟨fuel, rfl⟩ : ∃ f, fuel = f + 1 := ⟨fuel - 1, by omega⟩
    have haS := hD a List.mem_cons_self
    have ha0 : a ≠ 0 := by have := hs.space.pos a haS; omega
    rw [List.headD_cons]
    by_cases hsa : sel a = true
    · right
      refine ⟨[], a, D, rfl, by simp, hsa, ?_⟩
      rw [dupLoop, if_neg (by rw [hsel, hsa]; simp)]
      rfl
    -- a node that is not selected is passed, and becomes the one in front
    · rw [Bool.not_eq_true] at hsa
      have hnext : getLink m a 2 = D.headD 0 := by rw [hs.getLink_dup haS]; exact hch.1.2.2
      have heq : dupLoop (fuel + 1) m tree args a prev = dupLoop fuel m tree args (D.headD 0) a := by
        rw [dupLoop, if_pos ⟨ha0, by rw [hsel, hsa]⟩, hnext]
      rw [heq]
      have hfuel' : D.length + 1 ≤ fuel := by omega
      rcases ih hch.2 (fun b hb => hD b (List.mem_cons_of_mem _ hb)) hfuel' a with
        ⟨hno, q, hq⟩ | ⟨C, b, D', hD', hno, hb, hq⟩
      · exact Or.inl ⟨by simpa using ⟨hsa, hno⟩, q, hq⟩
      · right
        refine ⟨a :: C, b, D', by rw [hD']; rfl, by simpa using ⟨hsa, hno⟩, hb, ?_⟩
        rw [hq, List.getLast_cons (a := prev) (by simp)]

/-- Cutting a node out of a chain. -/
private theorem chain_cut {key : Nat} {p a : Nat} {C D : List Nat}
    (hnd : (p :: C ++ a :: D).Nodup) (h : Chain V key (C ++ a :: D)) :
    Chain (setDup V ((p :: C).getLast (by simp)) (D.headD 0)) key (C ++ D) ∧
      ((p :: C) ≠ [p] → (C ++ D).headD 0 = (C ++ a :: D).headD 0) := by
  refine ⟨?_, ?_⟩
  -- the induction moves the node in front of the cut along the chain
  · induction C generalizing p with
    | nil =>
      simp only [List.nil_append, List.getLast_singleton]
      simp only [List.cons_append, List.nil_append, List.nodup_cons, List.mem_cons,
        not_or] at hnd
      refine h.2.congr fun b hb => setDup_of_ne _ _ ?_
      rintro rfl
      exact hnd.1.2 hb
    | cons c C ih =>
      rw [List.getLast_cons (by simp)]
      have hnd' : (c :: C ++ a :: D).Nodup := (List.nodup_cons.mp hnd).2
      refine ⟨?_, ih hnd' h.2⟩
      obtain ⟨⟨h1, h2, h3⟩, -⟩ := h
      refine ⟨by simpa using h1, by simpa using h2, ?_⟩
      cases C with
      | nil => simp
      | cons c' C =>
        rw [setDup_of_ne]
        · simpa using h3
        · rw [List.getLast_cons (by simp)]
          intro hc
          have := (List.nodup_cons.mp hnd').1
          apply this
          rw [hc]
          exact List.mem_append_left _ (List.getLast_mem _)
  · intro hne
    cases C with
    | nil => exact absurd rfl hne
    | cons c C => rfl

/-- Cut a duplicate out of the chain of the node in hand. -/
private theorem dup_cut (hs : Sim S m₀ m V) {c : Bool} {l r : ColorTree Entry} {x : Entry}
    (hz : Zip S V ctx (.node c l x r)) {C D : List Nat} {a : Nat} (hx : x.dups = C ++ a :: D) :
    ∃ V', Sim S m₀ (setLink m ((x.addr :: C).getLast (by simp)) 2 (getLink m a 2)) V' ∧
      Zip S V' ctx (.node c l { x with dups := C ++ D } r) := by
  obtain ⟨⟨hdata, hred, hdup, hchain⟩, hkl, hkr, hml, hmr⟩ := hz.tree
  rw [hx] at hchain hdup
  have hnodes : ∀ b ∈ x.addr :: (C ++ a :: D), b ∈ treeNodes (.node c l x r) := by
    intro b hb
    rw [← hx] at hb
    exact List.mem_append_left _ hb
  -- the link that is written is the one in front of `a`, of the match or of a duplicate
  have hlast : (x.addr :: C).getLast (by simp) ∈ x.addr :: (C ++ a :: D) := by
    have h := List.getLast_mem (l := x.addr :: C) (by simp)
    rw [← List.cons_append]
    exact List.mem_append_left _ h
  generalize hprev : (x.addr :: C).getLast (by simp) = prev at *
  have hnd := hz.nodup
  simp only [zipNodes, treeNodes, Entry.nodes, List.nodup_append, hx] at hnd
  obtain ⟨hctx, ⟨hxn, hlr, hxlr⟩, hcx⟩ := hnd
  have haS := (hz.mem_tree (hnodes a (by simp))).1
  have hpS := (hz.mem_tree (hnodes prev hlast)).1
  have hga : getLink m a 2 = D.headD 0 := by
    rw [hs.getLink_dup haS]
    exact (chain_append hchain).1.2.2
  have hlink : IsLink S (D.headD 0) := by
    cases D with
    | nil => exact Or.inl rfl
    | cons b D => exact Or.inr (hz.mem_tree (hnodes b (by simp)))
  obtain ⟨hch', hhead⟩ := chain_cut (p := x.addr) (by simpa using hxn) hchain
  rw [hprev] at hch'
  rw [hga]
  refine ⟨_, hs.setLink_dup hpS hlink, ?_, ⟨⟨by simpa using hdata, by simpa using hred, ?_, hch'⟩,
    by simpa using hkl, by simpa using hkr, ?_, ?_⟩, ?_, ?_, hz.head⟩
  · refine hz.path.congr (fun b hb => setDup_of_ne _ _ ?_) (setDup_of_ne _ _ ?_)
    · rintro rfl
      exact hz.not_mem_ctx (hnodes _ hlast) hb
    · exact (hz.mem_tree (hnodes _ hlast)).2.symm
  · -- the head of the chain changes when its first node goes
    dsimp only
    by_cases hC : C = []
    · subst hC
      simp only [List.getLast_singleton] at hprev
      subst hprev
      simp
    · have hne : x.addr ≠ prev := by
        intro hxp
        have hmem : prev ∈ C := by
          rw [← hprev, List.getLast_cons hC]
          exact List.getLast_mem hC
        refine (List.nodup_cons.mp hxn).1 ?_
        rw [hxp]
        exact List.mem_append_left _ hmem
      rw [setDup_of_ne _ _ hne, hdup]
      exact (hhead (by simpa using hC)).symm
  · refine hml.congr fun b hb => setDup_of_ne _ _ ?_
    rintro rfl
    exact hxlr _ hlast _ (List.mem_append_left _ hb) rfl
  · refine hmr.congr fun b hb => setDup_of_ne _ _ ?_
    rintro rfl
    exact hxlr _ hlast _ (List.mem_append_right _ hb) rfl
  · refine hz.nodup.sublist ?_
    simp only [zipNodes, treeNodes, Entry.nodes, hx]
    refine List.Sublist.append_left ?_ _
    refine List.Sublist.append_right (List.Sublist.cons_cons _ ?_) _
    exact List.Sublist.append_left (List.sublist_cons_self _ _) _
  · intro b hb
    refine hz.mem b ?_
    simp only [zipNodes, treeNodes, Entry.nodes, hx, List.mem_append, List.mem_cons] at hb ⊢
    tauto

/-- Put the entry `y` in the place of the node in hand. -/
private theorem takePlace_spec (hs : Sim S m₀ m V) {c : Bool} {l r : ColorTree Entry}
    {x y : Entry} (hz : Zip S V ctx (.node c l x r)) (hdata : (V y.addr).data = y.key)
    (hdup : (V y.addr).dup = y.dups.headD 0) (hchain : Chain V y.key y.dups)
    (hyS : ∀ a ∈ y.nodes, a ∈ S ∧ a ≠ headAddr) (hynd : y.nodes.Nodup)
    (hfresh : ∀ a ∈ y.nodes, a ∉ ctxNodes ctx ∧ a ∉ treeNodes l ∧ a ∉ treeNodes r ∧ a ≠ x.addr) :
    ∃ V', Sim S m₀ (takePlace m x.addr y.addr (top ctx)) V' ∧ Zip S V' ctx (.node c l y r) := by
  have hxmem : x.addr ∈ treeNodes (.node c l x r) := rootAddr_mem (t := .node c l x r) (by simp)
  have hxS := hz.mem_tree hxmem
  have hx0 : x.addr ≠ 0 := by have := hs.space.pos _ hxS.1; omega
  have hy := hyS _ y.addr_mem_nodes
  have hyf := hfresh _ y.addr_mem_nodes
  have hzl : Zip S V (⟨c, x, false, r⟩ :: ctx) l := Zip.down (d := false) hz
  have hzr : Zip S V (⟨c, x, true, l⟩ :: ctx) r := Zip.down (d := true) hz
  -- no node of `y` is the parent
  have htop : ∀ a ∈ y.nodes, a ≠ top ctx := by
    intro a ha hat
    cases ctx with
    | nil => exact (hyS a ha).2 hat
    | cons f ctx => exact (hfresh a ha).1 (by rw [hat]; simp [top, ctxNodes, Entry.nodes])
  have hg0 : getLink m x.addr 0 = rootAddr l := by
    have h := hs.getLink_kid hxS.1 false
    rw [Bool.toNat_false] at h
    exact h.trans hz.tree.2.1
  have hs₁ := hs.setLink_kid hy.1 hzl.isLink_root false
  rw [Bool.toNat_false] at hs₁
  have hg1 : getLink (setLink m y.addr 0 (rootAddr l)) x.addr 1 = rootAddr r := by
    have h := hs₁.getLink_kid hxS.1 true
    rw [Bool.toNat_true] at h
    rw [h, setKid_of_ne _ _ _ (Ne.symm hyf.2.2.2)]
    exact hz.tree.2.2.1
  have hs₂ := hs₁.setLink_kid hy.1 hzr.isLink_root true
  rw [Bool.toNat_true] at hs₂
  generalize hV₂ : setKid (setKid V y.addr false (rootAddr l)) y.addr true (rootAddr r) = V₂ at hs₂
  have hout : ∀ b, b ≠ y.addr → V₂ b = V b := by
    intro b hb
    rw [← hV₂, setKid_of_ne _ _ _ hb, setKid_of_ne _ _ _ hb]
  have hpath : CtxModels V₂ ctx x.addr := by
    refine hz.path.congr (fun b hb => hout b ?_) (hout _ hy.2.symm)
    rintro rfl
    exact hyf.1 hb
  have hdir : (getLink (setLink (setLink m y.addr 0 (rootAddr l)) y.addr 1 (rootAddr r))
      (top ctx) 1 == x.addr) = topDir ctx := by
    have h := hs₂.getLink_kid hz.top_mem true
    rw [Bool.toNat_true] at h
    rw [h]
    exact hpath.dir_eq hx0 (hz.not_mem_ctx hxmem)
  have hs₃ := hs₂.setLink_kid hz.top_mem (Or.inr hy) (topDir ctx)
  have hs₄ := hs₃.copyColor_sim (b := x.addr) hy.1 hxS.1
  have hred : (setKid V₂ (top ctx) (topDir ctx) y.addr x.addr).red = c := by
    rw [setKid_red, hout _ (Ne.symm hyf.2.2.2)]
    exact hz.tree.1.2.1
  rw [hred] at hs₄
  have hout₄ : ∀ b, b ≠ y.addr → b ≠ top ctx →
      setRed (setKid V₂ (top ctx) (topDir ctx) y.addr) y.addr c b = V b := by
    intro b hb ht
    rw [setRed_of_ne _ _ hb, setKid_of_ne _ _ _ ht, hout b hb]
  have hyv : setKid V₂ (top ctx) (topDir ctx) y.addr y.addr = V₂ y.addr :=
    setKid_of_ne _ _ _ (htop _ y.addr_mem_nodes)
  have hne : ∀ {t b}, (∀ a ∈ y.nodes, a ∉ treeNodes t) → b ∈ treeNodes t → b ≠ y.addr := by
    rintro t b ht hb rfl
    exact ht _ y.addr_mem_nodes hb
  refine ⟨_, by simpa only [takePlace, hg0, hg1, hdir] using hs₄, ?_, ⟨⟨?_, ?_, ?_, ?_⟩, ?_, ?_,
    ?_, ?_⟩, ?_, ?_, hz.head⟩
  · exact (hpath.set_hole hz.ctx_nodup.1 hz.ctx_nodup.2).setRed hyf.1 hy.2
  · rw [setRed_data, hyv, ← hV₂, setKid_data, setKid_data]
    exact hdata
  · simp
  · rw [setRed_dup, hyv, ← hV₂, setKid_dup, setKid_dup]
    exact hdup
  · refine hchain.congr fun b hb => hout₄ b ?_ (htop b (List.mem_cons_of_mem _ hb))
    rintro rfl
    exact (List.nodup_cons.mp hynd).1 hb
  · rw [setRed_kid, hyv, ← hV₂]
    simp [setKid_kid]
  · rw [setRed_kid, hyv, ← hV₂]
    simp
  · refine hz.tree.2.2.2.1.congr fun b hb => hout₄ b (hne (fun a ha => (hfresh a ha).2.1) hb) ?_
    exact hz.ne_top (by simp [treeNodes, hb])
  · refine hz.tree.2.2.2.2.congr fun b hb =>
      hout₄ b (hne (fun a ha => (hfresh a ha).2.2.1) hb) ?_
    exact hz.ne_top (by simp [treeNodes, hb])
  · have hnd := hz.nodup
    simp only [zipNodes, treeNodes, List.nodup_append, List.mem_append] at hnd ⊢
    obtain ⟨hc, ⟨-, hlr, -⟩, hcx⟩ := hnd
    refine ⟨hc, ⟨hynd, hlr, ?_⟩, ?_⟩
    · rintro a ha b hb rfl
      rcases hb with hb | hb
      · exact (hfresh a ha).2.1 hb
      · exact (hfresh a ha).2.2.1 hb
    · rintro a ha b hb rfl
      rcases hb with hb | hb
      · exact (hfresh a hb).1 ha
      · exact hcx a ha a (Or.inr hb) rfl
  · intro b hb
    simp only [zipNodes, treeNodes, List.mem_append] at hb
    rcases hb with hb | hb | hb
    · exact hz.mem b (List.mem_append_left _ hb)
    · exact hyS b hb
    · exact hz.mem_tree (by simpa [treeNodes] using Or.inr hb)

end Duplicates

/-! ## The end of `remove_rbnode` -/

/-- The node that is returned: the first selected duplicate of the match, or the
    match itself. -/
def pick (sel : Nat → Bool) : Option Entry → Nat
  | none => 0
  | some e =>
    if e.dups = [] then e.addr
    else (e.dups.find? sel).getD (if sel e.addr then e.addr else 0)

/-- What a removal takes away. -/
inductive Removal where
  | nothing
  | duplicate
  | treeNode

/-- The node that a removal takes away, if any. -/
def Removal.node? (r : Nat) : Removal → List Nat
  | .nothing => []
  | .duplicate => [r]
  | .treeNode => [r]

/-- How many tree nodes a removal takes away. -/
def Removal.treeNodes : Removal → Nat
  | .treeNode => 1
  | _ => 0

/-- How many duplicates a removal takes away. -/
def Removal.dups : Removal → Nat
  | .duplicate => 1
  | _ => 0

/-- The effect of a removal on the in-order list `L`. -/
inductive Removed (L L' : List Entry) : (r : Nat) → Removal → Prop where
  | nothing : L' = L → Removed L L' 0 .nothing
  | dup (A B : List Entry) (x : Entry) (C D : List Nat) (a : Nat) : L = A ++ x :: B →
      x.dups = C ++ a :: D → L' = A ++ { x with dups := C ++ D } :: B → Removed L L' a .duplicate
  | promote (A B : List Entry) (x : Entry) (a : Nat) (D : List Nat) : L = A ++ x :: B →
      x.dups = a :: D → L' = A ++ ⟨a, x.key, D⟩ :: B → Removed L L' x.addr .duplicate
  | node (A B : List Entry) (x : Entry) : L = A ++ x :: B → x.dups = [] → L' = A ++ B →
      Removed L L' x.addr .treeNode

/-- The counters after a removal. -/
def countRemove {A : Type} (tree : RbTree A) : Removal → RbTree A
  | .nothing => tree
  | .duplicate => { tree with numDup := sub32 tree.numDup 1 }
  | .treeNode => { tree with numNodes := sub32 tree.numNodes 1 }

theorem countRemove_fixed {A : Type} (tree : RbTree A) (kind : Removal) :
    (countRemove tree kind).compare = tree.compare ∧
      (countRemove tree kind).selectDup = tree.selectDup := by
  cases kind with
  | nothing => exact ⟨rfl, rfl⟩
  | duplicate => rw [countRemove]; exact ⟨rfl, rfl⟩
  | treeNode => rw [countRemove]; exact ⟨rfl, rfl⟩

section Finish

variable {A : Type} {S : Set Nat} {m₀ m : Mem} {V : Nat → NodeView} {ctx : List (Frame Entry)}
variable {cmp : Entry → Int} {v : RemoveVars} {found : Option Entry}
variable {tree : RbTree A} {args : Option A} {sel : Nat → Bool}

/-- The goal of the last part of `remove_rbnode`. -/
def RemoveDone (S : Set Nat) (m₀ : Mem) (tree : RbTree A) (L : List Entry) (r : Nat)
    (res : Option (Mem × RbTree A × Nat)) : Prop :=
  ∃ m' V' T kind, res = some (m', countRemove tree kind, r) ∧ Sim S m₀ m' V' ∧ Zip S V' [] T ∧
    (∃ c n, Balanced T c n) ∧ Removed L T.toList r kind

/-- Move the cursor up over several frames. -/
theorem Zip.up_append {below : List (Frame Entry)} {t : ColorTree Entry}
    (hz : Zip S V (below ++ ctx) t) : Zip S V ctx (plug below t) := by
  induction below generalizing t with
  | nil => exact hz
  | cons f below ih => exact ih hz.up

theorem plug_append (below : List (Frame Entry)) (t : ColorTree Entry) :
    plug (below ++ ctx) t = plug ctx (plug below t) := by
  induction below generalizing t with
  | nil => rfl
  | cons f below ih => exact ih _

/-- The subtree below several frames is balanced, and so is the rest. -/
theorem ctxBalanced_append {below : List (Frame Entry)} {t : ColorTree Entry} {c : Bool} {n : Nat}
    (hc : CtxBalanced (below ++ ctx) c n) (ht : Balanced t c n) :
    ∃ c' n', Balanced (plug below t) c' n' ∧ CtxBalanced ctx c' n' := by
  induction below generalizing t c n with
  | nil => exact ⟨c, n, ht, hc⟩
  | cons f below ih =>
    obtain ⟨hred, hsib, hrest⟩ := hc
    refine ih hrest ?_
    cases hf : f.red with
    -- a red node has two black subtrees
    | true =>
      rw [hf] at hrest
      obtain ⟨hc', hs⟩ := hred hf
      rw [hc'] at ht
      rw [hs] at hsib
      exact balanced_join_red ht hsib
    | false => exact balanced_join_black ht hsib

/-- The frame of the found node. -/
theorem FoundAt.frame {e : Entry} (h : FoundAt v (spine ctx) (some e)) :
    v.f = e.addr ∧ ∃ below fr above, ctx = below ++ fr :: above ∧ fr.x = e ∧ fr.dir = false ∧
      (∀ b ∈ below, b.dir = true) ∧ v.fp = top above := by
  obtain ⟨hf, below, above, hsp, hbelow, hfp⟩ := h
  obtain ⟨b, tl, rfl, hb, htl⟩ := List.map_eq_append_iff.mp hsp
  obtain ⟨fr, ab, rfl, hfr, hab⟩ := List.map_eq_cons_iff.mp htl
  refine ⟨hf, b, fr, ab, rfl, congrArg Prod.fst hfr, congrArg Prod.snd hfr, ?_, ?_⟩
  · intro x hx
    exact hbelow (x.x, x.dir) (by rw [← hb]; exact List.mem_map.mpr ⟨x, hx, rfl⟩)
  · rw [hfp, ← hab]
    exact spineTop_spine ab

/-- Nothing was found. -/
private theorem removeFinish_none (h : RemoveInv S m₀ m V ctx .nil cmp v none) :
    RemoveDone S m₀ tree (plug ctx .nil).toList 0 (removeFinish m tree args v) := by
  have hf : v.f = 0 := h.foundAt
  obtain ⟨k, ht, hc⟩ := h.balanced
  refine ⟨m, V, plug ctx .nil, .nothing, ?_, h.sim, h.zip.plug_all, hc.plug_balanced ht,
    .nothing rfl⟩
  simp [removeFinish, hf, countRemove]

/-- What follows the walk along the chain. -/
private theorem removeDup_of_loop {tmp prev : Nat}
    (h : dupLoop loopBound m tree args (getLink m v.f 2) v.f = some (tmp, prev)) :
    removeDup m tree args v = some (unlinkDup m tree args v tmp prev) := by
  rw [removeDup, h, Option.map_some]

/-- The match itself is selected: its first duplicate takes over its place in the tree, its
    children and its colour, with the rest of the chain. -/
private theorem removeDup_promote (hsel : ∀ m a, tree.selectDup m a args = sel a) {e : Entry}
    {a : Nat} {D : List Nat} (hx : e.dups = a :: D) (hno : ∀ b ∈ e.dups, sel b = false)
    (hself : sel e.addr = true) (hlen : e.dups.length + 1 ≤ loopBound)
    {above : List (Frame Entry)} {c : Bool} {l r : ColorTree Entry} (hsim : Sim S m₀ m V)
    (hz : Zip S V above (.node c l e r)) (hf : v.f = e.addr) (hfp : v.fp = top above) :
    ∃ m' V', removeDup m tree args v = some (m', countRemove tree .duplicate, e.addr) ∧
      Sim S m₀ m' V' ∧ Zip S V' above (.node c l ⟨a, e.key, D⟩ r) := by
  have hD : ∀ b ∈ a :: D, b ∈ treeNodes (.node c l e r) := by
    intro b hb
    simp only [treeNodes, Entry.nodes, hx, List.mem_append, List.mem_cons] at hb ⊢
    tauto
  have hch := hz.tree.1.2.2.2
  have hhead : getLink m e.addr 2 = a := by
    have hmem : e.addr ∈ treeNodes (.node c l e r) :=
      rootAddr_mem (t := .node c l e r) (by simp)
    rw [hsim.getLink_dup (hz.mem_tree hmem).1]
    exact hz.tree.1.2.2.1.trans (by rw [hx, List.headD_cons])
  have hnd := hz.nodup
  simp only [zipNodes, treeNodes, Entry.nodes, List.nodup_append, hx] at hnd
  obtain ⟨-, ⟨hxn, -, hxlr⟩, -⟩ := hnd
  have hmem : ∀ b ∈ a :: D, b ∈ e.addr :: a :: D := fun b hb => List.mem_cons_of_mem _ hb
  -- the walk along the chain finds nothing
  obtain ⟨q, hq⟩ : ∃ q, dupLoop loopBound m tree args (e.dups.headD 0) e.addr = some (0, q) := by
    rcases dupLoop_spec hsim hsel hch (fun b hb => (hz.mem_tree (hD b (hx ▸ hb))).1) hlen e.addr with
      ⟨-, q, hq⟩ | ⟨C, b, D', hx', -, hb, -⟩
    · exact ⟨q, hq⟩
    · rw [hno b (by simp [hx'])] at hb
      exact absurd hb (by decide)
  rw [hx] at hch hq
  obtain ⟨V', hs', hz'⟩ := takePlace_spec hsim hz (y := ⟨a, e.key, D⟩) hch.1.1 hch.1.2.2
    hch.2 (fun b hb => hz.mem_tree (hD b hb)) (List.nodup_cons.mp hxn).2 (by
      intro b hb
      refine ⟨hz.not_mem_ctx (hD b hb), fun hl => ?_, fun hr => ?_, ?_⟩
      · exact hxlr b (hmem b hb) b (List.mem_append_left _ hl) rfl
      · exact hxlr b (hmem b hb) b (List.mem_append_right _ hr) rfl
      · rintro rfl
        exact (List.nodup_cons.mp hxn).1 hb)
  refine ⟨_, V', ?_, hs', hz'⟩
  rw [List.headD_cons] at hq
  rw [removeDup_of_loop (by rw [hf, hhead]; exact hq), unlinkDup, if_pos rfl, hsel, hf,
    if_pos hself, hhead, hfp, countRemove]

/-- The match has duplicates. -/
private theorem removeDup_spec (hsel : ∀ m a, tree.selectDup m a args = sel a) {e : Entry}
    (hdups : e.dups ≠ []) (hlen : e.dups.length + 1 ≤ loopBound)
    (h : RemoveInv S m₀ m V ctx .nil cmp v (some e)) :
    RemoveDone S m₀ tree (plug ctx .nil).toList (pick sel (some e)) (removeDup m tree args v) := by
  obtain ⟨hf, below, fr, above, rfl, rfl, hdir, hbelow, hfp⟩ := h.foundAt.frame
  obtain ⟨k, ht, hc⟩ := h.balanced
  -- put the cursor on the match
  have hz : Zip S V above (.node fr.red (plug below .nil) fr.x fr.sib) := by
    have h' := h.zip.up_append.up
    rw [hdir] at h'
    exact h'
  obtain ⟨c', n', hb, hcb⟩ := ctxBalanced_append hc ht
  have hL : (plug (below ++ fr :: above) .nil).toList =
      before above ++ ((plug below .nil).toList ++ fr.x :: (fr.sib.toList ++ after above)) := by
    rw [plug_append, plug, toList_plug, hdir]
    simp [join]
  have hbal : ∀ y : Entry,
      ∃ c n, Balanced (plug above (.node fr.red (plug below .nil) y fr.sib)) c n := by
    intro y
    have hcb' : CtxBalanced ({ fr with x := y } :: above) c' n' := hcb
    have h' := hcb'.plug_balanced hb
    simp only [plug, hdir] at h'
    exact h'
  have hxmem : fr.x.addr ∈ treeNodes (.node fr.red (plug below .nil) fr.x fr.sib) :=
    rootAddr_mem (t := .node fr.red (plug below .nil) fr.x fr.sib) (by simp)
  have hxS : fr.x.addr ∈ S := (hz.mem_tree hxmem).1
  have hch := hz.tree.1.2.2.2
  have hD : ∀ a ∈ fr.x.dups, a ∈ treeNodes (.node fr.red (plug below .nil) fr.x fr.sib) := by
    intro a ha
    simp [treeNodes, Entry.nodes, ha]
  have hhead : getLink m fr.x.addr 2 = fr.x.dups.headD 0 := by
    rw [h.sim.getLink_dup hxS]
    exact hz.tree.1.2.2.1
  rw [hL]
  rcases dupLoop_spec h.sim hsel hch (fun a ha => (hz.mem_tree (hD a ha)).1) hlen fr.x.addr with
    ⟨hno, q, hq⟩ | ⟨C, a, D', hx, hno, ha, hq⟩
  · have hpick : pick sel (some fr.x) = if sel fr.x.addr then fr.x.addr else 0 := by
      have : fr.x.dups.find? sel = none := List.find?_eq_none.mpr (by simpa using hno)
      simp [pick, hdups, this]
    rw [hpick]
    by_cases hs : sel fr.x.addr = true
    · -- the match itself is selected: its first duplicate takes its place
      obtain ⟨a, D, hx⟩ : ∃ a D, fr.x.dups = a :: D := by
        cases hd : fr.x.dups with
        | nil => exact absurd hd hdups
        | cons a D => exact ⟨a, D, rfl⟩
      obtain ⟨m', V', hr, hs', hz'⟩ :=
        removeDup_promote hsel hx (by simpa using hno) hs hlen h.sim hz hf hfp
      rw [if_pos hs]
      refine ⟨m', V', _, .duplicate, hr, hs', hz'.plug_all, hbal _, ?_⟩
      refine .promote (before above ++ (plug below .nil).toList) (fr.sib.toList ++ after above)
        fr.x a D (by simp) hx ?_
      rw [toList_plug]
      simp
    · rw [if_neg hs]
      refine ⟨m, V, _, .nothing, ?_, h.sim, hz.plug_all, hbal _, .nothing ?_⟩
      · rw [Bool.not_eq_true] at hs
        rw [removeDup_of_loop (by rw [hf, hhead]; exact hq), unlinkDup, if_pos rfl, hsel, hf,
          if_neg (by rw [hs]; simp), countRemove]
      · rw [toList_plug]
        simp
  · -- a duplicate is selected
    have hpick : pick sel (some fr.x) = a := by
      have : fr.x.dups.find? sel = some a := by
        rw [hx, List.find?_append, List.find?_eq_none.mpr (by simpa using hno)]
        simp [ha]
      simp [pick, hdups, this]
    have ha0 : a ≠ 0 := by
      have := h.sim.space.pos a (hz.mem_tree (hD a (by simp [hx]))).1
      omega
    obtain ⟨V', hs', hz'⟩ := dup_cut h.sim hz hx
    rw [hpick]
    refine ⟨_, V', _, .duplicate, ?_, hs', hz'.plug_all, hbal _, ?_⟩
    · rw [removeDup_of_loop (by rw [hf, hhead]; exact hq), unlinkDup, if_neg ha0, countRemove]
    · refine .dup (before above ++ (plug below .nil).toList) (fr.sib.toList ++ after above)
        fr.x C D' a (by simp) hx ?_
      rw [toList_plug]
      simp

/-- Cut the last visited node out, once it has no children. -/
private theorem cut_leaf (hs : Sim S m₀ m V) {f : Frame Entry} (hz : Zip S V (f :: ctx) .nil)
    (hsib : f.sib = .nil) :
    ∃ V', Sim S m₀ (setLink m (top ctx) (getLink m (top ctx) 1 == f.x.addr).toNat
        (getLink m f.x.addr (getLink m f.x.addr 0 == 0).toNat)) V' ∧
      Zip S V' ctx .nil ∧ ∀ a ∈ f.x.nodes, V' a = V a := by
  have hup := hz.up
  rw [hsib] at hup
  have hxS : f.x.addr ∈ S := hz.top_mem
  have hx0 : f.x.addr ≠ 0 := by have := hs.space.pos _ hxS; omega
  have hxmem : f.x.addr ∈ treeNodes (join f.red f.x f.dir .nil .nil) :=
    mem_treeNodes_join.mpr (Or.inl f.x.addr_mem_nodes)
  -- the node has no children any more, so the link that is hung up is null
  have hkid : ∀ d, (V f.x.addr).kid d = 0 := by
    have hm := models_join.mp hup.tree
    intro d
    by_cases hd : d = f.dir
    · rw [hd]; exact hm.2.1
    · rw [Bool.eq_not_of_ne hd]; exact hm.2.2.1
  have h0 : getLink m f.x.addr 0 = 0 := by
    have h := hs.getLink_kid hxS false
    rw [Bool.toNat_false] at h
    exact h.trans (hkid false)
  have h1 : getLink m f.x.addr 1 = 0 := by
    have h := hs.getLink_kid hxS true
    rw [Bool.toNat_true] at h
    exact h.trans (hkid true)
  have hdir : (getLink m (top ctx) 1 == f.x.addr) = topDir ctx := by
    have h := hs.getLink_kid hup.top_mem true
    rw [Bool.toNat_true] at h
    have hpath := hup.path
    rw [rootAddr_join] at hpath
    rw [h]
    exact hpath.dir_eq hx0 (hup.not_mem_ctx hxmem)
  have hval : getLink m f.x.addr (getLink m f.x.addr 0 == 0).toNat = 0 := by
    rw [h0, BEq.rfl, Bool.toNat_true, h1]
  rw [hval, hdir]
  have hnodes : ∀ a ∈ f.x.nodes, a ∈ treeNodes (join f.red f.x f.dir .nil .nil) :=
    fun a ha => mem_treeNodes_join.mpr (Or.inl ha)
  refine ⟨_, hs.setLink_kid hup.top_mem (Or.inl rfl) (topDir ctx),
    ⟨?_, trivial, ?_, ?_, hz.head⟩, ?_⟩
  · exact hup.path.set_hole hup.ctx_nodup.1 hup.ctx_nodup.2
  · simpa [zipNodes, treeNodes] using hup.ctx_nodup.1
  · intro a ha
    exact hup.mem a (by simpa [zipNodes, treeNodes] using Or.inl ha)
  · intro a ha
    exact setKid_of_ne _ _ _ (hup.ne_top (hnodes a ha))

theorem before_append (below : List (Frame Entry)) :
    before (below ++ ctx) = before ctx ++ before below := by
  induction below with
  | nil => simp [before]
  | cons f below ih => simp [before, ih]

theorem after_of_right {below : List (Frame Entry)} (h : ∀ b ∈ below, b.dir = true) :
    after below = [] := by
  induction below with
  | nil => rfl
  | cons f below ih =>
    simp [after, h f List.mem_cons_self, ih fun b hb => h b (List.mem_cons_of_mem _ hb)]

/-- The match has no duplicates: it leaves the tree, and its in-order predecessor
    takes its place. -/
private theorem removeNode_spec {e : Entry} (hdups : e.dups = [])
    (h : RemoveInv S m₀ m V ctx .nil cmp v (some e)) :
    RemoveDone S m₀ tree (plug ctx .nil).toList e.addr
      (some (removeNode m v, { tree with numNodes := sub32 tree.numNodes 1 }, e.addr)) := by
  obtain ⟨hf, below, fr, above, hctx, rfl, hdir, hbelow, hfp⟩ := h.foundAt.frame
  obtain ⟨k, ht, hc⟩ := h.balanced
  cases below with
  | nil =>
    -- the match is the last visited node
    rw [List.nil_append] at hctx
    subst hctx
    obtain ⟨hsib, hc'⟩ := balanced_cut hc ht h.ready
    obtain ⟨V', hs', hz', -⟩ := cut_leaf h.sim h.zip hsib
    have hn : v.n = fr.x.addr := h.hand.1
    refine ⟨removeNode m v, V', plug above .nil, .treeNode, rfl, ?_, hz'.plug_all,
      hc'.plug_balanced .nil, ?_⟩
    · simpa only [removeNode, hn, hf, h.parent fr above rfl, ne_eq, not_true, if_false] using hs'
    · refine .node (before above) (after above) fr.x ?_ hdups ?_
      · rw [toList_plug]
        simp [before, after, hdir, hsib]
      · rw [toList_plug]
        simp
  | cons f below =>
    rw [List.cons_append] at hctx
    subst hctx
    obtain ⟨hsib, hc'⟩ := balanced_cut hc ht h.ready
    obtain ⟨V₁, hs₁, hz₁, hV₁⟩ := cut_leaf h.sim h.zip hsib
    have hn : v.n = f.x.addr := h.hand.1
    have hfd : f.dir = true := hbelow f List.mem_cons_self
    have hbelow' : ∀ b ∈ below, b.dir = true := fun b hb => hbelow b (List.mem_cons_of_mem _ hb)
    -- put the cursor on the match
    have hz₂ : Zip S V₁ above (.node fr.red (plug below .nil) fr.x fr.sib) := by
      have h' := hz₁.up_append.up
      rw [hdir] at h'
      exact h'
    have hup := h.zip.up
    have hfm := models_join.mp hup.tree
    have hnodes : ∀ a ∈ f.x.nodes, a ∈ treeNodes (join f.red f.x f.dir .nil f.sib) :=
      fun a ha => mem_treeNodes_join.mpr (Or.inl ha)
    have hnew : ∀ a ∈ f.x.nodes, a ∉ zipNodes above (.node fr.red (plug below .nil) fr.x fr.sib) := by
      intro a ha hmem
      refine hup.not_mem_ctx (hnodes a ha) ?_
      have hp : (zipNodes (below ++ fr :: above) .nil).Perm
          (zipNodes above (.node fr.red (plug below .nil) fr.x fr.sib)) := by
        refine perm_zipNodes_of_toList ?_
        rw [plug_append, plug, hdir]
        rfl
      simpa [zipNodes, treeNodes] using hp.mem_iff.mpr hmem
    have hself := hV₁ _ f.x.addr_mem_nodes
    obtain ⟨V', hs', hz'⟩ := takePlace_spec hs₁ hz₂ (y := f.x)
      (by rw [hself]; exact hfm.1.1) (by rw [hself]; exact hfm.1.2.2.1)
      (hfm.1.2.2.2.congr fun b hb => hV₁ b (List.mem_cons_of_mem _ hb))
      (fun a ha => hup.mem_tree (hnodes a ha))
      (by
        have hnd := hup.tree_nodup
        rw [(perm_treeNodes_join ..).nodup_iff] at hnd
        exact (List.nodup_append.mp hnd).1)
      (by
        intro a ha
        have h' := hnew a ha
        simp only [zipNodes, treeNodes, Entry.nodes, List.mem_append, List.mem_cons, not_or] at h'
        exact ⟨h'.1, h'.2.2.1, h'.2.2.2, h'.2.1.1⟩)
    have hne : v.n ≠ v.f := by
      rw [hn, hf]
      intro heq
      refine hnew f.x.addr f.x.addr_mem_nodes ?_
      rw [heq]
      simp [zipNodes, treeNodes, Entry.nodes]
    obtain ⟨c₂, n₂, hb₂, hcb₂⟩ := ctxBalanced_append hc' .nil
    have hcb₃ : CtxBalanced ({ fr with x := f.x } :: above) c₂ n₂ := hcb₂
    refine ⟨removeNode m v, V', _, .treeNode, rfl, ?_, hz'.plug_all, ?_, ?_⟩
    · rw [hn, hf] at hne
      simpa only [removeNode, hn, hf, hfp, h.parent f _ rfl, if_pos hne] using hs'
    · have h' := hcb₃.plug_balanced hb₂
      simp only [plug, hdir] at h'
      exact h'
    · refine .node (before (below ++ fr :: above) ++ [f.x]) (fr.sib.toList ++ after above) fr.x
        ?_ hdups ?_
      · rw [toList_plug]
        have hafter : after (below ++ fr :: above) = fr.x :: (fr.sib.toList ++ after above) := by
          clear hc hc' hz₁ h hz₂ hup hfm hnodes hnew hs₁ hs' hz' hV₁ hself hcb₂ hcb₃ hb₂ hbelow
          induction below with
          | nil => simp [after, hdir]
          | cons b below ih =>
            simp [after, hbelow' b List.mem_cons_self,
              ih fun c hc => hbelow' c (List.mem_cons_of_mem _ hc)]
        simp [before, after, hfd, hsib, hafter]
      · rw [toList_plug, toList_node, toList_plug]
        simp [before_append, before, after_of_right hbelow', hdir]

/-- **The end of `remove_rbnode`**, whatever the descent has found. -/
theorem removeFinish_spec (hsel : ∀ m a, tree.selectDup m a args = sel a)
    (hlen : ∀ e, found = some e → e.dups.length + 1 ≤ loopBound)
    (h : RemoveInv S m₀ m V ctx .nil cmp v found) :
    RemoveDone S m₀ tree (plug ctx .nil).toList (pick sel found) (removeFinish m tree args v) := by
  cases found with
  | none => exact removeFinish_none h
  | some e =>
    obtain ⟨hf, below, fr, above, hctx, rfl, -⟩ := h.foundAt.frame
    -- the found node is still on the path, as the frame between below and above
    have hmem : fr.x.addr ∈ S ∧ getLink m fr.x.addr 2 = fr.x.dups.headD 0 := by
      have hz := h.zip
      rw [hctx] at hz
      have hm := models_join.mp hz.up_append.up.tree
      have hS : fr.x.addr ∈ S := hz.up_append.top_mem
      exact ⟨hS, (h.sim.getLink_dup hS).trans hm.1.2.2.1⟩
    have hf0 : v.f ≠ 0 := by
      have := h.sim.space.pos _ hmem.1
      omega
    by_cases hd : fr.x.dups = []
    -- without duplicates the node itself is removed
    · have hlink : getLink m v.f 2 = 0 := by rw [hf, hmem.2, hd]; rfl
      have hp : pick sel (some fr.x) = fr.x.addr := by simp [pick, hd]
      rw [removeFinish, if_neg (by simp [hlink]), if_pos hf0, hp, hf]
      exact removeNode_spec hd h
    -- with duplicates one of them is, which takes its place if it was the first
    · have hlink : getLink m v.f 2 ≠ 0 := by
        rw [hf, hmem.2]
        cases hx : fr.x.dups with
        | nil => exact absurd hx hd
        | cons a D =>
          have hz := h.zip
          rw [hctx] at hz
          have hpos := h.sim.space.pos a (hz.up_append.up.mem_tree
            (mem_treeNodes_join.mpr (Or.inl (by simp [Entry.nodes, hx])))).1
          rw [List.headD_cons]
          omega
      rw [removeFinish, if_pos ⟨hf0, hlink⟩]
      exact removeDup_spec hsel hd (hlen _ rfl) h

end Finish

/-! ## `remove_rbnode` -/

section Remove

variable {L L' : List Entry} {r : Nat} {kind : Removal}

theorem Removed.sorted (h : Removed L L' r kind) (hs : Sorted L) : Sorted L' := by
  have hkeys : ∀ L : List Entry, Sorted L ↔ (L.map Entry.key).Pairwise (· < ·) :=
    fun L => List.pairwise_map.symm
  cases h with
  | nothing h => rw [h]; exact hs
  | dup A B x C D a hL hx hL' =>
    subst hL hL'
    -- the keys are the same
    rw [hkeys] at hs ⊢
    simpa using hs
  | promote A B x a D hL hx hL' =>
    subst hL hL'
    -- the keys are the same: the duplicate has the key of its node
    rw [hkeys] at hs ⊢
    simpa using hs
  | node A B x hL hx hL' =>
    subst hL hL'
    -- one key less
    exact hs.sublist (List.Sublist.append_left (List.sublist_cons_self _ _) _)

/-- The nodes before a removal are the removed one and those left. -/
theorem Removed.perm_nodes (h : Removed L L' r kind) :
    (L.flatMap Entry.nodes).Perm (kind.node? r ++ L'.flatMap Entry.nodes) := by
  cases h with
  | nothing h => rw [h]; exact List.Perm.refl _
  | dup A B x C D a hL hx hL' =>
    -- the removed node is one of the duplicates
    subst hL hL'
    have h := @List.perm_middle _ r (A.flatMap Entry.nodes ++ x.addr :: C)
      (D ++ B.flatMap Entry.nodes)
    simpa [Entry.nodes, hx, Removal.node?] using h
  | promote A B x a D hL hx hL' =>
    -- the removed node is in front of its duplicates
    subst hL hL'
    simp only [List.flatMap_append, List.flatMap_cons, Entry.nodes, hx, List.cons_append]
    exact List.perm_middle
  | node A B x hL hx hL' =>
    subst hL hL'
    simp only [List.flatMap_append, List.flatMap_cons, Entry.nodes, hx, List.cons_append,
      List.nil_append]
    exact List.perm_middle

/-- The two counts after a removal. -/
theorem Removed.counts (h : Removed L L' r kind) :
    L.length = L'.length + kind.treeNodes ∧ dupCount L = dupCount L' + kind.dups := by
  cases h with
  | nothing h => rw [h]; exact ⟨rfl, rfl⟩
  | dup A B x C D a hL hx hL' =>
    -- one duplicate less
    subst hL hL'
    simp only [dupCount, hx, Removal.treeNodes, Removal.dups, List.length_append, List.length_cons,
      List.map_append, List.map_cons, List.sum_append, List.sum_cons]
    omega
  | promote A B x a D hL hx hL' =>
    -- the duplicate takes the place of its node
    subst hL hL'
    simp only [dupCount, hx, Removal.treeNodes, Removal.dups, List.length_append, List.length_cons,
      List.map_append, List.map_cons, List.sum_append, List.sum_cons]
    omega
  | node A B x hL hx hL' =>
    -- one node less
    subst hL hL'
    simp only [dupCount, hx, Removal.treeNodes, Removal.dups, List.length_append, List.length_cons,
      List.map_append, List.map_cons, List.sum_append, List.sum_cons, List.length_nil]
    omega

/-- The counters after a removal from a non-empty tree. -/
private theorem countRemove_eq {A : Type} {tree : RbTree A} (h : Removed L L' r kind)
    (hn : tree.numNodes = L.length) (hd : tree.numDup = dupCount L)
    (hsmall : L.length + dupCount L < 2 ^ 32) :
    (countRemove tree kind).numNodes = L'.length ∧
      (countRemove tree kind).numDup = dupCount L' := by
  have hc := h.counts
  cases kind with
  | nothing => exact ⟨hn.trans hc.1, hd.trans hc.2⟩
  | duplicate =>
    simp only [Removal.treeNodes, Removal.dups] at hc
    have h1 : sub32 (dupCount L) 1 = dupCount L - 1 := sub32_of_le (by omega) (by omega)
    simp only [countRemove, hn, hd, h1]
    omega
  | treeNode =>
    simp only [Removal.treeNodes, Removal.dups] at hc
    have h1 : sub32 L.length 1 = L.length - 1 := sub32_of_le (by omega) (by omega)
    simp only [countRemove, hn, hd, h1]
    omega

/-- The descent of `remove_rbnode`, from the dummy root on: the memory and the helpers when
    the loop ends. -/
def removeDescent {A : Type} (m : Mem) (tree : RbTree A) (data : Nat) (args : Option A) :
    Option (Mem × RemoveVars) :=
  removeLoop loopBound (setLink (initHead m) headAddr 1 tree.root) tree data args
    { n := headAddr, p := 0, g := 0, f := 0, fp := 0, dir := true }

/-- The structure of a tree whose root is at `root`. -/
def TreeAt (m : Mem) (root : Nat) (T : ColorTree Entry) : Prop :=
  root = rootAddr T ∧ Models (view m) T

/-- What follows the descent. -/
private theorem removeRbnode_of_descent {A : Type} {m m' : Mem} {tree : RbTree A} {data : Nat}
    {args : Option A} {v : RemoveVars} (h0 : tree.root ≠ 0)
    (h : removeDescent m tree data args = some (m', v)) :
    removeRbnode m tree data args =
      (removeFinish m' tree args v).map fun q => removeRoot q.1 q.2.1 q.2.2 := by
  rw [removeDescent] at h
  rw [removeRbnode, if_pos h0, h, Option.bind_some]

private theorem removeRbnode_of_empty {A : Type} {m : Mem} {tree : RbTree A} {data : Nat}
    {args : Option A} (h0 : tree.root = 0) :
    removeRbnode m tree data args = some (0, m, tree) := by
  rw [removeRbnode, if_neg (fun h => h h0)]

section Whole

variable {A : Type} {m : Mem} {tree : RbTree A} {T : ColorTree Entry} {data : Nat}
variable {args : Option A} {cmp : Entry → Int} {sel : Nat → Bool}

theorem ValidTree.root_ne_zero (h : ValidTree m tree T) (hT : T ≠ .nil) : tree.root ≠ 0 := by
  have := h.nodes.pos _ (rootAddr_mem hT)
  rw [h.root]
  omega

/-- The descent in a valid tree ends at the bottom, with the last match as `f`. -/
theorem removeDescent_spec (h : ValidTree m tree T)
    (hcmp : ∀ m (e : Entry), nodeData m e.addr = e.key → tree.compare m e.addr data args = cmp e)
    (hmatch : MatchesDown cmp T.toList) :
    ∃ m₁ V₁ ctx₁ v₁, removeDescent m tree data args = some (m₁, v₁) ∧
      (plug ctx₁ .nil).toList = T.toList ∧
      RemoveInv (withHead (treeNodes T)) (initHead m) m₁ V₁ ctx₁ .nil cmp v₁
        (lastMatch cmp none T) := by
  obtain ⟨V, hs, hz, hV⟩ := enter_tree h.nodes h.models h.nodes.nodup (fun a ha => ha)
  obtain ⟨k, hbal⟩ := h.black
  have hlen := length_toList_le T
  have hle := h.nodes.length_le
  -- at the dummy root nothing has been found yet, and the parent is not looked at
  have hinv : RemoveInv (withHead (treeNodes T)) (initHead m)
      (setLink (initHead m) headAddr 1 tree.root) V [] T cmp
      { n := headAddr, p := 0, g := 0, f := 0, fp := 0, dir := true } none :=
    { sim := by rw [h.root]; exact hs
      zip := hz
      balanced := ⟨k, hbal.isRed_eq.symm ▸ hbal, trivial⟩
      ready := trivial
      hand := ⟨rfl, rfl⟩
      parent := by simp
      foundAt := rfl
      match_zero := by simp
      matches_down := hmatch }
  exact removeLoop_spec hcmp (show T.toList.length + 1 ≤ loopBound by simp only [loopBound]; omega)
    hinv

/-- Every chain is shorter than the bound of the loop along it. -/
theorem ValidTree.dups_lt (h : ValidTree m tree T) {e : Entry} (he : e ∈ T.toList) :
    e.dups.length + 1 ≤ loopBound := by
  have hlen := length_toList_le T
  have hle := h.nodes.length_le
  have hsum := dups_le_dupCount he
  simp only [loopBound]
  omega

/-- **`remove_rbnode`.** On a valid tree the call ends with a valid tree. It
    returns what `pick` chooses from the last match of the search path, and takes
    that node out of the tree. -/
theorem removeRbnode_spec (h : ValidTree m tree T)
    (hcmp : ∀ m (e : Entry), nodeData m e.addr = e.key → tree.compare m e.addr data args = cmp e)
    (hsel : ∀ m a, tree.selectDup m a args = sel a) (hmatch : MatchesDown cmp T.toList) :
    ∃ m' tree' T' kind, removeRbnode m tree data args =
        some (pick sel (lastMatch cmp none T), m', tree') ∧
      ValidTree m' tree' T' ∧
      Removed T.toList T'.toList (pick sel (lastMatch cmp none T)) kind ∧
      tree'.compare = tree.compare ∧ tree'.selectDup = tree.selectDup ∧
      SameOff (treeNodes T) m m' := by
  by_cases hT : T = .nil
  · subst hT
    have hroot : tree.root = 0 := h.root
    exact ⟨m, tree, .nil, .nothing, removeRbnode_of_empty hroot, h, .nothing rfl, rfl, rfl,
      SameOff.refl _ _⟩
  · have hlen := length_toList_le T
    have hle := h.nodes.length_le
    -- the descent, what follows it at the match, and the root that is taken from the head
    obtain ⟨m₁, V₁, ctx₁, v₁, hr, hL₁, hinv₁⟩ := removeDescent_spec h hcmp hmatch
    obtain ⟨m₂, V₂, T₂, kind, hr₂, hs₂, hz₂, ⟨c, n, hb₂⟩, hrem⟩ :=
      removeFinish_spec hsel (fun e he => h.dups_lt (lastMatch_mem he).1) hinv₁
    rw [hL₁] at hrem
    obtain ⟨m₃, hm₃, hmod₃, hoff₃⟩ := hs₂.leave hz₂
    have hperm : (treeNodes T).Perm (kind.node? (pick sel (lastMatch cmp none T)) ++
        treeNodes T₂) :=
      (perm_treeNodes T).trans (hrem.perm_nodes.trans ((perm_treeNodes T₂).symm.append_left _))
    have hcount := countRemove_eq hrem (h.count hT).1 (h.count hT).2 (by omega)
    refine ⟨m₃, { countRemove tree kind with root := rootAddr T₂ }, T₂.paint false, kind, ?_,
      ⟨?_, hmod₃, ?_, hb₂.paint_black, ?_, ?_⟩, ?_, ?_, ?_, (initHead_sameOff m).trans hoff₃⟩
    · rw [removeRbnode_of_descent (h.root_ne_zero hT) hr, hr₂, Option.map_some, removeRoot,
        hs₂.getLink_head hz₂, hm₃]
    · exact (rootAddr_paint ..).symm
    · rw [treeNodes_paint]
      refine h.nodes.subset ?_ fun a ha => hperm.mem_iff.mpr (List.mem_append_right _ ha)
      exact (List.nodup_append.mp (hperm.nodup_iff.mp h.nodes.nodup)).2.1
    · rw [toList_paint]; exact hrem.sorted h.sorted
    · intro _
      rw [toList_paint]
      exact hcount
    · rw [toList_paint]; exact hrem
    · exact (countRemove_fixed tree kind).1
    · exact (countRemove_fixed tree kind).2

/-- **Promotion of a duplicate.** When the match heads a chain and only the match itself is
    selected, its first duplicate stands after the call where the match stood when the descent
    ended: below the same nodes, above the same children, in the same colour, with the rest of
    the chain. -/
theorem removeRbnode_promote (h : ValidTree m tree T)
    (hcmp : ∀ m (e : Entry), nodeData m e.addr = e.key → tree.compare m e.addr data args = cmp e)
    (hsel : ∀ m a, tree.selectDup m a args = sel a) (hmatch : MatchesDown cmp T.toList)
    {e : Entry} {a : Nat} {D : List Nat} (hlast : lastMatch cmp none T = some e)
    (hx : e.dups = a :: D) (hno : ∀ b ∈ e.dups, sel b = false) (hself : sel e.addr = true) :
    ∃ m' tree' m₁ v ctx c l r, removeRbnode m tree data args = some (e.addr, m', tree') ∧
      removeDescent m tree data args = some (m₁, v) ∧
      TreeAt m₁ (getLink m₁ headAddr 1) (plug ctx (.node c l e r)) ∧
      TreeAt m' tree'.root ((plug ctx (.node c l ⟨a, e.key, D⟩ r)).paint false) := by
  have hT : T ≠ .nil := by
    rintro rfl
    simp [lastMatch] at hlast
  obtain ⟨m₁, V₁, ctx₁, v₁, hr, hL₁, hinv⟩ := removeDescent_spec h hcmp hmatch
  rw [hlast] at hinv
  -- the frame of the match, among those that the descent has passed
  obtain ⟨hf, below, fr, above, rfl, rfl, hdir, -, hfp⟩ := hinv.foundAt.frame
  have hz : Zip (withHead (treeNodes T)) V₁ above
      (.node fr.red (plug below .nil) fr.x fr.sib) := by
    have h' := hinv.zip.up_append.up
    rw [hdir] at h'
    exact h'
  obtain ⟨m₂, V₂, hr₂, hs₂, hz₂⟩ := removeDup_promote hsel hx hno hself
    (h.dups_lt (lastMatch_mem hlast).1) hinv.sim hz hf hfp
  obtain ⟨m₃, hm₃, hmod₃, -⟩ := hs₂.leave hz₂.plug_all
  have hxS : fr.x.addr ∈ withHead (treeNodes T) :=
    (hz.mem_tree (rootAddr_mem (t := .node fr.red (plug below .nil) fr.x fr.sib) (by simp))).1
  have hf0 : v₁.f ≠ 0 := by
    have := hinv.sim.space.pos _ hxS
    omega
  have hlink : getLink m₁ v₁.f 2 ≠ 0 := by
    have ha : a ∈ treeNodes (.node fr.red (plug below .nil) fr.x fr.sib) := by
      simp [treeNodes, Entry.nodes, hx]
    have := hinv.sim.space.pos _ (hz.mem_tree ha).1
    have hdup : (V₁ fr.x.addr).dup = fr.x.dups.headD 0 := hz.tree.1.2.2.1
    rw [hf, hinv.sim.getLink_dup hxS, hdup, hx, List.headD_cons]
    omega
  refine ⟨m₃, { countRemove tree .duplicate with root := rootAddr (plug above _) }, m₁, v₁, above,
    fr.red, plug below .nil, fr.sib, ?_, hr, ⟨hinv.sim.getLink_head hz.plug_all, ?_⟩,
    (rootAddr_paint ..).symm, hmod₃⟩
  · rw [removeRbnode_of_descent (h.root_ne_zero hT) hr, removeFinish, if_pos ⟨hf0, hlink⟩, hr₂,
      Option.map_some, removeRoot, hs₂.getLink_head hz₂.plug_all, hm₃]
  · exact hz.plug_all.tree.congr fun b hb => hinv.sim.view_eq b (hz.plug_all.mem_tree hb).1

end Whole

end Remove

end Toutatis
