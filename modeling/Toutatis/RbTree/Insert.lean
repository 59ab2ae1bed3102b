import Toutatis.RbTree.Tree

/-!
# `insert_rbnode` is correct

The descent of `insert_rbnode` as moves of a cursor: `insertVisit` grafts the
new node or flips colours, `insertRotate` rotates. After a rotation the helper
pointers `t` and `g` are stale for one or two iterations; the nodes visited then
are `Quiet`, so no rotation uses them.
-/

namespace Toutatis

open ByteMem RedBlack RedBlack.ColorTree

/-- The record of a node that waits to be inserted: red, without links. -/
def Loose (V : Nat → NodeView) (node key : Nat) : Prop :=
  V node = ⟨key, true, fun _ => 0, 0⟩

/-- The tree after the first half of an iteration: the new entry at the bottom,
    or a colour flip. -/
def visited (e : Entry) (t : ColorTree Entry) : ColorTree Entry :=
  match t with
  | .nil => .node true .nil e .nil
  | .node .. => colorFlip t

section

variable {S : Set Nat} {m₀ m : Mem} {V : Nat → NodeView}
variable {ctx : List (Frame Entry)} {t : ColorTree Entry}

/-- Hang the new node below the path. -/
private theorem graft (hs : Sim S m₀ m V) (hz : Zip S V ctx .nil) {node key : Nat}
    (hn : node ∈ S) (hh : node ≠ headAddr) (hfresh : node ∉ zipNodes ctx .nil)
    (hl : Loose V node key) :
    ∃ V', Sim S m₀ (setLink m (top ctx) (topDir ctx).toNat node) V' ∧
      Zip S V' ctx (.node true .nil ⟨node, key, []⟩ .nil) ∧
      Off (zipNodes ctx .nil) V V' := by
  -- the link that is written is not one of the new node
  have htop : node ≠ top ctx := by
    rintro rfl
    cases ctx with
    | nil => exact hh rfl
    | cons f ctx => exact hfresh (by simp [zipNodes, ctxNodes, top, Entry.nodes])
  refine ⟨_, hs.setLink_kid hz.top_mem (Or.inr ⟨hn, hh⟩) _, ?_, ?_⟩
  · refine ⟨hz.path.set_hole hz.ctx_nodup.1 hz.ctx_nodup.2, ?_, ?_, ?_, hz.head⟩
    · have hv : setKid V (top ctx) (topDir ctx) node node = V node := setKid_of_ne _ _ _ htop
      simp only [Models, EntryModels, hv]
      rw [show V node = _ from hl]
      simp [rootAddr, Chain]
    · have hd := hz.nodup
      simp only [zipNodes, treeNodes, List.append_nil] at hd hfresh
      simp only [zipNodes, treeNodes, Entry.nodes, List.append_nil]
      refine List.nodup_append.mpr ⟨hd, by simp, ?_⟩
      intro a ha b hb hab
      rw [List.mem_singleton] at hb
      exact hfresh (by rw [← hb, ← hab]; exact ha)
    · intro a ha
      simp only [zipNodes, treeNodes, Entry.nodes, List.append_nil, List.mem_append,
        List.mem_singleton] at ha
      rcases ha with ha | rfl
      · exact hz.mem a (by simpa [zipNodes, treeNodes] using ha)
      · exact ⟨hn, hh⟩
  · intro b hb hbh
    refine setKid_of_ne _ _ _ ?_
    cases ctx with
    | nil => exact hbh
    | cons f ctx =>
      rintro rfl
      exact hb (by simp [zipNodes, ctxNodes, top, Entry.nodes])

/-- First half of an iteration. -/
theorem insertVisit_spec {A : Type} (hs : Sim S m₀ m V) (hz : Zip S V ctx t)
    (tree : RbTree A) {node key : Nat} (hn : node ∈ S) (hh : node ≠ headAddr)
    (hfresh : node ∉ zipNodes ctx t) (hl : Loose V node key) {v : InsertVars}
    (hvn : v.n = rootAddr t) (hp : t = .nil → v.p = top ctx ∧ v.dir = topDir ctx) :
    ∃ V', Sim S m₀ (insertVisit m tree node v).1 V' ∧
      Zip S V' ctx (visited ⟨node, key, []⟩ t) ∧ Off (zipNodes ctx t) V V' ∧
      (insertVisit m tree node v).2 =
        if t.isNil then ({ tree with numNodes := add32 tree.numNodes 1 },
          { v with n := node, duplicate := false })
        else (tree, v) := by
  cases t with
  -- at the bottom the node is grafted
  | nil =>
    obtain ⟨hvp, hvd⟩ := hp rfl
    have hvn0 : v.n = 0 := hvn
    obtain ⟨V', hs', hz', hoff⟩ := graft hs hz hn hh hfresh hl
    refine ⟨V', ?_, hz', hoff, ?_⟩
    · simp only [insertVisit, hvn0, if_true, hvp, hvd]; exact hs'
    · simp [insertVisit, hvn0, isNil]
  -- elsewhere a node with two red children is flipped
  | node c l x r =>
    have hvx : v.n = x.addr := hvn
    have hx := hz.root_mem (by simp)
    have hne : ¬ x.addr = 0 := by
      have := hs.space.pos _ hx.1
      simp only [rootAddr] at this
      omega
    have hcl : isRed m (getLink m x.addr 0) = l.isRed :=
      hs.isRed_child (d := false) (s := l) (o := r) hz
    have hcr : isRed m (getLink m x.addr 1) = r.isRed :=
      hs.isRed_child (d := true) (s := r) (o := l) hz
    simp only [insertVisit, hvx, if_neg hne, hcl, hcr, visited, colorFlip, isNil, Bool.false_eq_true,
      if_false]
    split
    · rename_i hlr
      rw [Bool.and_eq_true] at hlr
      obtain ⟨V', hs', hz', hoff⟩ := hs.flip_hand hz (by rintro rfl; simp at hlr)
        (by rintro rfl; simp at hlr)
      exact ⟨V', hs', hz', hoff, rfl⟩
    · exact ⟨V, hs, hz, Off.refl _ _, rfl⟩

/-- No red node below a red parent: nothing to repair. -/
theorem insertRotate_of_not {v : InsertVars} (h : (isRed m v.n && isRed m v.p) = false) :
    insertRotate m v = m := by
  simp [insertRotate, h]

/-- The repair of a red node below a red parent. -/
theorem insertRotate_spec (hs : Sim S m₀ m V) {p g : Frame Entry} {rest : List (Frame Entry)}
    (hz : Zip S V (p :: g :: rest) t) (ht : t.isRed = true) (hp : p.red = true)
    {v : InsertVars} (hvn : v.n = rootAddr t) (hvp : v.p = p.x.addr) (hvg : v.g = g.x.addr)
    (hvt : v.t = top rest) (hlast : v.last = g.dir) :
    ∃ V', Sim S m₀ (insertRotate m v) V' ∧
      Zip S V' (rotateUp p g rest t).1 (rotateUp p g rest t).2 ∧
      Off (zipNodes (p :: g :: rest) t) V V' := by
  have htne : t ≠ .nil := by rintro rfl; simp at ht
  have hperm : (zipNodes rest (join g.red g.x g.dir (join p.red p.x p.dir t p.sib) g.sib)).Perm
      (zipNodes (p :: g :: rest) t) := perm_zipNodes_of_toList rfl
  have hup := hz.up
  have hz₂ : Zip S V rest (join g.red g.x g.dir (join p.red p.x p.dir t p.sib) g.sib) := hup.up
  have hpS : p.x.addr ∈ S := hz.top_mem
  have hgS : g.x.addr ∈ S := hup.top_mem
  have hpm := models_join.mp hup.tree
  -- both nodes are red
  have hredn : isRed m v.n = true := by
    rw [hvn, hs.isRed_root hz.tree (fun a ha => (hz.mem_tree ha).1), ht]
  have hredp : isRed m v.p = true := by
    rw [hvp, hs.isRed_eq hpS, hpm.1.2.1, hp]
  -- the side of `g` below `t`
  have hg0 : g.x.addr ≠ 0 := by have := hs.space.pos _ hgS; omega
  have hgmem : g.x.addr ∈ treeNodes (join g.red g.x g.dir (join p.red p.x p.dir t p.sib) g.sib) :=
    mem_treeNodes_join.mpr (Or.inl g.x.addr_mem_nodes)
  have hdir2 : (getLink m v.t 1 == v.g) = topDir rest := by
    have h1 := hs.getLink_kid hz₂.top_mem true
    rw [Bool.toNat_true] at h1
    have hpath := hz₂.path
    rw [rootAddr_join] at hpath
    rw [hvt, hvg, h1]
    exact hpath.dir_eq hg0 (hz₂.not_mem_ctx hgmem)
  have hkid : getLink m v.p v.last.toNat = (V p.x.addr).kid g.dir := by
    rw [hvp, hlast]; exact hs.getLink_kid hpS _
  simp only [insertRotate, hredn, hredp, Bool.and_self, if_true, hdir2, hkid]
  by_cases hd : p.dir = g.dir
  · -- single rotation
    have hpt : (V p.x.addr).kid g.dir = rootAddr t := by rw [← hd]; exact hpm.2.1
    have hz₃ : Zip S V rest (join g.red g.x (! !g.dir)
        (join p.red p.x (!g.dir) p.sib t) g.sib) := by
      rw [Bool.not_not, join_not, ← hd]
      rw [← hd] at hz₂
      exact hz₂
    obtain ⟨htop, V', hs', hz', hoff⟩ := hs.rotate_hang hz₃
    rw [if_pos (by rw [hpt]; exact hvn), hvg, hlast, hvt, htop]
    refine ⟨V', hs', ?_, ?_⟩
    · simp only [rotateUp, if_pos hd]
      rw [Bool.not_not, join_not] at hz'
      rw [hd]
      exact hz'.down
    · rw [Bool.not_not, join_not, ← hd] at hoff
      rw [← hd] at hperm
      exact fun b hb => hoff b (fun h => hb (hperm.mem_iff.mp h))
  · -- double rotation
    have hd' : p.dir = !g.dir := by
      cases hpd : p.dir <;> cases hgd : g.dir <;> simp_all
    have hpt : (V p.x.addr).kid g.dir = rootAddr p.sib := by
      have h := hpm.2.2.1
      rw [hd', Bool.not_not] at h
      exact h
    have hne : ¬ v.n = rootAddr p.sib := by
      rw [hvn]
      intro heq
      have hmem := rootAddr_mem htne
      cases hsib : p.sib with
      | nil =>
        have h0 : rootAddr t = 0 := by rw [heq, hsib]; rfl
        have hpos := hs.space.pos _ (hz.root_mem htne).1
        omega
      | node c l x r =>
        have hsm : rootAddr p.sib ∈ treeNodes p.sib := rootAddr_mem (by simp [hsib])
        refine hz.not_mem_ctx hmem ?_
        rw [heq]
        simp [ctxNodes, hsm]
    cases t with
    | nil => exact absurd rfl htne
    | node c l x r =>
      rw [node_eq_join c g.dir] at hz hz₂ hperm hvn
      generalize hA : (node c l x r).child g.dir = a at *
      generalize hB : (node c l x r).child (!g.dir) = b at *
      -- first rotation, at the parent
      have hz₃ : Zip S V (g :: rest) (join p.red p.x (!g.dir) (join c x g.dir a b) p.sib) := by
        rw [← hd']; exact hz.up
      obtain ⟨htop, V₁, hs₁, hz₁, hoff₁⟩ := hs.rotate_hang hz₃
      have hkg : getLink m g.x.addr g.dir.toNat = p.x.addr := by
        rw [hs.getLink_kid hgS]
        exact (models_join.mp hz₂.tree).2.1.trans (rootAddr_join ..)
      -- second rotation, at the grandparent
      have hz₄ : Zip S V₁ rest (join g.red g.x (! !g.dir)
          (join false x (!g.dir) b (join true p.x (!g.dir) a p.sib)) g.sib) := by
        have h := hz₁.up
        rw [Bool.not_not, join_not false g.dir]
        exact h
      obtain ⟨htop₂, V₂, hs₂, hz₂', hoff₂⟩ := hs₁.rotate_hang hz₄
      rw [hpt, if_neg hne, hvg, hlast, hkg, hvt, htop]
      simp only [top, topDir] at hs₂ htop₂ ⊢
      rw [htop₂]
      refine ⟨V₂, hs₂, ?_, ?_⟩
      · simp only [rotateUp, if_neg hd, hA, hB]
        rw [Bool.not_not, join_not false g.dir, join_not true g.dir] at hz₂'
        exact hz₂'
      · have hperm₁ : (zipNodes (g :: rest)
            (join p.red p.x (!g.dir) (join c x g.dir a b) p.sib)).Perm
            (zipNodes (p :: g :: rest) (join c x g.dir a b)) :=
          perm_zipNodes_of_toList (by rw [← hd']; rfl)
        have hperm₂ : (zipNodes rest (join g.red g.x (! !g.dir)
            (join false x (!g.dir) b (join true p.x (!g.dir) a p.sib)) g.sib)).Perm
            (zipNodes (p :: g :: rest) (join c x g.dir a b)) := by
          refine perm_zipNodes_of_toList ?_
          rw [toList_plug, plug, plug, toList_plug, hd']
          cases g.dir <;> simp [join]
        have hoff : Off (zipNodes (p :: g :: rest) (join c x g.dir a b)) V V₁ :=
          fun b' hb' => hoff₁ b' (fun h => hb' (hperm₁.mem_iff.mp h))
        rw [node_eq_join c g.dir, hA, hB]
        exact hoff.trans hoff₂ (fun _ h => hperm₂.mem_iff.mp h)

end

/-! ## The descent -/

/-- Three-way comparison of keys, as the allocator's `compare` does it without
    alignment. -/
def exactCmp (x key : Nat) : Int := if x < key then -1 else if key < x then 1 else 0

theorem exactCmp_eq_zero {x key : Nat} : exactCmp x key = 0 ↔ x = key := by
  simp only [exactCmp]; split <;> [skip; split] <;> omega

theorem decide_exactCmp_neg (x key : Nat) : decide (exactCmp x key < 0) = decide (x < key) := by
  rw [decide_eq_decide]
  simp only [exactCmp]; split <;> [skip; split] <;> omega

/-- The frames of a search for `key`: each turned to the side of `key`. -/
def OnPath (key : Nat) (ctx : List (Frame Entry)) : Prop :=
  ∀ f ∈ ctx, f.x.key ≠ key ∧ f.dir = decide (f.x.key < key)

/-- The helper pointers follow the path. -/
def PtrOk (v : InsertVars) : List (Frame Entry) → Prop
  | [] => v.p = 0 ∧ v.g = 0 ∧ v.t = headAddr
  | [p] => v.p = p.x.addr ∧ v.g = 0 ∧ v.t = headAddr ∧ v.dir = p.dir
  | p :: g :: rest =>
    v.p = p.x.addr ∧ v.g = g.x.addr ∧ v.t = top rest ∧ v.dir = p.dir ∧ v.last = g.dir

/-- Where a repair may be needed the uncle is black: a red node has a black
    sibling, and below a red node comes a quiet one or a black uncle. -/
def UncleOk (ctx : List (Frame Entry)) (t : ColorTree Entry) : Prop :=
  (t.isRed = true → ∃ p rest, ctx = p :: rest ∧ p.sib.isRed = false) ∧
  ∀ p rest, ctx = p :: rest → p.red = true →
    Quiet t ∨ ∃ g rest', rest = g :: rest' ∧ g.sib.isRed = false

/-- Right after a rotation `t` is stale, but the node in hand is quiet. -/
def Stale (v : InsertVars) (ctx : List (Frame Entry)) (t : ColorTree Entry) : Prop :=
  Quiet t ∧ ∃ p g rest, ctx = p :: g :: rest ∧ v.p = p.x.addr ∧ v.g = g.x.addr ∧ v.dir = p.dir

/-- What holds at the head of the loop. -/
structure InsertInv (S : Set Nat) (m₀ m : Mem) (V : Nat → NodeView) (ctx : List (Frame Entry))
    (t : ColorTree Entry) (node key : Nat) (v : InsertVars) : Prop where
  sim : Sim S m₀ m V
  zip : Zip S V ctx t
  mem : node ∈ S
  ne_head : node ≠ headAddr
  fresh : node ∉ zipNodes ctx t
  loose : Loose V node key
  path : OnPath key ctx
  hand : v.n = rootAddr t
  dup : v.duplicate = true
  balanced : ∃ k, Balanced t t.isRed k ∧ CtxBalanced ctx t.isRed k
  calm : (PtrOk v ctx ∧ UncleOk ctx t) ∨ Stale v ctx t
  nonempty : t = .nil → ctx ≠ []

/-- The effect of an insertion on the in-order list `L`: a new entry at its
    place, or a new first duplicate. -/
inductive Inserted (node key : Nat) (L L' : List Entry) : (dup : Bool) → Prop where
  | new (A B : List Entry) : L = A ++ B → L' = A ++ ⟨node, key, []⟩ :: B →
      (∀ a ∈ A, a.key < key) → (∀ b ∈ B, key < b.key) → Inserted node key L L' false
  | dup (A B : List Entry) (x : Entry) : L = A ++ x :: B → x.key = key →
      L' = A ++ { x with dups := node :: x.dups } :: B → Inserted node key L L' true

/-- The counters after an insertion. -/
def countInsert {A : Type} (tree : RbTree A) (dup : Bool) : RbTree A :=
  bif dup then { tree with numDup := add32 tree.numDup 1 }
  else { tree with numNodes := add32 tree.numNodes 1 }

/-- Along a search path everything before the focus is smaller than the key,
    everything after it greater. -/
theorem OnPath.bounds {key : Nat} {ctx : List (Frame Entry)} (hp : OnPath key ctx)
    (hb : Sorted (before ctx)) (ha : Sorted (after ctx)) :
    (∀ a ∈ before ctx, a.key < key) ∧ ∀ b ∈ after ctx, key < b.key := by
  induction ctx with
  | nil => simp [before, after]
  | cons f ctx ih =>
    obtain ⟨hne, hdir⟩ := hp f List.mem_cons_self
    have hp' : OnPath key ctx := fun g hg => hp g (List.mem_cons_of_mem _ hg)
    cases hd : f.dir with
    -- the path went right: the key of the frame and all before it are smaller
    | true =>
      simp only [before, after, hd, cond_true, List.nil_append] at hb ha ⊢
      have hlt : f.x.key < key := by rw [hd] at hdir; simpa using hdir.symm
      obtain ⟨hb₁, hb₂, -⟩ := List.pairwise_append.mp hb
      obtain ⟨-, -, hb₃⟩ := List.pairwise_append.mp hb₂
      obtain ⟨ihb, iha⟩ := ih hp' hb₁ ha
      refine ⟨fun a h => ?_, iha⟩
      simp only [List.mem_append, List.mem_singleton] at h
      rcases h with h | h | rfl
      · exact ihb a h
      · exact (hb₃ a h f.x (by simp)).trans hlt
      · exact hlt
    -- the path went left: the key of the frame and all after it are greater
    | false =>
      simp only [before, after, hd, cond_false, List.append_nil] at hb ha ⊢
      have hlt : key < f.x.key := by
        rw [hd] at hdir
        have : ¬ f.x.key < key := by simpa using hdir.symm
        omega
      obtain ⟨ha₁, ha₂, -⟩ := List.pairwise_append.mp ha
      obtain ⟨ihb, iha⟩ := ih hp' hb ha₂
      refine ⟨ihb, fun a h => ?_⟩
      simp only [List.cons_append, List.mem_cons, List.mem_append] at h
      rcases h with rfl | h | h
      · exact hlt
      · exact hlt.trans ((List.pairwise_cons.mp ha₁).1 a h)
      · exact iha a h

/-- Prepend a duplicate to the chain of the node in hand. -/
theorem dup_sim {S : Set Nat} {m₀ m : Mem} {V : Nat → NodeView} {ctx : List (Frame Entry)}
    {c : Bool} {l r : ColorTree Entry} {x : Entry} (hs : Sim S m₀ m V)
    (hz : Zip S V ctx (.node c l x r)) {node : Nat} (hn : node ∈ S) (hh : node ≠ headAddr)
    (hfresh : node ∉ zipNodes ctx (.node c l x r)) (hl : Loose V node x.key) :
    ∃ V', Sim S m₀ (setLink (setLink m node 2 (getLink m x.addr 2)) x.addr 2 node) V' ∧
      Zip S V' ctx (.node c l { x with dups := node :: x.dups } r) := by
  have hx := hz.root_mem (by simp)
  simp only [rootAddr] at hx
  have hnx : node ≠ x.addr := by
    rintro rfl
    exact hfresh (by simp [zipNodes, treeNodes, Entry.nodes])
  obtain ⟨he, hkl, hkr, hml, hmr⟩ := hz.tree
  obtain ⟨hdata, hred, hdup, hchain⟩ := he
  have hgl : getLink m x.addr 2 = x.dups.headD 0 := by rw [hs.getLink_dup hx.1, hdup]
  have hlink : IsLink S (x.dups.headD 0) := by
    cases hd : x.dups with
    | nil => exact Or.inl rfl
    | cons a rest =>
      exact Or.inr (hz.mem_tree (by simp [treeNodes, Entry.nodes, hd]))
  rw [hgl]
  refine ⟨_, (hs.setLink_dup hn hlink).setLink_dup hx.1 (Or.inr ⟨hn, hh⟩), ?_⟩
  -- two chain links are written, the one of the node and the one of the match
  have hout : ∀ b, b ≠ node → b ≠ x.addr →
      setDup (setDup V node (x.dups.headD 0)) x.addr node b = V b := by
    intro b h1 h2
    rw [setDup_of_ne _ _ h2, setDup_of_ne _ _ h1]
  have hnd := hz.nodup
  have hxmem : x.addr ∈ treeNodes (.node c l x r) := rootAddr_mem (t := .node c l x r) (by simp)
  simp only [zipNodes, treeNodes, List.nodup_append, List.mem_append, Entry.nodes, List.mem_cons,
    List.nodup_cons] at hnd hfresh
  obtain ⟨hctx, ⟨⟨hxd, hdn⟩, ⟨hln, hrn, hlr⟩, hxlr⟩, hcx⟩ := hnd
  simp only [not_or] at hfresh
  have hvnode : setDup (setDup V node (x.dups.headD 0)) x.addr node node =
      ⟨x.key, true, fun _ => 0, x.dups.headD 0⟩ := by
    rw [setDup_of_ne _ _ hnx, setDup, Function.update_self, show V node = _ from hl]
  refine ⟨?_, ⟨⟨by simpa using hdata, by simpa using hred, by simp, ?_, ?_⟩, by simpa using hkl,
    by simpa using hkr, ?_, ?_⟩, ?_, ?_, hz.head⟩
  · refine hz.path.congr (fun b hb => hout b ?_ ?_) (hout _ hh.symm hx.2.symm)
    · rintro rfl; exact hfresh.1 hb
    · rintro rfl; exact hz.not_mem_ctx hxmem hb
  · rw [hvnode]; exact ⟨rfl, fun _ => rfl, rfl⟩
  · refine hchain.congr fun b hb => hout b ?_ ?_
    · rintro rfl; exact hfresh.2.1.2 hb
    · rintro rfl; exact hxd hb
  · refine hml.congr fun b hb => hout b ?_ ?_
    · rintro rfl; exact hfresh.2.2.1 hb
    · rintro rfl; exact hxlr x.addr (Or.inl rfl) _ (Or.inl hb) rfl
  · refine hmr.congr fun b hb => hout b ?_ ?_
    · rintro rfl; exact hfresh.2.2.2 hb
    · rintro rfl; exact hxlr x.addr (Or.inl rfl) _ (Or.inr hb) rfl
  · simp only [zipNodes, treeNodes, List.nodup_append, List.mem_append, Entry.nodes, List.mem_cons,
      List.nodup_cons]
    refine ⟨hctx, ⟨⟨by grind, by grind, hdn⟩, ⟨hln, hrn, hlr⟩, by grind⟩, by grind⟩
  · intro a ha
    simp only [zipNodes, treeNodes, List.mem_append, Entry.nodes, List.mem_cons] at ha
    by_cases han : a = node
    · rw [han]; exact ⟨hn, hh⟩
    · apply hz.mem
      simp only [zipNodes, treeNodes, List.mem_append, Entry.nodes, List.mem_cons]
      tauto

/-- One iteration, its first half given. -/
private theorem insertLoop_succ {A : Type} {fuel : Nat} {m m₁ m₂ : Mem} {tree tree₁ : RbTree A}
    {node : Nat} {args : Option A} {v v₁ : InsertVars}
    (hv : insertVisit m tree node v = (m₁, tree₁, v₁)) (hr : insertRotate m₁ v₁ = m₂) :
    insertLoop (fuel + 1) m tree node args v =
      if tree₁.compare m₂ v₁.n (nodeData m₂ node) args = 0 then
        if v₁.duplicate && v₁.n != node then
          some (setLink (setLink m₂ node 2 (getLink m₂ v₁.n 2)) v₁.n 2 node,
            { tree₁ with numDup := add32 tree₁.numDup 1 })
        else some (m₂, tree₁)
      else
        insertLoop fuel m₂ tree₁ node args
          { v₁ with
            last := v₁.dir
            dir := decide (tree₁.compare m₂ v₁.n (nodeData m₂ node) args < 0)
            t := if v₁.g ≠ 0 then v₁.g else v₁.t
            g := v₁.p
            p := v₁.n
            n := getLink m₂ v₁.n
              (decide (tree₁.compare m₂ v₁.n (nodeData m₂ node) args < 0)).toNat } := by
  rw [insertLoop]
  simp only [hv, hr]

theorem visited_of_quiet {t : ColorTree Entry} (e : Entry) (h : Quiet t) : visited e t = t := by
  cases t with
  | nil => exact absurd rfl h.1
  | node c l x r => simp only [visited, colorFlip]; rw [if_neg (by simpa using h.2.2)]

/-- The first half of an iteration keeps the black height. -/
theorem balanced_visited {t : ColorTree Entry} {c : Bool} {k : Nat} (e : Entry)
    (h : Balanced t c k) : Balanced (visited e t) (visited e t).isRed k := by
  cases t with
  | nil =>
    obtain ⟨-, rfl⟩ := balanced_nil_iff.mp h
    exact .red .nil .nil
  | node c' l x r => exact balanced_colorFlip h

theorem toList_plug_congr {ctx : List (Frame Entry)} {t t' : ColorTree Entry}
    (h : t'.toList = t.toList) : (plug ctx t').toList = (plug ctx t).toList := by
  rw [toList_plug, toList_plug, h]

section Descent

variable {S : Set Nat} {m₀ m : Mem} {V : Nat → NodeView} {ctx : List (Frame Entry)}
variable {t : ColorTree Entry} {node key : Nat} {v : InsertVars}

/-- The goal of the descent from a cursor. -/
def InsertDone {A : Type} (S : Set Nat) (m₀ : Mem) (tree : RbTree A) (node key : Nat)
    (L : List Entry) (r : Option (Mem × RbTree A)) : Prop :=
  ∃ m' V' T dup, r = some (m', countInsert tree dup) ∧ Sim S m₀ m' V' ∧ Zip S V' [] T ∧
    (∃ c n, Balanced T c n) ∧ Inserted node key L T.toList dup

/-- A red node below a red parent: the frames that the repair turns. -/
theorem InsertInv.repair_frames (h : InsertInv S m₀ m V ctx t node key v)
    (ht : (visited ⟨node, key, []⟩ t).isRed = true) {p : Frame Entry} {rest : List (Frame Entry)}
    (hctx : ctx = p :: rest) (hp : p.red = true) :
    ∃ g rest', ctx = p :: g :: rest' ∧ g.sib.isRed = false ∧ v.p = p.x.addr ∧
      v.g = g.x.addr ∧ v.t = top rest' ∧ v.dir = p.dir ∧ v.last = g.dir := by
  have hnq : ¬ Quiet t := by
    intro hq
    rw [visited_of_quiet _ hq, hq.2.1] at ht
    exact absurd ht (by simp)
  rcases h.calm with ⟨hptr, huncle⟩ | ⟨hq, -⟩
  · -- the parent is red, so that the tree below is quiet or the uncle is black
    rcases huncle.2 p rest hctx hp with hq | ⟨g, rest', rfl, hg⟩
    · exact absurd hq hnq
    · rw [hctx] at hptr
      obtain ⟨h1, h2, h3, h4, h5⟩ := hptr
      exact ⟨g, rest', hctx, hg, h1, h2, h3, h4, h5⟩
  · -- a quiet tree is not turned red by the visit
    exact absurd hq hnq

/-- The pointer `p` is the parent of the node in hand. -/
theorem InsertInv.parent (h : InsertInv S m₀ m V ctx t node key v) {p : Frame Entry}
    {rest : List (Frame Entry)} (hctx : ctx = p :: rest) :
    v.p = p.x.addr ∧ v.dir = p.dir := by
  subst hctx
  rcases h.calm with ⟨hptr, -⟩ | ⟨-, p', g, rest', hctx, hvp, -, hvd⟩
  · cases rest with
    | nil => exact ⟨hptr.1, hptr.2.2.2⟩
    | cons g rest => exact ⟨hptr.1, hptr.2.2.2.1⟩
  · cases hctx
    exact ⟨hvp, hvd⟩

/-- Whether an iteration repairs: decided by the two colours. -/
theorem InsertInv.repair_test (h : InsertInv S m₀ m V ctx t node key v) {m₁ : Mem}
    {V₁ : Nat → NodeView} {t₁ : ColorTree Entry} (hs : Sim S m₀ m₁ V₁) (hz : Zip S V₁ ctx t₁) :
    (isRed m₁ (rootAddr t₁) && isRed m₁ v.p) =
      (t₁.isRed && topRed ctx) := by
  rw [hs.isRed_root hz.tree (fun a ha => (hz.mem_tree ha).1)]
  congr 1
  cases ctx with
  | nil =>
    rcases h.calm with ⟨hptr, -⟩ | ⟨-, p, g, rest, hctx, -⟩
    · rw [hptr.1, isRed_zero]; rfl
    · exact absurd hctx (by simp)
  | cons p rest =>
    rw [(h.parent rfl).1, hs.isRed_eq (a := p.x.addr) hz.top_mem]
    exact hz.path.1.2.1

/-- The helper pointers after a step down, from a state where `p` and `g` were right. -/
theorem InsertInv.ptr_down (h : InsertInv S m₀ m V ctx t node key v) {f : Frame Entry}
    {v' : InsertVars} (hp : v'.p = f.x.addr) (hd : v'.dir = f.dir) (hg : v'.g = v.p)
    (ht : v'.t = if v.g ≠ 0 then v.g else v.t) (hl : v'.last = v.dir) :
    PtrOk v' (f :: ctx) := by
  have hpos : ∀ a ∈ S, a ≠ 0 := fun a ha => by have := h.sim.space.pos a ha; omega
  rcases h.calm with ⟨hptr, -⟩ | ⟨-, p, g, rest, rfl, hvp, hvg, hvd⟩
  · -- the pointers follow each other up the tree, however short the path is
    match ctx, hptr with
    | [], ⟨h1, h2, h3⟩ =>
      refine ⟨hp, hg.trans h1, ?_, hd⟩
      rw [ht, h2]; exact h3
    | [p], ⟨h1, h2, h3, h4⟩ =>
      refine ⟨hp, hg.trans h1, ?_, hd, hl.trans h4⟩
      rw [ht, h2]; exact h3
    | p :: g :: rest, ⟨h1, h2, h3, h4, h5⟩ =>
      have hg0 := hpos _ h.zip.up.top_mem
      refine ⟨hp, hg.trans h1, ?_, hd, hl.trans h4⟩
      rw [ht, h2]; exact if_pos hg0
  · -- behind a quiet visit the pointers are known as well
    have hg0 := hpos _ h.zip.up.top_mem
    refine ⟨hp, hg.trans hvp, ?_, hd, hl.trans hvd⟩
    rw [ht, hvg]; exact if_pos hg0

/-- The uncle condition after a step down without repair. -/
theorem InsertInv.uncle_down (h : InsertInv S m₀ m V ctx t node key v) (x : Entry) (d : Bool) :
    UncleOk (⟨(colorFlip t).isRed, x, d, (colorFlip t).child (!d)⟩ :: ctx)
      ((colorFlip t).child d) := by
  have hflip := colorFlip_child t
  refine ⟨fun hr => ⟨_, _, rfl, ?_⟩, ?_⟩
  · cases d
    · rw [hr, Bool.true_and] at hflip; exact hflip
    · rw [hr, Bool.and_true] at hflip; exact hflip
  · intro p rest hctx hp
    cases hctx
    obtain ⟨k, hbal, -⟩ := h.balanced
    by_cases htr : t.isRed = true
    · -- red before: its sibling is black
      rcases h.calm with ⟨-, huncle⟩ | ⟨hq, -⟩
      · right
        obtain ⟨p, rest, hctx, hsib⟩ := huncle.1 htr
        exact ⟨p, rest, hctx, hsib⟩
      · rw [hq.2.1] at htr
        exact absurd htr (by simp)
    · left
      rw [Bool.not_eq_true] at htr
      rw [htr] at hbal
      exact quiet_child_colorFlip hbal hp d

/-- The iteration stops at the node it has just grafted. -/
private theorem stop_new {A : Type} {tree : RbTree A} (hs : Sim S m₀ m V) (hz : Zip S V ctx t)
    (hbal : ∃ k, CtxBalanced ctx t.isRed k ∧ Balanced t t.isRed k) {L : List Entry}
    (ctx₀ : List (Frame Entry))
    (hL : (plug ctx t).toList = before ctx₀ ++ ⟨node, key, []⟩ :: after ctx₀)
    (hL₀ : L = before ctx₀ ++ after ctx₀) (hpath : OnPath key ctx₀) (hsort : Sorted L) :
    InsertDone S m₀ tree node key L (some (m, countInsert tree false)) := by
  obtain ⟨k, hctx, ht⟩ := hbal
  subst hL₀
  obtain ⟨hb, ha, -⟩ := List.pairwise_append.mp hsort
  obtain ⟨hlt, hgt⟩ := hpath.bounds hb ha
  exact ⟨m, V, plug ctx t, false, rfl, hs, hz.plug_all, hctx.plug_balanced ht,
    .new _ _ rfl hL hlt hgt⟩

/-- The iteration stops at a node of the same key. -/
private theorem stop_dup {A : Type} {tree : RbTree A} {c d : Bool} {s o : ColorTree Entry}
    {x : Entry} (hs : Sim S m₀ m V) (hz : Zip S V ctx (join c x d s o))
    (hbal : ∃ k, CtxBalanced ctx c k ∧ Balanced (join c x d s o) c k)
    (hn : node ∈ S) (hh : node ≠ headAddr) (hfresh : node ∉ zipNodes ctx (join c x d s o))
    (hl : Loose V node key) (hx : x.key = key) {L : List Entry}
    (hL : L = (plug ctx (join c x d s o)).toList) :
    InsertDone S m₀ tree node key L
      (some (setLink (setLink m node 2 (getLink m x.addr 2)) x.addr 2 node,
        countInsert tree true)) := by
  subst hx hL
  obtain ⟨l, r, hnode⟩ : ∃ l r, join c x d s o = .node c l x r := by
    cases d
    · exact ⟨s, o, rfl⟩
    · exact ⟨o, s, rfl⟩
  rw [hnode] at hz hbal hfresh ⊢
  obtain ⟨k, hctx, ht⟩ := hbal
  obtain ⟨V', hs', hz'⟩ := dup_sim hs hz hn hh hfresh hl
  -- the chain of the node grows; colours and shape stay
  have ht' : Balanced (.node c l { x with dups := node :: x.dups } r) c k := by
    cases ht with
    | red h₁ h₂ => exact .red h₁ h₂
    | black h₁ h₂ => exact .black h₁ h₂
  refine ⟨_, V', _, true, rfl, hs', hz'.plug_all, hctx.plug_balanced ht', ?_⟩
  refine .dup (before ctx ++ l.toList) (r.toList ++ after ctx) x ?_ rfl ?_
  · rw [toList_plug]; simp
  · rw [toList_plug]; simp

/-- What stopping at the node in hand returns when it has the key. -/
private theorem insertLoop_stop {A : Type} {tree tree₁ : RbTree A} {args : Option A}
    {fuel : Nat} {m₁ m₂ : Mem} {V₂ : Nat → NodeView} {c d : Bool} {x : Entry}
    {s o : ColorTree Entry} {v₁ : InsertVars}
    (hcmp : ∀ m a, tree₁.compare m a key args = exactCmp (nodeData m a) key)
    (hv : insertVisit m tree node v = (m₁, tree₁, v₁)) (hr : insertRotate m₁ v₁ = m₂)
    (hs : Sim S m₀ m₂ V₂) (hz : Zip S V₂ ctx (join c x d s o)) (hn : v₁.n = x.addr)
    (hkey : nodeData m₂ node = key) (hx : x.key = key) :
    insertLoop (fuel + 1) m tree node args v =
      if v₁.duplicate && x.addr != node then
        some (setLink (setLink m₂ node 2 (getLink m₂ x.addr 2)) x.addr 2 node,
          { tree₁ with numDup := add32 tree₁.numDup 1 })
      else some (m₂, tree₁) := by
  have hxS : x.addr ∈ S := by
    have h := hz.root_mem (by cases d <;> simp [join])
    rw [rootAddr_join] at h
    exact h.1
  have hdata : nodeData m₂ x.addr = x.key := by
    rw [hs.nodeData_eq hxS]; exact (models_join.mp hz.tree).1.1
  have hcx : tree₁.compare m₂ v₁.n (nodeData m₂ node) args = 0 := by
    rw [hkey, hcmp, hn, hdata, exactCmp_eq_zero]; exact hx
  rw [insertLoop_succ hv hr, if_pos hcx, hn]

/-- An iteration that neither repairs nor stops moves the cursor to the child on
    the side of the key. -/
theorem insertLoop_descend {A : Type} {tree tree₁ : RbTree A} {args : Option A} {fuel : Nat}
    {m₁ m₂ : Mem} {V₂ : Nat → NodeView} {c d : Bool} {x : Entry} {s o : ColorTree Entry}
    {v₁ : InsertVars}
    (hcmp : ∀ m a, tree₁.compare m a key args = exactCmp (nodeData m a) key)
    (hv : insertVisit m tree node v = (m₁, tree₁, v₁)) (hr : insertRotate m₁ v₁ = m₂)
    (hs : Sim S m₀ m₂ V₂) (hz : Zip S V₂ ctx (join c x d s o)) (hn : v₁.n = x.addr)
    (hkey : nodeData m₂ node = key) (hne : x.key ≠ key) (hd : d = decide (x.key < key)) :
    insertLoop (fuel + 1) m tree node args v =
      insertLoop fuel m₂ tree₁ node args
        { v₁ with last := v₁.dir, dir := d, t := if v₁.g ≠ 0 then v₁.g else v₁.t,
                  g := v₁.p, p := x.addr, n := rootAddr s } := by
  have hm := models_join.mp hz.tree
  have hxS : x.addr ∈ S := by
    have h := hz.root_mem (by cases d <;> simp [join])
    rw [rootAddr_join] at h
    exact h.1
  have hdata : nodeData m₂ x.addr = x.key := by rw [hs.nodeData_eq hxS]; exact hm.1.1
  -- the comparison is made in the memory behind the repair, where the keys are as before
  have hcx : tree₁.compare m₂ v₁.n (nodeData m₂ node) args = exactCmp x.key key := by
    rw [hkey, hcmp, hn, hdata]
  have hdir : decide (exactCmp x.key key < 0) = d := by rw [decide_exactCmp_neg, hd]
  have hkid : getLink m₂ x.addr d.toNat = rootAddr s := by
    rw [hs.getLink_kid hxS]; exact hm.2.1
  rw [insertLoop_succ hv hr, hcx, if_neg (fun h => hne (exactCmp_eq_zero.mp h)), hdir, hn, hkid]

/-- The induction hypothesis of the descent. -/
def DescendsBelow {A : Type} (S : Set Nat) (m₀ : Mem) (tree : RbTree A) (args : Option A)
    (node key n : Nat) : Prop :=
  ∀ (fuel : Nat) (m : Mem) (V : Nat → NodeView) (ctx : List (Frame Entry))
    (t : ColorTree Entry) (v : InsertVars), t.toList.length < n → 3 * t.toList.length + 1 ≤ fuel →
    InsertInv S m₀ m V ctx t node key v → Sorted (plug ctx t).toList →
    InsertDone S m₀ tree node key (plug ctx t).toList (insertLoop fuel m tree node args v)

/-- An iteration at the bottom grafts the node, repairs if needed, and stops. -/
private theorem insertLoop_nil {A : Type} {tree : RbTree A} {args : Option A} {fuel : Nat}
    (hcmp : ∀ m a, tree.compare m a key args = exactCmp (nodeData m a) key)
    (h : InsertInv S m₀ m V ctx .nil node key v) (hsort : Sorted (plug ctx .nil).toList) :
    InsertDone S m₀ tree node key (plug ctx .nil).toList
      (insertLoop (fuel + 1) m tree node args v) := by
  obtain ⟨k, hbt, hbc⟩ := h.balanced
  have hctx := h.nonempty rfl
  have hp : v.p = top ctx ∧ v.dir = topDir ctx := by
    cases ctx with
    | nil => exact absurd rfl hctx
    | cons p rest => exact h.parent rfl
  obtain ⟨V₁, hs₁, hz₁, hoff₁, hv₁⟩ :=
    insertVisit_spec h.sim h.zip tree h.mem h.ne_head h.fresh h.loose h.hand (fun _ => hp)
  have hv : insertVisit m tree node v = ((insertVisit m tree node v).1,
      countInsert tree false, { v with n := node, duplicate := false }) := by
    rw [← Prod.eta (insertVisit m tree node v), hv₁]; rfl
  generalize (insertVisit m tree node v).1 = m₁ at hs₁ hv
  have ht₁ := balanced_visited ⟨node, key, []⟩ hbt
  have hL₀ : (plug ctx (.nil : ColorTree Entry)).toList = before ctx ++ after ctx := by
    rw [toList_plug]; simp
  have hdata : ∀ {m₂ V₂ ctx₂ c d s o}, Sim S m₀ m₂ V₂ →
      Zip S V₂ ctx₂ (join c ⟨node, key, []⟩ d s o) → nodeData m₂ node = key := by
    intro m₂ V₂ ctx₂ c d s o hs hz
    rw [hs.nodeData_eq h.mem]
    exact (models_join.mp hz.tree).1.1
  have hcmp' : ∀ m a, (countInsert tree false).compare m a key args =
      exactCmp (nodeData m a) key := hcmp
  have htest := h.repair_test hs₁ hz₁
  simp only [visited] at hz₁ ht₁ htest
  by_cases hviol : topRed ctx = true
  · -- below a red parent: one rotation, and the loop stops at the new node
    obtain ⟨p, rest, rfl⟩ : ∃ p rest, ctx = p :: rest := by
      cases ctx with
      | nil => exact absurd rfl hctx
      | cons p rest => exact ⟨p, rest, rfl⟩
    obtain ⟨g, rest', hctx', hg, hvp, hvg, hvt, hvd, hvl⟩ := h.repair_frames rfl rfl hviol
    cases hctx'
    obtain ⟨V₂, hs₂, hz₂, hoff₂⟩ := insertRotate_spec hs₁ hz₁ rfl hviol
      (v := { v with n := node, duplicate := false }) rfl hvp hvg hvt hvl
    have hL := toList_rotateUp p g rest' (.node true .nil ⟨node, key, []⟩ .nil) (by simp)
    obtain ⟨c, d, s, o, k', hroot, hc', hb'⟩ := rotateUp_root hbc hviol hg ht₁
    rw [hroot] at hz₂ hL
    rw [insertLoop_stop hcmp' hv rfl hs₂ hz₂ rfl (hdata hs₂ hz₂) rfl, if_neg (by simp)]
    refine stop_new hs₂ hz₂ ⟨k', ?_⟩ (p :: g :: rest') (by rw [hL, toList_plug]; simp)
      hL₀ h.path hsort
    rw [isRed_join]
    exact ⟨hc', hb'⟩
  · -- below a black parent nothing is repaired
    rw [Bool.not_eq_true] at hviol
    have hrot : insertRotate m₁ { v with n := node, duplicate := false } = m₁ :=
      insertRotate_of_not (by rw [hviol, Bool.and_false] at htest; exact htest)
    have hz₁' : Zip S V₁ ctx (join true ⟨node, key, []⟩ false .nil .nil) := hz₁
    rw [insertLoop_stop hcmp' hv hrot hs₁ hz₁' rfl (hdata hs₁ hz₁') rfl, if_neg (by simp)]
    refine stop_new hs₁ hz₁ ⟨k, ?_, ht₁⟩ ctx (by rw [toList_plug]; simp) hL₀ h.path hsort
    refine hbc.recolor fun p rest hc => ?_
    rw [hc] at hviol
    exact hviol

/-- The state right after a rotation. -/
private theorem InsertInv.of_stale (hs : Sim S m₀ m V) {p g : Frame Entry}
    {rest : List (Frame Entry)} (hz : Zip S V (p :: g :: rest) t) (hn : node ∈ S)
    (hh : node ≠ headAddr) (hfresh : node ∉ zipNodes (p :: g :: rest) t) (hl : Loose V node key)
    (hpath : OnPath key (p :: g :: rest)) (hvn : v.n = rootAddr t) (hvd : v.duplicate = true)
    (hbal : ∃ k, Balanced t t.isRed k ∧ CtxBalanced (p :: g :: rest) t.isRed k)
    (hq : Quiet t) (hvp : v.p = p.x.addr) (hvg : v.g = g.x.addr) (hdir : v.dir = p.dir) :
    InsertInv S m₀ m V (p :: g :: rest) t node key v where
  sim := hs
  zip := hz
  mem := hn
  ne_head := hh
  fresh := hfresh
  loose := hl
  path := hpath
  hand := hvn
  dup := hvd
  balanced := hbal
  calm := Or.inr ⟨hq, p, g, rest, rfl, hvp, hvg, hdir⟩
  nonempty := fun _ => by simp

theorem OnPath.cons {x : Entry} {d c : Bool} {o : ColorTree Entry} (h : OnPath key ctx)
    (hne : x.key ≠ key) (hd : d = decide (x.key < key)) : OnPath key (⟨c, x, d, o⟩ :: ctx) := by
  intro f hf
  rcases List.mem_cons.mp hf with rfl | hf
  · exact ⟨hne, hd⟩
  · exact h f hf

/-- A node with a black child needs no flip. -/
private theorem insertVisit_pass {A : Type} {tree : RbTree A} (hs : Sim S m₀ m V) {c d : Bool}
    {x : Entry} {s o : ColorTree Entry} (hz : Zip S V ctx (join c x d s o))
    (hblack : s.isRed = false) (hvn : v.n = x.addr) :
    insertVisit m tree node v = (m, tree, v) := by
  have hxS := hz.root_mem (by cases d <;> simp [join])
  rw [rootAddr_join] at hxS
  have hne : ¬ x.addr = 0 := by have := hs.space.pos _ hxS.1; omega
  have hred := hs.isRed_child hz
  rw [hblack] at hred
  simp only [insertVisit, hvn, if_neg hne]
  rw [if_neg]
  -- neither child is red: there is nothing to flip
  cases d
  · rw [Bool.toNat_false] at hred
    simp [hred]
  · rw [Bool.toNat_true] at hred
    simp [hred]

/-- After a double rotation the cursor passes one more node and reaches the
    child of the rotated node on the side of the key. -/
private theorem insertLoop_double {A : Type} {tree : RbTree A} {args : Option A} {fuel : Nat}
    (hcmp : ∀ m a, tree.compare m a key args = exactCmp (nodeData m a) key)
    {f : Frame Entry} {x : Entry} {d : Bool} {s o : ColorTree Entry} (hs : Sim S m₀ m V)
    (hz : Zip S V ctx (join false x d (join true f.x f.dir s f.sib) o))
    (hs_black : s.isRed = false) (hf : f.x.key ≠ key ∧ f.dir = decide (f.x.key < key))
    (hn : node ∈ S) (hl : Loose V node key) (hvn : v.n = f.x.addr) (hvp : v.p = x.addr) :
    insertLoop (fuel + 1) m tree node args v =
      insertLoop fuel m tree node args
        { v with last := v.dir, dir := f.dir, t := if v.g ≠ 0 then v.g else v.t,
                 g := x.addr, p := f.x.addr, n := rootAddr s } := by
  have hz' := hz.down
  have hpass : insertVisit m tree node v = (m, tree, v) := insertVisit_pass hs hz' hs_black hvn
  have hrot : insertRotate m v = m := by
    refine insertRotate_of_not ?_
    have hxS : x.addr ∈ S := hz'.top_mem
    rw [hvp, hs.isRed_eq hxS, (models_join.mp hz.tree).1.2.1, Bool.and_false]
  have hkey : nodeData m node = key := by
    rw [hs.nodeData_eq hn, show V node = _ from hl]
  rw [insertLoop_descend hcmp hpass hrot hs hz' hvn hkey hf.1 hf.2, hvp]

/-- An iteration at a node: a flip, a repair if needed, and a stop or a step down. -/
private theorem insertLoop_node {A : Type} {tree : RbTree A} {args : Option A} {fuel : Nat}
    (hcmp : ∀ m a, tree.compare m a key args = exactCmp (nodeData m a) key)
    {c₀ : Bool} {l₀ r₀ : ColorTree Entry} {x : Entry}
    (h : InsertInv S m₀ m V ctx (.node c₀ l₀ x r₀) node key v)
    (hsort : Sorted (plug ctx (.node c₀ l₀ x r₀)).toList)
    (hfuel : 3 * (ColorTree.node c₀ l₀ x r₀).toList.length + 1 ≤ fuel + 1)
    (ih : DescendsBelow S m₀ tree args node key (ColorTree.node c₀ l₀ x r₀).toList.length) :
    InsertDone S m₀ tree node key (plug ctx (.node c₀ l₀ x r₀)).toList
      (insertLoop (fuel + 1) m tree node args v) := by
  obtain ⟨k, hbt, hbc⟩ := h.balanced
  obtain ⟨V₁, hs₁, hz₁, hoff₁, hv₁⟩ :=
    insertVisit_spec h.sim h.zip tree h.mem h.ne_head h.fresh h.loose h.hand
      (fun h0 => absurd h0 (by simp))
  have hv : insertVisit m tree node v = ((insertVisit m tree node v).1, tree, v) := by
    rw [← Prod.eta (insertVisit m tree node v), hv₁]; rfl
  generalize (insertVisit m tree node v).1 = m₁ at hs₁ hv
  have hlist : (colorFlip (.node c₀ l₀ x r₀)).toList = (ColorTree.node c₀ l₀ x r₀).toList :=
    toList_colorFlip _
  have htest := h.repair_test hs₁ hz₁
  -- what the invariant says about a flipped node, before it is named
  have hframes : ∀ {p rest}, (colorFlip (.node c₀ l₀ x r₀)).isRed = true → ctx = p :: rest →
      p.red = true → _ := fun hr => h.repair_frames (t := .node c₀ l₀ x r₀) hr
  have huncle := h.uncle_down x (decide (x.key < key))
  have ht₁ := balanced_colorFlip hbt
  have hquiet : (ColorTree.node c₀ l₀ x r₀).isRed = false →
      (colorFlip (.node c₀ l₀ x r₀)).isRed = true →
      ∀ d, Quiet ((colorFlip (.node c₀ l₀ x r₀)).child d) :=
    fun hb => quiet_child_colorFlip (hb ▸ hbt)
  simp only [visited] at hz₁ htest
  obtain ⟨c, l, r, hflip⟩ : ∃ c l r, colorFlip (.node c₀ l₀ x r₀) = .node c l x r := by
    simp only [colorFlip]; split <;> exact ⟨_, _, _, rfl⟩
  rw [hflip] at hz₁ htest hlist huncle ht₁ hquiet hframes
  obtain ⟨d, hd⟩ : ∃ d, d = decide (x.key < key) := ⟨_, rfl⟩
  rw [← hd] at huncle
  have hL : (plug ctx (.node c l x r)).toList = (plug ctx (.node c₀ l₀ x r₀)).toList :=
    toList_plug_congr hlist
  have hfresh : ∀ {ctx' t'}, (plug ctx' t').toList = (plug ctx (.node c₀ l₀ x r₀)).toList →
      node ∉ zipNodes ctx' t' :=
    fun hL' hmem => h.fresh ((perm_zipNodes_of_toList hL').mem_iff.mp hmem)
  have hfresh₁ := hfresh hL
  have hloose₁ : Loose V₁ node key := by
    rw [Loose, hoff₁ node h.fresh h.ne_head]; exact h.loose
  have hxn : x.addr ≠ node := by
    rintro rfl
    exact hfresh₁ (by simp [zipNodes, treeNodes, Entry.nodes])
  have hdup : (v.duplicate && x.addr != node) = true := by
    rw [h.dup, Bool.true_and, bne_iff_ne]; exact hxn
  have hsmall := length_child_lt c d l r x
  rw [hlist] at hsmall
  -- the rest of the loop, from a smaller tree at the cursor and in the same order of nodes
  have hih : ∀ {fuel' m'} (V' : Nat → NodeView) (ctx' : List (Frame Entry)) {t' v'},
      t'.toList.length < (ColorTree.node c₀ l₀ x r₀).toList.length →
      3 * t'.toList.length + 1 ≤ fuel' →
      (plug ctx' t').toList = (plug ctx (.node c₀ l₀ x r₀)).toList →
      InsertInv S m₀ m' V' ctx' t' node key v' →
      InsertDone S m₀ tree node key (plug ctx (.node c₀ l₀ x r₀)).toList
        (insertLoop fuel' m' tree node args v') := by
    intro fuel' m' V' ctx' t' v' hlen hf hL' hinv
    rw [← hL']
    exact ih _ _ _ _ _ _ hlen hf hinv (by rw [hL']; exact hsort)
  by_cases hviol : (c && topRed ctx) = true
  · -- the flip made a red node below a red parent
    obtain ⟨rfl, hred⟩ := Bool.and_eq_true_iff.mp hviol
    obtain ⟨p, rest, rfl⟩ : ∃ p rest, ctx = p :: rest := by
      cases ctx with
      | nil => exact absurd hred (by simp [topRed])
      | cons p rest => exact ⟨p, rest, rfl⟩
    obtain ⟨g, rest', hctx', hg, hvp, hvg, hvt, hvd, hvl⟩ := hframes rfl rfl hred
    cases hctx'
    have hc₀ := (hbc.1 hred).1
    rw [hc₀] at hbc
    have hq := hquiet hc₀ rfl d
    obtain ⟨V₂, hs₂, hz₂, hoff₂⟩ := insertRotate_spec hs₁ hz₁ rfl hred h.hand hvp hvg hvt hvl
    have hL₂ := toList_rotateUp p g rest' (.node true l x r) (by simp)
    rw [hL] at hL₂
    have hloose₂ : Loose V₂ node key := by
      rw [Loose, hoff₂ node hfresh₁ h.ne_head]; exact hloose₁
    have hkey₂ : nodeData (insertRotate m₁ v) node = key := by
      rw [hs₂.nodeData_eq h.mem, show V₂ node = _ from hloose₂]
    by_cases hxk : x.key = key
    · -- the match: the node goes into its chain, after the rotation
      obtain ⟨c', d', s', o', k', hroot, hc', hb'⟩ := rotateUp_root hbc hred hg ht₁
      rw [hroot] at hz₂ hL₂
      rw [insertLoop_stop hcmp hv rfl hs₂ hz₂ h.hand hkey₂ hxk, if_pos hdup]
      exact stop_dup hs₂ hz₂ ⟨k', hc', hb'⟩ h.mem h.ne_head (hfresh hL₂) hloose₂ hxk hL₂.symm
    · by_cases hdir : p.dir = g.dir
      · -- single rotation: the cursor stays at the node
        have hbal := balanced_rotateUp_single hbc hred hg
        simp only [rotateUp, if_pos hdir] at hz₂ hL₂
        rw [node_eq_join true d] at hz₂ hL₂ ht₁
        rw [isRed_join] at ht₁
        rw [insertLoop_descend hcmp hv rfl hs₂ hz₂ h.hand hkey₂ hxk hd]
        refine hih V₂ (⟨true, x, d, _⟩ :: _ :: _) hsmall (by omega) hL₂ ?_
        refine .of_stale hs₂ hz₂.down h.mem h.ne_head (hfresh hL₂) hloose₂ ?_ rfl
          h.dup (hbal.down ht₁) hq rfl hvp rfl
        exact OnPath.cons (OnPath.cons (fun f hf => h.path f (by simp [hf])) (h.path p (by simp)).1
          (h.path p (by simp)).2) hxk hd
      · -- double rotation: the cursor goes through one of the turned nodes
        have hd' : p.dir = !g.dir := by
          cases hpd : p.dir <;> cases hgd : g.dir <;> simp_all
        obtain ⟨hbc₂, hbt₂⟩ := balanced_rotateUp_double hbc hred hg ht₁
        simp only [rotateUp, if_neg hdir] at hz₂ hL₂
        have hpath' : OnPath key rest' := fun f hf => h.path f (by simp [hf])
        obtain ⟨fuel, rfl⟩ : ∃ f, fuel = f + 1 := ⟨fuel - 1, by omega⟩
        by_cases hdg : d = g.dir
        · -- towards the old parent
          rw [hdg] at hq hsmall hd
          rw [insertLoop_descend hcmp hv rfl hs₂ hz₂ h.hand hkey₂ hxk hd]
          rw [← join_not true g.dir] at hz₂ hL₂ hbt₂
          rw [← hd'] at hz₂ hL₂ hbt₂
          rw [insertLoop_double (f := p) hcmp hs₂ hz₂ hq.2.1 (h.path p (by simp)) h.mem hloose₂
            (rootAddr_join ..) rfl]
          obtain ⟨k₁, hb₁, hc₁⟩ := hbc₂.down hbt₂
          rw [isRed_join] at hb₁ hc₁
          refine hih V₂ (⟨true, p.x, p.dir, p.sib⟩ :: ⟨false, x, g.dir, _⟩ :: rest') hsmall
            (by omega) hL₂ ?_
          refine .of_stale hs₂ hz₂.down.down h.mem h.ne_head (hfresh hL₂) hloose₂ ?_ rfl
            h.dup (hc₁.down hb₁) hq rfl rfl rfl
          exact OnPath.cons (hpath'.cons hxk hd) (h.path p (by simp)).1 (h.path p (by simp)).2
        · -- towards the old grandparent
          have hdg' : d = !g.dir := Bool.eq_not.mpr hdg
          rw [hdg'] at hq hsmall hd
          rw [← join_not false g.dir] at hz₂ hL₂ hbt₂
          rw [insertLoop_descend hcmp hv rfl hs₂ hz₂ h.hand hkey₂ hxk hd]
          rw [insertLoop_double (f := g) hcmp hs₂ hz₂ hq.2.1 (h.path g (by simp)) h.mem hloose₂
            (rootAddr_join ..) rfl]
          obtain ⟨k₁, hb₁, hc₁⟩ := hbc₂.down hbt₂
          rw [isRed_join] at hb₁ hc₁
          refine hih V₂ (⟨true, g.x, g.dir, g.sib⟩ :: ⟨false, x, !g.dir, _⟩ :: rest') hsmall
            (by omega) hL₂ ?_
          refine .of_stale hs₂ hz₂.down.down h.mem h.ne_head (hfresh hL₂) hloose₂ ?_ rfl
            h.dup (hc₁.down hb₁) hq rfl rfl rfl
          exact OnPath.cons (hpath'.cons hxk hd) (h.path g (by simp)).1 (h.path g (by simp)).2
  · -- nothing to repair
    rw [Bool.not_eq_true] at hviol
    have hrot : insertRotate m₁ v = m₁ := by
      refine insertRotate_of_not ?_
      rw [isRed_node, hviol] at htest
      rw [h.hand]
      exact htest
    have hkey₁ : nodeData m₁ node = key := by
      rw [hs₁.nodeData_eq h.mem, show V₁ node = _ from hloose₁]
    have hbc₁ : CtxBalanced ctx c k := by
      by_cases hcc : c = c₀
      · rw [hcc]; exact hbc
      · -- only a flip changes the colour, and it paints the node red
        have hc : c = true := by
          simp only [colorFlip] at hflip
          split at hflip
          · cases hflip; rfl
          · cases hflip; exact absurd rfl hcc
        refine hbc.recolor fun p rest hctx => ?_
        rw [hctx, hc] at hviol
        exact hviol
    rw [node_eq_join c d] at hz₁ ht₁ hL hfresh₁
    rw [isRed_join] at ht₁
    by_cases hxk : x.key = key
    · rw [insertLoop_stop hcmp hv hrot hs₁ hz₁ h.hand hkey₁ hxk, if_pos hdup]
      exact stop_dup hs₁ hz₁ ⟨k, hbc₁, ht₁⟩ h.mem h.ne_head hfresh₁ hloose₁ hxk hL.symm
    · rw [insertLoop_descend hcmp hv hrot hs₁ hz₁ h.hand hkey₁ hxk hd]
      refine hih V₁ (⟨c, x, d, _⟩ :: ctx) hsmall (by omega) hL ?_
      exact
        { sim := hs₁
          zip := hz₁.down
          mem := h.mem
          ne_head := h.ne_head
          fresh := hfresh hL
          loose := hloose₁
          path := h.path.cons hxk hd
          hand := rfl
          dup := h.dup
          balanced := hbc₁.down ht₁
          calm := Or.inl ⟨h.ptr_down rfl rfl rfl rfl rfl, huncle⟩
          nonempty := fun _ => by simp }

/-- **The descent of `insert_rbnode`.** From any state of the loop it ends, with
    the tree balanced and the node inserted at its place in the order. -/
theorem insertLoop_spec {A : Type} {tree : RbTree A} {args : Option A}
    (hcmp : ∀ m a, tree.compare m a key args = exactCmp (nodeData m a) key) (N : Nat) :
    DescendsBelow S m₀ tree args node key N := by
  -- on the size of the subtree in hand; a double rotation takes three
  -- iterations before the cursor reaches a smaller one
  induction N using Nat.strong_induction_on with
  | _ N ih =>
    intro fuel m V ctx t v hlen hfuel h hsort
    obtain ⟨fuel, rfl⟩ : ∃ f, fuel = f + 1 := ⟨fuel - 1, by omega⟩
    cases t with
    | nil => exact insertLoop_nil hcmp h hsort
    | node c l x r => exact insertLoop_node hcmp h hsort hfuel (ih _ hlen)

end Descent

/-! ## `insert_rbnode` -/

section Insert

variable {L L' : List Entry} {node key : Nat} {dup : Bool}

theorem Inserted.sorted (h : Inserted node key L L' dup) (hs : Sorted L) : Sorted L' := by
  cases h with
  -- the new entry fits between its neighbours
  | new A B hL hL' hA hB =>
    subst hL hL'
    obtain ⟨ha, hb, hab⟩ := List.pairwise_append.mp hs
    refine List.pairwise_append.mpr ⟨ha, List.pairwise_cons.mpr ⟨hB, hb⟩, ?_⟩
    intro a hmem b hb'
    rcases List.mem_cons.mp hb' with rfl | hb'
    · exact hA a hmem
    · exact hab a hmem b hb'
  | dup A B x hL hx hL' =>
    subst hL hL'
    -- a duplicate adds no key
    have hkeys : ∀ L : List Entry, Sorted L ↔ (L.map Entry.key).Pairwise (· < ·) :=
      fun L => List.pairwise_map.symm
    rw [hkeys] at hs ⊢
    simpa using hs

/-- The nodes after an insertion. -/
theorem Inserted.perm_nodes (h : Inserted node key L L' dup) :
    (L'.flatMap Entry.nodes).Perm (node :: L.flatMap Entry.nodes) := by
  cases h with
  | new A B hL hL' =>
    subst hL hL'
    simp only [List.flatMap_append, List.flatMap_cons, Entry.nodes, List.cons_append,
      List.nil_append]
    exact List.perm_middle
  | dup A B x hL hx hL' =>
    subst hL hL'
    simp only [List.flatMap_append, List.flatMap_cons, Entry.nodes, List.cons_append]
    refine (List.Perm.append_left _ (List.Perm.swap _ _ _)).trans ?_
    exact List.perm_middle

/-- The two counts after an insertion. -/
theorem Inserted.counts (h : Inserted node key L L' dup) :
    L'.length = L.length + (!dup).toNat ∧ dupCount L' = dupCount L + dup.toNat := by
  cases h with
  | new A B hL hL' =>
    subst hL hL'
    simp [dupCount, Nat.add_assoc]
  | dup A B x hL hx hL' =>
    subst hL hL'
    simp only [dupCount, List.length_append, List.length_cons, List.map_append, List.map_cons,
      List.sum_append, List.sum_cons, Bool.not_true, Bool.toNat_false, Bool.toNat_true]
    omega

/-- The first lines of `insert_rbnode` clear whatever the link words held. -/
private theorem loosen {N : List Nat} (hN : NodesOk N) (hn : node ∈ N) (m : Mem) :
    ∃ V, Sim (withHead N) m
        (paintRed (setLink (setLink (setLink m node 0 0) node 1 0) node 2 0) node) V ∧
      Loose V node (nodeData m node) ∧ ∀ b, b ≠ node → V b = view m b := by
  have hS : node ∈ withHead N := Or.inr hn
  have h0 := (Sim.refl hN.space m).setLink_kid hS (Or.inl rfl) false
  have h1 := h0.setLink_kid hS (Or.inl rfl) true
  have h2 := (h1.setLink_dup hS (Or.inl rfl)).paintRed_sim hS
  refine ⟨_, h2, ?_, ?_⟩
  · -- the node itself: red, without children and duplicates
    rw [Loose, setRed, Function.update_self, setDup, Function.update_self]
    have hkid : (setKid (setKid (view m) node false 0) node true 0 node).kid = fun _ => 0 := by
      funext d
      cases d <;> simp [setKid_kid]
    dsimp only
    rw [hkid]
    simp [view]
  · intro b hb
    rw [setRed_of_ne _ _ hb, setDup_of_ne _ _ hb, setKid_of_ne _ _ _ hb, setKid_of_ne _ _ _ hb]

/-- The counters after an insertion into a non-empty tree. -/
private theorem countInsert_eq {A : Type} {tree : RbTree A}
    (h : Inserted node key L L' dup) (hn : tree.numNodes = L.length)
    (hd : tree.numDup = dupCount L) (hsmall : L'.length + dupCount L' < 2 ^ 32) :
    (countInsert tree dup).numNodes = L'.length ∧
      (countInsert tree dup).numDup = dupCount L' := by
  obtain ⟨h1, h2⟩ := h.counts
  cases dup with
  -- a node of the tree
  | false =>
    simp only [Bool.not_false, Bool.toNat_true, Bool.toNat_false] at h1 h2
    simp only [countInsert, cond_false]
    rw [hn, hd, add32_of_lt (by omega)]
    omega
  -- a duplicate
  | true =>
    simp only [Bool.not_true, Bool.toNat_true, Bool.toNat_false] at h1 h2
    simp only [countInsert, cond_true]
    rw [hn, hd, add32_of_lt (by omega)]
    omega

/-- **`insert_rbnode`.** On a valid tree and a node outside it, whatever its link
    words hold, the call ends with a valid tree that holds the node as well. -/
theorem insertRbnode_spec {A : Type} {m : Mem} {tree : RbTree A} {T : ColorTree Entry}
    {args : Option A} (h : ValidTree m tree T) (hN : NodesOk (node :: treeNodes T))
    (hcmp : ∀ m' a, tree.compare m' a (nodeData m node) args =
      exactCmp (nodeData m' a) (nodeData m node)) :
    ∃ m' tree' T' dup, insertRbnode m tree node args = some (1, m', tree') ∧
      ValidTree m' tree' T' ∧ Inserted node (nodeData m node) T.toList T'.toList dup ∧
      tree'.compare = tree.compare ∧ tree'.selectDup = tree.selectDup ∧
      SameOff (node :: treeNodes T) m m' := by
  have hmem : node ∈ node :: treeNodes T := List.mem_cons_self
  have hfresh : node ∉ treeNodes T := (List.nodup_cons.mp hN.nodup).1
  have hn0 : node ≠ 0 := by have := hN.pos node hmem; omega
  have hh : node ≠ headAddr := fun h => headAddr_not_mem hN (h ▸ hmem)
  -- the links of the node are cleared and it is painted red
  obtain ⟨V₁, hs₁, hl₁, hV₁⟩ := loosen hN hmem m
  simp only [insertRbnode, if_neg hn0]
  generalize paintRed (setLink (setLink (setLink m node 0 0) node 1 0) node 2 0) node = m₁ at *
  have hview₁ : ∀ a ∈ node :: treeNodes T, view m₁ a = V₁ a := fun a ha =>
    hs₁.view_eq a (Or.inr ha)
  have hmodels : Models (view m₁) T := h.models.congr fun a ha => by
    rw [hview₁ a (List.mem_cons_of_mem _ ha), hV₁ a (fun hab => hfresh (hab ▸ ha))]
  by_cases hroot : tree.root = 0
  · -- the first node of the tree
    have hT : T = .nil := by
      rw [h.root] at hroot
      cases T with
      | nil => rfl
      | node c l x r =>
        have := h.nodes.pos _ (rootAddr_mem (t := .node c l x r) (by simp))
        omega
    subst hT
    rw [if_pos hroot]
    have hs₂ := hs₁.paintBlack_sim (a := node) (Or.inr hmem)
    refine ⟨_, _, .node false .nil ⟨node, nodeData m node, []⟩ .nil, false, rfl, ?_, ?_, rfl, rfl,
      hs₂.sameOff⟩
    · refine ⟨rfl, ?_, by simpa [treeNodes, Entry.nodes] using hN, ⟨1, .black .nil .nil⟩,
        by simp [Sorted], fun _ => by simp [dupCount]⟩
      have hv : view (paintBlack m₁ node) node = ⟨nodeData m node, false, fun _ => 0, 0⟩ := by
        rw [hs₂.view_eq node (Or.inr hmem), setRed, Function.update_self, hl₁]
      simp only [Models, EntryModels, hv]
      simp [rootAddr, Chain]
    · exact .new [] [] rfl rfl (by simp) (by simp)
  · -- the descent starts at the root, below the head on the stack
    rw [if_neg hroot]
    have hT : T ≠ .nil := by
      rintro rfl
      exact hroot h.root
    obtain ⟨V, hs, hz, hV⟩ := enter_tree hN hmodels h.nodes.nodup
      (fun a ha => List.mem_cons_of_mem _ ha)
    obtain ⟨k, hbal⟩ := h.black
    have hloose : Loose V node (nodeData m node) := by
      rw [Loose, hV node hmem, hview₁ node hmem]; exact hl₁
    have hlen := length_toList_le T
    have hle := hN.length_le
    rw [List.length_cons] at hle
    have hinv : InsertInv (withHead (node :: treeNodes T)) (initHead m₁)
        (setLink (initHead m₁) headAddr 1 tree.root) V [] T node (nodeData m node)
        { t := headAddr, g := 0, p := 0, n := tree.root, dir := false, last := false,
          duplicate := true } :=
      { sim := by rw [h.root]; exact hs
        zip := hz
        mem := Or.inr hmem
        ne_head := hh
        fresh := by simpa [zipNodes, ctxNodes] using hfresh
        loose := hloose
        path := by simp [OnPath]
        hand := h.root
        dup := rfl
        balanced := ⟨k, hbal.isRed_eq.symm ▸ hbal, trivial⟩
        calm := Or.inl ⟨⟨rfl, rfl, rfl⟩, by rw [hbal.isRed_eq]; simp, by simp⟩
        nonempty := fun h0 => absurd h0 hT }
    obtain ⟨m₂, V₂, T₂, dup, hr, hs₂, hz₂, ⟨c, n, hb₂⟩, hins⟩ :=
      insertLoop_spec hcmp (T.toList.length + 1) loopBound _ V [] T _ (by omega)
        (by simp only [loopBound]; omega) hinv h.sorted
    have hne₂ : rootAddr T₂ ≠ 0 := by
      have hT₂ : T₂ ≠ .nil := by
        rintro rfl
        cases hins with
        | new A B _ h0 => simp at h0
        | dup A B x _ _ h0 => simp at h0
      have := hs₂.space.pos _ (hz₂.root_mem hT₂).1
      omega
    -- the root is taken from the head, and painted black
    obtain ⟨m₃, hm₃, hmod₃, hoff₃⟩ := hs₂.leave hz₂
    rw [if_pos hne₂] at hm₃
    have hperm : (treeNodes T₂).Perm (node :: treeNodes T) :=
      (perm_treeNodes T₂).trans (hins.perm_nodes.trans ((perm_treeNodes T).symm.cons _))
    have hcount := countInsert_eq hins (h.count hT).1 (h.count hT).2 (by
      rw [length_toList_le, hperm.length_eq, List.length_cons]
      omega)
    refine ⟨m₃, { countInsert tree dup with root := rootAddr T₂ }, T₂.paint false, dup, ?_,
      ⟨?_, hmod₃, ?_, hb₂.paint_black, ?_, ?_⟩, ?_, ?_, ?_,
      hs₁.sameOff.trans ((initHead_sameOff m₁).trans hoff₃)⟩
    · simp only [hr, hs₂.getLink_head hz₂, hm₃]
    · exact (rootAddr_paint ..).symm
    · rw [treeNodes_paint]; exact hN.perm hperm
    · rw [toList_paint]; exact hins.sorted h.sorted
    · intro _
      rw [toList_paint]
      exact hcount
    · rw [toList_paint]; exact hins
    · cases dup <;> rfl
    · cases dup <;> rfl

end Insert

end Toutatis
