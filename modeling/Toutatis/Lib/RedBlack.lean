import Mathlib

/-!
# Red-black trees with a cursor

Red-black trees over an arbitrary payload, with a zipper (`Frame`, `plug`) that
focuses on one subtree, and the local moves of the single-pass top-down
algorithms: the colour flip and the rotations of an insertion (`colorFlip`,
`rotateUp`) and the red push of a deletion (`pushDown`).

`true` is red and, for a direction, right. A subtree in focus and its context
are balanced separately (`Balanced`, `CtxBalanced`), so that every move is
checked on the few nodes it touches.

## Key results

- `Balanced.height_le`: a path has at most twice the black height
- `toList_plug`: the in-order list around the focus
- `balanced_colorFlip` / `balanced_rotateUp_single` / `balanced_rotateUp_double`:
  the insertion moves
- `pushDown_balanced` / `pushDown_ready`: the deletion move
-/

namespace RedBlack

universe u

/-- A binary tree of coloured nodes; `true` is red. -/
inductive ColorTree (α : Type u) where
  | nil : ColorTree α
  | node (red : Bool) (l : ColorTree α) (x : α) (r : ColorTree α) : ColorTree α

namespace ColorTree

variable {α : Type u}

/-- In-order list of the payloads. -/
def toList : ColorTree α → List α
  | nil => []
  | node _ l x r => l.toList ++ x :: r.toList

/-- The empty tree counts as black. -/
def isRed : ColorTree α → Bool
  | nil => false
  | node c _ _ _ => c

/-- Whether the tree is empty. -/
def isNil : ColorTree α → Bool
  | nil => true
  | node .. => false

/-- Recolour the root. -/
def paint (c : Bool) : ColorTree α → ColorTree α
  | nil => nil
  | node _ l x r => node c l x r

/-- The subtree on side `d`. -/
def child (d : Bool) : ColorTree α → ColorTree α
  | nil => nil
  | node _ l _ r => bif d then r else l

/-- A node with `s` on side `d` and `o` on the other one. -/
def join (c : Bool) (x : α) : (d : Bool) → (s o : ColorTree α) → ColorTree α
  | false, s, o => node c s x o
  | true, s, o => node c o x s

/-- The nodes from the root down that lie on side `d` of their parents. -/
def sideSpine (d : Bool) : ColorTree α → List α
  | nil => []
  | node _ l x r => x :: bif d then r.sideSpine d else l.sideSpine d

/-- Number of nodes on the longest path from the root to a leaf. -/
def height : ColorTree α → Nat
  | nil => 0
  | node _ l _ r => max l.height r.height + 1

/-- `Balanced t c n`: no red node has a red child, every path has `n` black
    nodes, and the root is red iff `c`. -/
inductive Balanced : ColorTree α → Bool → Nat → Prop where
  | nil : Balanced nil false 0
  | red {l r : ColorTree α} {x : α} {n : Nat} :
      Balanced l false n → Balanced r false n → Balanced (node true l x r) true n
  | black {l r : ColorTree α} {x : α} {c₁ c₂ : Bool} {n : Nat} :
      Balanced l c₁ n → Balanced r c₂ n → Balanced (node false l x r) false (n + 1)

/-! ## Basic lemmas -/

/-- The empty tree has no element. -/
@[simp] theorem toList_nil : (nil : ColorTree α).toList = [] := rfl

/-- The elements in order. -/
@[simp] theorem toList_node (c : Bool) (l r : ColorTree α) (x : α) :
    (node c l x r).toList = l.toList ++ x :: r.toList := rfl

/-- The empty tree counts as black. -/
@[simp] theorem isRed_nil : (nil : ColorTree α).isRed = false := rfl

/-- The color of a node. -/
@[simp] theorem isRed_node (c : Bool) (l r : ColorTree α) (x : α) :
    (node c l x r).isRed = c := rfl

/-- The children of the empty tree are empty. -/
@[simp] theorem child_nil (d : Bool) : (nil : ColorTree α).child d = nil := rfl

/-- The left child. -/
@[simp] theorem child_false (c : Bool) (l r : ColorTree α) (x : α) :
    (node c l x r).child false = l := rfl

/-- The right child. -/
@[simp] theorem child_true (c : Bool) (l r : ColorTree α) (x : α) :
    (node c l x r).child true = r := rfl

/-- A new color keeps the elements. -/
@[simp] theorem toList_paint (c : Bool) (t : ColorTree α) : (t.paint c).toList = t.toList := by
  cases t <;> rfl

/-- The color of a tree that is put together. -/
@[simp] theorem isRed_join (c d : Bool) (x : α) (s o : ColorTree α) : (join c x d s o).isRed = c := by
  cases d <;> rfl

/-- A new color for a tree that is put together. -/
@[simp] theorem paint_join (c c' d : Bool) (x : α) (s o : ColorTree α) :
    (join c x d s o).paint c' = join c' x d s o := by
  cases d <;> rfl

/-- The child on the side of `join`. -/
@[simp] theorem child_join_same (c d : Bool) (x : α) (s o : ColorTree α) :
    (join c x d s o).child d = s := by
  cases d <;> rfl

/-- The child on the other side. -/
@[simp] theorem child_join_other (c d : Bool) (x : α) (s o : ColorTree α) :
    (join c x d s o).child (!d) = o := by
  cases d <;> rfl

/-- Every node is a `join` on either side. -/
theorem node_eq_join (c d : Bool) (l r : ColorTree α) (x : α) :
    node c l x r = join c x d ((node c l x r).child d) ((node c l x r).child (!d)) := by
  cases d <;> rfl

/-- A child has fewer elements. -/
theorem length_child_lt (c d : Bool) (l r : ColorTree α) (x : α) :
    ((node c l x r).child d).toList.length < (node c l x r).toList.length := by
  cases d
  · simp
  · simp; omega

/-- The color of a balanced tree is the one of its root. -/
theorem Balanced.isRed_eq {t : ColorTree α} {c : Bool} {n : Nat} (h : Balanced t c n) :
    t.isRed = c := by
  cases h <;> rfl

/-- The empty tree is black and has height 0. -/
theorem balanced_nil_iff {c : Bool} {n : Nat} :
    Balanced (nil : ColorTree α) c n ↔ c = false ∧ n = 0 := by
  constructor
  · intro h; cases h; exact ⟨rfl, rfl⟩
  · rintro ⟨rfl, rfl⟩; exact .nil

/-- A red node over two black trees. -/
theorem balanced_join_red {x : α} {d : Bool} {s o : ColorTree α} {n : Nat}
    (hs : Balanced s false n) (ho : Balanced o false n) : Balanced (join true x d s o) true n := by
  cases d
  · exact .red hs ho
  · exact .red ho hs

/-- A black node over two trees. -/
theorem balanced_join_black {x : α} {d c₁ c₂ : Bool} {s o : ColorTree α} {n : Nat}
    (hs : Balanced s c₁ n) (ho : Balanced o c₂ n) :
    Balanced (join false x d s o) false (n + 1) := by
  cases d
  · exact .black hs ho
  · exact .black ho hs

/-- The children of a red node are black and as high. -/
theorem Balanced.child_of_red {l r : ColorTree α} {x : α} {c : Bool} {n : Nat}
    (h : Balanced (node true l x r) c n) (d : Bool) :
    Balanced ((node true l x r).child d) false n := by
  cases h with
  | red hl hr => cases d <;> assumption

/-- The children of a black node are one lower. -/
theorem Balanced.child_of_black {l r : ColorTree α} {x : α} {c : Bool} {n : Nat}
    (h : Balanced (node false l x r) c n) (d : Bool) :
    ∃ k, n = k + 1 ∧
      Balanced ((node false l x r).child d) ((node false l x r).child d).isRed k := by
  cases h with
  | black hl hr =>
    refine ⟨_, rfl, ?_⟩
    cases d
    · exact hl.isRed_eq.symm ▸ hl
    · exact hr.isRed_eq.symm ▸ hr

/-- Painting the root of a red tree black adds one to its black height. -/
theorem Balanced.paint_black_of_red {t : ColorTree α} {n : Nat} (h : Balanced t true n) :
    Balanced (t.paint false) false (n + 1) := by
  cases h with
  | red hl hr => exact .black hl hr

/-- Whatever the colour of the root, painting it black keeps the tree balanced. -/
theorem Balanced.paint_black {t : ColorTree α} {c : Bool} {n : Nat} (h : Balanced t c n) :
    ∃ k, Balanced (t.paint false) false k := by
  cases h with
  | nil => exact ⟨0, .nil⟩
  | red hl hr => exact ⟨_, .black hl hr⟩
  | black hl hr => exact ⟨_, .black hl hr⟩

/-- Every path has the same number of black nodes, so there is one black height. -/
theorem Balanced.height_unique {t : ColorTree α} {c c' : Bool} {n n' : Nat}
    (h : Balanced t c n) (h' : Balanced t c' n') : n = n' := by
  induction h generalizing c' n' with
  | nil => exact (balanced_nil_iff.mp h').2.symm
  | red _ _ ihl _ =>
    cases h' with
    | red hl' _ => exact ihl hl'
  | black _ _ ihl _ =>
    cases h' with
    | black hl' _ => exact congrArg (· + 1) (ihl hl')

/-- A black tree without black nodes is empty. -/
theorem Balanced.eq_nil {t : ColorTree α} (h : Balanced t false 0) : t = ColorTree.nil := by
  cases h; rfl

/-! ## Height -/

/-- A path has at most two nodes per black node, plus a red root. -/
theorem Balanced.height_le {t : ColorTree α} {c : Bool} {n : Nat} (h : Balanced t c n) :
    t.height ≤ 2 * n + c.toNat := by
  induction h with
  | nil => simp [height]
  | red hl hr ihl ihr =>
    simp only [height, Bool.toNat_false, Bool.toNat_true] at *
    omega
  | @black _ _ _ c₁ c₂ _ hl hr ihl ihr =>
    have h₁ := c₁.toNat_le
    have h₂ := c₂.toNat_le
    simp only [height, Bool.toNat_false] at *
    omega

/-- A tree of black height `n` has at least `2 ^ n - 1` nodes. -/
theorem Balanced.two_pow_le {t : ColorTree α} {c : Bool} {n : Nat} (h : Balanced t c n) :
    2 ^ n ≤ t.toList.length + 1 := by
  induction h with
  | nil => simp
  | red hl hr ihl ihr => simp only [toList_node, List.length_append, List.length_cons]; omega
  | black hl hr ihl ihr =>
    simp only [toList_node, List.length_append, List.length_cons, pow_succ]
    omega

/-- The height of a red-black tree with a black root is logarithmic. -/
theorem Balanced.height_le_log {t : ColorTree α} {n : Nat} (h : Balanced t false n) :
    t.height ≤ 2 * Nat.log 2 (t.toList.length + 1) := by
  have hn : n ≤ Nat.log 2 (t.toList.length + 1) :=
    Nat.le_log_of_pow_le (by omega) h.two_pow_le
  have hh := h.height_le
  simp only [Bool.toNat_false] at hh
  omega

end ColorTree

/-! ## The cursor -/

/-- One step of the path above the focus: a node whose child on side `dir` is
    the focus (or leads to it) and whose other child is `sib`. -/
structure Frame (α : Type u) where
  red : Bool
  x : α
  dir : Bool
  sib : ColorTree α

variable {α : Type u}

open ColorTree

/-- Put the focus back into its context; the innermost frame comes first. -/
def plug : List (Frame α) → ColorTree α → ColorTree α
  | [], t => t
  | f :: ctx, t => plug ctx (join f.red f.x f.dir t f.sib)

/-- The payloads in order before the focus. -/
def before : List (Frame α) → List α
  | [] => []
  | f :: ctx => before ctx ++ bif f.dir then f.sib.toList ++ [f.x] else []

/-- The payloads in order after the focus. -/
def after : List (Frame α) → List α
  | [] => []
  | f :: ctx => (bif f.dir then [] else f.x :: f.sib.toList) ++ after ctx

/-- All payloads of a context, frame by frame. -/
def ctxList : List (Frame α) → List α
  | [] => []
  | f :: ctx => f.x :: (f.sib.toList ++ ctxList ctx)

/-- `CtxBalanced ctx c n`: a balanced tree of black height `n` whose root is
    red iff `c` can stand at the focus. The root of the whole tree may be red. -/
def CtxBalanced : List (Frame α) → Bool → Nat → Prop
  | [], _, _ => True
  | f :: ctx, c, n =>
    (f.red = true → c = false ∧ f.sib.isRed = false) ∧ Balanced f.sib f.sib.isRed n ∧
      CtxBalanced ctx f.red (bif f.red then n else n + 1)

/-- In-order list of a plugged tree. -/
theorem toList_plug (ctx : List (Frame α)) (t : ColorTree α) :
    (plug ctx t).toList = before ctx ++ (t.toList ++ after ctx) := by
  induction ctx generalizing t with
  | nil => simp [plug, before, after]
  | cons f ctx ih =>
    rw [plug, ih]
    rcases f with ⟨c, x, d, sib⟩
    cases d <;> simp [join, before, after]

/-- The in-order list is a rearrangement of the context and the focus. -/
theorem perm_ctxList (ctx : List (Frame α)) (t : ColorTree α) :
    (plug ctx t).toList.Perm (ctxList ctx ++ t.toList) := by
  induction ctx generalizing t with
  | nil => simp [plug, ctxList]
  | cons f ctx ih =>
    rw [plug]
    refine (ih _).trans ?_
    rcases f with ⟨c, x, d, sib⟩
    have hjoin : (join c x d t sib).toList.Perm (x :: (sib.toList ++ t.toList)) := by
      -- the elements of the sibling stand on either side
      cases d
      · exact List.perm_middle.trans (List.perm_append_comm.cons x)
      · exact List.perm_middle
    refine (hjoin.append_left _).trans (List.perm_middle.trans ?_)
    simp only [ctxList, List.cons_append, List.append_assoc]
    refine List.Perm.cons x ?_
    rw [← List.append_assoc, ← List.append_assoc]
    exact List.perm_append_comm.append_right _

/-- A black tree may stand wherever a red one may. -/
theorem CtxBalanced.to_black {ctx : List (Frame α)} {c : Bool} {n : Nat}
    (h : CtxBalanced ctx c n) : CtxBalanced ctx false n := by
  cases ctx with
  | nil => trivial
  | cons f ctx => exact ⟨fun hr => ⟨rfl, (h.1 hr).2⟩, h.2⟩

/-- Focus and context balanced: so is the whole tree. -/
theorem CtxBalanced.plug_balanced {ctx : List (Frame α)} {t : ColorTree α} {c : Bool} {n : Nat}
    (h : CtxBalanced ctx c n) (ht : Balanced t c n) :
    ∃ c' n', Balanced (plug ctx t) c' n' := by
  induction ctx generalizing t c n with
  | nil => exact ⟨c, n, ht⟩
  | cons f ctx ih =>
    obtain ⟨hr, hsib, hctx⟩ := h
    rcases f with ⟨fc, x, d, sib⟩
    cases fc with
    | false => exact ih hctx (balanced_join_black ht hsib)
    | true =>
      obtain ⟨rfl, hs⟩ := hr rfl
      exact ih hctx (balanced_join_red ht (hs ▸ hsib))

/-- The children of a balanced node, as `join` presents them. -/
theorem balanced_of_join {c d : Bool} {x : α} {s o : ColorTree α} {n : Nat}
    (h : Balanced (join c x d s o) c n) :
    ∃ k, n = (bif c then k else k + 1) ∧ Balanced s s.isRed k ∧ Balanced o o.isRed k ∧
      (c = true → s.isRed = false ∧ o.isRed = false) := by
  have key : ∀ {l r : ColorTree α}, Balanced (node c l x r) c n →
      ∃ k, n = (bif c then k else k + 1) ∧ Balanced l l.isRed k ∧ Balanced r r.isRed k ∧
        (c = true → l.isRed = false ∧ r.isRed = false) := by
    intro l r h
    cases h with
    -- a red node: both children are black, and as high as the node
    | red hl hr =>
      refine ⟨n, rfl, ?_, ?_, fun _ => ⟨hl.isRed_eq, hr.isRed_eq⟩⟩
      · exact hl.isRed_eq.symm ▸ hl
      · exact hr.isRed_eq.symm ▸ hr
    -- a black node adds one to the height
    | black hl hr =>
      refine ⟨_, rfl, ?_, ?_, by simp⟩
      · exact hl.isRed_eq.symm ▸ hl
      · exact hr.isRed_eq.symm ▸ hr
  cases d
  · exact key h
  · obtain ⟨k, hn, ho, hs, hc⟩ := key h
    exact ⟨k, hn, hs, ho, fun h => (hc h).symm⟩

/-- Moving the cursor down keeps focus and context balanced. -/
theorem CtxBalanced.down {ctx : List (Frame α)} {c d : Bool} {x : α} {s o : ColorTree α}
    {n : Nat} (hc : CtxBalanced ctx c n) (ht : Balanced (join c x d s o) c n) :
    ∃ k, Balanced s s.isRed k ∧ CtxBalanced (⟨c, x, d, o⟩ :: ctx) s.isRed k := by
  obtain ⟨k, hn, hs, ho, hred⟩ := balanced_of_join ht
  subst hn
  refine ⟨k, hs, hred, ho, ?_⟩
  cases c <;> exact hc

/-- Below a black node either colour may stand. -/
theorem CtxBalanced.recolor {ctx : List (Frame α)} {c c' : Bool} {n : Nat}
    (hp : ∀ p rest, ctx = p :: rest → p.red = false) (h : CtxBalanced ctx c n) :
    CtxBalanced ctx c' n := by
  cases ctx with
  | nil => trivial
  | cons f ctx =>
    refine ⟨fun hr => ?_, h.2⟩
    rw [hp f ctx rfl] at hr
    exact absurd hr (by simp)

/-! ## Insertion moves -/

/-- Both children red: colour flip. -/
def colorFlip : ColorTree α → ColorTree α
  | nil => nil
  | node c l x r =>
    if l.isRed && r.isRed then node true (l.paint false) x (r.paint false) else node c l x r

/-- A black node without two red children: no move starts here. -/
def Quiet (t : ColorTree α) : Prop :=
  t ≠ nil ∧ t.isRed = false ∧ ((t.child false).isRed && (t.child true).isRed) = false

/-- Rotate the red `t` below its red parent `p` towards the grandparent `g`:
    once when `p` and `t` lie on the same side, twice otherwise. Returns the
    context and the tree at the place of the last visited node. -/
def rotateUp (p g : Frame α) (ctx : List (Frame α)) (t : ColorTree α) :
    List (Frame α) × ColorTree α :=
  if p.dir = g.dir then
    (⟨false, p.x, p.dir, join true g.x g.dir p.sib g.sib⟩ :: ctx, t)
  else
    match t with
    | nil => (p :: g :: ctx, nil)
    | node c l x r =>
      (ctx, join false x g.dir
        (join true p.x g.dir p.sib ((node c l x r).child g.dir))
        (join true g.x g.dir ((node c l x r).child (!g.dir)) g.sib))

/-- A color flip keeps the elements. -/
@[simp] theorem toList_colorFlip (t : ColorTree α) : (colorFlip t).toList = t.toList := by
  cases t with
  | nil => rfl
  | node c l x r => simp only [colorFlip]; split <;> simp

/-- A flip keeps the black height. -/
theorem balanced_colorFlip {t : ColorTree α} {c : Bool} {n : Nat} (h : Balanced t c n) :
    Balanced (colorFlip t) (colorFlip t).isRed n := by
  cases t with
  | nil => exact h.isRed_eq ▸ h
  | node c' l x r =>
    simp only [colorFlip]
    split
    · -- two red children under a black node
      rename_i hlr
      rw [Bool.and_eq_true] at hlr
      cases h with
      | red hl hr => rw [hl.isRed_eq] at hlr; exact absurd hlr.1 (by simp)
      | @black _ _ _ c₁ c₂ _ hl hr =>
        obtain ⟨h₁, h₂⟩ := hlr
        rw [hl.isRed_eq] at h₁
        rw [hr.isRed_eq] at h₂
        subst h₁; subst h₂
        exact .red hl.paint_black_of_red hr.paint_black_of_red
    · -- no flip
      exact h.isRed_eq ▸ h

/-- After a flip no node has two red children. -/
theorem colorFlip_child (t : ColorTree α) :
    (((colorFlip t).child false).isRed && ((colorFlip t).child true).isRed) = false := by
  cases t with
  | nil => rfl
  | node c l x r =>
    simp only [colorFlip]
    split
    · cases l <;> simp [paint]
    · rename_i h
      simpa using h

/-- The children of a node that a flip turned red are quiet. -/
theorem quiet_child_colorFlip {t : ColorTree α} {n : Nat} (h : Balanced t false n)
    (hr : (colorFlip t).isRed = true) (d : Bool) : Quiet ((colorFlip t).child d) := by
  cases t with
  | nil => simp [colorFlip] at hr
  | node c l x r =>
    obtain rfl : c = false := h.isRed_eq
    simp only [colorFlip] at hr ⊢
    split at hr
    · rename_i hlr
      rw [if_pos hlr]
      rw [Bool.and_eq_true] at hlr
      -- each child was red, so its own children are black
      have hq : ∀ (s : ColorTree α) (c' : Bool) (k : Nat), Balanced s c' k → s.isRed = true →
          Quiet (s.paint false) := by
        intro s c' k hs hred
        cases hs with
        | nil => simp at hred
        | red hl hr' => exact ⟨by simp [paint], rfl, by simp [paint, hl.isRed_eq]⟩
        | black => simp at hred
      cases h with
      | black hl hr' =>
        cases d
        · exact hq _ _ _ hl hlr.1
        · exact hq _ _ _ hr' hlr.2
    · simp at hr

/-- Both rotations keep the in-order list. -/
theorem toList_rotateUp (p g : Frame α) (ctx : List (Frame α)) (t : ColorTree α) (ht : t ≠ nil) :
    (plug (rotateUp p g ctx t).1 (rotateUp p g ctx t).2).toList =
      (plug (p :: g :: ctx) t).toList := by
  rcases p with ⟨pc, px, pd, ps⟩
  rcases g with ⟨gc, gx, gd, gs⟩
  cases t with
  | nil => exact absurd rfl ht
  | node c l x r =>
    rw [toList_plug, toList_plug]
    cases pd <;> cases gd <;> simp [rotateUp, before, after, join]

/-- Context of a red node below a red parent: the grandparent is black. -/
private theorem grandparent_black {p g : Frame α} {ctx : List (Frame α)} {c : Bool} {n : Nat}
    (hc : CtxBalanced (p :: g :: ctx) c n) (hp : p.red = true) :
    g.red = false ∧ Balanced p.sib false n ∧ Balanced g.sib g.sib.isRed n ∧
      CtxBalanced ctx false (n + 1) := by
  obtain ⟨hpr, hps, hgr, hgs, hctx⟩ := hc
  rw [(hpr hp).2] at hps
  rw [hp] at hgr hgs hctx
  have hg : g.red = false := by
    cases hg : g.red with
    | false => rfl
    | true => exact absurd (hgr hg).1 (by simp)
  rw [hg] at hctx
  exact ⟨hg, hps, hgs, hctx⟩

/-- After a single rotation `t` hangs below a black parent. -/
theorem balanced_rotateUp_single {p g : Frame α} {ctx : List (Frame α)} {n : Nat}
    (hc : CtxBalanced (p :: g :: ctx) false n) (hp : p.red = true)
    (hu : g.sib.isRed = false) :
    CtxBalanced (⟨false, p.x, p.dir, join true g.x g.dir p.sib g.sib⟩ :: ctx) true n := by
  obtain ⟨hg, hps, hgs, hctx⟩ := grandparent_black hc hp
  rw [hu] at hgs
  refine ⟨by simp, ?_, hctx⟩
  rw [isRed_join]
  exact balanced_join_red hps hgs

/-- After a double rotation `t` is a black node in the place of its grandparent. -/
theorem balanced_rotateUp_double {p g : Frame α} {ctx : List (Frame α)} {c : Bool}
    {l r : ColorTree α} {x : α} {n : Nat}
    (hc : CtxBalanced (p :: g :: ctx) false n) (hp : p.red = true)
    (hu : g.sib.isRed = false) (ht : Balanced (node true l x r) c n) :
    CtxBalanced ctx false (n + 1) ∧
      Balanced (join false x g.dir
        (join true p.x g.dir p.sib ((node true l x r).child g.dir))
        (join true g.x g.dir ((node true l x r).child (!g.dir)) g.sib)) false (n + 1) := by
  obtain ⟨hg, hps, hgs, hctx⟩ := grandparent_black hc hp
  rw [hu] at hgs
  exact ⟨hctx, balanced_join_black (balanced_join_red hps (ht.child_of_red _))
    (balanced_join_red (ht.child_of_red _) hgs)⟩

/-- After either repair the payload of `t` is at the cursor and all is balanced. -/
theorem rotateUp_root {p g : Frame α} {ctx : List (Frame α)} {l r : ColorTree α} {x : α}
    {n : Nat} (hc : CtxBalanced (p :: g :: ctx) false n) (hp : p.red = true)
    (hu : g.sib.isRed = false) (ht : Balanced (node true l x r) true n) :
    ∃ c d s o k, (rotateUp p g ctx (node true l x r)).2 = join c x d s o ∧
      CtxBalanced (rotateUp p g ctx (node true l x r)).1 c k ∧
      Balanced (join c x d s o) c k := by
  by_cases hd : p.dir = g.dir
  · refine ⟨true, false, l, r, n, ?_, ?_, ht⟩
    · simp only [rotateUp, if_pos hd]; rfl
    · simp only [rotateUp, if_pos hd]
      exact balanced_rotateUp_single hc hp hu
  · have h := balanced_rotateUp_double hc hp hu ht
    simp only [rotateUp, if_neg hd]
    exact ⟨false, g.dir, _, _, n + 1, rfl, h.1, h.2⟩

/-! ## Deletion moves -/

/-- Push a red node down to the node `t` below the context `ctx`, before the
    search leaves `t` on side `d`: nothing to do when `t` or its next node is
    red, else a rotation of `t` with its other child, or a colour flip or
    rotations with its sibling. Returns the context of the child on side `d`. -/
def pushDown (ctx : List (Frame α)) (c : Bool) (x : α) (d : Bool) (s o : ColorTree α) :
    List (Frame α) :=
  if c || s.isRed then ⟨c, x, d, o⟩ :: ctx
  else if o.isRed then
    match o with
    | nil => ⟨c, x, d, o⟩ :: ctx
    | node oc ol ox or =>
      ⟨true, x, d, (node oc ol ox or).child d⟩ ::
        ⟨false, ox, d, (node oc ol ox or).child (!d)⟩ :: ctx
  else
    match ctx with
    | [] => ⟨c, x, d, o⟩ :: []
    | p :: rest =>
      match p.sib with
      | nil => ⟨c, x, d, o⟩ :: p :: rest
      | node sc sl sx sr =>
        if !sl.isRed && !sr.isRed then
          ⟨true, x, d, o⟩ :: ⟨false, p.x, p.dir, node true sl sx sr⟩ :: rest
        else if ((node sc sl sx sr).child (!p.dir)).isRed then
          ⟨true, x, d, o⟩ :: ⟨false, p.x, p.dir, (node sc sl sx sr).child p.dir⟩ ::
            ⟨true, sx, p.dir, ((node sc sl sx sr).child (!p.dir)).paint false⟩ :: rest
        else
          match (node sc sl sx sr).child p.dir with
          | nil => ⟨c, x, d, o⟩ :: p :: rest
          | node rc rl rx rr =>
            ⟨true, x, d, o⟩ :: ⟨false, p.x, p.dir, (node rc rl rx rr).child p.dir⟩ ::
              ⟨true, rx, p.dir, join false sx p.dir ((node rc rl rx rr).child (!p.dir))
                ((node sc sl sx sr).child (!p.dir))⟩ :: rest

/-- What the deletion keeps true above the focus `t`: the last visited node or
    `t` is red, or that node is the root and the other side is black too. -/
def Ready : List (Frame α) → ColorTree α → Prop
  | [], _ => True
  | f :: ctx, t => f.red = true ∨ t.isRed = true ∨ (ctx = [] ∧ f.sib.isRed = false)

/-- The focus of a deletion moves to the child on side `d`; the in-order list
    does not change. -/
theorem toList_pushDown (ctx : List (Frame α)) (c : Bool) (x : α) (d : Bool)
    (s o : ColorTree α) :
    (plug (pushDown ctx c x d s o) s).toList = (plug ctx (join c x d s o)).toList := by
  rw [toList_plug, toList_plug]
  unfold pushDown
  -- one case for each kind of move: nothing to push, the red child on the other side is rotated up,
  -- and at the parent a colour flip, a single or a double rotation
  split
  · cases d <;> simp [before, after, join]
  · split
    · cases o with
      | nil => cases d <;> simp [before, after, join]
      | node oc ol ox or => cases d <;> simp [before, after, join]
    · cases ctx with
      | nil => cases d <;> simp [before, after, join]
      | cons p rest =>
        rcases p with ⟨pc, px, pd, ps⟩
        cases ps with
        | nil => cases d <;> simp [before, after, join]
        | node sc sl sx sr =>
          dsimp only
          split
          · cases d <;> cases pd <;> simp [before, after, join]
          · split
            · cases d <;> cases pd <;> simp [before, after, join]
            · cases pd
              · cases sl <;> cases d <;> simp [before, after, join]
              · cases sr <;> cases d <;> simp [before, after, join]

/-- The sibling of a black node that the deletion has reached is black, and the
    context above the parent accepts a red node at the parent's place. -/
private theorem ready_sibling {p : Frame α} {rest : List (Frame α)} {t : ColorTree α} {n : Nat}
    (hr : Ready (p :: rest) t) (ht : t.isRed = false)
    (hc : CtxBalanced (p :: rest) false n) :
    Balanced p.sib false n ∧ CtxBalanced rest true n := by
  obtain ⟨hp, hsib, hrest⟩ := hc
  rcases hr with hred | hred | ⟨rfl, hs⟩
  · rw [(hp hred).2] at hsib
    rw [hred] at hrest
    exact ⟨hsib, hrest⟩
  · rw [ht] at hred
    exact absurd hred (by simp)
  · rw [hs] at hsib
    exact ⟨hsib, trivial⟩

/-- The push of a deletion keeps the tree balanced and the next focus ready. -/
theorem pushDown_balanced {ctx : List (Frame α)} {c : Bool} {x : α} {d : Bool}
    {s o : ColorTree α} {n : Nat} (hc : CtxBalanced ctx c n)
    (ht : Balanced (join c x d s o) c n) (hr : Ready ctx (join c x d s o)) :
    (∃ k, Balanced s s.isRed k ∧ CtxBalanced (pushDown ctx c x d s o) s.isRed k) ∧
      Ready (pushDown ctx c x d s o) s := by
  obtain ⟨k, hn, hs, ho, hred⟩ := balanced_of_join ht
  unfold pushDown
  split
  · -- `t` or the next node is red already
    rename_i h
    refine ⟨hc.down ht, ?_⟩
    cases c
    · exact Or.inr (Or.inl h)
    · exact Or.inl rfl
  · rename_i h
    rw [Bool.or_eq_true, not_or, Bool.not_eq_true, Bool.not_eq_true] at h
    obtain ⟨rfl, hsb⟩ := h
    subst hn
    dsimp only [cond_false] at hc
    split
    · -- the other child is red: rotate it up, `t` becomes red
      rename_i hor
      cases o with
      | nil => simp at hor
      | node oc ol ox or =>
        obtain rfl : oc = true := hor
        have hod := ho.child_of_red d
        have hon := ho.child_of_red (!d)
        refine ⟨⟨k, hs, fun _ => ⟨hsb, hod.isRed_eq⟩, ?_, by simp, ?_, hc⟩, Or.inl rfl⟩
        · exact hod.isRed_eq.symm ▸ hod
        · exact hon.isRed_eq.symm ▸ hon
    · rename_i hob
      rw [Bool.not_eq_true] at hob
      rw [hob] at ho
      cases ctx with
      | nil => exact ⟨⟨k, hs, by simp, hob.symm ▸ ho, trivial⟩, Or.inr (Or.inr ⟨rfl, hob⟩)⟩
      | cons p rest =>
        obtain ⟨hsib, hrest⟩ := ready_sibling hr (isRed_join ..) hc
        -- in every case below `t` becomes red between black nodes
        have hframe : ∀ above : List (Frame α), CtxBalanced above true k →
            ∃ j, Balanced s s.isRed j ∧ CtxBalanced (⟨true, x, d, o⟩ :: above) s.isRed j :=
          fun above ha => ⟨k, hs, fun _ => ⟨hsb, hob⟩, hob.symm ▸ ho, ha⟩
        rcases p with ⟨pc, px, pd, ps⟩
        dsimp only at hsib ⊢
        cases ps with
        | nil => cases hsib
        | node sc sl sx sr =>
          obtain rfl : sc = false := hsib.isRed_eq
          obtain ⟨j, hj, hsame⟩ := hsib.child_of_black pd
          obtain ⟨j', hj', hother⟩ := hsib.child_of_black (!pd)
          obtain rfl : j = k := by omega
          obtain rfl : j' = j := by omega
          dsimp only
          split
          · -- colour flip
            rename_i hbb
            rw [Bool.and_eq_true, Bool.not_eq_true', Bool.not_eq_true'] at hbb
            cases hsib with
            | black hl hr' =>
              rw [← hl.isRed_eq, hbb.1] at hl
              rw [← hr'.isRed_eq, hbb.2] at hr'
              exact ⟨hframe _ ⟨by simp, .red hl hr', hrest.to_black⟩, Or.inl rfl⟩
          · rename_i hbb
            split
            · -- single rotation
              rename_i hnear
              rw [hnear] at hother
              have hp := hother.paint_black_of_red
              refine ⟨hframe _ ⟨by simp, hsame, ?_⟩, Or.inl rfl⟩
              exact ⟨fun _ => ⟨rfl, hp.isRed_eq⟩, hp.isRed_eq.symm ▸ hp, hrest⟩
            · -- double rotation
              rename_i hfar
              rw [Bool.not_eq_true] at hfar
              rw [hfar] at hother
              split
              · rename_i hnil
                cases pd <;> simp_all
              · rename_i rc rl rx rr hnode
                have hrc : rc = true := by cases pd <;> simp_all
                subst hrc
                rw [hnode] at hsame
                have h₁ := hsame.child_of_red pd
                have h₂ := hsame.child_of_red (!pd)
                have hjoin : Balanced (join false sx pd ((node true rl rx rr).child (!pd))
                    ((node false sl sx sr).child (!pd))) false (j' + 1) :=
                  balanced_join_black h₂ hother
                refine ⟨hframe _ ⟨by simp, h₁.isRed_eq.symm ▸ h₁, ?_⟩, Or.inl rfl⟩
                exact ⟨fun _ => ⟨rfl, hjoin.isRed_eq⟩, hjoin.isRed_eq.symm ▸ hjoin, hrest⟩

/-- When the search ends, the last visited node can be cut out: it is a red
    leaf, or the only node. -/
theorem balanced_cut {f : Frame α} {ctx : List (Frame α)} {n : Nat}
    (hc : CtxBalanced (f :: ctx) false n) (hb : Balanced (nil : ColorTree α) false n)
    (hr : Ready (f :: ctx) (nil : ColorTree α)) :
    f.sib = nil ∧ CtxBalanced ctx false 0 := by
  obtain ⟨-, rfl⟩ := balanced_nil_iff.mp hb
  obtain ⟨hp, hsib, hctx⟩ := hc
  rcases hr with hred | hred | ⟨rfl, hs⟩
  · rw [(hp hred).2] at hsib
    rw [hred] at hctx
    exact ⟨hsib.eq_nil, hctx.to_black⟩
  · simp at hred
  · rw [hs] at hsib
    exact ⟨hsib.eq_nil, trivial⟩

end RedBlack
