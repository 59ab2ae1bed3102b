import Toutatis.Lib.Memory

/-!
# The red-black tree of `rb_tree.c`

A shallow embedding of `kernel/rb_tree.c`: nodes are `rb_node_t` structures in
byte memory, `data` at offset 0 and `link[i]` at offset `4 + 4 * i`. Bit 0 of
`link[0]` is the colour; `get_link` and `set_link` mask it.

Pointers are addresses, `NULL` is `0`. The dummy root `head` of `insert_rbnode`
and `remove_rbnode` is a local variable: it lives at `headAddr`, outside the
32-bit address space, so that no node can overlap it.

Loops run on a fuel of `loopBound` steps, more than there are addresses; `none`
stands for a loop that does not end.
-/

namespace Toutatis

open ByteMem

/-- Address of the local variable `head`. -/
def headAddr : Nat := 2 ^ 32

/-- Bound on the iterations of a loop. -/
def loopBound : Nat := 2 ^ 32

/-- `rb_tree_t`. `A` is the type behind the `args` pointers, `none` is `NULL`. -/
structure RbTree (A : Type) where
  root : Nat
  numNodes : Nat
  numDup : Nat
  compare : Mem → Nat → Nat → Option A → Int
  selectDup : Mem → Nat → Option A → Bool

/-! ## Macros -/

/-- `node->data`. -/
def nodeData (m : Mem) (node : Nat) : Nat := load32 m node

/-- The raw word `node->link[i]`. -/
def linkWord (m : Mem) (node i : Nat) : Nat := load32 m (node + 4 + 4 * i)

/-- `is_red(node)`; the colour is read from the node itself. -/
def isRed (m : Mem) (node : Nat) : Bool := node != 0 && linkWord m node 0 &&& 1 != 0

/-- `paint_red(node)`. -/
def paintRed (m : Mem) (node : Nat) : Mem :=
  store32 m (node + 4) (linkWord m node 0 ||| 1)

/-- `paint_black(node)`. -/
def paintBlack (m : Mem) (node : Nat) : Mem :=
  store32 m (node + 4) (linkWord m node 0 &&& 0xfffffffe)

/-- `copy_color(src, dst)`. -/
def copyColor (m : Mem) (src dst : Nat) : Mem :=
  store32 m (dst + 4) ((linkWord m dst 0 &&& 0xfffffffe) ||| (linkWord m src 0 &&& 1))

/-- `get_link(node, i)`. -/
def getLink (m : Mem) (node i : Nat) : Nat := linkWord m node i &&& 0xfffffffe

/-- `set_link(node, i, val)`. -/
def setLink (m : Mem) (node i val : Nat) : Mem :=
  store32 m (node + 4 + 4 * i) ((linkWord m node i &&& 1) ||| (val &&& 0xfffffffe))

/-- `rotate(root, dir)`: the memory and the new root of the subtree. -/
def rotate (m : Mem) (root : Nat) (dir : Bool) : Mem × Nat :=
  let save := getLink m root (!dir).toNat
  let m := setLink m root (!dir).toNat (getLink m save dir.toNat)
  let m := setLink m save dir.toNat root
  let m := paintRed m root
  let m := paintBlack m save
  (m, save)

/-- `rb_node_t head = { 0 }`. -/
def initHead (m : Mem) : Mem :=
  store32 (store32 (store32 (store32 m headAddr 0) (headAddr + 4) 0) (headAddr + 8) 0)
    (headAddr + 12) 0

/-! ## `init_rbtree` -/

/-- `init_rbtree`: the counters keep whatever the structure held. -/
def initRbtree {A : Type} (tree : RbTree A) (compare : Mem → Nat → Nat → Option A → Int)
    (select : Mem → Nat → Option A → Bool) : RbTree A :=
  { tree with root := 0, compare := compare, selectDup := select }

/-! ## `insert_rbnode` -/

/-- Variables of the descent of `insert_rbnode`. -/
structure InsertVars where
  t : Nat
  g : Nat
  p : Nat
  n : Nat
  dir : Bool
  last : Bool
  duplicate : Bool

/-- First half of the loop body: insert the node at the bottom, or flip colours. The `return 0`
    behind the insertion is left out: `node` is not null there. -/
def insertVisit {A : Type} (m : Mem) (tree : RbTree A) (node : Nat) (v : InsertVars) :
    Mem × RbTree A × InsertVars :=
  if v.n = 0 then
    (setLink m v.p v.dir.toNat node, { tree with numNodes := add32 tree.numNodes 1 },
      { v with n := node, duplicate := false })
  else if isRed m (getLink m v.n 0) && isRed m (getLink m v.n 1) then
    let m := paintRed m v.n
    let m := paintBlack m (getLink m v.n 0)
    let m := paintBlack m (getLink m v.n 1)
    (m, tree, v)
  else (m, tree, v)

/-- Second half of the loop body: repair a red node below a red parent. -/
def insertRotate (m : Mem) (v : InsertVars) : Mem :=
  if isRed m v.n && isRed m v.p then
    let dir2 := getLink m v.t 1 == v.g
    if v.n = getLink m v.p v.last.toNat then
      let (m, top) := rotate m v.g (!v.last)
      setLink m v.t dir2.toNat top
    else
      let (m, mid) := rotate m (getLink m v.g v.last.toNat) v.last
      let m := setLink m v.g v.last.toNat mid
      let (m, top) := rotate m v.g (!v.last)
      setLink m v.t dir2.toNat top
  else m

/-- The `for (;;)` loop of `insert_rbnode`. -/
def insertLoop {A : Type} : (fuel : Nat) → Mem → RbTree A → (node : Nat) → Option A →
    InsertVars → Option (Mem × RbTree A)
  | 0, _, _, _, _, _ => none
  | fuel + 1, m, tree, node, args, v =>
    let (m, tree, v) := insertVisit m tree node v
    let m := insertRotate m v
    let res := tree.compare m v.n (nodeData m node) args
    if res = 0 then
      if v.duplicate && v.n != node then
        let m := setLink m node 2 (getLink m v.n 2)
        let m := setLink m v.n 2 node
        some (m, { tree with numDup := add32 tree.numDup 1 })
      else some (m, tree)
    else
      let dir := decide (res < 0)
      insertLoop fuel m tree node args
        { v with
          last := v.dir
          dir := dir
          t := if v.g ≠ 0 then v.g else v.t
          g := v.p
          p := v.n
          n := getLink m v.n dir.toNat }

/-- `insert_rbnode`: the return value, the memory and the tree. -/
def insertRbnode {A : Type} (m : Mem) (tree : RbTree A) (node : Nat) (args : Option A) :
    Option (Nat × Mem × RbTree A) :=
  if node = 0 then some (0, m, tree)
  else
    let m := setLink m node 0 0
    let m := setLink m node 1 0
    let m := setLink m node 2 0
    let m := paintRed m node
    if tree.root = 0 then
      let tree := { tree with root := node, numNodes := 1, numDup := 0 }
      some (1, paintBlack m tree.root, tree)
    else
      let m := initHead m
      let m := setLink m headAddr 1 tree.root
      match insertLoop loopBound m tree node args
        { t := headAddr, g := 0, p := 0, n := tree.root,
          dir := false, last := false, duplicate := true } with
      | none => none
      | some (m, tree) =>
        let tree := { tree with root := getLink m headAddr 1 }
        some (1, paintBlack m tree.root, tree)

/-! ## `remove_rbnode` -/

/-- Variables of the descent of `remove_rbnode`. -/
structure RemoveVars where
  n : Nat
  p : Nat
  g : Nat
  f : Nat
  fp : Nat
  dir : Bool

/-- Rotations and colours of the case where the sibling `s` has a red child. -/
def removeRotate (m : Mem) (v : RemoveVars) (s : Nat) (last : Bool) : Mem × RemoveVars :=
  let dir2 := getLink m v.g 1 == v.p
  let m :=
    if isRed m (getLink m s (!last).toNat) then
      let (m, top) := rotate m v.p last
      setLink m v.g dir2.toNat top
    else if isRed m (getLink m s last.toNat) then
      let (m, mid) := rotate m (getLink m v.p (!last).toNat) (!last)
      let m := setLink m v.p (!last).toNat mid
      let (m, top) := rotate m v.p last
      setLink m v.g dir2.toNat top
    else m
  let m := paintRed m v.n
  let m := paintRed m (getLink m v.g dir2.toNat)
  let m := paintBlack m (getLink m (getLink m v.g dir2.toNat) 0)
  let m := paintBlack m (getLink m (getLink m v.g dir2.toNat) 1)
  (m, if v.f = v.p then { v with fp := getLink m v.g dir2.toNat } else v)

/-- Push a red node down from the node just reached on side `last`. -/
def removePush (m : Mem) (v : RemoveVars) (last : Bool) : Mem × RemoveVars :=
  if !isRed m v.n && !isRed m (getLink m v.n v.dir.toNat) then
    if isRed m (getLink m v.n (!v.dir).toNat) then
      let (m, top) := rotate m v.n v.dir
      let m := setLink m v.p last.toNat top
      let v := { v with p := getLink m v.p last.toNat }
      (m, if v.f = v.n then { v with fp := v.p } else v)
    else
      let s := getLink m v.p (!last).toNat
      if s ≠ 0 then
        if !isRed m (getLink m s 0) && !isRed m (getLink m s 1) then
          let m := paintBlack m v.p
          let m := paintRed m s
          let m := paintRed m v.n
          (m, v)
        else removeRotate m v s last
      else (m, v)
  else (m, v)

/-- The `while` loop of `remove_rbnode`. -/
def removeLoop {A : Type} : (fuel : Nat) → Mem → RbTree A → (data : Nat) → Option A →
    RemoveVars → Option (Mem × RemoveVars)
  | 0, _, _, _, _, _ => none
  | fuel + 1, m, tree, data, args, v =>
    if getLink m v.n v.dir.toNat ≠ 0 then
      let last := v.dir
      let v := { v with g := v.p, p := v.n, n := getLink m v.n v.dir.toNat }
      let res := tree.compare m v.n data args
      let v := { v with dir := decide (res < 0) }
      let v := if res = 0 then { v with f := v.n, fp := v.p } else v
      let (m, v) := removePush m v last
      removeLoop fuel m tree data args v
    else some (m, v)

/-- The walk along a duplicate chain: the first node that `select_dup` accepts
    and the node before it. -/
def dupLoop {A : Type} : (fuel : Nat) → Mem → RbTree A → Option A → (tmp prev : Nat) →
    Option (Nat × Nat)
  | 0, _, _, _, _, _ => none
  | fuel + 1, m, tree, args, tmp, prev =>
    if tmp ≠ 0 ∧ tree.selectDup m tmp args = false then
      dupLoop fuel m tree args (getLink m tmp 2) tmp
    else some (tmp, prev)

/-- The four statements of both splices: `y` takes over the children, the parent
    and the colour of `f`. -/
def takePlace (m : Mem) (f y fp : Nat) : Mem :=
  let m := setLink m y 0 (getLink m f 0)
  let m := setLink m y 1 (getLink m f 1)
  let m := setLink m fp (getLink m fp 1 == f).toNat y
  copyColor m f y

/-- After the walk: unlink the duplicate `tmp` behind `prev`, or, when there is
    none and `f` itself is selected, let its first duplicate take its place. -/
def unlinkDup {A : Type} (m : Mem) (tree : RbTree A) (args : Option A) (v : RemoveVars)
    (tmp prev : Nat) : Mem × RbTree A × Nat :=
  if tmp = 0 then
    if tree.selectDup m v.f args then
      (takePlace m v.f (getLink m v.f 2) v.fp, { tree with numDup := sub32 tree.numDup 1 }, v.f)
    else (m, tree, 0)
  else
    (setLink m prev 2 (getLink m tmp 2), { tree with numDup := sub32 tree.numDup 1 }, tmp)

/-- Removal of a duplicate of `f`, or of `f` itself when only `f` matches. -/
def removeDup {A : Type} (m : Mem) (tree : RbTree A) (args : Option A) (v : RemoveVars) :
    Option (Mem × RbTree A × Nat) :=
  (dupLoop loopBound m tree args (getLink m v.f 2) v.f).map fun (tmp, prev) =>
    unlinkDup m tree args v tmp prev

/-- Removal of the tree node `f`: its in-order predecessor `n` takes its place. -/
def removeNode (m : Mem) (v : RemoveVars) : Mem :=
  let m := setLink m v.p (getLink m v.p 1 == v.n).toNat
    (getLink m v.n (getLink m v.n 0 == 0).toNat)
  if v.n ≠ v.f then takePlace m v.f v.n v.fp else m

/-- What happens after the descent, up to the update of the root. -/
def removeFinish {A : Type} (m : Mem) (tree : RbTree A) (args : Option A) (v : RemoveVars) :
    Option (Mem × RbTree A × Nat) :=
  if v.f ≠ 0 ∧ getLink m v.f 2 ≠ 0 then removeDup m tree args v
  else if v.f ≠ 0 then
    some (removeNode m v, { tree with numNodes := sub32 tree.numNodes 1 }, v.f)
  else some (m, tree, v.f)

/-- The last lines: update the root and make it black. -/
def removeRoot {A : Type} (m : Mem) (tree : RbTree A) (f : Nat) : Nat × Mem × RbTree A :=
  let tree := { tree with root := getLink m headAddr 1 }
  (f, if tree.root ≠ 0 then paintBlack m tree.root else m, tree)

/-- `remove_rbnode`: the removed node (`0` when none), the memory and the tree. -/
def removeRbnode {A : Type} (m : Mem) (tree : RbTree A) (data : Nat) (args : Option A) :
    Option (Nat × Mem × RbTree A) :=
  if tree.root ≠ 0 then
    (removeLoop loopBound (setLink (initHead m) headAddr 1 tree.root) tree data args
      { n := headAddr, p := 0, g := 0, f := 0, fp := 0, dir := true }).bind fun (m, v) =>
        (removeFinish m tree args v).map fun (m, tree, f) => removeRoot m tree f
  else some (0, m, tree)

end Toutatis
