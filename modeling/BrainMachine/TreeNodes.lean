import Mathlib.Data.Finmap
import BrainMachine.ColoredTrees
import BrainMachine.Computations

set_option autoImplicit false

/-!
# The nodes of the red-black tree

The functions of `rb_tree/red_black_tree.c` on the nodes in memory. Where the source spells out
two branches with left and right exchanged, the side is an argument. Every loop gets as many
turns as there are nodes; one of more turns never ends.
-/
namespace BrainMachine.TreeNodes
open Computations ColoredTrees

/-- `rb_red_blk_node`. The key and the info of a node are one item; the sentinels have none. -/
structure Cell (ι : Type) where
  item : Option ι
  red : Bool
  left : ℕ
  right : ℕ
  parent : ℕ
  deriving DecidableEq, Repr

abbrev Heap (ι : Type) := Finmap fun _ : ℕ => Cell ι

/-- `rb_red_blk_tree` and the nodes in use. -/
structure Memory (ι : Type) where
  heap : Heap ι
  root : ℕ
  nil : ℕ

section
variable {ι : Type}

def Cell.child (d : Side) (c : Cell ι) : ℕ := d.pick c.left c.right

def Cell.setChild (d : Side) (x : ℕ) (c : Cell ι) : Cell ι :=
  match d with
  | .left => { c with left := x }
  | .right => { c with right := x }

/-- Reading through a pointer to no node in use is undefined. -/
def load (a : ℕ) : Exec (Memory ι) (Cell ι) := do
  let s ← get
  match s.heap.lookup a with
  | some c => pure c
  | none => fault .undefined

def change (a : ℕ) (f : Cell ι → Cell ι) : Exec (Memory ι) PUnit := do
  let c ← load a
  modify fun s => { s with heap := s.heap.insert a (f c) }

def alloc (a : ℕ) (c : Cell ι) : Exec (Memory ι) PUnit :=
  modify fun s => { s with heap := s.heap.insert a c }

def free (a : ℕ) : Exec (Memory ι) PUnit := do
  let s ← get
  if a ∈ s.heap then set { s with heap := s.heap.erase a } else fault .undefined

def left (a : ℕ) : Exec (Memory ι) ℕ := Cell.left <$> load a
def right (a : ℕ) : Exec (Memory ι) ℕ := Cell.right <$> load a
def parent (a : ℕ) : Exec (Memory ι) ℕ := Cell.parent <$> load a
def red (a : ℕ) : Exec (Memory ι) Bool := Cell.red <$> load a
def child (d : Side) (a : ℕ) : Exec (Memory ι) ℕ := Cell.child d <$> load a

def setLeft (a x : ℕ) : Exec (Memory ι) PUnit := change a fun c => { c with left := x }
def setRight (a x : ℕ) : Exec (Memory ι) PUnit := change a fun c => { c with right := x }
def setParent (a x : ℕ) : Exec (Memory ι) PUnit := change a fun c => { c with parent := x }
def setRed (a : ℕ) (b : Bool) : Exec (Memory ι) PUnit := change a fun c => { c with red := b }
def setChild (d : Side) (a x : ℕ) : Exec (Memory ι) PUnit := change a (Cell.setChild d x)

def key (a : ℕ) : Exec (Memory ι) ι := do
  let c ← load a
  match c.item with
  | some i => pure i
  | none => fault .undefined

/-- `Assert(!tree->nil->red, ..)`; a failed assertion ends the program. -/
def assertNil : Exec (Memory ι) PUnit := do
  let s ← get
  if ← red s.nil then fault .undefined else pure ⟨⟩

/-- The two sentinels, at the addresses that the allocator answered. -/
def RBTreeCreate (nil root : ℕ) : Memory ι :=
  { heap := ((∅ : Heap ι).insert nil ⟨none, false, nil, nil, nil⟩).insert root
      ⟨none, false, nil, nil, nil⟩
    root := root
    nil := nil }

/-- `if (x == x->parent->left) x->parent->left = y; else x->parent->right = y;` -/
def replaceChild (x y : ℕ) : Exec (Memory ι) PUnit := do
  if x = (← left (← parent x)) then setLeft (← parent x) y else setRight (← parent x) y

/-- `if (y->left != nil) y->left->parent = x;`, on side `d`. -/
def adopt (d : Side) (y x : ℕ) : Exec (Memory ι) PUnit := do
  let s ← get
  if (← child d y) ≠ s.nil then setParent (← child d y) x else pure ⟨⟩

def rotate (d : Side) (x : ℕ) : Exec (Memory ι) PUnit := do
  let y ← child d.other x
  setChild d.other x (← child d y)
  adopt d y x
  setParent y (← parent x)
  replaceChild x y
  setChild d y x
  setParent x y
  assertNil

def LeftRotate (x : ℕ) : Exec (Memory ι) PUnit := rotate .left x
def RightRotate (y : ℕ) : Exec (Memory ι) PUnit := rotate .right y

/-- The loop of `TreeInsertHelp` from `x` below `y`; returns the last `y`. -/
def descendLoop (cmp : ι → ι → ℤ) (z : ι) : ℕ → ℕ → ℕ → Exec (Memory ι) ℕ
  | 0, _, _ => fault .diverges
  | n + 1, x, y => do
    let s ← get
    if x = s.nil then pure y
    else if cmp (← key x) z = 1 then do descendLoop cmp z n (← left x) x
    else do descendLoop cmp z n (← right x) x

def TreeInsertHelp (cmp : ι → ι → ℤ) (z : ℕ) : Exec (Memory ι) PUnit := do
  let s ← get
  setRight z s.nil
  setLeft z s.nil
  let i ← key z
  let y ← descendLoop cmp i s.heap.keys.card (← left s.root) s.root
  setParent z y
  if y = s.root then setLeft y z
  else if cmp (← key y) i = 1 then setLeft y z
  else setRight y z
  assertNil

/-- One turn of the loop of `RBTreeInsert`, with the parent of `x` on side `d`. -/
def insertTurn (d : Side) (x : ℕ) : Exec (Memory ι) ℕ := do
  let y ← child d.other (← parent (← parent x))
  if ← red y then do
    setRed (← parent x) false
    setRed y false
    setRed (← parent (← parent x)) true
    parent (← parent x)
  else do
    let x ← if x = (← child d.other (← parent x)) then do
        let p ← parent x
        rotate d p
        pure p
      else pure x
    setRed (← parent x) false
    setRed (← parent (← parent x)) true
    rotate d.other (← parent (← parent x))
    pure x

def insertLoop : ℕ → ℕ → Exec (Memory ι) PUnit
  | 0, _ => fault .diverges
  | n + 1, x => do
    if ← red (← parent x) then do
      if (← parent x) = (← left (← parent (← parent x))) then do
        insertLoop n (← insertTurn .left x)
      else do
        insertLoop n (← insertTurn .right x)
    else pure ⟨⟩

/-- The new node lies at `x`; what its fields hold before they are written does not matter. -/
def RBTreeInsert (cmp : ι → ι → ℤ) (x : ℕ) (item : ι) : Exec (Memory ι) ℕ := do
  alloc x ⟨some item, false, 0, 0, 0⟩
  TreeInsertHelp cmp x
  setRed x true
  let s ← get
  insertLoop s.heap.keys.card x
  setRed (← left s.root) false
  pure x

/-- `while (y->left != nil) y = y->left;`, also the loop of `leftmost` in `sched.c`. -/
def leftLoop : ℕ → ℕ → Exec (Memory ι) ℕ
  | 0, _ => fault .diverges
  | n + 1, y => do
    let s ← get
    if (← left y) ≠ s.nil then do leftLoop n (← left y) else pure y

/-- `while (x == y->right) { x = y; y = y->parent; }` -/
def upLoop : ℕ → ℕ → ℕ → Exec (Memory ι) ℕ
  | 0, _, _ => fault .diverges
  | n + 1, x, y => do
    if x = (← right y) then do upLoop n y (← parent y) else pure y

def TreeSuccessor (x : ℕ) : Exec (Memory ι) ℕ := do
  let s ← get
  let y ← right x
  if s.nil ≠ y then leftLoop s.heap.keys.card y
  else do
    let y ← upLoop s.heap.keys.card x (← parent x)
    if y = s.root then pure s.nil else pure y

/-- The end of a turn of `RBDeleteFixUp`, where the child of `w` on the other side is red. -/
def deleteFinish (root : ℕ) (d : Side) (x w : ℕ) : Exec (Memory ι) ℕ := do
  setRed w (← red (← parent x))
  setRed (← parent x) false
  setRed (← child d.other w) false
  rotate d (← parent x)
  pure root

/-- The part of a turn behind `if (w->red) ..`. -/
def deleteSettle (root : ℕ) (d : Side) (x w : ℕ) : Exec (Memory ι) ℕ := do
  if !(← red (← right w)) && !(← red (← left w)) then do
    setRed w true
    parent x
  else if !(← red (← child d.other w)) then do
    setRed (← child d w) false
    setRed w true
    rotate d.other w
    deleteFinish root d x (← child d.other (← parent x))
  else deleteFinish root d x w

/-- One turn of `RBDeleteFixUp` with `x` on side `d` of its parent; `root` is the root at the
first turn. -/
def deleteTurn (root : ℕ) (d : Side) (x : ℕ) : Exec (Memory ι) ℕ := do
  let w ← child d.other (← parent x)
  if ← red w then do
    setRed w false
    setRed (← parent x) true
    rotate d (← parent x)
    deleteSettle root d x (← child d.other (← parent x))
  else deleteSettle root d x w

def deleteLoop (root : ℕ) : ℕ → ℕ → Exec (Memory ι) ℕ
  | 0, _ => fault .diverges
  | n + 1, x => do
    if !(← red x) && root ≠ x then do
      if x = (← left (← parent x)) then do deleteLoop root n (← deleteTurn root .left x)
      else do deleteLoop root n (← deleteTurn root .right x)
    else pure x

def RBDeleteFixUp (x : ℕ) : Exec (Memory ι) PUnit := do
  let s ← get
  let root ← left s.root
  let x ← deleteLoop root s.heap.keys.card x
  setRed x false
  assertNil

/-- `y = (z->left == nil || z->right == nil) ? z : TreeSuccessor(tree, z);` -/
def spliced (z : ℕ) : Exec (Memory ι) ℕ := do
  let s ← get
  if (← left z) = s.nil ∨ (← right z) = s.nil then pure z else TreeSuccessor z

/-- `x = (y->left == nil) ? y->right : y->left;` -/
def onlyChild (y : ℕ) : Exec (Memory ι) ℕ := do
  let s ← get
  if (← left y) = s.nil then right y else left y

/-- The part of `RBDelete` that puts `x` in the place of its parent `y`. -/
def unlink (y x : ℕ) : Exec (Memory ι) PUnit := do
  let s ← get
  setParent x (← parent y)
  if s.root = (← parent x) then setLeft s.root x else replaceChild y x

/-- `if (!(y->red)) RBDeleteFixUp(tree, x);` -/
def repair (y x : ℕ) : Exec (Memory ι) PUnit := do
  if !(← red y) then RBDeleteFixUp x else pure ⟨⟩

/-- The part of `RBDelete` that puts `y` in the place of `z`. -/
def takePlace (y z : ℕ) : Exec (Memory ι) PUnit := do
  setLeft y (← left z)
  setRight y (← right z)
  setParent y (← parent z)
  setRed y (← red z)
  setParent (← right z) y
  setParent (← left z) y
  replaceChild z y

def RBDelete (z : ℕ) : Exec (Memory ι) PUnit := do
  let s ← get
  let y ← spliced z
  let x ← onlyChild y
  unlink y x
  if y ≠ z then do
    if y = s.nil then fault .undefined
    else do
      repair y x
      takePlace y z
      free z
      assertNil
  else do
    repair y x
    free y
    assertNil

end
end BrainMachine.TreeNodes
