import Mathlib.Data.List.Basic
import Mathlib.Data.List.Sort
import Mathlib.Logic.Function.Basic
import BrainMachine.Computations

set_option autoImplicit false

/-!
# The run queue

The vendored red-black tree is a parameter: a type of trees with the in-order sequence of
their nodes. The key of a node is a pointer into the task table, so that the comparison
reads the table as it is at the time of the call.
-/
namespace BrainMachine.RunQueue
open Computations

def schedGranularity : ℕ := 20
def schedLatency : UInt32 := 2

/-- A tree node, told apart from later nodes of the same task by its allocation number. -/
structure Node where
  id : ℕ
  pid : ℕ
  deriving DecidableEq, Repr

/-- The operations of `rb_tree/red_black_tree.c` that the scheduler calls. -/
class RedBlackTree (T : Type) where
  create : T
  nodes : T → List Node
  insert : (Node → Node → ℤ) → T → Node → T
  delete : T → Node → T

/-- A comparison in the sense of the tree: `cmp a b = 1` when `a` is greater than `b`. -/
structure Comparison (cmp : Node → Node → ℤ) : Prop where
  total : ∀ a b, cmp a b ≠ 1 ∨ cmp b a ≠ 1
  trans : ∀ a b c, cmp a b ≠ 1 → cmp b c ≠ 1 → cmp a c ≠ 1

def Ordered (cmp : Node → Node → ℤ) (l : List Node) : Prop := l.Pairwise fun a b => cmp a b ≠ 1

class LawfulTree (T : Type) [RedBlackTree T] : Prop where
  create_nodes : RedBlackTree.nodes (RedBlackTree.create : T) = []
  insert_nodes : ∀ cmp (t : T) z, ∃ l r, RedBlackTree.nodes t = l ++ r ∧
    RedBlackTree.nodes (RedBlackTree.insert cmp t z) = l ++ z :: r
  insert_ordered : ∀ cmp (t : T) z, Comparison cmp → Ordered cmp (RedBlackTree.nodes t) →
    Ordered cmp (RedBlackTree.nodes (RedBlackTree.insert cmp t z))
  delete_nodes : ∀ (t : T) z, z ∈ RedBlackTree.nodes t →
    RedBlackTree.nodes (RedBlackTree.delete t z) = (RedBlackTree.nodes t).erase z

structure Task where
  vruntime : UInt32
  n : Option ℕ
  deriving DecidableEq, Repr

/-- `task_table` and `rq`; `fresh` numbers the nodes allocated so far. -/
structure Sched (T : Type) where
  taskTable : ℕ → Task
  t : T
  minVruntime : UInt32
  current : ℕ
  nrRunning : ℕ
  fresh : ℕ

def signed (x : UInt32) : ℤ := x.toBitVec.toInt

def keyComp (min k1 k2 : UInt32) : ℤ :=
  let x1 := signed (k1 - min)
  let x2 := signed (k2 - min)
  if x1 = x2 then 0 else if x1 < x2 then -1 else 1

section
variable {T : Type} [RedBlackTree T]

def schedInit : Sched T :=
  { taskTable := fun _ => ⟨0, none⟩
    t := RedBlackTree.create
    minVruntime := 0
    current := 0
    nrRunning := 0
    fresh := 0 }

def Sched.vruntime (s : Sched T) (pid : ℕ) : UInt32 := (s.taskTable pid).vruntime
def Sched.nodes (s : Sched T) : List Node := RedBlackTree.nodes s.t

def Sched.compare (s : Sched T) (a b : Node) : ℤ :=
  keyComp s.minVruntime (s.vruntime a.pid) (s.vruntime b.pid)

def setTask (pid : ℕ) (f : Task → Task) (s : Sched T) : Sched T :=
  { s with taskTable := Function.update s.taskTable pid (f (s.taskTable pid)) }

/-- `task_table[pid].n = RBTreeInsert(rq.t, &task_table[pid].vruntime, &task_table[pid])` -/
def enqueue (pid : ℕ) (s : Sched T) : Sched T :=
  let u := setTask pid (fun e => { e with n := some s.fresh }) s
  { u with
    t := RedBlackTree.insert s.compare s.t ⟨s.fresh, pid⟩
    fresh := s.fresh + 1 }

/-- On an empty tree the source walks to the sentinel, which has no task. -/
def leftmost : Exec (Sched T) Node := do
  let s ← get
  match s.nodes with
  | [] => fault .undefined
  | n :: _ => pure n

def dequeue (n : Node) (s : Sched T) : Sched T :=
  let u := setTask n.pid (fun e => { e with n := none }) s
  { u with t := RedBlackTree.delete u.t n }

def ctxtSwitch : Exec (Sched T) Unit := do
  let n ← leftmost
  modify fun s => dequeue n { s with current := n.pid }

/-- The part of `sched_suspend` that takes the task off the processor or out of the tree. -/
def unqueue (pid : ℕ) : Exec (Sched T) Unit := do
  let s ← get
  if s.current = pid then
    if s.nrRunning > 1 then ctxtSwitch else pure ()
  else match (s.taskTable pid).n with
    | none => fault .undefined
    | some i => modify (dequeue ⟨i, pid⟩)

def schedSuspend (pid : ℕ) : Exec (Sched T) ℤ :=
  if pid > 99 then pure 1
  else do
    unqueue pid
    modify fun s => { s with nrRunning := s.nrRunning - 1 }
    pure 0

/-- The least vruntime that `sched_resume` gives to a woken process. -/
def wakeFloor (min : UInt32) : UInt32 := if min < schedLatency then min else min - schedLatency

def place (pid : ℕ) (s : Sched T) : Sched T :=
  setTask pid (fun e => { e with
    vruntime := if e.vruntime > wakeFloor s.minVruntime then e.vruntime
      else wakeFloor s.minVruntime }) s

/-- Put the current process back and switch, when the leftmost one is owed more. The flag
says whether `min_vruntime` follows the leftmost key. -/
def preempt (follow : Bool) : Exec (Sched T) Unit := do
  let n ← leftmost
  let s ← get
  if keyComp s.minVruntime (s.vruntime s.current) (s.vruntime n.pid) > 0 then do
    modify fun s =>
      { s with minVruntime := if follow then s.vruntime n.pid else s.minVruntime }
    modify fun s => enqueue s.current s
    ctxtSwitch
  else pure ()

def schedResume (pid : ℕ) : Exec (Sched T) ℤ :=
  if pid > 99 then pure 1
  else do
    modify (place pid)
    let s ← get
    if s.nrRunning = 0 then do
      modify fun s =>
        { s with minVruntime := s.vruntime pid, current := pid, nrRunning := s.nrRunning + 1 }
      pure 0
    else if pid = s.current then pure 0
    else do
      modify (enqueue pid)
      preempt false
      modify fun s => { s with nrRunning := s.nrRunning + 1 }
      pure 0

def schedReset (pid : ℕ) : Exec (Sched T) ℤ :=
  if pid > 99 then pure 1
  else do
    modify (setTask pid fun e => { e with vruntime := 0 })
    pure 0

/-- What `sched_run` does to the current task before each tick. -/
def account (s : Sched T) : Sched T :=
  setTask s.current (fun e => { e with vruntime := e.vruntime + 1 }) s

/-- The end of a slice in `sched_run`. -/
def endSlice : Exec (Sched T) Unit := do
  let s ← get
  if s.nrRunning < 2 then pure () else preempt true

end
end BrainMachine.RunQueue
