import BrainMachine.RunQueueAccounting
import BrainMachine.TreeNodes

set_option autoImplicit false

namespace BrainMachine.RunQueueNodes
open Computations TreeNodes RunQueue

/-- `sched_ent`; the null pointer is 0. -/
structure Entry where
  vruntime : UInt32
  n : ℕ
  deriving DecidableEq, Repr

/-- `task_table` and `rq`. The key and the info of a node point to one entry, which is given by
its pid. `calls` counts the nodes allocated so far. -/
structure Table where
  taskTable : ℕ → Entry
  t : Memory ℕ
  minVruntime : UInt32
  current : ℕ
  nrRunning : UInt32
  calls : ℕ

def schedInit (nil root : ℕ) : Table :=
  { taskTable := fun _ => ⟨0, 0⟩
    t := RBTreeCreate nil root
    minVruntime := 0
    current := 0
    nrRunning := 0
    calls := 0 }

section
variable {α : Type}

def Table.vruntime (s : Table) (pid : ℕ) : UInt32 := (s.taskTable pid).vruntime

def Table.compare (s : Table) (k1 k2 : ℕ) : ℤ :=
  keyComp s.minVruntime (s.vruntime k1) (s.vruntime k2)

def Table.set (pid : ℕ) (f : Entry → Entry) (s : Table) : Table :=
  { s with taskTable := Function.update s.taskTable pid (f (s.taskTable pid)) }

def onTree (x : Exec (Memory ℕ) α) : Exec Table α := zoom Table.t (fun t s => { s with t := t }) x

def leftmost : Exec Table ℕ := onTree do
  let s ← get
  leftLoop s.heap.keys.card s.root

def ctxtSwitch : Exec Table Unit := do
  let n ← leftmost
  let pid ← onTree (key n)
  modify fun s => Table.set pid (fun e => { e with n := 0 }) { s with current := pid }
  onTree (RBDelete n)

/-- The part of `sched_suspend` that takes the task off the processor or out of the tree. -/
def unqueue (pid : ℕ) : Exec Table Unit := do
  let s ← get
  if s.current = pid then
    if s.nrRunning > 1 then ctxtSwitch else pure ()
  else do
    onTree (RBDelete (s.taskTable pid).n)
    modify (Table.set pid fun e => { e with n := 0 })

def schedSuspend (pid : ℕ) : Exec Table ℤ :=
  if pid > 99 then pure 1
  else do
    unqueue pid
    modify fun s => { s with nrRunning := s.nrRunning - 1 }
    pure 0

def place (pid : ℕ) (s : Table) : Table :=
  Table.set pid (fun e => { e with
    vruntime := if e.vruntime > wakeFloor s.minVruntime then e.vruntime
      else wakeFloor s.minVruntime }) s

def schedReset (pid : ℕ) : Exec Table ℤ :=
  if pid > 99 then pure 1
  else do
    modify (Table.set pid fun e => { e with vruntime := 0 })
    pure 0

/-- What `sched_run` does to the current task before each tick. -/
def account (s : Table) : Table :=
  Table.set s.current (fun e => { e with vruntime := e.vruntime + 1 }) s

/-- The answers of the allocator, by the number of the call and the nodes in use. -/
abbrev Allocator := ℕ → Heap ℕ → ℕ

variable (malloc : Allocator)

/-- `task_table[pid].n = RBTreeInsert(rq.t, &task_table[pid].vruntime, &task_table[pid])` -/
def enqueue (pid : ℕ) : Exec Table Unit := do
  let s ← get
  let x ← onTree (RBTreeInsert s.compare (malloc s.calls s.t.heap) pid)
  modify fun s => Table.set pid (fun e => { e with n := x }) { s with calls := s.calls + 1 }

/-- Put the current process back and switch, when the leftmost one is owed more. -/
def preempt (follow : Bool) : Exec Table Unit := do
  let n ← leftmost
  let k ← onTree (key n)
  let s ← get
  if keyComp s.minVruntime (s.vruntime s.current) (s.vruntime k) > 0 then do
    modify fun s => { s with minVruntime := if follow then s.vruntime k else s.minVruntime }
    enqueue malloc s.current
    ctxtSwitch
  else pure ()

def schedResume (pid : ℕ) : Exec Table ℤ :=
  if pid > 99 then pure 1
  else do
    modify (place pid)
    let s ← get
    if s.nrRunning = 0 then do
      modify fun s =>
        { s with minVruntime := s.vruntime pid, current := pid, nrRunning := s.nrRunning + 1 }
      pure 0
    else if pid = s.current then pure 0
    else do
      enqueue malloc pid
      preempt malloc false
      modify fun s => { s with nrRunning := s.nrRunning + 1 }
      pure 0

/-- The end of a slice in `sched_run`. -/
def endSlice : Exec Table Unit := do
  let s ← get
  if s.nrRunning < 2 then pure () else preempt malloc true

/-- The calls of the scheduler, with a tick charged by `sched_run` and its preemption check. -/
def run : SchedOp → Exec Table Unit
  | .resume pid => do let _ ← schedResume malloc pid
  | .suspend pid => do let _ ← schedSuspend pid
  | .reset pid => do let _ ← schedReset pid
  | .tick => modify account
  | .check => endSlice malloc

/-- A process that is resumed is not runnable, or is the current one; a suspended one is
runnable; one that is reset is not in the tree. -/
def admissible (s : Table) (R : Finset ℕ) : SchedOp → Prop
  | .resume pid => pid ∈ R → pid = s.current
  | .suspend pid => pid ∈ R
  | .reset pid => (s.taskTable pid).n = 0
  | .tick => 0 < s.nrRunning
  | .check => True

/-- The run queue after admissible calls, with the processes they leave runnable. -/
inductive Reaches : Table → Finset ℕ → Prop
  | init (nil root : ℕ) (ne : nil ≠ root) (nil_ne : nil ≠ 0) (root_ne : root ≠ 0) :
      Reaches (schedInit nil root) ∅
  | step (s u : Table) (R : Finset ℕ) (op : SchedOp) (h : Reaches s R)
      (adm : admissible s R op) (ok : run malloc op s = .ok ((), u)) : Reaches u (op.runnable R)

end
end BrainMachine.RunQueueNodes
