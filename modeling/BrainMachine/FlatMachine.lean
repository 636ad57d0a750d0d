import BrainMachine.HeldPages
import BrainMachine.TickSteps

set_option autoImplicit false

/-!
# The machine without a pager

One array of words stands for physical memory, secondary storage and the page table. There are no
frames, no references to release and no counter of operations. EX is left out: its loader writes
to secondary storage past the frames.
-/
namespace BrainMachine.FlatMachine
open Codec Computations Paging Stdio AddressSpace Instructions HoleList RunQueue Machine Dispatch
open ProcessImages
open Footprints (copyCells)
open HeldPages (InStore)
open TickSteps (advance retreat operand)

structure Flat (T : Type) where
  words : ℕ → Word
  semTable : ℕ → UInt32
  shm : ℕ → Word
  stdin : Stream
  stdout : List UInt8
  sched : Sched T
  proc : ℕ → Proc
  nextPid : ℕ
  holes : List Hole
  recvWq : ℕ → List ℕ
  sendWq : ℕ → List ℕ
  semWq : ℕ → List ℕ

section
variable {T : Type}

def Flat.seg (m : Flat T) (p : ℕ) : Seg := (m.proc p).toSeg

def Flat.setRegs (p : ℕ) (f : Regs → Regs) (m : Flat T) : Flat T :=
  { m with proc := Function.update m.proc p { m.proc p with toRegs := f (m.proc p).toRegs } }

@[simp]
theorem setRegs_seg (p q : ℕ) (f : Regs → Regs) (m : Flat T) :
    (m.setRegs p f).seg q = m.seg q := by
  by_cases h : q = p <;> simp [Flat.seg, Flat.setRegs, h]

def Inside (q : Seg) (v : ℕ) : Prop :=
  (word2int q.br).toNat ≤ v ∧ (v : ℤ) ≤ (word2int q.br).toNat + word2int q.lr

instance (q : Seg) (v : ℕ) : Decidable (Inside q v) := inferInstanceAs (Decidable (_ ∧ _))

def Flat.image (m : Flat T) (p : ℕ) : Image where
  regs := (m.proc p).toRegs
  limit := word2int (m.seg p).lr
  words k := if (k : ℤ) ≤ word2int (m.seg p).lr then m.words ((word2int (m.seg p).br).toNat + k)
    else zeros
  semTable := m.semTable
  shm := m.shm
  stdin := m.stdin
  stdout := m.stdout

def Flat.setImage (p : ℕ) (m : Flat T) (c : Image) : Flat T :=
  { m.setRegs p (fun _ => c.regs) with
    words := fun v =>
      if Inside (m.seg p) v then c.words (v - (word2int (m.seg p).br).toNat) else m.words v
    semTable := c.semTable
    shm := c.shm
    stdin := c.stdin
    stdout := c.stdout }

/-- `n` words from `l` on of one process go to those from `r` on of another one, one by one. -/
def Flat.copyWords (p q : Seg) (l r : ℤ) (n : ℕ) (m : Flat T) : Option (Flat T) :=
  if ∀ i < n, InStore p (l + i) ∧ InStore q (r + i) then
    some { m with
      words := copyCells (fun i => (getGlobalAddress p (l + i)).toNat)
        (fun i => (getGlobalAddress q (r + i)).toNat) m.words n }
  else none

def moved {α : Type} (x : Exec (Sched T) α) (s : Sched T) : Option (Sched T) :=
  (x s).toOption.map Prod.snd

theorem moved_ok {α : Type} {x : Exec (Sched T) α} {s t : Sched T} {a : α}
    (h : x s = .ok (a, t)) : moved x s = some t := by
  rw [moved, h]
  rfl

variable [RedBlackTree T]

def Flat.send (p : ℕ) (a : ℤ) (m : Flat T) : Option (Flat T) :=
  if a < 0 ∨ a > 99 then none
  else
    let q := a.toNat
    let senders := Function.update m.sendWq q (m.sendWq q ++ [p])
    (moved (schedSuspend p) m.sched).bind fun s =>
      if q ∈ m.recvWq p ∨ q ∈ m.recvWq procs then
        (moved (schedResume q) s).map fun t => { m with
          sched := t, sendWq := senders, recvWq := Function.update m.recvWq p ((m.recvWq p).erase q) }
      else some { m with sched := s, sendWq := senders }

def Flat.waitingSender (m : Flat T) (p : ℕ) (a : ℤ) : Option ℕ :=
  (m.sendWq p).find? fun s => decide (a < 0 ∨ (s : ℤ) = a)

def Flat.take (p s : ℕ) (m : Flat T) : Option (Flat T) :=
  (m.copyWords (m.seg s) (m.seg p) (word2int (m.proc s).r) (word2int (m.proc p).r) 10).bind
    fun u => (moved (schedResume s) m.sched).map fun t =>
      { u with sched := t, sendWq := Function.update m.sendWq p ((m.sendWq p).erase s) }

def Flat.await (p : ℕ) (a : ℤ) (m : Flat T) : Option (Flat T) :=
  (moved (schedSuspend p) m.sched).map fun t => { m.setRegs p retreat with
    sched := t
    recvWq := Function.update m.recvWq (recvIndex a) (m.recvWq (recvIndex a) ++ [p]) }

def Flat.receive (p : ℕ) (a : ℤ) (m : Flat T) : Option (Flat T) :=
  if a > 99 then none
  else match m.waitingSender p a with
    | none => m.await p a
    | some s => m.take p s

def Flat.down (p : ℕ) (a : ℤ) (m : Flat T) : Option (Flat T) :=
  if a < 0 ∨ a > 99 then none
  else
    let s := a.toNat
    if m.semTable s = 0 then
      (moved (schedSuspend p) m.sched).map fun t => { m.setRegs p retreat with
        sched := t, semWq := Function.update m.semWq s (m.semWq s ++ [p]) }
    else some { m with semTable := Function.update m.semTable s (m.semTable s - 1) }

def Flat.up (a : ℤ) (m : Flat T) : Option (Flat T) :=
  if a < 0 ∨ a > 99 then none
  else
    let s := a.toNat
    let raised := { m with semTable := Function.update m.semTable s (m.semTable s + 1) }
    match m.semWq s with
    | [] => some raised
    | w :: l => (moved (schedResume w) m.sched).map fun t =>
        { raised with sched := t, semWq := Function.update m.semWq s l }

def Flat.fork (p : ℕ) (m : Flat T) : Option (Flat T) :=
  let n := word2int (m.seg p).lr + 1
  let block := memalloc n m.holes
  let child : Seg := ⟨int2word block.1, int2word (n - 1), m.nextPid⟩
  if n ≤ 0 ∨ m.nextPid > 99 ∨ block.1 < 0 then none
  else
    (m.copyWords (m.seg p) child 0 0 (min n (word2int child.lr + 1)).toNat).bind fun u =>
      (moved (schedReset m.nextPid) m.sched).bind fun s =>
        (moved (schedResume m.nextPid) s).map fun t => { u with
          sched := t, holes := block.2, nextPid := m.nextPid + 1
          proc := Function.update
            (Function.update m.proc p { m.proc p with r := int2word m.nextPid }) m.nextPid
            { m.proc p with toSeg := child, r := int2word (m.proc p).pid, sp := zeros } }

def Flat.halt (p : ℕ) (m : Flat T) : Option (Flat T) :=
  (moved (schedReset p) m.sched).bind fun s =>
    (moved (schedSuspend p) s).map fun t => { m with
      sched := t
      holes := if word2int (m.seg p).br < 0 ∨ word2int (m.seg p).lr < 0 then m.holes
        else freemem (word2int (m.seg p).br) (word2int (m.seg p).lr + 1) m.holes }

def Flat.execute (op : Op) (p : ℕ) (a : ℤ) (m : Flat T) : Option (Flat T) :=
  match op with
  | .SD => m.send p a
  | .RC => m.receive p a
  | .PE => m.down p a
  | .VE => m.up a
  | .FK => m.fork p
  | .HA => m.halt p
  | .EX => none
  | op => (step op (m.seg p).pid a (m.image p)).map (m.setImage p)

/-- The current process reads the word at its counter, goes on to the next one, and executes. -/
def Flat.tick (m : Flat T) : Option (Label × Flat T) :=
  let p := m.sched.current
  if p < m.nextPid ∧ (m.seg p).pid = p ∧ 0 ≤ word2int (m.seg p).br then
    ((m.image p).get (word2int (icWord (m.proc p).ic))).bind fun w =>
      (decode (opcode w.b0 w.b1)).bind fun op =>
        (({ m.setRegs p advance with sched := account m.sched } : Flat T).execute op p
          (operand w)).map fun u => (.instr p op (operand w), u)
  else none

structure Boundary (T : Type) where
  machine : Flat T
  i : ℕ

def next (c : Boundary T) : Option (Label × Boundary T) :=
  if c.machine.sched.nrRunning = 0 then none
  else if c.i < schedGranularity then
    c.machine.tick.map fun r => (r.1, ⟨r.2, c.i + 1⟩)
  else
    (moved endSlice c.machine.sched).map fun s => (.slice, ⟨{ c.machine with sched := s }, 0⟩)

end
end BrainMachine.FlatMachine
