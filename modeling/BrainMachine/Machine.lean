import BrainMachine.HoleList
import BrainMachine.Instructions
import BrainMachine.RunQueue

set_option autoImplicit false

/-!
# The machine

The process table, the allocator, the wait queues and the instructions that use them.
A wait queue is the list of the pids in it; `recvWq procs` is the queue of receivers that
wait for anyone.
-/
namespace BrainMachine.Machine
open Codec Computations Paging Stdio AddressSpace Instructions HoleList RunQueue

structure Proc extends Regs, Seg
  deriving DecidableEq, Repr

/-- What the machine finds outside itself: the program files, how many of them can be open at once
and are open, and what the coming calls of `load_code` find in `buf` before they write to it. -/
structure Host where
  files : UInt8 × UInt8 → Option (List UInt8)
  limit : ℕ
  opened : ℕ
  buffers : ℕ → Fin 8 → UInt8

/-- `none` is the null pointer: there is no such file, or too many files are open. -/
def Host.fopen (h : Host) (fname : UInt8 × UInt8) : Option Stream × Host :=
  match h.files fname with
  | none => (none, h)
  | some text =>
    if h.opened < h.limit then (some ⟨text, false⟩, { h with opened := h.opened + 1 })
    else (none, h)

def Host.fclose (h : Host) : Host := { h with opened := h.opened - 1 }

def Host.buffer (h : Host) : List UInt8 := List.ofFn (h.buffers 0)

/-- The host after the next call of `load_code` has been entered. -/
def Host.enter (h : Host) : Host := { h with buffers := fun n => h.buffers (n + 1) }

def bareHost : Host := ⟨fun _ => none, 16, 0, fun _ _ => 0⟩

/-- A host with one program file, `AA`. -/
def hostOf (text : List UInt8) : Host :=
  { bareHost with files := fun fname => if fname = (65, 65) then some text else none }

structure VM (T : Type) where
  store : Store
  sched : Sched T
  proc : ℕ → Proc
  nextPid : ℕ
  holes : List Hole
  recvWq : ℕ → List ℕ
  sendWq : ℕ → List ℕ
  semWq : ℕ → List ℕ
  host : Host

section
variable {T : Type}

def VM.seg (m : VM T) (pid : ℕ) : Seg := (m.proc pid).toSeg
def VM.regs (m : VM T) (pid : ℕ) : Regs := (m.proc pid).toRegs
def VM.core (m : VM T) (pid : ℕ) : Core := ⟨m.regs pid, m.store⟩

def VM.setProc (m : VM T) (pid : ℕ) (f : Proc → Proc) : VM T :=
  { m with proc := Function.update m.proc pid (f (m.proc pid)) }

def VM.setCore (m : VM T) (pid : ℕ) (c : Core) : VM T :=
  { m.setProc pid fun p => { p with toRegs := c.regs } with store := c.store }

def onCore {α : Type} (pid : ℕ) (x : Exec Core α) : Exec (VM T) α :=
  zoom (fun m => m.core pid) (fun c m => m.setCore pid c) x

def onMemory {α : Type} (x : Exec Store α) : Exec (VM T) α :=
  zoom VM.store (fun t m => { m with store := t }) x

def onSched {α : Type} (x : Exec (Sched T) α) : Exec (VM T) α :=
  zoom VM.sched (fun t m => { m with sched := t }) x

/-- Run an instruction for process `pid`. -/
def instr (i : Instruction) (pid : ℕ) (addr : ℤ) : Exec (VM T) ℤ := do
  let m ← get
  onCore pid (i (m.seg pid) addr)

/-- The list after the call, with the return code; allocation is taken to succeed. -/
def insertProc (l : List ℕ) (p : ℕ) : ℤ × List ℕ := (0, l ++ [p])

/-- The first entry of `p` goes; the code is 0 also when there is none. -/
def removeProc (l : List ℕ) (p : ℕ) : ℤ × List ℕ := (0, l.erase p)

def updateRecvWq (i : ℕ) (f : List ℕ → ℤ × List ℕ) : Exec (VM T) ℤ := do
  let m ← get
  let r := f (m.recvWq i)
  modify fun m => { m with recvWq := Function.update m.recvWq i r.2 }
  pure r.1

def updateSendWq (i : ℕ) (f : List ℕ → ℤ × List ℕ) : Exec (VM T) ℤ := do
  let m ← get
  let r := f (m.sendWq i)
  modify fun m => { m with sendWq := Function.update m.sendWq i r.2 }
  pure r.1

def updateSemWq (i : ℕ) (f : List ℕ → ℤ × List ℕ) : Exec (VM T) ℤ := do
  let m ← get
  let r := f (m.semWq i)
  modify fun m => { m with semWq := Function.update m.semWq i r.2 }
  pure r.1

/-- `none` is the null pointer. -/
def procalloc (procsize : ℤ) : Exec (VM T) (Option ℕ) := do
  let m ← get
  if m.nextPid > procs - 1 then pure none
  else do
    let block := memalloc procsize m.holes
    modify fun m => { m with holes := block.2 }
    if block.1 < 0 then pure none
    else do
      let p : Proc :=
        { r := zeros, sp := zeros, ic := (48, 48), c := 70, stackBase := 0
          br := int2word block.1, lr := int2word (procsize - 1), pid := m.nextPid }
      modify fun m => { m.setProc m.nextPid (fun _ => p) with nextPid := m.nextPid + 1 }
      pure (some m.nextPid)

/-- `freemem` of the address space of a process, unless its registers are not numeric. -/
def VM.freeSpace (m : VM T) (p : Seg) : VM T :=
  if word2int p.br < 0 ∨ word2int p.lr < 0 then m
  else { m with holes := freemem (word2int p.br) (word2int p.lr + 1) m.holes }

/-- The new block is taken before the old one is given back. -/
def resizeProc (pid : ℕ) (newsize : ℤ) : Exec (VM T) ℤ := do
  let m ← get
  let block := memalloc newsize m.holes
  modify fun m => { m with holes := block.2 }
  if block.1 < 0 then pure (-1)
  else do
    modify fun m => m.freeSpace (m.seg pid)
    modify fun m => m.setProc pid fun p =>
      { p with br := int2word block.1, lr := int2word (newsize - 1) }
    pure 0

def xferMsg (sender recver : ℕ) : Exec (VM T) ℤ := do
  let m ← get
  onMemory (xferWords (m.seg sender) (m.seg recver) (word2int (m.regs sender).r)
    (word2int (m.regs recver).r))

/-- The sender that `recv` picks: the first one waiting that the operand admits. -/
def VM.waitingSender (m : VM T) (p : ℕ) (pid : ℤ) : Option ℕ :=
  (m.sendWq p).find? fun s => decide (pid < 0 ∨ (s : ℤ) = pid)

/-- Whether `send` finds the receiver `pid` in the queue of `p` or in the `any` queue. -/
def VM.receiverWaits (m : VM T) (p pid : ℕ) : Prop := pid ∈ m.recvWq p ∨ pid ∈ m.recvWq procs

instance (m : VM T) (p pid : ℕ) : Decidable (m.receiverWaits p pid) :=
  inferInstanceAs (Decidable (_ ∨ _))

variable [RedBlackTree T]

/-- The index of the queue that a receiver with this operand waits in. -/
def recvIndex (pid : ℤ) : ℕ := if pid < 0 then procs else pid.toNat

def recv (p : ℕ) (pid : ℤ) : Exec (VM T) ℤ := do
  if pid > procs - 1 then pure 1
  else do
    let m ← get
    match m.waitingSender p pid with
    | none => do
      let r ← onCore p retryOp
      if r ≠ 0 then pure 1
      else do
        let r ← updateRecvWq (recvIndex pid) fun l => insertProc l p
        if r ≠ 0 then pure (-1)
        else do
          let _ ← onSched (schedSuspend p)
          pure 0
    | some sender => do
      let r ← xferMsg sender p
      if r ≠ 0 then pure 1
      else do
        let r ← updateSendWq p fun l => removeProc l sender
        if r ≠ 0 then pure 1
        else do
          let _ ← onSched (schedResume sender)
          pure 0

/-- Take the receiver out of the queue of `p`, or else out of the `any` queue: the second
`remove_proc` runs only when the first one reports an error. -/
def removeReceiver (p recvp : ℕ) : Exec (VM T) ℤ := do
  let r ← updateRecvWq p fun l => removeProc l recvp
  if r ≠ 0 then updateRecvWq procs fun l => removeProc l recvp else pure 0

def send (p : ℕ) (pid : ℤ) : Exec (VM T) ℤ := do
  if pid < 0 ∨ pid > procs - 1 then pure 1
  else do
    let _ ← onSched (schedSuspend p)
    let r ← updateSendWq pid.toNat fun l => insertProc l p
    if r ≠ 0 then pure (-1)
    else do
      let m ← get
      if m.receiverWaits p pid.toNat then do
        let r ← removeReceiver p pid.toNat
        if r ≠ 0 then pure (-1)
        else do
          let _ ← onSched (schedResume pid.toNat)
          pure 0
      else pure 0

def semDown (p : ℕ) (sem : ℤ) : Exec (VM T) ℤ := do
  if sem < 0 then pure 1
  else do
    let r ← onMemory (semP sem)
    if r = 0 then pure 0
    else if r = 1 then do
      let r ← onCore p retryOp
      if r ≠ 0 then pure 1
      else do
        let _ ← onSched (schedSuspend p)
        let r ← updateSemWq sem.toNat fun l => insertProc l p
        if r ≠ 0 then pure 1 else pure 0
    else pure 1

def semUp (_p : ℕ) (sem : ℤ) : Exec (VM T) ℤ := do
  if sem < 0 then pure 1
  else do
    let r ← onMemory (semV sem)
    if r ≠ 0 then pure 1
    else do
      let m ← get
      match m.semWq sem.toNat with
      | [] => pure 0
      | w :: _ => do
        let _ ← onSched (schedResume w)
        let r ← updateSemWq sem.toNat fun l => removeProc l w
        if r ≠ 0 then pure 1 else pure 0

/-- The copies after a failed `procalloc` go through a null pointer. The stack pointer is
not among them. -/
def forkProc (p : ℕ) (_addr : ℤ) : Exec (VM T) ℤ := do
  let m ← get
  let procsize := word2int (m.seg p).lr
  if procsize < 0 then pure 1
  else do
    match ← procalloc (procsize + 1) with
    | none => do
      modify fun m => m.setProc p fun q => { q with r := zeros }
      fault .undefined
    | some newp => do
      modify fun m => m.setProc p fun q => { q with r := int2word newp }
      modify fun u => u.setProc newp fun q => { q with
        r := int2word (m.seg p).pid
        ic := (m.regs p).ic, c := (m.regs p).c, stackBase := (m.regs p).stackBase }
      let m ← get
      let r ← onMemory (dupMem (m.seg p) (m.seg newp))
      if r ≠ 0 then pure (-1)
      else do
        let _ ← onSched (schedReset newp)
        let _ ← onSched (schedResume newp)
        pure 0

def halt (p : ℕ) (_addr : ℤ) : Exec (VM T) ℤ := do
  modify fun m => m.freeSpace (m.seg p)
  let _ ← onSched (schedReset p)
  let _ ← onSched (schedSuspend p)
  pure 0

end
end BrainMachine.Machine
