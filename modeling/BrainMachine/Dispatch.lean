import BrainMachine.Loader

set_option autoImplicit false

namespace BrainMachine.Dispatch
open Codec Computations Paging Stdio AddressSpace Instructions HoleList RunQueue Machine Loader

inductive Op where
  | LR | LL | LH | SR | SP | PS | PH | PP | CE | CL | BT | BU | GD | PD | AD | SU | MI | DI
  | AS | SS | MS | DS | NP | SD | RC | SI | PE | VE | LS | ST | FK | EX | GP | HA
  deriving DecidableEq, Repr

/-- The two bytes of an instruction word as the number that `OPCODE` makes of two `char`s. -/
def opcode (a b : UInt8) : ℤ := a.toInt8.toInt * 256 + b.toInt8.toInt

def Op.letters : Op → UInt8 × UInt8
  | .LR => (76, 82) | .LL => (76, 76) | .LH => (76, 72) | .SR => (83, 82)
  | .SP => (83, 80) | .PS => (80, 83) | .PH => (80, 72) | .PP => (80, 80)
  | .CE => (67, 69) | .CL => (67, 76) | .BT => (66, 84) | .BU => (66, 85)
  | .GD => (71, 68) | .PD => (80, 68) | .AD => (65, 68) | .SU => (83, 85)
  | .MI => (77, 85) | .DI => (68, 73) | .AS => (65, 83) | .SS => (83, 83)
  | .MS => (77, 83) | .DS => (68, 83) | .NP => (78, 80) | .SD => (83, 68)
  | .RC => (82, 67) | .SI => (83, 73) | .PE => (80, 69) | .VE => (86, 69)
  | .LS => (76, 83) | .ST => (83, 84) | .FK => (70, 75) | .EX => (69, 88)
  | .GP => (71, 80) | .HA => (72, 65)

def Op.code (op : Op) : ℤ := opcode op.letters.1 op.letters.2

def opTable : List Op :=
  [.LR, .LL, .LH, .SR, .SP, .PS, .PH, .PP, .CE, .CL, .BT, .BU, .GD, .PD, .AD, .SU, .MI, .DI,
   .AS, .SS, .MS, .DS, .NP, .SD, .RC, .SI, .PE, .VE, .LS, .ST, .FK, .EX, .GP, .HA]

/-- The instructions on one process, as `op_table` assigns them. -/
def Op.instruction : Op → Option Instruction
  | .LR => some loadAll | .LL => some loadLow | .LH => some loadHigh
  | .SR => some storeRegister | .SP => some setSp | .PS => some getSp
  | .PH => some push | .PP => some pop | .CE => some cmpEql | .CL => some cmpLess
  | .BT => some jmpIf | .BU => some jmp | .GD => some read | .PD => some print
  | .AD => some add | .SU => some subtract | .MI => some multiply | .DI => some divide
  | .AS => some addStack | .SS => some subtractStack | .MS => some multiplyStack
  | .DS => some divideStack | .NP => some nop | .SI => some setSem
  | .LS => some loadShared | .ST => some storeShared | .GP => some identify
  | .SD | .RC | .PE | .VE | .FK | .EX | .HA => none

section
variable {T : Type} [RedBlackTree T]

/-- `op_table[i].run(p, addr)` -/
def Op.run (op : Op) (pid : ℕ) (addr : ℤ) : Exec (VM T) ℤ :=
  match op with
  | .SD => send pid addr
  | .RC => recv pid addr
  | .PE => semDown pid addr
  | .VE => semUp pid addr
  | .FK => forkProc pid addr
  | .EX => execProc pid addr
  | .HA => halt pid addr
  | op => match op.instruction with
    | some i => instr i pid addr
    | none => fault .undefined

/-- A fetched instruction: the counter it was read at, its opcode and its operand. -/
structure Fetched where
  ic : ℤ
  op : ℤ
  addr : ℤ
  deriving DecidableEq, Repr

/-- `tick` up to the decoded operand; the counter is incremented by then. -/
def fetch (pid : ℕ) : Exec (VM T) (Option Fetched) := do
  let m ← get
  let ic := word2int (icWord (m.regs pid).ic)
  if ic = -1 then pure none
  else do
    let a ← onMemory (getWordref (m.seg pid) ic)
    match a with
    | none => pure none
    | some a => do
      onCore pid (setRegs fun g => { g with ic := lowHalf (int2word (ic + 1)) })
      let w ← onMemory (deref a)
      pure (some ⟨ic, opcode w.b0 w.b1, word2int ⟨48, 48, w.b2, w.b3⟩⟩)

def decode (code : ℤ) : Option Op := opTable.find? fun op => op.code = code

/-- The reference is released under the base and limit registers of that moment. -/
def execute (pid : ℕ) (f : Fetched) : Exec (VM T) ℤ := do
  match decode f.op with
  | some op => do
    let res ← op.run pid f.addr
    let m ← get
    onMemory (releaseWordref (m.seg pid) f.ic)
    pure res
  | none => do
    let m ← get
    let _ ← onCore pid (printMem (m.seg pid))
    pure (-1)

def tick (pid : ℕ) : Exec (VM T) ℤ := do
  let m ← get
  if pid ≥ m.nextPid then pure 1
  else if (m.seg pid).pid ≠ pid then pure (-1)
  else do
    let f ← fetch pid
    match f with
    | none => pure (-1)
    | some f => execute pid f

/-- The body of the inner loop of `sched_run`. -/
def runTick : Exec (VM T) ℤ := do
  modify fun m => { m with sched := account m.sched }
  let m ← get
  let r ← tick m.sched.current
  if r ≠ 0 then pure (-1)
  else do
    modify fun m => { m with store := { m.store with ops := m.store.ops + 1 } }
    pure 0

/-- A boundary of `sched_run`: the machine and the number of ticks in this slice. -/
structure Config (T : Type) where
  vm : VM T
  i : ℕ

/-- What a step did: an instruction of the current process, or the end of a slice. -/
inductive Label where
  | instr (pid : ℕ) (op : Op) (addr : ℤ)
  | slice
  deriving DecidableEq, Repr

def pending (m : VM T) : Option (Op × ℤ) :=
  match fetch m.sched.current { m with sched := account m.sched } with
  | .ok (some f, _) => (decode f.op).map fun op => (op, f.addr)
  | _ => none

/-- One step of `sched_run` from a boundary; `none` when it has returned or faulted. -/
def next (c : Config T) : Option (Label × Config T) :=
  if c.vm.sched.nrRunning = 0 then none
  else if c.i < schedGranularity then
    match runTick c.vm, pending c.vm with
    | .ok (0, m), some (op, addr) => some (.instr c.vm.sched.current op addr, ⟨m, c.i + 1⟩)
    | _, _ => none
  else
    match onSched endSlice c.vm with
    | .ok (_, m) => some (.slice, ⟨m, 0⟩)
    | .error _ => none

/-- The state of `main` before it loads the programs. -/
def startState (pager : Pager) (host : Host) : VM T :=
  { store :=
      { pager := pager, ops := 0, semTable := fun _ => 1, shm := fun _ => ⟨0, 0, 0, 0⟩
        stdin := ⟨[], false⟩, stdout := [] }
    sched := schedInit
    proc := fun _ =>
      { r := ⟨0, 0, 0, 0⟩, sp := ⟨0, 0, 0, 0⟩, ic := (0, 0), c := 0, stackBase := 0
        br := ⟨0, 0, 0, 0⟩, lr := ⟨0, 0, 0, 0⟩, pid := 0 }
    nextPid := 0
    holes := freemem 0 vaddrSize []
    recvWq := fun _ => []
    sendWq := fun _ => []
    semWq := fun _ => []
    host := host }

/-- `main` up to `sched_run`; `none` when it gives up or faults before. -/
def boot (pgSize : ℕ) (average : UInt32 → UInt32 → UInt32)
    (host : Host) (input : List UInt8) : Option (VM T) :=
  match pagememInit pgSize average with
  | none => none
  | some pager =>
    match loadFile ⟨input, false⟩ (startState pager host) with
    | .ok ((0, fh), m) => some { m with store := { m.store with stdin := fh } }
    | _ => none

end
end BrainMachine.Dispatch
