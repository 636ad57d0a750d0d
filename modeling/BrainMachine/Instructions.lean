import BrainMachine.AddressSpace

set_option autoImplicit false

/-!
# Instructions on one process

The instructions that touch the registers of the running process, its memory and the
shared tables, and neither the scheduler nor the wait queues. Their state has no base and
limit registers, so none of them can move the address space.
-/
namespace BrainMachine.Instructions
open Codec Computations Paging Stdio AddressSpace

/-- The fields of `struct proc` that an instruction may change. -/
structure Regs where
  r : Word
  sp : Word
  ic : UInt8 × UInt8
  c : UInt8
  stackBase : UInt32
  deriving DecidableEq, Repr

structure Core where
  regs : Regs
  store : Store

abbrev Instruction := Seg → ℤ → Exec Core ℤ

def onStore {α : Type} (x : Exec Store α) : Exec Core α :=
  zoom Core.store (fun t s => { s with store := t }) x

def setRegs (f : Regs → Regs) : Exec Core Unit := modify fun s => { s with regs := f s.regs }
def setR (f : Word → Word) : Exec Core Unit := setRegs fun g => { g with r := f g.r }
def setFlag (b : Bool) : Exec Core Unit := setRegs fun g => { g with c := if b then 84 else 70 }

/-- The instruction counter as the word `00XY`. -/
def icWord (ic : UInt8 × UInt8) : Word := ⟨48, 48, ic.1, ic.2⟩
def lowHalf (w : Word) : UInt8 × UInt8 := (w.b2, w.b3)

def retryOp : Exec Core ℤ := do
  let s ← get
  let ic := word2int (icWord s.regs.ic)
  if ic < 0 then pure 1
  else do
    setRegs fun g => { g with ic := lowHalf (int2word (ic - 1)) }
    pure 0

/-- The common shape of the instructions on one memory word. -/
def withWordref (p : Seg) (addr : ℤ) (use : ℕ → Exec Core Unit) : Exec Core ℤ := do
  match ← onStore (getWordref p addr) with
  | none => pure (-1)
  | some a => do
    use a
    onStore (releaseWordref p addr)
    pure 0

def loadAll : Instruction := fun p addr => withWordref p addr fun a => do
  let w ← onStore (deref a)
  setR fun _ => w

def loadLow : Instruction := fun p addr => withWordref p addr fun a => do
  let w ← onStore (deref a)
  setR fun r => ⟨r.b0, r.b1, w.b2, w.b3⟩

def loadHigh : Instruction := fun p addr => withWordref p addr fun a => do
  let w ← onStore (deref a)
  setR fun r => ⟨w.b0, w.b1, r.b2, r.b3⟩

def storeRegister : Instruction := fun p addr => withWordref p addr fun a => do
  let s ← get
  onStore (assign a s.regs.r)

/-- `memcmp(a, b, 4) < 0` -/
def wordLess (a b : Word) : Bool :=
  decide (a.b0 < b.b0 ∨ a.b0 = b.b0 ∧ (a.b1 < b.b1 ∨ a.b1 = b.b1 ∧
    (a.b2 < b.b2 ∨ a.b2 = b.b2 ∧ a.b3 < b.b3)))

def cmpEql : Instruction := fun p addr => withWordref p addr fun a => do
  let w ← onStore (deref a)
  let s ← get
  setFlag (s.regs.r = w)

def cmpLess : Instruction := fun p addr => withWordref p addr fun a => do
  let w ← onStore (deref a)
  let s ← get
  setFlag (wordLess s.regs.r w)

def jmp : Instruction := fun _ ic => do
  setRegs fun g => { g with ic := lowHalf (int2word ic) }
  pure 0

def jmpIf : Instruction := fun p addr => do
  let s ← get
  if s.regs.c = 84 then jmp p addr else pure 0

def nop : Instruction := fun _ _ => pure 0

def identify : Instruction := fun p _ => do
  setR fun _ => int2word p.pid
  pure 0

/-- -1 reports a non-numeric operand, a negative difference or a division by zero. -/
def doBinop (a b : Word) (op : Char) : ℤ :=
  let i := word2int a
  let j := word2int b
  if i = -1 ∨ j = -1 then -1
  else match op with
    | '+' => i + j
    | '-' => if j > i then -1 else i - j
    | '*' => i * j
    | '/' => if j = 0 then -1 else i.tdiv j
    | _ => i

/-- The reference is not released when the operation fails. -/
def doRegisterOp (op : Char) : Instruction := fun p addr => do
  match ← onStore (getWordref p addr) with
  | none => pure (-1)
  | some a => do
    let w ← onStore (deref a)
    let s ← get
    let res := doBinop s.regs.r w op
    if res < 0 then pure (-1)
    else do
      onStore (releaseWordref p addr)
      setR fun _ => int2word res
      pure 0

def add : Instruction := doRegisterOp '+'
def subtract : Instruction := doRegisterOp '-'
def multiply : Instruction := doRegisterOp '*'
def divide : Instruction := doRegisterOp '/'

def setSp : Instruction := fun _ _ => do
  setRegs fun g => { g with stackBase := UInt32.ofInt (word2int g.r), sp := g.r }
  pure 0

def getSp : Instruction := fun _ _ => do
  setRegs fun g => { g with r := g.sp }
  pure 0

def push : Instruction := fun p _ => do
  let s ← get
  let addr := word2int s.regs.sp
  if addr = -1 then pure (-1)
  else do
    setRegs fun g => { g with sp := int2word (addr + 1) }
    withWordref p (addr + 1) fun a => do
      let s ← get
      onStore (assign a s.regs.r)

/-- The comparisons of the stack pointer with `stack_base` are unsigned. -/
def pop : Instruction := fun p _ => do
  let s ← get
  let addr := word2int s.regs.sp
  if UInt32.ofInt addr ≤ s.regs.stackBase then pure 0
  else do
    match ← onStore (getWordref p addr) with
    | none => pure (-1)
    | some a => do
      let w ← onStore (deref a)
      setR fun _ => w
      onStore (releaseWordref p addr)
      setRegs fun g => { g with sp := int2word (addr - 1) }
      pure 0

/-- Order is next_on_stack op top_of_stack. -/
def stackOp (op : Char) : Instruction := fun p _ => do
  let s ← get
  let addr := word2int s.regs.sp
  if UInt32.ofInt addr < s.regs.stackBase + 1 then pure (-1)
  else do
    let word1 ← onStore (getWordref p addr)
    let word2 ← onStore (getWordref p (addr - 1))
    match word1, word2 with
    | some word1, some word2 => do
      let top ← onStore (deref word1)
      let next ← onStore (deref word2)
      let res := doBinop next top op
      onStore (releaseWordref p addr)
      onStore (releaseWordref p (addr - 1))
      if res < 0 then pure (-1)
      else do
        setRegs fun g => { g with sp := int2word (addr - 1) }
        withWordref p (addr - 1) fun a => onStore (assign a (int2word res))
    | _, _ => pure (-1)

def addStack : Instruction := stackOp '+'
def subtractStack : Instruction := stackOp '-'
def multiplyStack : Instruction := stackOp '*'
def divideStack : Instruction := stackOp '/'

def wordBytes (w : Word) : List UInt8 := [w.b0, w.b1, w.b2, w.b3]

def putchars (cs : List UInt8) : Exec Store Unit :=
  modify fun s => { s with stdout := s.stdout ++ cs }

def print : Instruction := fun p addr =>
  loopFrom (fun i => withWordref p (addr + i) fun a => do
    let w ← onStore (deref a)
    onStore (putchars (wordBytes w ++ [10]))) 10 0

/-- `strncasecmp(w, "END", 3) == 0` -/
def isEnd (w : Word) : Bool :=
  (w.b0 = 69 || w.b0 = 101) && (w.b1 = 78 || w.b1 = 110) && (w.b2 = 68 || w.b2 = 100)

def nextWord : Exec Store Word := do
  let s ← get
  let (w, t) := readWord s.stdin
  modify fun s => { s with stdin := t }
  pure w

def read : Instruction := fun p addr =>
  loopFrom (fun i => do
    let w ← onStore nextWord
    let s ← get
    if isEnd w then pure (-1)
    else if s.store.stdin.eof then pure (-1)
    else withWordref p (addr + i) fun a => onStore (assign a w)) 10 0

def loadShared : Instruction := fun _ addr =>
  match getShmp addr with
  | none => pure 1
  | some a => do
    let s ← get
    setR fun _ => s.store.shm a
    pure 0

def storeShared : Instruction := fun _ addr =>
  match getShmp addr with
  | none => pure 1
  | some a => do
    let s ← get
    onStore (modify fun t => { t with shm := Function.update t.shm a s.regs.r })
    pure 0

def semSet (sem : ℤ) (val : UInt32) : Exec Store ℤ :=
  if sem > 99 then pure 1
  else do
    modify fun s => { s with semTable := Function.update s.semTable sem.toNat val }
    pure 0

def setSem : Instruction := fun _ sem => do
  let s ← get
  let val := word2int s.regs.r
  if val < 0 then pure 1
  else if sem < 0 then pure 1
  else do
    let r ← onStore (semSet sem (UInt32.ofInt val))
    if r ≠ 0 then pure 1 else pure 0

/-- 0: the semaphore was put down, -1: there is no such semaphore, 1: block. -/
def semP (sem : ℤ) : Exec Store ℤ := do
  let s ← get
  if sem > 99 then pure (-1)
  else if s.semTable sem.toNat = 0 then pure 1
  else do
    modify fun s =>
      { s with semTable := Function.update s.semTable sem.toNat (s.semTable sem.toNat - 1) }
    pure 0

def semV (sem : ℤ) : Exec Store ℤ :=
  if sem > 99 then pure 1
  else do
    modify fun s =>
      { s with semTable := Function.update s.semTable sem.toNat (s.semTable sem.toNat + 1) }
    pure 0

def blank : List UInt8 := [32]

def threeDigits (i : ℕ) : List UInt8 := ((wordBytes (int2word i)).drop 1)

/-- Ten rows of ten words; a word past the limit is a null pointer dereferenced. -/
def printMem (p : Seg) : Exec Core ℤ :=
  loopFrom (fun i => do
    onStore (putchars (threeDigits (10 * i) ++ blank))
    let _ ← loopFrom (fun j => do
      match ← onStore (getWordref p (10 * i + j)) with
      | none => fault .undefined
      | some a => do
        let w ← onStore (deref a)
        onStore (putchars (wordBytes w ++ blank))
        onStore (releaseWordref p (10 * i + j))
        pure 0) 10 0
    onStore (putchars [8, 10])
    pure 0) 10 0

end BrainMachine.Instructions
