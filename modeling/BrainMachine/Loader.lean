import BrainMachine.Machine

set_option autoImplicit false

namespace BrainMachine.Loader
open Codec Computations Paging Stdio AddressSpace Instructions HoleList RunQueue Machine

def brain10 : List UInt8 := bytes "BRAIN10"
def dataMark : List UInt8 := bytes "DATA"

section
variable {T : Type}

/-- The process size as an `int`; -1 when no number follows. -/
def loadHeader (fh : Stream) : ℤ × Stream :=
  match scanUnsigned fh with
  | (none, fh) => (-1, fh)
  | (some n, fh) => (n.toBitVec.toInt, fh)

/-- The bytes of `buf` after `fscanf` stored a token and its terminating zero in it. -/
def fillBuffer (buf tok : List UInt8) : List UInt8 :=
  tok ++ 0 :: buf.drop (tok.length + 1)

def bufferWord (buf : List UInt8) : Word :=
  ⟨buf.getD 0 0, buf.getD 1 0, buf.getD 2 0, buf.getD 3 0⟩

/-- The loop of `load_code`. Every turn reads at least one character, so that the length of
the stream bounds the number of turns; `buf` is kept from turn to turn. -/
def loadCodeLoop (pid : ℕ) : ℕ → List UInt8 → ℕ → Stream → Exec (VM T) (ℤ × Stream)
  | 0, _, _, _ => fault .diverges
  | n + 1, buf, addr, fh =>
    match scanToken 7 fh with
    | (none, fh) => pure (-1, fh)
    | (some tok, fh) =>
      match skipLine fh.rest with
      | none => fault .diverges
      | some rest =>
        if tok = brain10 then pure (0, ⟨rest, fh.eof⟩)
        else if tok.take 4 = dataMark then pure (1, ⟨rest, fh.eof⟩)
        else do
          let m ← get
          let r ← onMemory (pageStore (m.seg pid) (bufferWord (fillBuffer buf tok)) addr)
          if r ≠ 0 then pure (-1, ⟨rest, fh.eof⟩)
          else loadCodeLoop pid n (fillBuffer buf tok) (addr + 1) ⟨rest, fh.eof⟩

/-- 0: a process was loaded and another header seen, 1: the DATA line was seen, -1: error.
`buf` is not initialised. -/
def loadCode (fh : Stream) (pid : ℕ) : Exec (VM T) (ℤ × Stream) := do
  let m ← get
  modify fun m => { m with host := m.host.enter }
  loadCodeLoop pid (fh.rest.length + 1) m.host.buffer 0 fh

variable [RedBlackTree T]

/-- The loop of `load_file`; every turn reads at least one character. -/
def loadFileLoop : ℕ → Stream → Exec (VM T) (ℤ × Stream)
  | 0, _ => fault .diverges
  | n + 1, fh => do
    let header := loadHeader fh
    if header.1 < 0 then pure (1, header.2)
    else do
      let p ← procalloc header.1
      match p with
      | none => pure (1, header.2)
      | some pid => do
        let code ← loadCode header.2 pid
        if code.1 = -1 then pure (1, code.2)
        else do
          let _ ← onSched (schedReset pid)
          let _ ← onSched (schedResume pid)
          if code.1 = 0 then loadFileLoop n code.2 else pure (0, code.2)

def loadFile (fh : Stream) : Exec (VM T) (ℤ × Stream) :=
  match scanToken 7 fh with
  | (none, fh) => pure (1, fh)
  | (some tok, fh) =>
    if tok ≠ brain10 then pure (1, fh)
    else match skipLine fh.rest with
      | none => fault .diverges
      | some rest => loadFileLoop (rest.length + 1) ⟨rest, fh.eof⟩

/-- The file named by the operand of the instruction before the instruction counter. -/
def getExecFh (pid : ℕ) : Exec (VM T) (Option Stream) := do
  let m ← get
  let ic := word2int (icWord (m.regs pid).ic)
  if ic < 0 then pure none
  else do
    let a ← onMemory (getWordref (m.seg pid) (ic - 1))
    match a with
    | none => pure none
    | some a => do
      let w ← onMemory (deref a)
      onMemory (releaseWordref (m.seg pid) (ic - 1))
      let m ← get
      modify fun m => { m with host := (m.host.fopen (lowHalf w)).2 }
      pure (m.host.fopen (lowHalf w)).1

def resetRegs (g : Regs) : Regs :=
  { g with r := zeros, ic := (48, 48), sp := zeros, c := 70, stackBase := 0 }

def fclose : Exec (VM T) Unit := modify fun m => { m with host := m.host.fclose }

/-- `exec_proc` from the opened file on. Seven letters and their terminating zero go to the seven
bytes of `temp`; the zero past its end is not modelled. -/
def execFile (pid : ℕ) (fh : Stream) : Exec (VM T) ℤ :=
  match scanToken 7 fh with
  | (none, _) => do
    fclose
    pure (-1)
  | (some tok, fh) =>
    if tok ≠ brain10 then do
      fclose
      pure (-1)
    else do
      let header := loadHeader fh
      if header.1 < 0 then do
        fclose
        pure (-1)
      else do
        let r ← resizeProc pid header.1
        if r ≠ 0 then do
          -- the file stays open
          onCore pid (setR fun _ => zeros)
          pure 0
        else do
          let code ← loadCode header.2 pid
          if code.1 = -1 then do
            fclose
            pure (-1)
          else do
            onCore pid (setRegs resetRegs)
            fclose
            pure 0

def execProc (pid : ℕ) (_addr : ℤ) : Exec (VM T) ℤ := do
  let fh ← getExecFh pid
  match fh with
  | none => pure 1
  | some fh => execFile pid fh

end
end BrainMachine.Loader
