import BrainMachine.Paging
import BrainMachine.Stdio

set_option autoImplicit false

namespace BrainMachine.AddressSpace
open Codec Computations Paging Stdio

/-- The fields of `struct proc` that place its address space. -/
structure Seg where
  br : Word
  lr : Word
  pid : ℕ
  deriving DecidableEq, Repr

structure Store where
  pager : Pager
  ops : UInt32
  semTable : ℕ → UInt32
  shm : ℕ → Word
  stdin : Stream
  stdout : List UInt8

def getGlobalAddress (p : Seg) (addr : ℤ) : ℤ :=
  if addr < 0 then -1
  else
    let base := word2int p.br
    let limit := word2int p.lr
    if base < 0 ∨ limit < 0 then -1
    else if addr > limit then -1
    else base + addr

def onPager {α : Type} (x : Exec Pager α) : Exec Store α :=
  zoom Store.pager (fun t s => { s with pager := t }) x

/-- The reference is an index of physical memory; `none` is the null pointer. -/
def getWordref (p : Seg) (addr : ℤ) : Exec Store (Option ℕ) := do
  let g := getGlobalAddress p addr
  if g < 0 then pure none
  else do
    let s ← get
    onPager (touchPage s.ops g.toNat)

def releaseWordref (p : Seg) (addr : ℤ) : Exec Store Unit := do
  let g := getGlobalAddress p addr
  if g < 0 then pure ()
  else onPager (modify (pageReleaseRef g))

def deref (a : ℕ) : Exec Store Word := do
  let s ← get
  pure (s.pager.mem a)

def assign (a : ℕ) (w : Word) : Exec Store Unit := onPager (modify (writeMem a w))

/-- A store past the end of secondary storage is undefined. -/
def pageStore (p : Seg) (src : Word) (addr : ℤ) : Exec Store ℤ := do
  let g := getGlobalAddress p addr
  if g < 0 then pure (-1)
  else if g.toNat < vaddrSize then do
    onPager (modify fun s => { s with pageMem := Function.update s.pageMem g.toNat src })
    pure 0
  else fault .undefined

def getShmp (addr : ℤ) : Option ℕ := if addr > 99 ∨ addr < 0 then none else some addr.toNat

/-- Make the words of `q` those of `p`, up to the smaller of the two limits. -/
def dupMem (p q : Seg) : Exec Store ℤ :=
  loopFrom (fun c => do
    let src ← getWordref p c
    let dest ← getWordref q c
    match src, dest with
    | some src, some dest => do
      let w ← deref src
      assign dest w
      releaseWordref p c
      releaseWordref q c
      pure 0
    | _, _ => pure (-1)) (min (word2int p.lr + 1) (word2int q.lr + 1)).toNat 0

/-- Copy the ten words at `loadLoc` of the sender to `storeLoc` of the receiver. -/
def xferWords (sender recver : Seg) (loadLoc storeLoc : ℤ) : Exec Store ℤ :=
  loopFrom (fun i => do
    match ← getWordref sender (loadLoc + i) with
    | none => pure 1
    | some sendWord => do
      match ← getWordref recver (storeLoc + i) with
      | none => pure 1
      | some recvWord => do
        let w ← deref sendWord
        assign recvWord w
        releaseWordref sender (loadLoc + i)
        releaseWordref recver (storeLoc + i)
        pure 0) 10 0

end BrainMachine.AddressSpace
