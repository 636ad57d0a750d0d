import Mathlib.Data.Int.Basic
import Mathlib.Data.List.Basic

set_option autoImplicit false

/-!
# The list of free blocks

`memalloc` allocates first fit; best fit is there as well. The functions return the list after
the call; a hole that is cut moves its address up and keeps its recorded size, as in the source.
-/
namespace BrainMachine.HoleList

structure Hole where
  addr : UInt32
  size : UInt32
  deriving DecidableEq, Repr

def addHole (loc size : UInt32) : List Hole → List Hole
  | [] => [⟨loc, size⟩]
  | h :: t => if h.addr ≥ loc then ⟨loc, size⟩ :: h :: t else h :: addHole loc size t

/-- The address of the block and the list without it; `none` is the answer -1. -/
def firstHole (size : UInt32) : List Hole → Option (UInt32 × List Hole)
  | [] => none
  | h :: t =>
    if h.size = size then some (h.addr, t)
    else if h.size > size then some (h.addr, { h with addr := h.addr + size } :: t)
    else (firstHole size t).map fun r => (r.1, h :: r.2)

/-- The address is returned as an `int`. -/
def getFirstHole (size : UInt32) (holes : List Hole) : ℤ × List Hole :=
  match firstHole size holes with
  | none => (-1, holes)
  | some (a, rest) => (a.toBitVec.toInt, rest)

/-- One turn of the first loop of `get_best_hole`; the index stands for the pointer. -/
def bestStep (size : UInt32) (best : Option (Hole × ℕ)) (p : Hole × ℕ) : Option (Hole × ℕ) :=
  match best with
  | none => if p.1.size ≥ size then some p else none
  | some b => if p.1.size ≥ size ∧ p.1.size < b.1.size then some p else some b

/-- The smallest hole that is large enough; of several the first one. -/
def minHole (size : UInt32) (holes : List Hole) : Option (Hole × ℕ) :=
  holes.zipIdx.foldl (bestStep size) none

def getBestHole (size : UInt32) (holes : List Hole) : ℤ × List Hole :=
  match minHole size holes with
  | none => (-1, holes)
  | some (h, i) =>
    if h.size = size then (h.addr.toBitVec.toInt, holes.eraseIdx i)
    else if h.size > size then
      (h.addr.toBitVec.toInt, holes.set i { h with addr := h.addr + size })
    else (-1, holes)

def memalloc (size : ℤ) (holes : List Hole) : ℤ × List Hole :=
  if size < 0 then (-1, holes) else getFirstHole (UInt32.ofInt size) holes

def freemem (addr size : ℤ) (holes : List Hole) : List Hole :=
  addHole (UInt32.ofInt addr) (UInt32.ofInt size) holes

end BrainMachine.HoleList
