import BrainMachine.HoleList
import BrainMachine.LinkedCells

set_option autoImplicit false

namespace BrainMachine.HoleNodes
open Computations LinkedCells
open HoleList (Hole)

/-- The cells, and the variable `holes`. -/
abbrev Memory := Store Hole (Option ℕ)

/-- `malloc` is what the allocator answers. -/
def addHole (malloc : Option ℕ) (loc size : UInt32) : Exec Memory ℤ := do
  let s ← get
  match s.vars with
  | none =>
    match malloc with
    | none => pure 1
    | some newp => do
      alloc newp ⟨⟨loc, size⟩, none⟩
      assign fun _ => some newp
      pure 0
  | some holes => do
    let c ← load holes
    if c.val.addr ≥ loc then
      match malloc with
      | none => pure 1
      | some newp => do
        alloc newp ⟨⟨loc, size⟩, some holes⟩
        assign fun _ => some newp
        pure 0
    else do
      let p ← seek (fun h => !decide (h.addr < loc)) s.heap.keys.card holes
      match malloc with
      | none => pure 1
      | some newp => do
        let c ← load p
        alloc newp ⟨⟨loc, size⟩, c.next⟩
        store p { c with next := some newp }
        pure 0

/-- The loop of `get_first_hole` from `p`. -/
def firstLoop (size : UInt32) : ℕ → ℕ → Exec Memory ℤ
  | 0, _ => fault .diverges
  | n + 1, p => do
    let c ← load p
    match c.next with
    | none => pure (-1)
    | some nextp => do
      let d ← load nextp
      if d.val.size = size then do
        store p { c with next := d.next }
        free nextp
        pure d.val.addr.toBitVec.toInt
      else if d.val.size > size then do
        store nextp { d with val := { d.val with addr := d.val.addr + size } }
        pure d.val.addr.toBitVec.toInt
      else firstLoop size n nextp

def getFirstHole (size : UInt32) : Exec Memory ℤ := do
  let s ← get
  match s.vars with
  | none => pure (-1)
  | some holes => do
    let c ← load holes
    if c.val.size = size then do
      assign fun _ => c.next
      free holes
      pure c.val.addr.toBitVec.toInt
    else if c.val.size > size then do
      store holes { c with val := { c.val with addr := c.val.addr + size } }
      pure c.val.addr.toBitVec.toInt
    else firstLoop size s.heap.keys.card holes

/-- `p->size >= size && (min_hole == NULL || p->size < min_hole->size)` -/
def better (size : UInt32) (p : Hole) (minHole : Option ℕ) : Exec Memory Bool :=
  if p.size ≥ size then
    match minHole with
    | none => pure true
    | some a => do
      let m ← load a
      pure (decide (p.size < m.val.size))
  else pure false

def minLoop (size : UInt32) : ℕ → Option ℕ → Option ℕ → Exec Memory (Option ℕ)
  | _, none, minHole => pure minHole
  | 0, some _, _ => fault .diverges
  | n + 1, some p, minHole => do
    let c ← load p
    let b ← better size c.val minHole
    minLoop size n c.next (if b then some p else minHole)

def parentLoop (minHole : ℕ) : ℕ → Option ℕ → Exec Memory (Option ℕ)
  | _, none => pure none
  | 0, some _ => fault .diverges
  | n + 1, some p => do
    let c ← load p
    if c.next = some minHole then pure (some p) else parentLoop minHole n c.next

def getBestHole (size : UInt32) : Exec Memory ℤ := do
  let s ← get
  let found ← minLoop size s.heap.keys.card s.vars none
  match found with
  | none => pure (-1)
  | some minHole => do
    let minParent ← parentLoop minHole s.heap.keys.card s.vars
    let m ← load minHole
    if m.val.size = size then
      match minParent with
      | none => do
        let nextp ← deref s.vars
        let c ← load nextp
        assign fun _ => c.next
        free nextp
        pure c.val.addr.toBitVec.toInt
      | some parent => do
        let c ← load parent
        let next ← deref c.next
        let d ← load next
        store parent { c with next := d.next }
        let m ← load minHole
        free minHole
        pure m.val.addr.toBitVec.toInt
    else if m.val.size > size then do
      store minHole { m with val := { m.val with addr := m.val.addr + size } }
      pure m.val.addr.toBitVec.toInt
    else pure (-1)

/-- The list that `holes` points to, with the addresses of the cells. -/
def Holds (s : Memory) (l : List (ℕ × Hole)) : Prop := Chain s.heap s.vars l none

def contents (l : List (ℕ × Hole)) : List Hole := l.map Prod.snd

def left (size : UInt32) (k : ℕ × Hole) : List (ℕ × Hole) :=
  if k.2.size = size then [] else [(k.1, { k.2 with addr := k.2.addr + size })]

/-- The call is served from the cell `k`, and the cells `c` and `t` around it stay. -/
structure Serves (size : UInt32) (call : Exec Memory ℤ) (s : Memory) (c : List (ℕ × Hole))
    (k : ℕ × Hole) (t : List (ℕ × Hole)) : Prop where
  fits : size ≤ k.2.size
  runs : ∃ u, call s = .ok (k.2.addr.toBitVec.toInt, u) ∧ Holds u (c ++ (left size k ++ t))

end BrainMachine.HoleNodes
