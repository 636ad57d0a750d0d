import Mathlib.Logic.Function.Basic
import BrainMachine.Codec
import BrainMachine.Computations

set_option autoImplicit false

namespace BrainMachine.Paging
open Codec Computations

def procs : ℕ := 100
def memSize : ℕ := 100
def vaddrSize : ℕ := procs * 100

structure PageEnt where
  valid : Bool
  frameAddr : ℕ
  refcount : UInt32
  deriving DecidableEq, Repr

structure FreqEnt where
  lastAccess : UInt32
  period : UInt32
  deriving DecidableEq, Repr

/-- `average old elapsed` is the new period that `update_page_info` computes with the
history weight in use; `halfWeight` is the average for the weight 0.5 of `main`. -/
structure Pager where
  pgCount : ℕ
  pgSize : ℕ
  mem : ℕ → Word
  pageMem : ℕ → Word
  pgTable : ℕ → PageEnt
  freeFrames : ℕ → Bool
  pgPeriod : ℕ → FreqEnt
  average : UInt32 → UInt32 → UInt32

def halfWeight (period elapsed : UInt32) : UInt32 := period / 2 + elapsed / 2

def Pager.frameCount (s : Pager) : ℕ := memSize / s.pgSize
def Pager.refs (s : Pager) (page : ℕ) : UInt32 := (s.pgTable page).refcount
def Pager.resident (s : Pager) (page : ℕ) : Prop := (s.pgTable page).valid = true

/-- `none` is the error return -1. The page size 0, refused by `main`, is refused here. -/
def pagememInit (pgSize : ℕ) (average : UInt32 → UInt32 → UInt32) : Option Pager :=
  if pgSize > memSize then none
  else if memSize % pgSize ≠ 0 then none
  else some
    { pgCount := vaddrSize / pgSize
      pgSize := pgSize
      mem := fun _ => zeros
      pageMem := fun _ => zeros
      pgTable := fun _ => ⟨false, 0, 0⟩
      freeFrames := fun i => decide (i < memSize / pgSize)
      pgPeriod := fun _ => ⟨0, 0⟩
      average := average }

/-- One turn of the loop of `get_removal_page`; `best` is `max_index`. -/
def removalStep (s : Pager) (best : Option ℕ) (i : ℕ) : Option ℕ :=
  if (s.pgTable i).valid = false ∨ 0 < s.refs i then best
  else match best with
    | none => some i
    | some j => if (s.pgPeriod i).period > (s.pgPeriod j).period then some i else some j

/-- The unreferenced resident page of the longest period; `none` is the answer -1. -/
def getRemovalPage (s : Pager) : Option ℕ := (List.range s.pgCount).foldl (removalStep s) none

def storePage (page : ℕ) (s : Pager) : Pager :=
  if page > s.pgCount then s
  else { s with pageMem := fun a =>
    if a / s.pgSize = page then s.mem ((s.pgTable page).frameAddr + a % s.pgSize) else s.pageMem a }

def setPage (page : ℕ) (f : PageEnt → PageEnt) (s : Pager) : Pager :=
  { s with pgTable := Function.update s.pgTable page (f (s.pgTable page)) }

/-- What `toss_page` does to its victim: write it back, invalidate it, free its frame. -/
def evict (page : ℕ) (s : Pager) : Pager :=
  let u := setPage page (fun e => { e with valid := false }) (storePage page s)
  { u with freeFrames :=
      Function.update u.freeFrames ((u.pgTable page).frameAddr / u.pgSize) true }

/-- `toss_page` with its victim chosen by `choose`. When there is none the source reads
`pg_table[-1]` before it tests the index. -/
def tossPageBy (choose : Pager → Option ℕ) : Exec Pager ℤ := do
  match choose (← get) with
  | none => fault .undefined
  | some page => do
    if ((← get).pgTable page).valid = false then pure (-1)
    else do
      modify (evict page)
      pure 0

def freeFrame (s : Pager) : Option ℕ := (List.range s.frameCount).find? s.freeFrames

def fillFrame (page i : ℕ) (s : Pager) : Pager :=
  { s with
    pgTable := Function.update s.pgTable page
      { s.pgTable page with frameAddr := i * s.pgSize, valid := true }
    mem := fun a =>
      if a / s.pgSize = i then s.pageMem (page * s.pgSize + a % s.pgSize) else s.mem a
    freeFrames := Function.update s.freeFrames i false }

def pageIn (page : ℕ) : Exec Pager ℤ := do
  match freeFrame (← get) with
  | none => pure (-1)
  | some i => do
    modify (fillFrame page i)
    pure 0

def updatePageInfo (ops : UInt32) (page : ℕ) (s : Pager) : Pager :=
  if page > s.pgCount then s
  else
    let f := s.pgPeriod page
    { setPage page (fun e => { e with refcount := e.refcount + 1 }) s with
      pgPeriod := Function.update s.pgPeriod page
        ⟨ops, s.average f.period (ops - f.lastAccess)⟩ }

/-- The part of `touch_page` that makes the page valid; -1 when that fails. -/
def bringIn (choose : Pager → Option ℕ) (page : ℕ) : Exec Pager ℤ := do
  let s ← get
  if (s.pgTable page).valid then pure 0
  else match freeFrame s with
    | some _ => pageIn page
    | none => do
      let _ ← tossPageBy choose
      pageIn page

/-- `none` is the error return -1. -/
def touchPageBy (choose : Pager → Option ℕ) (ops : UInt32) (vaddr : ℕ) :
    Exec Pager (Option ℕ) := do
  let s ← get
  let page := vaddr / s.pgSize
  let offset := vaddr % s.pgSize
  if page > s.pgCount - 1 then pure none
  else do
    let r ← bringIn choose page
    if r = -1 then pure none
    else do
      modify (updatePageInfo ops page)
      let u ← get
      pure (some ((u.pgTable page).frameAddr + offset))

def tossPage : Exec Pager ℤ := tossPageBy getRemovalPage
def touchPage (ops : UInt32) (vaddr : ℕ) : Exec Pager (Option ℕ) :=
  touchPageBy getRemovalPage ops vaddr

def pageReleaseRef (addr : ℤ) (s : Pager) : Pager :=
  if addr < 0 then s
  else
    let page := addr.toNat / s.pgSize
    if page > s.pgCount - 1 then s
    else if s.refs page = 0 then s
    else setPage page (fun e => { e with refcount := e.refcount - 1 }) s

def writeMem (a : ℕ) (w : Word) (s : Pager) : Pager :=
  { s with mem := Function.update s.mem a w }

end BrainMachine.Paging
