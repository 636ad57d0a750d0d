import BrainMachine.ReferenceBalance
import BrainMachine.TickFinishes

set_option autoImplicit false

namespace BrainMachine.ThreeFrames
open Codec Computations Paging AddressSpace Instructions HoleList Machine Dispatch MachineRuns
open SortedTree Transparency References FrameTable HeldPages MachineMemory TickSteps LoaderFormat
open TickFinishes
open RunQueue (RedBlackTree LawfulTree account Counted)
open ReferenceBalance (released_start)
open WaitQueues (execution_sane)

theorem place_length (n : ℕ) (p : Seg) (a : ℤ) : (place n p a).length ≤ 1 := by
  unfold place
  split
  · exact le_rfl
  · exact Nat.zero_le 1

section
variable {n : ℕ} {held : List ℕ}

theorem fits_one (frames : 3 ≤ memSize / n) (few : held.length ≤ 1) (p : Seg) (a : ℤ) :
    Fits n ∅ (place n p a ++ held) := by
  apply fits_three frames
  have length := place_length n p a
  rw [List.length_append]
  omega

theorem fits_two (frames : 3 ≤ memSize / n) (few : held.length ≤ 1) (p q : Seg) (a b : ℤ) :
    Fits n ∅ (place n p a ++ (place n q b ++ held)) := by
  apply fits_three frames
  have length := place_length n p a
  have length' := place_length n q b
  rw [List.length_append, List.length_append]
  omega

theorem affords_three (frames : 3 ≤ memSize / n) (few : held.length ≤ 1) (p : Seg) (a : ℤ)
    (c : Core) (op : Op) : Affords n ∅ held p a c op := by
  cases op
  case PH | PP => exact fun _ => fits_one frames few p _
  case AS | SS | MS | DS => exact fun _ => fits_two frames few p p _ _
  case PD => exact fun i _ _ => fits_one frames few p _
  case GD => exact fun i _ _ _ => fits_one frames few p _
  all_goals first | exact fits_one frames few p a | exact trivial

end

section
variable {T : Type}

/-- `fork_proc` is given no process and goes through a null pointer. After the fetch it has not
touched a page. -/
def Childless (m : VM T) (p : ℕ) : Prop :=
  ∃ f u w, fetch p { m with sched := account m.sched } = .ok (some f, u) ∧
    decode f.op = some .FK ∧ procalloc (word2int (u.seg p).lr + 1) u = .ok (none, w)

def Fertile (m : VM T) (p : ℕ) : Prop :=
  0 ≤ word2int (m.seg p).lr →
    m.nextPid ≤ 99 ∧ 0 ≤ (memalloc (word2int (m.seg p).lr + 1) m.holes).1

theorem pinnedPages_empty {s : Pager} (zero : ∀ q, s.refs q = 0) : pinnedPages s = ∅ := by
  apply Finset.filter_eq_empty_iff.2
  intro q _ pinned
  exact pinned (zero q)

/-- With three frames and nothing referenced, only FK needs more than its pages. -/
theorem served_three {m : VM T} {p : ℕ} (zero : ∀ q, m.store.pager.refs q = 0)
    (frames : 3 ≤ memSize / m.store.pager.pgSize) {op : Op} (legal : instructionAt m p = some op)
    (other : op ≠ .EX) (child : InStore (m.seg p) (counter m p) → op = .FK → Fertile m p) :
    Served m p := by
  have few : (fetchPlace m p).length ≤ 1 := place_length _ _ _
  have empty := pinnedPages_empty zero
  refine ⟨?_, fun here op' same => ?_, fun _ illegal => ?_⟩
  · rw [Room, empty]
    exact fits_three frames (by omega)
  · obtain rfl := Option.some.inj (legal.symm.trans same)
    rw [empty]
    have affords := affords_three frames few (m.seg p) (operand (word m p (counter m p)))
      (m.core p) op
    cases op
    case RC =>
      intro sender _ i _ _
      exact ⟨fits_one frames few _ _, fun _ => fits_two frames few _ _ _ _⟩
    case FK =>
      intro numeric
      obtain ⟨pid, block⟩ := child here rfl numeric
      exact ⟨pid, block, fun i _ _ => fits_two frames few _ _ _ _⟩
    case EX => exact absurd rfl other
    all_goals exact affords
  · rw [illegal] at legal
    cases legal

theorem procalloc_refused {n : ℤ} {m : VM T}
    (h : m.nextPid ≤ 99 → (memalloc n m.holes).1 < 0) : ∃ w, procalloc n m = .ok (none, w) := by
  have hundred : procs = 100 := rfl
  rw [procalloc, get_bind]
  by_cases full : m.nextPid > procs - 1
  · rw [if_pos full]
    exact ⟨m, rfl⟩
  · rw [if_neg full, modify_bind, if_pos (h (by omega))]
    exact ⟨_, rfl⟩

theorem childless {m : VM T} {p : ℕ} (tabled : Tabled m.store.pager)
    (zero : ∀ q, m.store.pager.refs q = 0) (frames : 3 ≤ memSize / m.store.pager.pgSize)
    (fork : instructionAt m p = some .FK) (here : InStore (m.seg p) (counter m p))
    (barren : ¬Fertile m p) : Childless m p := by
  have room : Room m (fetchPlace m p) := by
    rw [Room, pinnedPages_empty zero]
    have length := place_length m.store.pager.pgSize (m.seg p) (counter m p)
    exact fits_three frames (by rw [fetchPlace]; omega)
  obtain ⟨f, u, run, some⟩ := fetch_finishes tabled room
  obtain ⟨f, rfl⟩ := Option.isSome_iff_exists.1 (some here)
  obtain ⟨x, s, fetch, rfl, rfl⟩ := fetch_eq run
  have same : s.pager.mem x = word m p (counter m p) := getWordref_word tabled.frames fetch
  obtain ⟨-, none⟩ : _ ∧ _ := by simpa only [Fertile, Classical.not_imp] using barren
  have refused : m.nextPid ≤ 99 → (memalloc (word2int (m.seg p).lr + 1) m.holes).1 < 0 :=
    fun pid => not_le.1 fun block => none ⟨pid, block⟩
  obtain ⟨w, answer⟩ := procalloc_refused (m := fetched p s.pager m) refused
  refine ⟨_, _, w, run, ?_, ?_⟩
  · rw [same]
    exact fork
  · rw [fetched_seg]
    exact answer

variable [RedBlackTree T] [LawfulTree T]

/-- A touch below the end of the virtual address space never answers -1. It faults when there is
neither a free frame nor a page to toss, and in no tick does it do so. -/
theorem three_frames (e : Execution T) {n : ℕ} (hn : n ≤ e.len)
    (busy : 0 < (e.vm n).sched.nrRunning) (zero : ∀ q, (e.vm n).store.pager.refs q = 0)
    (frames : 3 ≤ memSize / e.pgSize) {op : Op}
    (legal : instructionAt (e.vm n) (e.vm n).sched.current = some op) (other : op ≠ .EX) :
    (∀ s ops v, Frames s → v < vaddrSize → (∃ a u, touchPage ops v s = .ok (some a, u)) ∨
      (touchPage ops v s = .error .undefined ∧ ¬s.resident (v / s.pgSize) ∧ freeFrame s = none ∧
        getRemovalPage s = none)) ∧
    ((∃ r, tick (e.vm n).sched.current { e.vm n with sched := account (e.vm n).sched } = .ok r) ∨
      Childless (e.vm n) (e.vm n).sched.current) := by
  have sane := execution_sane e n hn
  obtain ⟨tabled, size⟩ := execution_tabled e n hn
  rw [← size] at frames
  refine ⟨fun s ops v hs hv => ?_, ?_⟩
  · rcases touchPage_cases hs ops hv with ⟨a, u, touch, -⟩ | ⟨absent, full, none⟩
    · exact .inl ⟨a, u, touch⟩
    · exact .inr ⟨touchPage_fault hs ops hv absent full none, absent, full, none⟩
  · by_cases child : InStore ((e.vm n).seg (e.vm n).sched.current) (counter (e.vm n)
        (e.vm n).sched.current) → op = .FK → Fertile (e.vm n) (e.vm n).sched.current
    · have served := served_three zero frames legal other child
      exact .inl (tick_finishes tabled sane.served.1 rfl (sane.current busy) served).run
    · obtain ⟨here, rfl, barren⟩ : _ ∧ _ ∧ _ := by simpa only [Classical.not_imp] using child
      exact .inr (childless tabled zero frames legal here barren)

def twoPageRun : Execution ListTree :=
  execution 25 halfWeight bareHost (bytes "BRAIN10\n31\nLR30\nDATA\n") 0
    (by decide +kernel) (by decide +kernel)

theorem twoPageRun_three :
    (∃ r, tick (twoPageRun.vm 0).sched.current { twoPageRun.vm 0 with
      sched := account (twoPageRun.vm 0).sched } = .ok r) ∨
    Childless (twoPageRun.vm 0) (twoPageRun.vm 0).sched.current := by
  have legal : instructionAt (twoPageRun.vm 0) (twoPageRun.vm 0).sched.current = some .LR := by
    decide +kernel
  exact (three_frames twoPageRun (Nat.zero_le _) (by decide +kernel) (released_start _).2
    (by decide) legal (by decide)).2

end
end BrainMachine.ThreeFrames
