import BrainMachine.MachineMemory
import BrainMachine.SortedTree

set_option autoImplicit false

namespace BrainMachine.ReferenceBalance
open Codec Computations Paging Stdio AddressSpace Instructions HoleList RunQueue Machine Loader
open Dispatch Effects Runs MachineRuns SortedTree References MachineMemory

section
variable {T : Type} [RedBlackTree T]

/-- Every tick leaves the reference counts as they were, and between ticks nothing is
referenced. -/
structure Balanced (e : Execution T) : Prop where
  tick : ∀ i < e.len, ∀ q,
    (e.vm (i + 1)).store.pager.refs q = (e.vm i).store.pager.refs q
  zero : ∀ n ≤ e.len, ∀ q, (e.vm n).store.pager.refs q = 0

def execSeg (m : VM T) (p : ℕ) : Option Seg :=
  (execSize { m with sched := account m.sched } p).bind fun n =>
    if 0 ≤ (memalloc n m.holes).1 then
      some ⟨int2word (memalloc n m.holes).1, int2word (n - 1), (m.seg p).pid⟩
    else none

/-- An EX that is granted a block keeps the word at the instruction counter on its page. -/
def KeepsPage (m : VM T) : Label → Prop
  | .instr p .EX _ => ∀ q ∈ execSeg m p, SamePage m p q
  | _ => True

/-- The registers after a tick are those that EX sets, or those before it. -/
theorem seg_tick {m u : VM T} {p : ℕ} {op : Op} {a : ℤ} (k : Ticked m u p op a) :
    u.seg p = if op = .EX then (execSeg m p).getD (m.seg p) else m.seg p := by
  by_cases hop : op = .EX
  · subst hop
    rw [if_pos rfl]
    obtain ⟨n, hn, -, ⟨refused, h⟩ | ⟨granted, h⟩⟩ := exec_request k
    · rw [execSeg, hn, Option.bind_some, if_neg (by omega)]
      exact h.seg p
    · rw [execSeg, hn, Option.bind_some, if_pos granted]
      refine (h.seg p).trans ?_
      rw [resized_seg, if_pos rfl]
      rfl
  · rw [if_neg hop]
    exact (seg_effect k.effect k.lt hop :)

/-- Where the word of an instruction was fetched it stays, when the registers do. -/
theorem samePage_self {m u : VM T} {p : ℕ} {op : Op} {a : ℤ} (k : Ticked m u p op a)
    (frames : Frames m.store.pager) (slack : Slack 8 m.store.pager) : SamePage m p (m.seg p) := by
  obtain ⟨v, x, executed, -⟩ := tick_executed k frames slack
  exact ⟨executed.fetched, rfl⟩

theorem keepsPage_iff {m u : VM T} {p : ℕ} {op : Op} {a : ℤ} (k : Ticked m u p op a)
    (frames : Frames m.store.pager) (slack : Slack 8 m.store.pager) :
    KeepsPage m (.instr p op a) ↔ SamePage m p (u.seg p) := by
  have self := samePage_self k frames slack
  rw [seg_tick k]
  by_cases hop : op = .EX
  · subst hop
    rw [if_pos rfl, KeepsPage]
    cases execSeg m p with
    | none => exact ⟨fun _ => self, fun _ q hq => (nomatch hq)⟩
    | some s =>
      refine ⟨fun h => h s rfl, fun h q hq => ?_⟩
      rw [← Option.some.inj hq]
      exact h
  · rw [if_neg hop]
    refine ⟨fun _ => self, fun _ => ?_⟩
    cases op <;> first | exact trivial | exact absurd rfl hop

def Released (m : VM T) : Prop := Frames m.store.pager ∧ ∀ q, m.store.pager.refs q = 0

omit [RedBlackTree T] in
theorem Released.slack {m : VM T} (h : Released m) : Slack 8 m.store.pager := by
  intro q
  rw [h.2]
  decide

theorem released_start (e : Execution T) : Released (e.vm 0) := by
  obtain ⟨pager, u, fh, hp, hu, hm⟩ := e.loads
  rw [hm]
  exact (load_pager hp hu :)

/-- While all is released, a step releases all exactly when it keeps the page. -/
theorem released_step (e : Execution T) (i : ℕ) (hi : i < e.len) (h : Released (e.vm i)) :
    Frames (e.vm (i + 1)).store.pager ∧
      ((∀ q, (e.vm (i + 1)).store.pager.refs q = (e.vm i).store.pager.refs q) ↔
        KeepsPage (e.vm i) (e.lab i)) := by
  obtain ⟨-, ⟨p, op, a, lab, -, k⟩ | ⟨lab, s, -, hm⟩⟩ := e.step hi
  · refine ⟨(tick_paged k h.1 h.slack).frames, ?_⟩
    rw [lab, keepsPage_iff k h.1 h.slack]
    exact tick_refs k h.1 h.slack
  · rw [hm, lab]
    exact ⟨h.1, fun _ => trivial, fun _ _ => rfl⟩

theorem released (e : Execution T) (keeps : ∀ i < e.len, KeepsPage (e.vm i) (e.lab i)) (n : ℕ)
    (hn : n ≤ e.len) : Released (e.vm n) := by
  refine e.toRun.invariant (fun n => Released (e.vm n)) (released_start e) (fun i hi h => ?_) n hn
  obtain ⟨frames, same⟩ := released_step e i hi h
  exact ⟨frames, fun q => (same.2 (keeps i hi) q).trans (h.2 q)⟩

/-- References are balanced all along if and only if no EX of the run moves the word of its
own instruction to another page. -/
theorem balanced_iff (e : Execution T) :
    Balanced e ↔ ∀ i < e.len, KeepsPage (e.vm i) (e.lab i) := by
  constructor
  · intro h i hi
    have released (n : ℕ) (hn : n ≤ e.len) : Released (e.vm n) :=
      e.toRun.invariant (fun n => Released (e.vm n)) (released_start e)
        (fun i hi hr => ⟨(released_step e i hi hr).1, h.zero (i + 1) hi⟩) n hn
    exact (released_step e i hi (released i (by omega))).2.1 (h.tick i hi)
  · intro h
    exact ⟨fun i hi => (released_step e i hi (released e h i (by omega))).2.2 (h i hi),
      fun n hn => (released e h n hn).2⟩

def execRun : Execution ListTree :=
  execution 1 halfWeight (hostOf (bytes "BRAIN10\n1\nHA00\nDATA\n"))
    (bytes "BRAIN10\n1\nEXAA\nDATA\n") 1 (by decide +kernel) (by decide +kernel)

/-- The page of the EX stays referenced. -/
theorem execRun_not_balanced : ¬Balanced execRun := by
  intro h
  have kept : (execRun.vm 1).store.pager.refs 0 = 1 := by decide +kernel
  rw [h.zero 1 le_rfl 0] at kept
  exact absurd kept (by decide)

end
end BrainMachine.ReferenceBalance
