import BrainMachine.Fairness
import BrainMachine.ProcessLogic
import Mathlib.Algebra.BigOperators.Group.Finset.Piecewise
import Mathlib.Algebra.Order.BigOperators.Group.Finset

set_option autoImplicit false

namespace BrainMachine.FairShare
open Codec Paging Instructions RunQueue Machine Dispatch Effects Runs MachineRuns SortedTree
open WaitQueues LocalRuns ProcessImages ProgramLogic ProcessLogic Fairness

def single : Label → Bool
  | .instr _ op _ => op.instruction.isSome
  | .slice => true

section
variable {T : Type} [RedBlackTree T] {e : Execution T} {n : ℕ}

theorem executed_ticks (e : Execution T) (p n : ℕ) : executed e.lab p n = ticksFrom e p 0 n := by
  induction n with
  | zero => exact (tallyFrom_self _ 0).symm
  | succ n ih =>
    have count : ticksFrom e p 0 (n + 1) = ticksFrom e p 0 n + if ran e p n then 1 else 0 :=
      tallyFrom_succ _ (Nat.zero_le n)
    rw [executed, ih, count, ran]
    cases e.lab n with
    | slice => rfl
    | instr q op a => by_cases same : p = q <;> simp [same, eq_comm]

def first (e : Execution T) (n : ℕ) (hn : n ≤ e.len) : Run (StepOf (next (T := T))) where
  len := n
  st := e.st
  lab := e.lab
  ok i hi := e.ok i (by omega)

theorem next_pids (h : ∀ i < n, single (e.lab i) = true) (hn : n ≤ e.len) :
    (e.vm n).nextPid = (e.vm 0).nextPid := by
  induction n with
  | zero => rfl
  | succ n ih =>
    rw [← ih (fun i hi => h i (by omega)) (by omega)]
    obtain ⟨-, ⟨p, op, a, lab, -, k⟩ | ⟨-, s, -, hm⟩⟩ := e.step hn
    · have here := h n (Nat.lt_succ_self n)
      rw [lab] at here
      have pids : (e.vm (n + 1)).nextPid = (e.vm n).nextPid + if op = .FK then 1 else 0 :=
        (nextPid_effect k.effect :)
      have other : op ≠ .FK := by
        rintro rfl
        cases here
      rw [pids, if_neg other, Nat.add_zero]
    · rw [hm]

theorem ticks_of_steps (e : Execution T) (n : ℕ) (hn : n ≤ e.len)
    (h : ∀ i < n, single (e.lab i) = true) : ∃ slices,
      n = ∑ p ∈ Finset.range (e.vm 0).nextPid, executed e.lab p n + slices ∧
        ∑ p ∈ Finset.range (e.vm 0).nextPid, executed e.lab p n = 20 * slices + (e.st n).i ∧
          (e.st n).i ≤ 20 := by
  induction n with
  | zero =>
    refine ⟨0, ?_, ?_, ?_⟩
    · simp [executed]
    · simp [executed, e.slice]
    · rw [e.slice]
      exact Nat.zero_le 20
  | succ n ih =>
    obtain ⟨slices, steps, ticks, early⟩ := ih (by omega) fun i hi => h i (by omega)
    obtain ⟨-, ⟨op, a, lab, hi, turn, k⟩ | ⟨lab, hi, turn, -⟩⟩ := next_cases (e.ok n hn)
    · have granularity : schedGranularity = 20 := rfl
      have known : (e.vm n).sched.current ∈ Finset.range (e.vm 0).nextPid := by
        rw [Finset.mem_range, ← next_pids (n := n) (fun i hi => h i (by omega)) (by omega)]
        exact k.lt
      have more : ∑ p ∈ Finset.range (e.vm 0).nextPid, executed e.lab p (n + 1) =
          ∑ p ∈ Finset.range (e.vm 0).nextPid, executed e.lab p n + 1 := by
        simp only [executed, lab, Finset.sum_add_distrib]
        congr 1
        exact Finset.sum_ite_eq' (Finset.range (e.vm 0).nextPid) (e.vm n).sched.current
          (fun _ => 1) |>.trans (if_pos known)
      refine ⟨slices, ?_, ?_, ?_⟩ <;> omega
    · have granularity : schedGranularity = 20 := rfl
      have same : ∑ p ∈ Finset.range (e.vm 0).nextPid, executed e.lab p (n + 1) =
          ∑ p ∈ Finset.range (e.vm 0).nextPid, executed e.lab p n := by
        simp only [executed, lab, Nat.add_zero]
      refine ⟨slices + 1, ?_, ?_, ?_⟩ <;> omega

variable [LawfulTree T]

theorem executed_close (h : ∀ i < n, single (e.lab i) = true) (hn : n ≤ e.len) {p q : ℕ}
    (hp : p < (e.vm 0).nextPid) (hq : q < (e.vm 0).nextPid) :
    executed e.lab q n ≤ executed e.lab p n + 20 := by
  obtain ⟨start, zero⟩ := execution_start e
  by_cases two : 2 ≤ (e.vm 0).nextPid
  · have quiet : Quiet (first e n hn) := by
      refine quiet_of_instructions _ fun i hi pid op a lab => ?_
      have here := h i hi
      have lab' : e.lab i = .instr pid op a := lab
      rwa [lab'] at here
    have fair := start.fair (by rwa [Finset.card_range])
    obtain ⟨b, k, done⟩ := fair_run (first e n hn) _ _ quiet
      ⟨_, _, by rw [show ((first e n hn).st 0).i = 0 from e.slice]; exact fair⟩ n le_rfl
    have close := (done.close (Finset.mem_range.2 hp) (Finset.mem_range.2 hq)).2
    have none (p : ℕ) :
        ((e.vm 0).sched.vruntime p - (e.vm 0).sched.vruntime (e.vm 0).sched.current).toNat = 0 := by
      rw [zero, zero]
      rfl
    simp only [none, Nat.zero_add, abs_le] at close
    have lab : (first e n hn).lab = e.lab := rfl
    rw [lab] at close
    omega
  · obtain rfl : p = q := by omega
    exact Nat.le_add_right _ _

theorem fair_share (h : ∀ i < n, single (e.lab i) = true) (hn : n ≤ e.len) {p : ℕ}
    (hp : p < (e.vm 0).nextPid) :
    20 * n ≤ 21 * ((e.vm 0).nextPid * (ticksFrom e p 0 n + 20)) := by
  obtain ⟨slices, steps, ticks, early⟩ := ticks_of_steps e n hn h
  have share : ∑ q ∈ Finset.range (e.vm 0).nextPid, executed e.lab q n ≤
      (e.vm 0).nextPid * (executed e.lab p n + 20) := by
    have each := Finset.sum_le_card_nsmul (Finset.range (e.vm 0).nextPid)
      (fun q => executed e.lab q n) (executed e.lab p n + 20)
      fun q hq => executed_close h hn hp (Finset.mem_range.1 hq)
    rwa [Finset.card_range, nsmul_eq_mul, Nat.cast_id] at each
  rw [executed_ticks e p] at share
  omega

omit [RedBlackTree T] [LawfulTree T] in
theorem plain_single {op : Op} (h : plainOp op = true) : op.instruction.isSome = true := by
  cases op <;> first | rfl | cases h

omit [LawfulTree T] in
theorem single_before {N : ℕ} {p : ℕ} {d : Image} (h : Confined e) (hp : p < (e.vm 0).nextPid)
    (hn : n ≤ e.len) (go : iterate lone N (own e p 0) = some d)
    (others : ∀ i < n, ∀ q op a, q ≠ p → e.lab i = .instr q op a → op.instruction.isSome = true)
    (before : ∀ i < n, ticksFrom e p 0 i < N) : ∀ i < n, single (e.lab i) = true := by
  intro i hi
  cases lab : e.lab i with
  | slice => rfl
  | instr q op a =>
    by_cases mine : q = p
    · subst mine
      have here := own_iterate h hp go (Nat.zero_le i) (by omega) (before i hi).le
      obtain ⟨c, hc⟩ := iterate_below go (before i hi)
      rw [iterate, here, Option.bind_some] at hc
      exact plain_single (own_plain h (by omega) hc op a lab)
    · exact others i hi q op a mine lab

/-- While the other processes execute instructions on themselves, the postcondition of a triple is
reached, within a number of steps that its number of ticks determines. -/
theorem triple_reached {N : ℕ} {P Q : Image → Prop} (triple : Leads lone N P Q) (e : Execution T)
    (h : Confined e) (p : ℕ) (hp : p < (e.vm 0).nextPid) (start : P (own e p 0)) (n : ℕ)
    (hn : n ≤ e.len)
    (others : ∀ i < n, ∀ q op a, q ≠ p → e.lab i = .instr q op a → op.instruction.isSome = true)
    (long : 21 * ((e.vm 0).nextPid * (N + 20)) < 20 * n) :
    ∃ i ≤ n, ticksFrom e p 0 i = N ∧ Q (own e p i) := by
  by_contra none
  have never (i : ℕ) (hi : i ≤ n) : ticksFrom e p 0 i ≠ N := fun count =>
    none ⟨i, hi, count, own_leads triple h hp (Nat.zero_le i) (hi.trans hn) start count⟩
  have before (i : ℕ) (hi : i ≤ n) : ticksFrom e p 0 i < N := by
    induction i with
    | zero =>
      have count : ticksFrom e p 0 0 = 0 := tallyFrom_self _ 0
      have zero := never 0 hi
      omega
    | succ i ih =>
      have count : ticksFrom e p 0 (i + 1) = ticksFrom e p 0 i + if ran e p i then 1 else 0 :=
        tallyFrom_succ _ (Nat.zero_le i)
      have last := never (i + 1) hi
      have early := ih (by omega)
      split at count <;> omega
  obtain ⟨d, go, -⟩ := triple _ start
  have share := fair_share (single_before h hp hn go others fun i hi => before i hi.le) hn hp
  have short : (e.vm 0).nextPid * (ticksFrom e p 0 n + 20) ≤ (e.vm 0).nextPid * (N + 20) :=
    Nat.mul_le_mul_left _ (by have := before n le_rfl; omega)
  omega

end

theorem spinRun_reaches :
    ∃ i ≤ 50, ticksFrom spinRun 1 0 i = 2 ∧ Next 0 .BU 0 (own spinRun 1 i) := by
  have jumps : ∀ i < 50, spinRun.lab i = .instr 0 .BU 0 ∨ spinRun.lab i = .instr 1 .BU 0 ∨
      spinRun.lab i = .slice := by decide +kernel
  refine triple_reached spin_leads spinRun (confined_of (by decide +kernel) (by decide +kernel)) 1
    (by decide +kernel) spinRun_start 50 le_rfl (fun i hi q op a other lab => ?_)
    (by decide +kernel)
  rcases jumps i hi with h | h | h <;> rw [h] at lab <;> cases lab <;> rfl

end BrainMachine.FairShare
