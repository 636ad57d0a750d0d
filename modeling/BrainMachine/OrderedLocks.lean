import BrainMachine.Deadlocks

set_option autoImplicit false

/-!
# Semaphores in order

Nobody sets a semaphore, so that each one is a lock that starts free. When every process takes its
locks in increasing order, gives back only its own ones and halts without any, then the processes
that are left when the run queue is empty wait for messages, and none of them for a semaphore.
-/
namespace BrainMachine.OrderedLocks
open AddressSpace Paging Stdio Loader Codec Instructions RunQueue Machine Dispatch Effects Runs
open MachineRuns SortedTree
open WaitQueues MissedWakeups SenderQueues Semaphores SemaphoreWakeups TickSteps Isolation
open Rendezvous Sleepers Deadlocks

section
variable {T : Type} [RedBlackTree T]

def actor : Label → Option ℕ
  | .instr p _ _ => some p
  | .slice => none

def owner (e : Execution T) (s : ℕ) : ℕ → Option ℕ
  | 0 => none
  | n + 1 =>
    if completes e s n then actor (e.lab n)
    else if raises e s n then none
    else owner e s n

/-- Step `i` takes a semaphore above all that its process owns, or gives one of them back, or
halts a process that owns none. -/
structure InOrder (e : Execution T) (i : ℕ) : Prop where
  take : ∀ p a, e.lab i = .instr p .PE a → ∀ s < procs, owner e s i = some p → (s : ℤ) < a
  give : ∀ p (s : ℕ), e.lab i = .instr p .VE s → owner e s i = some p
  stop : ∀ p a, e.lab i = .instr p .HA a → ∀ s < procs, owner e s i ≠ some p
  unset : ∀ p a, e.lab i ≠ .instr p .SI a

theorem actor_some {l : Label} {p : ℕ} (h : actor l = some p) : ∃ op a, l = .instr p op a := by
  cases l with
  | slice => cases h
  | instr q op a =>
    obtain rfl := Option.some.inj h
    exact ⟨op, a, rfl⟩

theorem completes_lab {e : Execution T} {s i : ℕ} (h : completes e s i = true) :
    ∃ p, e.lab i = .instr p .PE s := by
  rw [completes] at h
  split at h
  · rename_i p a lab
    exact ⟨p, (of_decide_eq_true h).1 ▸ lab⟩
  · cases h

theorem raises_lab {e : Execution T} {s i : ℕ} (h : raises e s i = true) :
    ∃ p, e.lab i = .instr p .VE s := by
  rw [raises] at h
  split at h
  · rename_i p a lab
    exact ⟨p, of_decide_eq_true h ▸ lab⟩
  · cases h

theorem owner_succ {e : Execution T} {s n p : ℕ} (h : owner e s (n + 1) = some p) :
    e.lab n = .instr p .PE s ∧ completes e s n = true ∨
      owner e s n = some p ∧ completes e s n = false := by
  rw [owner] at h
  split at h
  · rename_i done
    obtain ⟨q, lab⟩ := completes_lab done
    obtain ⟨op, a, lab'⟩ := actor_some h
    obtain ⟨rfl, -, -⟩ := Label.instr.inj (lab.symm.trans lab')
    exact .inl ⟨lab, done⟩
  · rename_i other
    split at h
    · cases h
    · exact .inr ⟨h, by simpa using other⟩

theorem owner_took {e : Execution T} {s n p : ℕ} (h : owner e s n = some p) :
    ∃ i < n, e.lab i = .instr p .PE s := by
  induction n with
  | zero => cases h
  | succ n ih =>
    rcases owner_succ h with ⟨lab, -⟩ | ⟨h, -⟩
    · exact ⟨n, Nat.lt_succ_self n, lab⟩
    · obtain ⟨i, hi, lab⟩ := ih h
      exact ⟨i, Nat.lt_succ_of_lt hi, lab⟩

theorem not_completes_of_zero {e : Execution T} {i p s : ℕ} (hi : i < e.len)
    (lab : e.lab i = .instr p .PE s) (zero : (e.vm i).store.semTable s = 0) (t : ℕ) :
    completes e t i = false := by
  obtain ⟨-, -, k⟩ := e.ticked hi lab
  obtain ⟨-, -, done⟩ := down k
  cases done with
  | pass positive => exact absurd zero positive
  | block zero value regs =>
    have stays := retreat_ne (tick_counter k).1
    rw [completes, lab]
    simp only [regs, stays, and_false, decide_false]

theorem value_owner {e : Execution T} (ordered : ∀ i < e.len, InOrder e i) (s n : ℕ)
    (hn : n ≤ e.len) : value e s n = if (owner e s n).isSome then 0 else 1 := by
  induction n with
  | zero => exact value_start e s
  | succ n ih =>
    have before := ih (Nat.le_of_succ_le hn)
    have step := value_step (e := e) (s := s) hn fun p => (ordered n hn).unset p s
    rw [owner]
    cases took : completes e s n with
    | true =>
      obtain ⟨p, lab⟩ := completes_lab took
      have other : raises e s n = false := by
        rw [raises, lab]
      rw [took, other, before] at step
      rw [lab]
      simp only [actor, if_true, Option.isSome_some, Bool.false_eq_true, if_false] at step ⊢
      split at step <;> omega
    | false =>
      cases gave : raises e s n with
      | true =>
        obtain ⟨p, lab⟩ := raises_lab gave
        have own := (ordered n hn).give p s lab
        rw [took, gave, before, own] at step
        simpa using step
      | false =>
        rw [took, gave, before] at step
        simp only [Bool.false_eq_true, if_false, add_zero] at step ⊢
        rw [step]
        split <;> rfl

theorem owner_quiet {e : Execution T} {s p i n : ℕ} (hi : i ≤ n)
    (quiet : ∀ j, i ≤ j → j < n → ¬runs e p j) (h : owner e s n = some p) :
    owner e s i = some p := by
  induction n, hi using Nat.le_induction with
  | base => exact h
  | succ n hi ih =>
    refine ih (fun j h1 h2 => quiet j h1 (by omega)) ?_
    rcases owner_succ h with ⟨lab, -⟩ | ⟨h, -⟩
    · exact absurd ⟨.PE, s, lab⟩ (quiet n hi (Nat.lt_succ_self n))
    · exact h

variable [LawfulTree T]

theorem owner_alive {e : Execution T} (safe : ∀ i < e.len, WakesReceiver e i)
    (ordered : ∀ i < e.len, InOrder e i) {s : ℕ} (hs : s < procs) {n p : ℕ} (hn : n ≤ e.len)
    (h : owner e s n = some p) : ¬halted e p n := by
  induction n with
  | zero => cases h
  | succ n ih =>
    rw [halted_succ, not_or]
    rcases owner_succ h with ⟨lab, -⟩ | ⟨own, -⟩
    · refine ⟨(live_of_runs (single e safe n (by omega)) hn lab).2, ?_⟩
      rintro ⟨a, ha⟩
      exact nomatch lab.symm.trans ha
    · refine ⟨ih (by omega) own, ?_⟩
      rintro ⟨a, ha⟩
      exact (ordered n hn).stop p a ha s hs own

/-- The semaphores of a process that sleeps in a PE are below the one that it sleeps for. -/
theorem owned_below {e : Execution T} (safe : ∀ i < e.len, WakesReceiver e i)
    (ordered : ∀ i < e.len, InOrder e i) {s t : ℕ} (hs : s < procs) (ht : t < procs) {n p : ℕ}
    (hn : n ≤ e.len) (own : owner e s n = some p) (waits : p ∈ (e.vm n).semWq t) : s < t := by
  obtain ⟨i, ⟨-, last, lab⟩, zero⟩ := sleeps_in_down safe hn ht waits
  obtain ⟨hi, -, quiet⟩ := last
  have after := owner_quiet hi (fun j h1 h2 => quiet j h1 h2) own
  have before : owner e s i = some p := by
    rcases owner_succ after with ⟨-, done⟩ | ⟨h, -⟩
    · rw [not_completes_of_zero (by omega) lab zero] at done
      cases done
    · exact h
  have below := (ordered i (by omega)).take p t lab s hs before
  omega

def Communicates (e : Execution T) (n p : ℕ) : Prop :=
  ∃ i a, LastBefore (runs e p) n i ∧ (e.lab i = .instr p .SD a ∨ e.lab i = .instr p .RC a)

/-- When the run queue is empty and no owner of a semaphore waits for a message, then nobody waits
for a semaphore. -/
theorem none_waits {e : Execution T} (h : Orderly e) (ordered : ∀ i < e.len, InOrder e i) {n : ℕ}
    (hn : n ≤ e.len) (stopped : (e.vm n).sched.nrRunning = 0)
    (owners : ∀ s < procs, ∀ p, owner e s n = some p → ¬Communicates e n p) (s : ℕ)
    (hs : s < procs) : (e.vm n).semWq s = [] := by
  have hundred : procs = 100 := rfl
  -- from the highest one downwards: who owns it waits for a higher one
  induction hd : procs - s using Nat.strong_induction_on generalizing s with
  | h d ih =>
    by_contra waiting
    have sets (i : ℕ) (hi : i < e.len) : SetsSafely e i :=
      fun p a lab => absurd lab ((ordered i hi).unset p a)
    have zero := down_of_stopped h sets hn hs stopped waiting
    have value := value_owner ordered s n hn
    obtain ⟨p, own⟩ : ∃ p, owner e s n = some p := by
      rw [← Option.isSome_iff_exists]
      by_contra none
      rw [if_neg none, Semaphores.value, zero] at value
      cases value
    have out : p ∉ (e.vm n).sched.running := by
      rw [Sched.running, if_pos stopped]
      exact List.not_mem_nil
    obtain ⟨i, hi, lab⟩ := owner_took own
    have ran := runs_count e i (by omega) lab
    have known := ((execution_sane e i (by omega)).served.2 p (List.count_pos_iff.1 ran)).trans_le
      (nextPid_le e hi.le hn)
    cases slept e h.wakes n hn p known (owner_alive h.wakes ordered hs hn own) out with
    | down j a last lab range zero waits =>
      have above := owned_below h.wakes ordered hs (by omega) hn own waits
      rw [ih (procs - a.toNat) (by omega) a.toNat (by omega) rfl] at waits
      exact List.not_mem_nil waits
    | send j a last lab => exact owners s hs p own ⟨j, a, last, .inl lab⟩
    | recv j a last lab => exact owners s hs p own ⟨j, a, last, .inr lab⟩

/-- Processes that take semaphores in increasing order are not left waiting for one. -/
theorem ordered_locks (e : Execution T) (h : Orderly e) (ordered : ∀ i < e.len, InOrder e i)
    (n : ℕ) (hn : n ≤ e.len) (stopped : (e.vm n).sched.nrRunning = 0)
    (owners : ∀ s < procs, ∀ p, owner e s n = some p → ¬Communicates e n p) :
    ∀ p < (e.vm n).nextPid, halted e p n ∨ Communicates e n p := by
  intro p hp
  have hundred : procs = 100 := rfl
  by_cases hh : halted e p n
  · exact .inl hh
  · have out : p ∉ (e.vm n).sched.running := by
      rw [Sched.running, if_pos stopped]
      exact List.not_mem_nil
    cases slept e h.wakes n hn p hp hh out with
    | down i a last lab range zero waits =>
      rw [none_waits h ordered hn stopped owners a.toNat (by omega)] at waits
      exact absurd waits List.not_mem_nil
    | send i a last lab => exact .inr ⟨i, a, last, .inl lab⟩
    | recv i a last lab => exact .inr ⟨i, a, last, .inr lab⟩

/-- One process takes two semaphores and halts, the other one waits for a message of it. -/
def lockRun : Execution ListTree :=
  execution 100 halfWeight bareHost
    (bytes "BRAIN10\n5\nPE00\nPE01\nVE01\nVE00\nHA00\nBRAIN10\n1\nRC00\nDATA\n") 6
    (by decide +kernel) (by decide +kernel)

def lockLabels : List Label :=
  [.instr 0 .PE 0, .instr 0 .PE 1, .instr 0 .VE 1, .instr 0 .VE 0, .instr 0 .HA 0, .instr 1 .RC 0]

theorem lockRun_lab : ∀ i < 6, lockRun.lab i = lockLabels.getD i .slice := by decide +kernel

theorem lockRun_owner {s i p : ℕ} (hi : i ≤ 6) (h : owner lockRun s i = some p) :
    s = 0 ∧ 0 < i ∨ s = 1 ∧ 1 < i := by
  obtain ⟨j, hj, lab⟩ := owner_took h
  rw [lockRun_lab j (by omega)] at lab
  have six : j < 6 := by omega
  interval_cases j <;> simp [lockLabels] at lab <;> omega

theorem lockRun_inOrder (i : ℕ) (hi : i < 6) : InOrder lockRun i := by
  refine ⟨fun p a lab s hs own => ?_, fun p s lab => ?_, fun p a lab s hs own => ?_,
    fun p a lab => ?_⟩
  all_goals rw [lockRun_lab i hi] at lab
  · have taken := lockRun_owner hi.le own
    interval_cases i <;> simp [lockLabels] at lab <;> omega
  · have given : owner lockRun 1 2 = some 0 ∧ owner lockRun 0 3 = some 0 := by decide +kernel
    interval_cases i <;> simp [lockLabels] at lab
    · obtain ⟨rfl, hs⟩ := lab
      obtain rfl : s = 1 := by omega
      exact given.1
    · obtain ⟨rfl, hs⟩ := lab
      obtain rfl : s = 0 := by omega
      exact given.2
  · have free : owner lockRun 0 4 = none ∧ owner lockRun 1 4 = none := by decide +kernel
    have taken := lockRun_owner hi.le own
    interval_cases i <;> simp [lockLabels] at lab
    rcases taken with ⟨rfl, -⟩ | ⟨rfl, -⟩
    · exact absurd own (by simp [free.1])
    · exact absurd own (by simp [free.2])
  · interval_cases i <;> simp [lockLabels] at lab

theorem lockRun_ends : (halted lockRun 0 6 ∨ Communicates lockRun 6 0) ∧
    (halted lockRun 1 6 ∨ Communicates lockRun 6 1) := by
  have ends := ordered_locks lockRun (orderly_of_plain (by decide +kernel) (by decide +kernel))
    lockRun_inOrder 6 le_rfl (by decide +kernel) fun s hs p own => ?_
  · exact ⟨ends 0 (by decide +kernel), ends 1 (by decide +kernel)⟩
  · have free : owner lockRun 0 6 = none ∧ owner lockRun 1 6 = none := by decide +kernel
    rcases lockRun_owner le_rfl own with ⟨rfl, -⟩ | ⟨rfl, -⟩
    · exact absurd own (by simp [free.1])
    · exact absurd own (by simp [free.2])

end
end BrainMachine.OrderedLocks
