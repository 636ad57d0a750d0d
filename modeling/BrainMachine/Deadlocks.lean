import BrainMachine.Retries
import BrainMachine.Sleepers

set_option autoImplicit false

namespace BrainMachine.Deadlocks
open Codec Computations Paging AddressSpace Transparency Instructions RunQueue Machine Dispatch
open Effects Runs MachineRuns SortedTree WaitQueues MissedWakeups SenderQueues Semaphores
open SemaphoreWakeups MemoryRelations MachineMemory TickSteps Rendezvous
open References Retries ProcessImages Isolation Sleepers

section
variable {T : Type} [RedBlackTree T] [LawfulTree T]

/-- A process that blocked in RC or PE executes the same instruction when it runs again: at address
99 it could not run again. -/
theorem again_same {e : Execution T} (h : Orderly e) {i n p : ℕ} {op op' : Op} {a a' : ℤ}
    (lab : e.lab i = .instr p op a) (sleeps : Sleeps (e.vm i) p op a)
    (last : LastBefore (runs e p) n i) (hn : n < e.len) (lab' : e.lab n = .instr p op' a') :
    op' = op ∧ a' = a := by
  obtain ⟨hin, -, quiet⟩ := last
  have hi : i < e.len := hin.trans hn
  obtain ⟨-, -, k⟩ := e.ticked hi lab
  obtain ⟨-, -, k'⟩ := e.ticked hn lab'
  have back := (tick_sleeps k sleeps (execution_frames e i hi.le)).1
  have valid := (tick_counter k).1
  have inner : counter (e.vm i) p ≠ 99 := by
    intro last
    have known : p < (e.vm (i + 1)).nextPid := by
      have lt := k.lt
      have pids : (e.vm (i + 1)).nextPid = (e.vm i).nextPid + if op = .FK then 1 else 0 :=
        (nextPid_effect k.effect :)
      omega
    have regs := (quiet_regs e known n hin hn.le quiet).2.2
    have turned := back.trans ((retreat_advance valid).trans (if_pos last))
    have valid' := (tick_counter k').1
    rw [counter, regs, turned] at valid'
    have none : ¬0 ≤ word2int (icWord (48, 47)) := by decide
    exact none valid'
  obtain ⟨decoded, operand⟩ :=
    sleeps_still h hi lab sleeps inner hin hn.le (h.apart n hn) quiet
  obtain ⟨decoded', operand'⟩ := tick_word k' (execution_frames e n hn.le) (h.slack n hn)
  rw [decoded] at decoded'
  exact ⟨(Option.some.inj decoded').symm, operand'.symm.trans operand⟩

omit [LawfulTree T] in
theorem woken_cases {e : Execution T} {s n q : ℕ} (h : q ∈ woken e s (n + 1)) :
    q ∈ woken e s n ∧ e.lab n ≠ .instr q .PE s ∨
      ∃ p l, e.lab n = .instr p .VE s ∧ (e.vm n).semWq s = q :: l := by
  rw [woken] at h
  split at h
  · rename_i p a w l lab queue
    split at h
    · rename_i same
      rcases Finset.mem_insert.1 h with rfl | h
      · exact .inr ⟨p, l, same ▸ lab, queue⟩
      · refine .inl ⟨h, ?_⟩
        rw [lab]
        intro down
        cases down
    · refine .inl ⟨h, ?_⟩
      rw [lab]
      intro down
      cases down
  · rename_i p a lab
    split at h
    · rename_i same
      obtain ⟨hne, h⟩ := Finset.mem_erase.1 h
      refine .inl ⟨h, ?_⟩
      rw [lab]
      exact fun hp => hne (Label.instr.inj hp).1.symm
    · rename_i apart
      refine .inl ⟨h, ?_⟩
      rw [lab]
      exact fun hp => apart (Label.instr.inj hp).2.2
  · rename_i down up
    exact .inl ⟨h, fun lab => down q s lab⟩

/-- A process that a VE took out of the queue runs until it has executed its PE again. -/
theorem woken_runs {e : Execution T} (h : Orderly e) {s : ℕ} (hs : s < procs) (n : ℕ)
    (hn : n ≤ e.len) : ∀ q ∈ woken e s n, q ∈ (e.vm n).sched.running ∧
      ∃ i, LastBefore (runs e q) n i ∧ e.lab i = .instr q .PE s ∧
        (e.vm i).store.semTable s = 0 := by
  induction n with
  | zero => exact fun q hq => absurd hq (Finset.notMem_empty q)
  | succ n ih =>
    intro q hq
    have hn' : n ≤ e.len := Nat.le_of_succ_le hn
    have sane := execution_sane e n hn'
    -- it runs already, or the step is the VE that wakes it
    rcases woken_cases hq with ⟨hq, other⟩ | ⟨p, l, lab, head⟩
    · obtain ⟨awake, i, last, down, zero⟩ := ih hn' q hq
      have idle : ¬runs e q n := by
        rintro ⟨op, a, lab⟩
        have sleeps : Sleeps (e.vm i) q .PE s := .inr ⟨rfl, zero⟩
        obtain ⟨rfl, rfl⟩ := again_same h down sleeps last hn lab
        exact other lab
      refine ⟨?_, i, last.keep idle, down, zero⟩
      obtain ⟨pos, ⟨p, op, a, lab, cur, k⟩ | ⟨-, t, ht, hm⟩⟩ := e.step hn
      · by_contra out
        have hne : q ≠ p := by
          rintro rfl
          exact idle ⟨op, a, lab⟩
        exact (sleeps_on sane.account pos cur hne k.effect out).out awake
      · rw [hm]
        exact (endSlice_running sane.served.1 ht).2.mem_iff.2 awake
    · have waits : q ∈ (e.vm n).semWq s := head ▸ List.mem_cons_self
      obtain ⟨i, sleeps, zero⟩ := sleeps_in_down h.wakes hn' hs waits
      obtain ⟨pos, cur, k⟩ := e.ticked hn lab
      have hne : q ≠ p := by
        rintro rfl
        exact sleeps.out (List.count_pos_iff.1 (runs_count e n hn lab))
      refine ⟨?_, i, sleeps.last.keep ?_, sleeps.lab, zero⟩
      · by_contra gone
        have left : q ∈ (e.vm (n + 1)).semWq s :=
          (sleeps_on sane.account pos cur hne k.effect gone).semWq s waits
        have nodup := single_nodup (single e h.wakes n hn') hs
        rw [(up k).2.2, Int.toNat_natCast, Function.update_self, head, List.tail_cons] at left
        rw [head] at nodup
        exact (List.nodup_cons.1 nodup).1 left
      · rintro ⟨op, a, lab'⟩
        exact hne (Label.instr.inj (lab'.symm.trans lab)).1

/-- Nobody waits for a semaphore that is not down, when nobody runs. -/
theorem down_of_stopped {e : Execution T} (h : Orderly e) (sets : ∀ i < e.len, SetsSafely e i)
    {n s : ℕ} (hn : n ≤ e.len) (hs : s < procs) (stopped : (e.vm n).sched.nrRunning = 0)
    (waiting : (e.vm n).semWq s ≠ []) : (e.vm n).store.semTable s = 0 := by
  have nobody : woken e s n = ∅ := by
    refine Finset.eq_empty_of_forall_notMem fun q hq => ?_
    have runs := (woken_runs h hs n hn q hq).1
    rw [Sched.running, if_pos stopped] at runs
    exact List.not_mem_nil runs
  have bound := (awaited e s hs h.wakes sets n hn).promised waiting
  rw [nobody, Finset.card_empty] at bound
  exact UInt32.toNat_inj.1 (Nat.le_zero.1 bound)

inductive Stuck (e : Execution T) (n p : ℕ) : Prop
  | done (h : halted e p n)
  | down (i s : ℕ) (last : LastBefore (runs e p) n i) (lab : e.lab i = .instr p .PE s)
      (zero : (e.vm n).store.semTable s = 0)
  | send (i r : ℕ) (last : LastBefore (runs e p) n i) (lab : e.lab i = .instr p .SD r)
      (deaf : ∀ j x, LastBefore (runs e r) n j → e.lab j = .instr r .RC x → ¬Admits x p)
  | recv (i : ℕ) (x : ℤ) (last : LastBefore (runs e p) n i) (lab : e.lab i = .instr p .RC x)
      (alone : ∀ q j, LastBefore (runs e q) n j → e.lab j = .instr q .SD p → ¬Admits x q)

/-- When the run queue is empty the processes that are left are in a deadlock. -/
theorem stopped_stuck (e : Execution T) (h : Orderly e) (sets : ∀ i < e.len, SetsSafely e i)
    (n : ℕ) (hn : n ≤ e.len) (stopped : (e.vm n).sched.nrRunning = 0) :
    ∀ p < (e.vm n).nextPid, Stuck e n p := by
  intro p hp
  have hundred : procs = 100 := rfl
  have out (q : ℕ) : q ∉ (e.vm n).sched.running := by
    rw [Sched.running, if_pos stopped]
    exact List.not_mem_nil
  by_cases hh : halted e p n
  · exact .done hh
  · cases slept e h.wakes n hn p hp hh (out p) with
    | down i a last lab range zero waits =>
      rw [← Int.toNat_of_nonneg range.1] at lab
      exact .down i a.toNat last lab
        (down_of_stopped h sets hn (by omega) stopped (List.ne_nil_of_mem waits))
    | send i a last lab range waits =>
      rw [← Int.toNat_of_nonneg range.1] at lab
      refine .send i a.toNat last lab fun j x last' rc => ?_
      have sleeps : SleepsIn e n a.toNat j .RC x := ⟨out _, last', rc⟩
      have none := sleeps.recv h.wakes hn
      have free := (attended e n hn _ j x last' rc none).resolve_left (out _)
      exact free.2 p waits
    | recv i x last lab none =>
      refine .recv i x last lab fun q j last' sd => ?_
      have sleeps : SleepsIn e n q j .SD p := ⟨out _, last', sd⟩
      have waits := (sleeps.send h.wakes hn).2
      have free := (attended e n hn p i x last lab none).resolve_left (out p)
      exact free.2 q waits

def Plain (m : VM T) : Label → Prop
  | .instr p op a => op ≠ .FK ∧ op ≠ .EX ∧ op ≠ .SI ∧ (op = .SD → ¬m.receiverWaits p a.toNat)
  | .slice => True

instance (m : VM T) : DecidablePred (Plain m)
  | .instr _ _ _ => inferInstanceAs (Decidable (_ ∧ _))
  | .slice => .isTrue trivial

theorem orderly_of_plain {e : Execution T} (fits : extent (e.vm 0) (e.vm 0).nextPid ≤ vaddrSize)
    (plain : ∀ i < e.len, Plain (e.vm i) (e.lab i)) : Orderly e := by
  have wakes (i : ℕ) (hi : i < e.len) : WakesReceiver e i := by
    intro s a lab waits
    have here := plain i hi
    rw [lab] at here
    exact absurd waits (here.2.2.2 rfl)
  refine ⟨wakes, fun n hn => (arranged e ⟨fits, fun i hi n hn => ?_, ?_⟩ n hn.le).isolated,
    fun n hn => (ReferenceBalance.released e (fun i hi => ?_) n hn.le).slack⟩
  · have := plain i hi
    cases lab : e.lab i with
    | slice =>
      rw [lab] at hn
      cases hn
    | instr p op a =>
      rw [lab] at this hn
      cases op <;> first | exact absurd rfl this.1 | exact absurd rfl this.2.1 | cases hn
  · intro i hi p op a lab hh
    have gone := (single e wakes i hi.le).gone p hh
    have ran := runs_count e i hi lab
    rw [busy] at gone
    omega
  · have := plain i hi
    cases lab : e.lab i with
    | slice => trivial
    | instr p op a =>
      rw [lab] at this
      cases op <;> first | trivial | exact absurd rfl this.2.1

/-- Two processes send to each other, one waits for the second of them, and one takes a semaphore
twice. -/
def stoppedRun : Execution ListTree :=
  execution 100 halfWeight bareHost (bytes ("BRAIN10\n1\nSD01\nBRAIN10\n1\nSD00\n" ++
    "BRAIN10\n1\nRC01\nBRAIN10\n2\nPE05\nPE05\nDATA\n")) 5 (by decide +kernel) (by decide +kernel)

theorem stoppedRun_stuck : (Stuck stoppedRun 5 0 ∧ Stuck stoppedRun 5 1) ∧
    Stuck stoppedRun 5 2 ∧ Stuck stoppedRun 5 3 := by
  have plain : ∀ i < stoppedRun.len, Plain (stoppedRun.vm i) (stoppedRun.lab i) := by
    decide +kernel
  have sets (i : ℕ) (hi : i < stoppedRun.len) : SetsSafely stoppedRun i := by
    intro p a lab
    have here := plain i hi
    rw [lab] at here
    exact absurd rfl here.2.2.1
  have stuck := stopped_stuck stoppedRun (orderly_of_plain (by decide +kernel) plain) sets 5 le_rfl
    (by decide +kernel)
  have four : (stoppedRun.vm 5).nextPid = 4 := by decide +kernel
  rw [four] at stuck
  exact ⟨⟨stuck 0 (by decide), stuck 1 (by decide)⟩, stuck 2 (by decide), stuck 3 (by decide)⟩

end
end BrainMachine.Deadlocks
