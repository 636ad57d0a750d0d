import BrainMachine.Rendezvous
import BrainMachine.Semaphores

set_option autoImplicit false

namespace BrainMachine.Retries
open Codec Computations Paging AddressSpace Transparency Instructions RunQueue Machine Dispatch
open Effects Runs MachineRuns SortedTree WaitQueues SenderQueues Isolation References MachineMemory
open MissedWakeups MemoryRelations Rendezvous ProcessImages TickSteps Semaphores

section
variable {T : Type} [RedBlackTree T]

def Sleeps (m : VM T) (p : ℕ) (op : Op) (a : ℤ) : Prop :=
  op = .RC ∧ m.waitingSender p a = none ∨ op = .PE ∧ m.store.semTable a.toNat = 0

theorem recv_sleeps {p : ℕ} {a : ℤ} {m u : VM T} (h : recv p a m = .ok (0, u))
    (none : m.waitingSender p a = none) : u.regs p = retreat (m.regs p) ∧ u.store = m.store := by
  rw [recv] at h
  rcases ite_ok.1 h with ⟨-, h⟩ | ⟨-, h⟩
  · cases (Prod.mk.inj (pure_ok.1 h)).1
  · simp only [get_bind, none] at h
    obtain ⟨r, w, hw, h⟩ := bind_ok.1 h
    rcases ite_ok.1 h with ⟨-, h⟩ | ⟨hr, h⟩
    · cases (Prod.mk.inj (pure_ok.1 h)).1
    · obtain rfl := not_not.1 hr
      obtain rfl := retry_eq hw
      obtain ⟨r, x, hx, h⟩ := bind_ok.1 h
      obtain ⟨-, rfl⟩ := updateRecvWq_ok hx
      rcases ite_ok.1 h with ⟨-, h⟩ | ⟨-, h⟩
      · cases (Prod.mk.inj (pure_ok.1 h)).1
      · obtain ⟨c, t, -, h⟩ := onSched_bind h
        obtain ⟨-, rfl⟩ := Prod.mk.inj (pure_ok.1 h)
        exact ⟨setCore_regs p _ m, rfl⟩

/-- A tick that blocks leaves the registers but for the counter, and all words. -/
theorem tick_sleeps {m u : VM T} {p : ℕ} {op : Op} {a : ℤ} (k : Ticked m u p op a)
    (sleeps : Sleeps m p op a) (frames : Frames m.store.pager) :
    u.regs p = retreat (advance (m.regs p)) ∧ u.store.pager.view = m.store.pager.view := by
  obtain ⟨v, x, s, t, parts⟩ := tick_parts k
  have before : s.pager.view = m.store.pager.view :=
    funext (touchPageBy_touched getRemovalPage_victims frames (getWordref_touch parts.fetch).2).view
  have after : u.store.pager.view = v.store.pager.view := by
    rw [parts.final]
    exact (releaseWordref_sameView parts.release :)
  have regs : u.regs p = v.regs p := by
    rw [parts.final]
    rfl
  rcases sleeps with ⟨rfl, none⟩ | ⟨rfl, zero⟩
  · obtain ⟨back, same⟩ := recv_sleeps parts.run none
    refine ⟨?_, ?_⟩
    · rw [regs, back, fetched_regs]
    · rw [after, same]
      exact before
  · constructor
    · obtain ⟨-, -, done⟩ := down k
      cases done with
      | pass positive => exact absurd zero positive
      | block zero value back => exact back
    · rw [after, semDown_pager parts.run]
      exact before

def Quiet (e : Execution T) (p b n : ℕ) : Prop := ∀ j, b ≤ j → j < n → ¬runs e p j

def Faces (m : VM T) (p : ℕ) (op : Op) (a : ℤ) : Prop :=
  decode (opcode (word m p (counter m p)).b0 (word m p (counter m p)).b1) = some op ∧
    operand (word m p (counter m p)) = a

/-- The instruction at step `i` is retried: until the process runs again its counter is the
address of the instruction, the word there is the instruction still, also when the tick that
fetches it fails, and the next one that the process executes is the same. -/
structure Retried (e : Execution T) (i p : ℕ) (op : Op) (a : ℤ) : Prop where
  back : ∀ n, i < n → n ≤ e.len → Quiet e p (i + 1) n →
    counter (e.vm n) p = counter (e.vm i) p ∧ 0 ≤ counter (e.vm n) p ∧
      0 ≤ getGlobalAddress ((e.vm n).seg p) (counter (e.vm n) p)
  still : ∀ n, i < n → n ≤ e.len → Isolated e n → Quiet e p (i + 1) n → Faces (e.vm n) p op a
  again : ∀ n, i < n → n < e.len → Quiet e p (i + 1) n → runs e p n → e.lab n = .instr p op a

theorem quiet_regs (e : Execution T) {p b : ℕ} (hp : p < (e.vm b).nextPid) (n : ℕ) (hb : b ≤ n)
    (hn : n ≤ e.len) (quiet : Quiet e p b n) : p < (e.vm n).nextPid ∧
      (e.vm n).seg p = (e.vm b).seg p ∧ (e.vm n).regs p = (e.vm b).regs p := by
  induction n, hb using Nat.le_induction with
  | base => exact ⟨hp, rfl, rfl⟩
  | succ n hb ih =>
    obtain ⟨lt, seg, regs⟩ := ih (by omega) fun j h1 h2 => quiet j h1 (by omega)
    obtain ⟨-, ⟨q, op, a, lab, -, k⟩ | ⟨-, t, -, hm⟩⟩ := e.step hn
    · have hne : p ≠ q := by
        rintro rfl
        exact quiet n hb (Nat.lt_succ_self n) ⟨op, a, lab⟩
      have pids : (e.vm (n + 1)).nextPid = (e.vm n).nextPid + if op = .FK then 1 else 0 :=
        (nextPid_effect k.effect :)
      obtain ⟨seg', regs'⟩ : (e.vm (n + 1)).seg p = (e.vm n).seg p ∧
          (e.vm (n + 1)).regs p = (e.vm n).regs p := (other_effect k.effect hne lt :)
      exact ⟨by omega, seg'.trans seg, regs'.trans regs⟩
    · rw [hm]
      exact ⟨lt, seg, regs⟩

omit [RedBlackTree T] in
theorem counter_regs {m u : VM T} {p : ℕ} (h : u.regs p = m.regs p) :
    counter u p = counter m p := by
  rw [counter, counter, h]

variable [LawfulTree T]

/-- While a process sleeps in an instruction away from address 99, its counter is the address of the
instruction, and the word there is the instruction. -/
theorem sleeps_still {e : Execution T} (h : Orderly e) {i p n : ℕ} {op : Op} {a : ℤ}
    (hi : i < e.len) (lab : e.lab i = .instr p op a) (sleeps : Sleeps (e.vm i) p op a)
    (inner : counter (e.vm i) p ≠ 99) (hn : i < n) (hl : n ≤ e.len) (apart : Isolated e n)
    (quiet : Quiet e p (i + 1) n) : Faces (e.vm n) p op a := by
  obtain ⟨-, -, k⟩ := e.ticked hi lab
  obtain ⟨back, view⟩ := tick_sleeps k sleeps (execution_frames e i hi.le)
  obtain ⟨valid, limit⟩ := tick_counter k
  have other : op ≠ .EX ∧ op ≠ .HA ∧ op ≠ .FK := by
    rcases sleeps with ⟨rfl, -⟩ | ⟨rfl, -⟩ <;> decide
  have seg : (e.vm (i + 1)).seg p = (e.vm i).seg p := (seg_effect k.effect k.lt other.1 :)
  have regs : (e.vm (i + 1)).regs p = (e.vm i).regs p :=
    back.trans ((retreat_advance valid).trans (if_neg inner))
  have address : getGlobalAddress ((e.vm i).seg p) (counter (e.vm i) p) =
      word2int ((e.vm i).seg p).br + counter (e.vm i) p :=
    address_of_range (tick_numeric k) valid limit
  have awake : live e (i + 1) p := by
    have now := live_of_runs (single e h.wakes i hi.le) hi lab
    have pids : (e.vm (i + 1)).nextPid = (e.vm i).nextPid + if op = .FK then 1 else 0 :=
      (nextPid_effect k.effect :)
    refine ⟨by have := now.1; omega, ?_⟩
    rw [halted_tick e lab, not_or]
    exact ⟨now.2, fun stop => other.2.1 stop.1⟩
  have kept := stays h awake n hn hl apart quiet
  have same : word (e.vm n) p (counter (e.vm n) p) = word (e.vm i) p (counter (e.vm i) p) := by
    have reach : Reach ((e.vm (i + 1)).seg p)
        (getGlobalAddress ((e.vm i).seg p) (counter (e.vm i) p)).toNat := by
      refine ⟨counter (e.vm i) p, ?_⟩
      rw [seg]
      have bottom := (tick_numeric k)
      omega
    rw [word, word, counter_regs (kept.regs.trans regs), kept.seg.trans seg, kept.view _ reach, view]
  rw [Faces, same]
  exact tick_word k (execution_frames e i hi.le) (h.slack i hi)

/-- An instruction that blocks is retried exactly, unless it is the one at address 99. -/
theorem retried_iff (e : Execution T) (h : Orderly e) (i p : ℕ) (op : Op) (a : ℤ)
    (hi : i < e.len) (lab : e.lab i = .instr p op a) (sleeps : Sleeps (e.vm i) p op a) :
    Retried e i p op a ↔ counter (e.vm i) p ≠ 99 := by
  obtain ⟨-, -, k⟩ := e.ticked hi lab
  have back := (tick_sleeps k sleeps (execution_frames e i hi.le)).1
  obtain ⟨valid, limit⟩ := tick_counter k
  have turned : retreat (advance ((e.vm i).regs p)) = if counter (e.vm i) p = 99 then
      { (e.vm i).regs p with ic := (48, 47) } else (e.vm i).regs p := retreat_advance valid
  constructor
  · intro retried last
    have same := (retried.back (i + 1) (Nat.lt_succ_self i) hi fun j h1 h2 => by omega).1
    rw [counter, back, turned, if_pos last, last] at same
    have none : word2int (icWord (48, 47)) ≠ 99 := by decide
    exact none same
  · intro inner
    rw [if_neg inner] at turned
    have still {n : ℕ} := sleeps_still (n := n) h hi lab sleeps inner
    refine ⟨fun n hn hl quiet => ?_, fun n hn hl apart quiet => still hn hl apart quiet,
      fun n hn hl quiet again => ?_⟩
    · have seg : (e.vm (i + 1)).seg p = (e.vm i).seg p := by
        refine (seg_effect k.effect k.lt ?_ :)
        rcases sleeps with ⟨rfl, -⟩ | ⟨rfl, -⟩ <;> decide
      have pids : (e.vm (i + 1)).nextPid = (e.vm i).nextPid + if op = .FK then 1 else 0 :=
        (nextPid_effect k.effect :)
      have lt := k.lt
      obtain ⟨-, seg', regs'⟩ := quiet_regs e (b := i + 1) (by omega) n hn hl quiet
      rw [counter_regs (regs'.trans (back.trans turned)), seg', seg,
        address_of_range (tick_numeric k) valid limit]
      have numeric := tick_numeric k
      exact ⟨rfl, valid, by omega⟩
    · obtain ⟨op', a', lab'⟩ := again
      obtain ⟨-, -, k'⟩ := e.ticked hl lab'
      obtain ⟨decoded, operand⟩ := still hn hl.le (h.apart n hl) quiet
      obtain ⟨decoded', operand'⟩ := tick_word k' (execution_frames e n hl.le) (h.slack n hl)
      rw [decoded] at decoded'
      rw [lab', ← Option.some.inj decoded', ← operand', operand]

theorem namedRun_retried : Retried namedRun 0 0 .RC 1 ↔ counter (namedRun.vm 0) 0 ≠ 99 :=
  retried_iff namedRun namedRun_orderly 0 0 .RC 1 (by decide) (by decide +kernel)
    (.inl ⟨rfl, by decide +kernel⟩)

def lastRun : Execution ListTree :=
  execution 100 halfWeight bareHost
    (bytes "BRAIN10\n100\nBU99\n" ++ (List.replicate 98 (bytes "NP00\n")).flatten ++
      bytes "RCXX\nDATA\n") 2 (by decide +kernel) (by decide +kernel)

/-- The RC blocks and the counter is no number any more. -/
theorem lastRun_not_retried : lastRun.lab 1 = .instr 0 .RC (-1) ∧
    Sleeps (lastRun.vm 1) 0 .RC (-1) ∧ ¬Retried lastRun 1 0 .RC (-1) := by
  refine ⟨by decide +kernel, .inl ⟨rfl, by decide +kernel⟩, fun retried => ?_⟩
  have valid := (retried.back 2 (by decide) le_rfl fun j h1 h2 => by omega).2.1
  revert valid
  decide +kernel

end
end BrainMachine.Retries
