import BrainMachine.MissedWakeups

set_option autoImplicit false

namespace BrainMachine.SenderQueues
open Codec Computations Paging Stdio AddressSpace Instructions HoleList RunQueue Machine Loader
open Dispatch Effects Runs MachineRuns SortedTree WaitQueues MissedWakeups

section
variable {T : Type} [RedBlackTree T]

def Receiving (m : VM T) (q : ℕ) : Prop := busy m q = 0

def WakesReceiver (e : Execution T) (i : ℕ) : Prop := ∀ s a, e.lab i = .instr s .SD a →
  (e.vm i).receiverWaits s a.toNat → Receiving (e.vm i) a.toNat ∧ ¬halted e a.toNat i

variable [LawfulTree T]

omit [LawfulTree T] in
theorem busy_unknown {m : VM T} (h : Sane m) {q : ℕ} (hq : m.nextPid ≤ q) : busy m q = 0 := by
  have none (wq : ℕ → List ℕ) (known : Known m.nextPid wq) : queued wq procs q = 0 := by
    rw [queued, List.sum_eq_zero_iff_forall_eq_nat]
    intro x hx
    obtain ⟨i, -, rfl⟩ := List.mem_map.1 hx
    rw [List.count_eq_zero]
    exact fun hm => Nat.not_lt.2 hq (known i q hm)
  rw [busy, none _ h.sendWq, none _ h.semWq, List.count_eq_zero.2]
  exact fun hm => Nat.not_lt.2 hq (h.served.2 q hm)

structure Single (e : Execution T) (n : ℕ) : Prop where
  one : ∀ q, busy (e.vm n) q ≤ 1
  gone : ∀ q, halted e q n → busy (e.vm n) q = 0
  started : ∀ q, halted e q n → q < (e.vm n).nextPid

theorem single_start (e : Execution T) : Single e 0 := by
  obtain ⟨pager, u, fh, -, hu, hm⟩ := e.loads
  refine ⟨fun q => ?_, fun q hq => absurd hq (not_halted_zero e q),
    fun q hq => absurd hq (not_halted_zero e q)⟩
  have count := (load_placed hu).2 q
  have le : busy (e.vm 0) q ≤ tally u q := by
    rw [hm, tally, entries]
    change u.sched.running.count q + queued u.sendWq procs q + queued u.semWq procs q ≤ _
    omega
  refine le.trans (count.trans_le ?_)
  split <;> omega

theorem single_step (e : Execution T) (n : ℕ) (hn : n < e.len) (safe : WakesReceiver e n)
    (h : Single e n) : Single e (n + 1) := by
  have sane := execution_sane e n (by omega)
  obtain ⟨pos, ⟨p, op, a, lab, cur, k⟩ | ⟨lab, s, hs, hm⟩⟩ := e.step hn
  · have free (ho : op = .SD) (waits : (e.vm n).receiverWaits p a.toNat) :
        busy (e.vm n) a.toNat = 0 := (safe p a (ho ▸ lab) waits).1
    have step (q : ℕ) : busy (e.vm (n + 1)) q + (if op = .HA ∧ q = p then 1 else 0) ≤
        busy (e.vm n) q + (if op = .FK ∧ q = (e.vm n).nextPid then 1 else 0) +
          (if (op = .SD ∧ (e.vm n).receiverWaits p a.toNat) ∧ q = a.toNat then 1 else 0) :=
      (Nat.le_add_right _ _).trans (busy_effect sane.account pos cur h.one free k.effect q).le
    have next := nextPid_effect k.effect
    change (e.vm (n + 1)).nextPid = (e.vm n).nextPid + if op = .FK then 1 else 0 at next
    refine ⟨fun q => ?_, fun q hq => ?_, fun q hq => ?_⟩
    · have hs := step q
      have old := h.one q
      by_cases hf : op = .FK ∧ q = (e.vm n).nextPid
      · have zero := busy_unknown sane hf.2.ge
        simp only [hf.1, reduceCtorEq, false_and, if_false] at hs
        split at hs <;> omega
      · rw [if_neg hf] at hs
        by_cases hw : (op = .SD ∧ (e.vm n).receiverWaits p a.toNat) ∧ q = a.toNat
        · rw [if_pos hw] at hs
          obtain ⟨⟨rfl, waits⟩, rfl⟩ := hw
          have zero : busy (e.vm n) a.toNat = 0 := (safe _ a lab waits).1
          omega
        · rw [if_neg hw] at hs
          omega
    · have hs := step q
      rw [halted_tick e lab] at hq
      by_cases hh : op = .HA ∧ q = p
      · have := h.one q
        simp only [hh.1, hh.2, reduceCtorEq, false_and, if_false, true_and, if_true] at hs this ⊢
        omega
      · have old : halted e q n := hq.resolve_right hh
        have zero := h.gone q old
        rw [if_neg hh, if_neg (fun hx => Nat.ne_of_lt (h.started q old) hx.2), if_neg] at hs
        · omega
        · rintro ⟨⟨rfl, waits⟩, rfl⟩
          exact (safe _ a lab waits).2 old
    · rw [halted_tick e lab] at hq
      rcases hq with hq | ⟨-, rfl⟩
      · exact Nat.lt_of_lt_of_le (h.started q hq) (by omega)
      · rw [← cur]
        exact Nat.lt_of_lt_of_le (sane.current pos) (by omega)
  · obtain ⟨-, perm⟩ := endSlice_running sane.served.1 hs
    have step (q : ℕ) : busy (e.vm (n + 1)) q = busy (e.vm n) q := by
      rw [hm]
      exact congrArg (· + queued (e.vm n).sendWq procs q + queued (e.vm n).semWq procs q)
        (perm.count_eq q)
    have same := halted_slice e lab
    refine ⟨fun q => (step q).trans_le (h.one q),
      fun q hq => (step q).trans (h.gone q ((same q).1 hq)), fun q hq => ?_⟩
    rw [hm]
    exact h.started q ((same q).1 hq)

theorem single (e : Execution T) (safe : ∀ i < e.len, WakesReceiver e i) (n : ℕ)
    (hn : n ≤ e.len) : Single e n :=
  e.toRun.invariant (Single e) (single_start e)
    (fun i hi h => single_step e i hi (safe i hi) h) n hn

omit [RedBlackTree T] [LawfulTree T] in
theorem count_le_queued (wq : ℕ → List ℕ) {n i : ℕ} (hi : i < n) (q : ℕ) :
    (wq i).count q ≤ queued wq n q := by
  have h := queued_update wq n i q []
  rw [if_pos hi, if_pos hi, List.count_nil] at h
  omega

omit [LawfulTree T] in
/-- The queues of senders after a step: an SD adds its process, an RC takes one sender out. -/
theorem sendWq_effect {m u : VM T} {p : ℕ} {op : Op} {a : ℤ} (hp : p < procs)
    (k : Effect p m u op a) (one : ∀ q, busy m q ≤ 1) (s r : ℕ) : s ∈ u.sendWq r ↔
      op = .SD ∧ s = p ∧ a.toNat = r ∨
        s ∈ m.sendWq r ∧ ¬(op = .RC ∧ p = r ∧ m.waitingSender p a = some s) := by
  have added : s ∈ Function.update m.sendWq a.toNat (m.sendWq a.toNat ++ [p]) r ↔
      s = p ∧ a.toNat = r ∨ s ∈ m.sendWq r := by
    by_cases hr : r = a.toNat
    · rw [hr, Function.update_self, List.mem_append, List.mem_singleton]
      simp only [and_true]
      exact or_comm
    · rw [Function.update_of_ne hr]
      simp only [show a.toNat ≠ r from fun h => hr h.symm, and_false, false_or]
  cases k with
  | quiet op a k hsd hrc =>
    simp only [hsd, hrc, false_and, not_false_iff, and_true, false_or, k.sendWq]
  | execNone a n refused k =>
    simp only [reduceCtorEq, false_and, not_false_iff, and_true, false_or]
    rw [k.sendWq]
  | execGrant a n hn granted k =>
    simp only [reduceCtorEq, false_and, not_false_iff, and_true, false_or]
    rw [k.still_resized.sendWq]
  | recvBlock a c ha none frame sched shift =>
    simp only [reduceCtorEq, false_and, false_or, none, and_false, not_false_iff, and_true]
    rw [shift.sendWq]
  | recvTake a c w some frame sched shift =>
    simp only [reduceCtorEq, false_and, false_or, true_and, some, Option.some.injEq]
    rw [shift.sendWq]
    by_cases hr : r = p
    · subst hr
      rw [Function.update_self]
      by_cases hs : s = w
      · subst hs
        have hc := count_le_queued m.sendWq hp s
        have := one s
        rw [busy] at this
        have gone : ((m.sendWq r).erase s).count s = 0 := by
          rw [List.count_erase_self]
          omega
        simp only [and_self, not_true, and_false, iff_false]
        exact List.count_eq_zero.1 gone
      · rw [List.mem_erase_of_ne hs]
        simp only [show ¬w = s from fun h => hs h.symm, and_false, not_false_iff, and_true]
    · rw [Function.update_of_ne hr]
      simp only [show ¬p = r from fun h => hr h.symm, false_and, not_false_iff, and_true]
  | sendAlone a c ha alone frame sched shift =>
    simp only [reduceCtorEq, false_and, not_false_iff, and_true, true_and]
    rw [shift.sendWq]
    exact added
  | sendWake a c d t ha waits frame suspend resume shift =>
    simp only [reduceCtorEq, false_and, not_false_iff, and_true, true_and]
    rw [shift.sendWq]
    exact added
  | downBlock a c ha frame sched shift =>
    simp only [reduceCtorEq, false_and, not_false_iff, and_true, false_or]
    rw [shift.sendWq]
  | upWake a c w l ha head frame sched shift =>
    simp only [reduceCtorEq, false_and, not_false_iff, and_true, false_or]
    rw [shift.sendWq]
  | fork a c d n t hn pos room granted nextPid holes files child seg regs reset resume shift =>
    simp only [reduceCtorEq, false_and, not_false_iff, and_true, false_or]
    rw [shift.sendWq]
  | halt a c d t frame reset suspend shift =>
    simp only [reduceCtorEq, false_and, not_false_iff, and_true, false_or]
    rw [shift.sendWq]

def Completes (e : Execution T) (k r s : ℕ) : Prop :=
  k < e.len ∧ ∃ x, e.lab k = .instr r .RC x ∧ (e.vm k).waitingSender r x = some s

def Waits (e : Execution T) (n s r : ℕ) : Prop :=
  ∃ i a, LastBefore (runs e s) n i ∧ e.lab i = .instr s .SD a ∧ a.toNat = r ∧
    ∀ k, i < k → k < n → ¬Completes e k r s

def Sent (e : Execution T) (n : ℕ) : Prop :=
  ∀ s, ∀ r < procs, s ∈ (e.vm n).sendWq r ↔ Waits e n s r

omit [LawfulTree T] in
theorem load_sendWq {pager : Pager} {host : Host} {u : VM T}
    (h : Loads (startState pager host) u) (i : ℕ) : u.sendWq i = [] := by
  induction h with
  | start => rfl
  | turn w n a b f s t hl hn small room block reset resume ih => exact ih

omit [LawfulTree T] in
theorem sent_start (e : Execution T) : Sent e 0 := by
  obtain ⟨pager, u, fh, -, hu, hm⟩ := e.loads
  intro s r _
  have none : (e.vm 0).sendWq r = [] := by
    rw [hm]
    exact load_sendWq hu r
  rw [none]
  constructor
  · intro h
    exact absurd h List.not_mem_nil
  · rintro ⟨i, a, last, -⟩
    exact absurd last.1 (Nat.not_lt_zero i)

omit [LawfulTree T] in
theorem Single.idle {e : Execution T} {n : ℕ} (h : Single e n) {q r : ℕ} (hr : r < procs)
    (hq : 0 < (e.vm n).sched.running.count q) : q ∉ (e.vm n).sendWq r := by
  intro hm
  have one := h.one q
  have := queued_pos (e.vm n).sendWq hr hm
  rw [busy] at one
  omega

theorem sent_step (e : Execution T) (n : ℕ) (hn : n < e.len) (single : Single e n)
    (h : Sent e n) : Sent e (n + 1) := by
  have sane := execution_sane e n (by omega)
  obtain ⟨pos, ⟨p, op, a, lab, hp, k⟩ | ⟨lab, t, -, hm⟩⟩ := e.step hn
  · have cur : p < procs := hp ▸ Nat.lt_of_lt_of_le (sane.current pos) sane.room
    have ran := runs_count e n hn lab
    intro s r hr
    have queue : s ∈ (e.vm (n + 1)).sendWq r ↔ op = .SD ∧ s = p ∧ a.toNat = r ∨
        s ∈ (e.vm n).sendWq r ∧
          ¬(op = .RC ∧ p = r ∧ (e.vm n).waitingSender p a = some s) :=
      (sendWq_effect cur k.effect single.one s r :)
    have taken : Completes e n r s ↔
        op = .RC ∧ p = r ∧ (e.vm n).waitingSender p a = some s := by
      constructor
      · rintro ⟨-, x, hx, some⟩
        obtain ⟨rfl, rfl, rfl⟩ := Label.instr.inj (lab.symm.trans hx)
        exact ⟨rfl, rfl, some⟩
      · rintro ⟨rfl, rfl, some⟩
        exact ⟨hn, a, lab, some⟩
    rw [queue, ← taken]
    by_cases hs : s = p
    · -- its own step: it was in no queue before
      subst s
      have out := single.idle hr ran
      constructor
      · rintro (⟨rfl, -, ha⟩ | ⟨hm, -⟩)
        · exact ⟨n, a, .here ⟨.SD, a, lab⟩, lab, ha, fun k h1 h2 => by omega⟩
        · exact absurd hm out
      · rintro ⟨i, b, last, hb, hbr, -⟩
        rcases last.cases with ⟨rfl, -⟩ | ⟨other, -⟩
        · obtain ⟨-, rfl, rfl⟩ := Label.instr.inj (lab.symm.trans hb)
          exact .inl ⟨rfl, rfl, hbr⟩
        · exact absurd ⟨op, a, lab⟩ other
    · have other : ¬runs e s n := by
        rintro ⟨op', a', lab'⟩
        obtain ⟨he, -⟩ := Label.instr.inj (lab'.symm.trans lab)
        exact hs he
      simp only [hs, false_and, and_false, false_or, h s r hr]
      constructor
      · rintro ⟨⟨i, b, last, hb, hbr, free⟩, none⟩
        refine ⟨i, b, last.keep other, hb, hbr, fun k h1 h2 => ?_⟩
        rcases Nat.lt_succ_iff_lt_or_eq.1 h2 with h2 | rfl
        · exact free k h1 h2
        · exact none
      · rintro ⟨i, b, last, hb, hbr, free⟩
        rcases last.cases with ⟨rfl, ran⟩ | ⟨-, last⟩
        · exact absurd ran other
        · exact ⟨⟨i, b, last, hb, hbr, fun k h1 h2 => free k h1 (by omega)⟩,
            free n last.1 (Nat.lt_succ_self n)⟩
  · have quiet (s : ℕ) : ¬runs e s n := by
      rintro ⟨op, a, ha⟩
      rw [ha] at lab
      cases lab
    have none (r s : ℕ) : ¬Completes e n r s := by
      rintro ⟨-, x, hx, -⟩
      exact quiet r ⟨.RC, x, hx⟩
    intro s r hr
    rw [hm]
    refine (h s r hr).trans ⟨?_, ?_⟩
    · rintro ⟨i, b, last, hb, hbr, free⟩
      refine ⟨i, b, last.keep (quiet s), hb, hbr, fun k h1 h2 => ?_⟩
      rcases Nat.lt_succ_iff_lt_or_eq.1 h2 with h2 | rfl
      · exact free k h1 h2
      · exact none r s
    · rintro ⟨i, b, last, hb, hbr, free⟩
      rcases last.cases with ⟨rfl, ran⟩ | ⟨-, last⟩
      · exact absurd ran (quiet s)
      · exact ⟨i, b, last, hb, hbr, fun k h1 h2 => free k h1 (by omega)⟩

theorem sent (e : Execution T) (safe : ∀ i < e.len, WakesReceiver e i) (n : ℕ)
    (hn : n ≤ e.len) : Sent e n :=
  e.toRun.invariant (Sent e) (sent_start e)
    (fun i hi h => sent_step e i hi (single e safe i (by omega)) h) n hn

end
end BrainMachine.SenderQueues
