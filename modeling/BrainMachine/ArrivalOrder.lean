import BrainMachine.Sleepers

set_option autoImplicit false

namespace BrainMachine.ArrivalOrder
open AddressSpace Paging Instructions RunQueue Machine Dispatch Effects Runs MachineRuns
open SortedTree WaitQueues MissedWakeups SenderQueues Semaphores SemaphoreWakeups Sleepers

section
variable {T : Type} [RedBlackTree T]

def Earlier (e : Execution T) (n p q : ℕ) : Prop :=
  ∃ i j, LastBefore (runs e p) n i ∧ LastBefore (runs e q) n j ∧ i < j

def InOrder (e : Execution T) (n : ℕ) (l : List ℕ) : Prop := l.Pairwise (Earlier e n)

theorem InOrder.keep {e : Execution T} {n : ℕ} {l k : List ℕ} (h : InOrder e n l)
    (sub : k.Sublist l) (quiet : ∀ q ∈ k, ¬runs e q n) : InOrder e (n + 1) k := by
  refine (h.sublist sub).imp_of_mem fun {p q} hp hq earlier => ?_
  obtain ⟨i, j, hi, hj, lt⟩ := earlier
  exact ⟨i, j, hi.keep (quiet p hp), hj.keep (quiet q hq), lt⟩

theorem InOrder.join {e : Execution T} {n p : ℕ} {l : List ℕ} (h : InOrder e n l)
    (quiet : ∀ q ∈ l, ¬runs e q n) (ran : ∀ q ∈ l, ∃ i, LastBefore (runs e q) n i)
    (here : runs e p n) : InOrder e (n + 1) (l ++ [p]) := by
  refine List.pairwise_append.2 ⟨h.keep (.refl l) quiet, List.pairwise_singleton _ _, ?_⟩
  intro q hq x hx
  obtain rfl := List.mem_singleton.1 hx
  obtain ⟨i, hi⟩ := ran q hq
  exact ⟨i, n, hi.keep (quiet q hq), .here here, hi.1⟩

theorem queues_effect {m u : VM T} {p : ℕ} {op : Op} {a : ℤ} (k : Effect p m u op a) :
    (∀ s, (u.semWq s).Sublist (m.semWq s) ∨ u.semWq s = m.semWq s ++ [p]) ∧
      ∀ r, (u.sendWq r).Sublist (m.sendWq r) ∨ u.sendWq r = m.sendWq r ++ [p] := by
  have same (l : List ℕ) : l.Sublist l ∨ l = l ++ [p] := .inl (.refl l)
  have added (wq : ℕ → List ℕ) (i s : ℕ) :
      (Function.update wq i (wq i ++ [p]) s).Sublist (wq s) ∨
        Function.update wq i (wq i ++ [p]) s = wq s ++ [p] := by
    by_cases hs : s = i
    · subst hs
      exact .inr (Function.update_self ..)
    · rw [Function.update_of_ne hs]
      exact same _
  have removed (wq : ℕ → List ℕ) (i : ℕ) (l : List ℕ) (hl : l.Sublist (wq i)) (s : ℕ) :
      (Function.update wq i l s).Sublist (wq s) ∨ Function.update wq i l s = wq s ++ [p] := by
    by_cases hs : s = i
    · subst hs
      rw [Function.update_self]
      exact .inl hl
    · rw [Function.update_of_ne hs]
      exact same _
  cases k with
  | quiet op a k =>
    rw [k.semWq, k.sendWq]
    exact ⟨fun s => same _, fun r => same _⟩
  | execNone a n refused k =>
    rw [k.still_holes.semWq, k.still_holes.sendWq]
    exact ⟨fun s => same _, fun r => same _⟩
  | execGrant a n hn granted k =>
    rw [k.still_resized.semWq, k.still_resized.sendWq]
    exact ⟨fun s => same _, fun r => same _⟩
  | recvTake a c s some frame sched shift =>
    rw [shift.semWq, shift.sendWq]
    exact ⟨fun s => same _, removed _ _ _ List.erase_sublist⟩
  | sendAlone a c ha alone frame sched shift =>
    rw [shift.semWq, shift.sendWq]
    exact ⟨fun s => same _, added _ _⟩
  | sendWake a c d s ha waits frame suspend resume shift =>
    rw [shift.semWq, shift.sendWq]
    exact ⟨fun s => same _, added _ _⟩
  | downBlock a c ha frame sched shift =>
    rw [shift.semWq, shift.sendWq]
    exact ⟨added _ _, fun r => same _⟩
  | upWake a c w l ha head frame sched shift =>
    rw [shift.semWq, shift.sendWq]
    refine ⟨removed _ _ _ ?_, fun r => same _⟩
    rw [head]
    exact List.sublist_cons_self w l
  | recvBlock a c ha none frame sched shift =>
    rw [shift.semWq, shift.sendWq]
    exact ⟨fun s => same _, fun r => same _⟩
  | fork a c d n s hn pos room granted nextPid holes files child seg regs reset resume shift =>
    rw [shift.semWq, shift.sendWq]
    exact ⟨fun s => same _, fun r => same _⟩
  | halt a c d s frame reset suspend shift =>
    rw [shift.semWq, shift.sendWq]
    exact ⟨fun s => same _, fun r => same _⟩

structure Arrived (e : Execution T) (n : ℕ) : Prop where
  semWq : ∀ s < procs, InOrder e n ((e.vm n).semWq s)
  sendWq : ∀ r < procs, InOrder e n ((e.vm n).sendWq r)

theorem InOrder.step {e : Execution T} {n p : ℕ} {l k : List ℕ} (h : InOrder e n l)
    (out : ∀ q ∈ l, q ∉ (e.vm n).sched.running ∧ ∃ i, LastBefore (runs e q) n i)
    (hn : n < e.len) (here : runs e p n) (grown : k.Sublist l ∨ k = l ++ [p]) :
    InOrder e (n + 1) k := by
  have quiet (q : ℕ) (hq : q ∈ l) : ¬runs e q n := by
    rintro ⟨op, a, lab⟩
    exact (out q hq).1 (List.count_pos_iff.1 (runs_count e n hn lab))
  rcases grown with sub | rfl
  · exact h.keep sub fun q hq => quiet q (sub.subset hq)
  · exact h.join quiet (fun q hq => (out q hq).2) here

variable [LawfulTree T]

theorem arrived (e : Execution T) (safe : ∀ i < e.len, WakesReceiver e i) (n : ℕ)
    (hn : n ≤ e.len) : Arrived e n := by
  refine e.toRun.invariant (Arrived e) ?_ (fun n hn h => ?_) n hn
  · obtain ⟨pager, u, fh, -, hu, hm⟩ := e.loads
    constructor
    · intro s _
      have none : (e.vm 0).semWq s = [] := by
        rw [hm]
        exact congrFun (load_semWq hu) s
      rw [none]
      exact List.Pairwise.nil
    · intro r _
      have none : (e.vm 0).sendWq r = [] := by
        rw [hm]
        exact load_sendWq hu r
      rw [none]
      exact List.Pairwise.nil
  · have downs (s : ℕ) (hs : s < procs) (q : ℕ) (hq : q ∈ (e.vm n).semWq s) :
        q ∉ (e.vm n).sched.running ∧ ∃ i, LastBefore (runs e q) n i := by
      obtain ⟨i, sleeps, -⟩ := sleeps_in_down safe hn.le hs hq
      exact ⟨sleeps.out, i, sleeps.last⟩
    have sends (r : ℕ) (hr : r < procs) (q : ℕ) (hq : q ∈ (e.vm n).sendWq r) :
        q ∉ (e.vm n).sched.running ∧ ∃ i, LastBefore (runs e q) n i := by
      obtain ⟨i, sleeps⟩ := sleeps_in_send safe hn.le hr hq
      exact ⟨sleeps.out, i, sleeps.last⟩
    obtain ⟨-, ⟨p, op, a, lab, -, k⟩ | ⟨lab, t, -, hm⟩⟩ := e.step hn
    · have here : runs e p n := ⟨op, a, lab⟩
      obtain ⟨sem, send⟩ := queues_effect k.effect
      exact ⟨fun s hs => (h.semWq s hs).step (downs s hs) hn here (sem s),
        fun r hr => (h.sendWq r hr).step (sends r hr) hn here (send r)⟩
    · have quiet (q : ℕ) : ¬runs e q n := by
        rintro ⟨op, a, ha⟩
        exact nomatch ha.symm.trans lab
      have semWq : (e.vm (n + 1)).semWq = (e.vm n).semWq := by rw [hm]
      have sendWq : (e.vm (n + 1)).sendWq = (e.vm n).sendWq := by rw [hm]
      constructor
      · rw [semWq]
        exact fun s hs => (h.semWq s hs).keep (.refl _) fun q _ => quiet q
      · rw [sendWq]
        exact fun r hr => (h.sendWq r hr).keep (.refl _) fun q _ => quiet q

structure Longest (P : ℕ → ℕ → Prop) (q i : ℕ) : Prop where
  mem : P q i
  first : ∀ p j, P p j → i ≤ j

def Wakes (e : Execution T) (n q : ℕ) : Prop :=
  ∀ p, p ∈ (e.vm (n + 1)).sched.running ↔ p = q ∨ p ∈ (e.vm n).sched.running

omit [LawfulTree T] in
/-- Who has its entry in front is the one that has slept longest. -/
theorem longest_of {e : Execution T} {n q i : ℕ} {l : List ℕ} {P : ℕ → ℕ → Prop}
    (h : InOrder e n (q :: l)) (mem : P q i) (last : LastBefore (runs e q) n i)
    (queued : ∀ p j, P p j → p ∈ q :: l ∧ LastBefore (runs e p) n j) : Longest P q i := by
  refine ⟨mem, fun p j hp => ?_⟩
  obtain ⟨hm, here⟩ := queued p j hp
  rcases List.mem_cons.1 hm with rfl | hm
  · exact (last.unique here).le
  · obtain ⟨i', j', hi, hj, lt⟩ := (List.pairwise_cons.1 h).1 p hm
    obtain rfl := hi.unique last
    obtain rfl := hj.unique here
    exact lt.le

theorem wakes_head {m u : VM T} {p s q : ℕ} {l : List ℕ} (sane : Sane m) (k : Effect p m u .VE s)
    (queue : m.semWq s = q :: l) (gone : u.semWq s = l) (x : ℕ) :
    x ∈ u.sched.running ↔ x = q ∨ x ∈ m.sched.running := by
  have hundred : procs = 100 := rfl
  have room := sane.room
  cases k with
  | quiet op a same =>
    rw [same.semWq, queue] at gone
    exact absurd gone (List.cons_ne_self q l)
  | upWake a c w k ha head frame sched shift =>
    rw [Int.toNat_natCast, queue] at head
    obtain ⟨rfl, -⟩ := List.cons.inj head
    have known := sane.semWq s q (queue ▸ List.mem_cons_self)
    exact schedResume_mem sane.served.1 (by omega) sched x

theorem wakes_sender {m u : VM T} {p q : ℕ} {a : ℤ} (sane : Sane m) (k : Effect p m u .RC a)
    (found : m.waitingSender p a = some q) (x : ℕ) :
    x ∈ u.sched.running ↔ x = q ∨ x ∈ m.sched.running := by
  have hundred : procs = 100 := rfl
  have room := sane.room
  cases k with
  | quiet op a same hsd hrc => exact absurd rfl hrc
  | recvBlock a c ha none => exact nomatch found.symm.trans none
  | recvTake a c s some frame sched shift =>
    obtain rfl := Option.some.inj (found.symm.trans some)
    have known := sane.sendWq p q (List.mem_of_find?_eq_some found)
    exact schedResume_mem sane.served.1 (by omega) sched x

/-- A VE wakes the process that has slept longest in a PE on its semaphore. -/
theorem wakes_first {e : Execution T} (safe : ∀ i < e.len, WakesReceiver e i) {n p s : ℕ}
    (hn : n < e.len) (lab : e.lab n = .instr p .VE s)
    (some : ∃ q i, SleepsIn e n q i .PE s) :
    ∃ q i, Longest (fun q i => SleepsIn e n q i .PE s) q i ∧ Wakes e n q := by
  have hundred : procs = 100 := rfl
  obtain ⟨x, j, sleeps⟩ := some
  obtain ⟨range, waits⟩ := sleeps.down safe hn.le
  rw [Int.toNat_natCast] at waits
  have hs : s < procs := by omega
  cases queue : (e.vm n).semWq s with
  | nil =>
    rw [queue] at waits
    exact absurd waits List.not_mem_nil
  | cons q l =>
    have front : q ∈ (e.vm n).semWq s := queue ▸ List.mem_cons_self
    obtain ⟨i, first, -⟩ := sleeps_in_down safe hn.le hs front
    have order := (arrived e safe n hn.le).semWq s hs
    rw [queue] at order
    refine ⟨q, i, longest_of order first first.last fun p j hp => ?_, fun x => ?_⟩
    · refine ⟨?_, hp.last⟩
      rw [← queue]
      exact (hp.down safe hn.le).2
    · obtain ⟨-, -, k⟩ := e.ticked hn lab
      have gone : (e.vm (n + 1)).semWq s = l := by
        rw [(up k).2.2, Int.toNat_natCast, Function.update_self, queue, List.tail_cons]
      exact (wakes_head (execution_sane e n hn.le).account k.effect queue gone x :)

/-- An RC takes the sender that has slept longest in an SD to its process, of those that its
operand admits. -/
theorem takes_first {e : Execution T} (safe : ∀ i < e.len, WakesReceiver e i) {n p : ℕ} {a : ℤ}
    (hn : n < e.len) (lab : e.lab n = .instr p .RC a)
    (some : ∃ q i, SleepsIn e n q i .SD p ∧ Admits a q) :
    ∃ q i, Longest (fun q i => SleepsIn e n q i .SD p ∧ Admits a q) q i ∧ Wakes e n q := by
  have sane := execution_sane e n hn.le
  obtain ⟨pos, cur, k⟩ := e.ticked hn lab
  have hp : p < procs := cur ▸ (sane.current pos).trans_le sane.room
  have waiting (y j : ℕ) (h : SleepsIn e n y j .SD p ∧ Admits a y) :
      y ∈ (e.vm n).sendWq p := by
    have waits := (h.1.send safe hn.le).2
    rwa [Int.toNat_natCast] at waits
  cases found : (e.vm n).waitingSender p a with
  | none =>
    obtain ⟨y, j, h⟩ := some
    exact absurd h.2 (waitingSender_none found y (waiting y j h))
  | some q =>
    -- nobody in front of `q` is admitted
    obtain ⟨admitted, front, behind, queue, passed⟩ := List.find?_eq_some_iff_append.1 found
    have here : q ∈ (e.vm n).sendWq p := List.mem_of_find?_eq_some found
    obtain ⟨i, sleeps⟩ := sleeps_in_send safe hn.le hp here
    have order := (arrived e safe n hn.le).sendWq p hp
    rw [queue] at order
    have admits : Admits a q := (of_decide_eq_true admitted : a < 0 ∨ (q : ℤ) = a)
    refine ⟨q, i, longest_of (List.pairwise_append.1 order).2.1 ⟨sleeps, admits⟩ sleeps.last
      fun y j h => ⟨?_, h.1.last⟩, fun x => ?_⟩
    · have waits := waiting y j h
      rw [queue] at waits
      refine (List.mem_append.1 waits).resolve_left fun early => ?_
      have refused := passed y early
      simp only [Bool.not_eq_true', decide_eq_false_iff_not] at refused
      exact refused h.2
    · exact (wakes_sender sane.account k.effect found x :)

/-- Sleepers are served in the order of their instructions. -/
theorem first_come_first_served (e : Execution T) (safe : ∀ i < e.len, WakesReceiver e i) (n : ℕ)
    (hn : n < e.len) :
    (∀ p (s : ℕ), e.lab n = .instr p .VE s → (∃ q i, SleepsIn e n q i .PE s) →
      ∃ q i, Longest (fun q i => SleepsIn e n q i .PE s) q i ∧ Wakes e n q) ∧
    ∀ p a, e.lab n = .instr p .RC a → (∃ q i, SleepsIn e n q i .SD p ∧ Admits a q) →
      ∃ q i, Longest (fun q i => SleepsIn e n q i .SD p ∧ Admits a q) q i ∧ Wakes e n q :=
  ⟨fun _ _ lab => wakes_first safe hn lab, fun _ _ lab => takes_first safe hn lab⟩

theorem wakeRun_receives (i : ℕ) (hi : i < wakeRun.len) : WakesReceiver wakeRun i := by
  intro p a lab
  have semaphores : ∀ i < 4, wakeRun.lab i = .instr 0 .PE 5 ∨ wakeRun.lab i = .instr 1 .PE 5 ∨
      wakeRun.lab i = .instr 2 .VE 5 := by decide +kernel
  rcases semaphores i hi with h | h | h
  all_goals
    rw [h] at lab
    cases lab

/-- Two processes sleep in a PE, and the VE wakes the one that has executed it first. -/
theorem wakeRun_served : ∃ q i, Longest (fun q i => SleepsIn wakeRun 3 q i .PE (5 : ℕ)) q i ∧
    Wakes wakeRun 3 q := by
  have lab : wakeRun.lab 1 = .instr 0 .PE 5 := by decide +kernel
  have other : wakeRun.lab 2 = .instr 1 .PE 5 := by decide +kernel
  refine (first_come_first_served wakeRun wakeRun_receives 3 (by decide)).1 2 5
    (by decide +kernel)
    ⟨0, 1, by decide +kernel, ⟨by decide, ⟨.PE, 5, lab⟩, fun j h1 h2 => ?_⟩, lab⟩
  obtain rfl : j = 2 := by omega
  rintro ⟨op, a, h⟩
  rw [other] at h
  cases h

/-- A process that still sleeps in a PE has been passed by as many VEs as it has come forward. -/
theorem passed_step {e : Execution T} (safe : ∀ i < e.len, WakesReceiver e i) {n q s : ℕ}
    (hn : n < e.len) (hs : s < procs) (before : q ∈ (e.vm n).semWq s)
    (after : q ∈ (e.vm (n + 1)).semWq s) :
    ((e.vm (n + 1)).semWq s).idxOf q + (if raises e s n then 1 else 0) =
      ((e.vm n).semWq s).idxOf q := by
  have same (queue : (e.vm (n + 1)).semWq s = (e.vm n).semWq s) (no : raises e s n = false) :
      ((e.vm (n + 1)).semWq s).idxOf q + (if raises e s n then 1 else 0) =
        ((e.vm n).semWq s).idxOf q := by
    rw [queue, no]
    rfl
  obtain ⟨-, ⟨p, op, a, lab, -, k⟩ | ⟨lab, t, -, hm⟩⟩ := e.step hn
  · by_cases ho : op = .PE
    · subst ho
      have no : raises e s n = false := by rw [raises, lab]
      obtain ⟨ha, -, done⟩ := down k
      cases done with
      | pass positive value regs semWq => exact same (by rw [semWq]) no
      | block zero value regs semWq =>
        by_cases here : s = a.toNat
        · rw [semWq, here, Function.update_self, ← here, no, List.idxOf_append_of_mem before]
          rfl
        · exact same (by rw [semWq, Function.update_of_ne here]) no
    · by_cases ho' : op = .VE
      · subst ho'
        obtain ⟨ha, -, semWq⟩ := up k
        by_cases here : s = a.toNat
        · have yes : raises e s n = true := by
            rw [raises, lab]
            exact decide_eq_true (by omega)
          have nodup := single_nodup (single e safe n hn.le) hs
          rw [semWq, here, Function.update_self, ← here] at after
          rw [semWq, here, Function.update_self, ← here, yes]
          cases queue : (e.vm n).semWq s with
          | nil =>
            rw [queue] at before
            exact absurd before List.not_mem_nil
          | cons w l =>
            rw [queue, List.tail_cons] at after
            rw [queue] at nodup
            have apart : w ≠ q := fun h => (List.nodup_cons.1 nodup).1 (h ▸ after)
            rw [List.tail_cons, List.idxOf_cons_ne l apart]
            rfl
        · refine same (by rw [semWq, Function.update_of_ne here]) ?_
          rw [raises, lab]
          exact decide_eq_false (by omega)
      · refine same (congrFun (semWq_same k ho ho') s) ?_
        rw [raises, lab]
        cases op <;> first | rfl | exact absurd rfl ho'
  · refine same (by rw [hm]) ?_
    rw [raises, lab]

def ahead (e : Execution T) (n p s : ℕ) : ℕ := ((e.vm n).semWq s).idxOf p

/-- While a process sleeps in a PE on `s`, each VE on `s` brings it one place forward, so that it
is passed by no more of them than it had processes in front of it. -/
theorem bounded_waiting (e : Execution T) (safe : ∀ i < e.len, WakesReceiver e i) (p s i b n : ℕ)
    (hb : b ≤ n) (hn : n ≤ e.len) (before : SleepsIn e b p i .PE s)
    (after : SleepsIn e n p i .PE s) : ups e s b n + ahead e n p s = ahead e b p s := by
  have hundred : procs = 100 := rfl
  have queued {k : ℕ} (hk : k ≤ e.len) (h : SleepsIn e k p i .PE s) :
      s < procs ∧ p ∈ (e.vm k).semWq s := by
    obtain ⟨range, waits⟩ := h.down safe hk
    exact ⟨by omega, waits⟩
  induction n, hb using Nat.le_induction with
  | base =>
    rw [ups, tallyFrom_self]
    exact Nat.zero_add _
  | succ n hb ih =>
    have now := after.before hn (before.last.1.trans_le hb)
    have hn' : n ≤ e.len := Nat.le_of_succ_le hn
    obtain ⟨hs, here⟩ := queued hn' now
    have step := passed_step safe hn hs here (queued hn after).2
    have earlier := ih hn' now
    have count : ups e s b (n + 1) = ups e s b n + if raises e s n then 1 else 0 :=
      tallyFrom_succ _ hb
    rw [ahead] at earlier ⊢
    omega

/-- The second process comes to the front. -/
theorem wakeRun_passed : ups wakeRun 5 3 4 + ahead wakeRun 4 1 5 = ahead wakeRun 3 1 5 := by
  have lab : wakeRun.lab 2 = .instr 1 .PE (5 : ℕ) := by decide +kernel
  have other : wakeRun.lab 3 = .instr 2 .VE 5 := by decide +kernel
  refine bounded_waiting wakeRun wakeRun_receives 1 5 2 3 4 (by decide) le_rfl
    ⟨by decide +kernel, .here ⟨.PE, 5, lab⟩, lab⟩
    ⟨by decide +kernel, ⟨by decide, ⟨.PE, 5, lab⟩, fun j h1 h2 => ?_⟩, lab⟩
  obtain rfl : j = 3 := by omega
  rintro ⟨op, a, h⟩
  rw [other] at h
  cases h

end
end BrainMachine.ArrivalOrder
