import BrainMachine.SemaphoreWakeups

set_option autoImplicit false

namespace BrainMachine.Sleepers
open AddressSpace Paging Stdio Instructions RunQueue Machine Dispatch Effects Runs MachineRuns
open SortedTree WaitQueues MissedWakeups SenderQueues Semaphores SemaphoreWakeups

section
variable {T : Type} [RedBlackTree T]

inductive Asleep (e : Execution T) (n p : ℕ) : Prop
  | down (i : ℕ) (a : ℤ) (last : LastBefore (runs e p) n i) (lab : e.lab i = .instr p .PE a)
      (range : 0 ≤ a ∧ a ≤ 99) (zero : (e.vm i).store.semTable a.toNat = 0)
      (waits : p ∈ (e.vm n).semWq a.toNat)
  | send (i : ℕ) (a : ℤ) (last : LastBefore (runs e p) n i) (lab : e.lab i = .instr p .SD a)
      (range : 0 ≤ a ∧ a ≤ 99) (waits : p ∈ (e.vm n).sendWq a.toNat)
  | recv (i : ℕ) (a : ℤ) (last : LastBefore (runs e p) n i) (lab : e.lab i = .instr p .RC a)
      (none : (e.vm i).waitingSender p a = none) (free : busy (e.vm n) p = 0)

omit [RedBlackTree T] in
theorem mem_insert (wq : ℕ → List ℕ) (i p : ℕ) {q s : ℕ} (h : q ∈ wq s) :
    q ∈ Function.update wq i (wq i ++ [p]) s := by
  by_cases hs : s = i
  · subst hs
    rw [Function.update_self]
    exact List.mem_append_left _ h
  · rwa [Function.update_of_ne hs]

omit [RedBlackTree T] in
theorem mem_remove (wq : ℕ → List ℕ) (i : ℕ) {p q s : ℕ} (h : q ∈ wq s) (hq : q ≠ p) :
    q ∈ Function.update wq i ((wq i).erase p) s := by
  by_cases hs : s = i
  · subst hs
    rw [Function.update_self]
    exact (List.mem_erase_of_ne hq).2 h
  · rwa [Function.update_of_ne hs]

structure SleepsOn (m u : VM T) (p q : ℕ) (op : Op) (a : ℤ) : Prop where
  out : q ∉ m.sched.running
  semWq : ∀ s, q ∈ m.semWq s → q ∈ u.semWq s
  sendWq : ∀ r, q ∈ m.sendWq r → q ∈ u.sendWq r
  old : op = .FK → q ≠ m.nextPid
  unwoken : op = .SD → m.receiverWaits p a.toNat → q ≠ a.toNat

theorem SleepsOn.of_shift {m u : VM T} {p q : ℕ} {op : Op} {a : ℤ} {rq sq eq : ℕ → List ℕ}
    (shift : Shift m u rq sq eq) (out : q ∉ m.sched.running)
    (hs : ∀ s, q ∈ m.semWq s → q ∈ eq s) (hr : ∀ r, q ∈ m.sendWq r → q ∈ sq r)
    (old : op = .FK → q ≠ m.nextPid)
    (unwoken : op = .SD → m.receiverWaits p a.toNat → q ≠ a.toNat) : SleepsOn m u p q op a :=
  ⟨out, shift.semWq ▸ hs, shift.sendWq ▸ hr, old, unwoken⟩

variable [LawfulTree T]

theorem sleeps_on {m u : VM T} {p q : ℕ} {op : Op} {a : ℤ} (sane : Sane m)
    (pos : 0 < m.sched.nrRunning) (hc : m.sched.current = p) (hq : q ≠ p) (k : Effect p m u op a)
    (out : q ∉ u.sched.running) : SleepsOn m u p q op a := by
  have hundred : procs = 100 := rfl
  have room := sane.room
  have slept {s : Sched T} {c : ℤ} (hs : schedSuspend p m.sched = .ok (c, s))
      (out : q ∉ s.running) : q ∉ m.sched.running := fun hrun =>
    have perm := (sane.served.suspend sane.room pos hc hs).2
    out ((List.mem_cons.1 (perm.mem_iff.1 hrun)).resolve_left hq)
  have woken {s t : Sched T} {c : ℤ} {x : ℕ} (hs : Counted s) (hx : x < m.nextPid)
      (ht : schedResume x s = .ok (c, t)) (out : q ∉ t.running) : q ≠ x ∧ q ∉ s.running :=
    not_or.1 (mt (schedResume_mem hs (by omega) ht q).2 out)
  cases k with
  | quiet op a k hsd hrc hfk =>
    exact .of_shift k.still.toShift (k.sched ▸ out) (fun _ => id) (fun _ => id)
      (fun h => absurd h hfk) fun h => absurd h hsd
  | execNone a n refused k =>
    exact .of_shift k.still_holes.toShift (k.still_holes.sched ▸ out) (fun _ => id) (fun _ => id)
      nofun nofun
  | execGrant a n hn granted k =>
    exact .of_shift k.still_resized.toShift (k.still_resized.sched ▸ out) (fun _ => id)
      (fun _ => id) nofun nofun
  | recvBlock a c ha none frame sched shift =>
    exact .of_shift shift (slept sched out) (fun _ => id) (fun _ => id) nofun nofun
  | recvTake a c s some frame sched shift =>
    obtain ⟨hs, out⟩ := woken sane.served.1 (sane.sendWq p s (List.mem_of_find?_eq_some some))
      sched out
    exact .of_shift shift out (fun _ => id) (fun r hr => mem_remove _ _ hr hs) nofun nofun
  | sendAlone a c ha alone frame sched shift =>
    exact .of_shift shift (slept sched out) (fun _ => id) (fun r hr => mem_insert _ _ _ hr) nofun
      fun _ waits => absurd waits alone
  | sendWake a c d s ha waits frame suspend resume shift =>
    have known : a.toNat < m.nextPid := waits.elim (sane.recvWq _ _) (sane.recvWq _ _)
    obtain ⟨ht, out⟩ := woken (sane.served.suspend sane.room pos hc suspend).1.1 known resume out
    exact .of_shift shift (slept suspend out) (fun _ => id) (fun r hr => mem_insert _ _ _ hr) nofun
      fun _ _ => ht
  | downBlock a c ha frame sched shift =>
    exact .of_shift shift (slept sched out) (fun s hs => mem_insert _ _ _ hs) (fun _ => id) nofun
      nofun
  | upWake a c w l ha head frame sched shift =>
    obtain ⟨hw, out⟩ := woken sane.served.1 (sane.semWq _ w (head ▸ List.mem_cons_self)) sched out
    have left (s : ℕ) (hs : q ∈ m.semWq s) :
        q ∈ Function.update m.semWq a.toNat ((m.semWq a.toNat).erase w) s :=
      mem_remove _ _ hs hw
    rw [head, List.erase_cons_head] at left
    exact .of_shift shift out left (fun _ => id) nofun nofun
  | fork a c d n s hn pos' room' granted nextPid holes files child seg regs reset resume shift =>
    obtain ⟨run, counted, -, -⟩ := schedReset_running reset
    have out := mt (schedResume_mem (counted sane.served.1) room' resume q).2 out
    rw [run, not_or] at out
    exact .of_shift shift out.2 (fun _ => id) (fun _ => id) (fun _ => out.1) nofun
  | halt a c d s frame reset suspend shift =>
    obtain ⟨run, -, hpos, hcur⟩ := schedReset_running reset
    have perm := ((sane.served.reset reset).suspend sane.room (hpos ▸ pos) (hcur.trans hc)
      suspend).2
    refine .of_shift shift (fun hrun => out ?_) (fun _ => id) (fun _ => id) nofun nofun
    exact (List.mem_cons.1 (perm.mem_iff.1 (run ▸ hrun))).resolve_left hq

/-- A process that leaves the run queue has entered the queue of its instruction, or found no
sender, or halts. -/
theorem falls_asleep {m u : VM T} {p : ℕ} {op : Op} {a : ℤ} (sane : Sane m)
    (pos : 0 < m.sched.nrRunning) (hc : m.sched.current = p) (k : Effect p m u op a)
    (out : p ∉ u.sched.running) : op = .HA ∨
      op = .PE ∧ (0 ≤ a ∧ a ≤ 99) ∧ p ∈ u.semWq a.toNat ∨
      op = .SD ∧ (0 ≤ a ∧ a ≤ 99) ∧ p ∈ u.sendWq a.toNat ∨
      op = .RC ∧ m.waitingSender p a = none := by
  have hundred : procs = 100 := rfl
  have room := sane.room
  have runs : p ∈ m.sched.running := by
    rw [running_of_pos pos, hc]
    exact List.mem_cons_self
  have resumed {s t : Sched T} {c : ℤ} {x : ℕ} (hs : Counted s) (hx : x ≤ 99)
      (ht : schedResume x s = .ok (c, t)) (hp : p ∈ s.running) : p ∈ t.running :=
    (schedResume_mem hs hx ht p).2 (.inr hp)
  cases k with
  | quiet op a k => exact absurd (k.sched ▸ runs) out
  | execNone a n refused k => exact absurd (k.still_holes.sched ▸ runs) out
  | execGrant a n hn granted k => exact absurd (k.still_resized.sched ▸ runs) out
  | recvBlock a c ha none => exact .inr (.inr (.inr ⟨rfl, none⟩))
  | recvTake a c s some frame sched shift =>
    have known := sane.sendWq p s (List.mem_of_find?_eq_some some)
    exact absurd (resumed sane.served.1 (by omega) sched runs) out
  | sendAlone a c ha alone frame sched shift =>
    refine .inr (.inr (.inl ⟨rfl, ha, ?_⟩))
    rw [shift.sendWq, Function.update_self]
    exact List.mem_append_right _ List.mem_cons_self
  | sendWake a c d s ha waits frame suspend resume shift =>
    refine .inr (.inr (.inl ⟨rfl, ha, ?_⟩))
    rw [shift.sendWq, Function.update_self]
    exact List.mem_append_right _ List.mem_cons_self
  | downBlock a c ha frame sched shift =>
    refine .inr (.inl ⟨rfl, ha, ?_⟩)
    rw [shift.semWq, Function.update_self]
    exact List.mem_append_right _ List.mem_cons_self
  | upWake a c w l ha head frame sched shift =>
    have known := sane.semWq _ w (head ▸ List.mem_cons_self)
    exact absurd (resumed sane.served.1 (by omega) sched runs) out
  | fork a c d n s hn pos' room' granted nextPid holes files child seg regs reset resume shift =>
    obtain ⟨run, counted, -, -⟩ := schedReset_running reset
    exact absurd (resumed (counted sane.served.1) room' resume (run ▸ runs)) out
  | halt a c d s => exact .inl rfl

theorem load_running {pager : Pager} {host : Host} {u : VM T}
    (h : Loads (startState pager host) u) : ∀ q < u.nextPid, q ∈ u.sched.running := by
  induction h with
  | start => exact fun q hq => absurd hq (Nat.not_lt_zero q)
  | turn w n a b f s t hl hn small room block reset resume ih =>
    obtain ⟨run, counted, -, -⟩ := schedReset_running reset
    have joined := schedResume_mem (counted (load_placed hl).1.served.1) room resume
    intro q hq
    rcases Nat.lt_succ_iff_lt_or_eq.1 hq with hq | rfl
    · exact (joined q).2 (.inr (run ▸ ih q hq))
    · exact (joined _).2 (.inl rfl)

def Slept (e : Execution T) (n : ℕ) : Prop :=
  ∀ q < (e.vm n).nextPid, ¬halted e q n → q ∉ (e.vm n).sched.running → Asleep e n q

theorem slept_start (e : Execution T) : Slept e 0 := by
  obtain ⟨pager, u, fh, -, hu, hm⟩ := e.loads
  intro q hq _ out
  rw [hm] at hq out
  exact absurd (load_running hu q hq) out

omit [LawfulTree T] in
theorem not_queued {e : Execution T} {n : ℕ} (h : Single e n) {q s : ℕ} (hs : s < procs)
    (hq : 0 < (e.vm n).sched.running.count q) : q ∉ (e.vm n).semWq s := by
  intro hm
  have one := h.one q
  have := queued_pos (e.vm n).semWq hs hm
  rw [busy] at one
  omega

theorem slept_own {e : Execution T} {n p : ℕ} {op : Op} {a : ℤ} (hn : n < e.len)
    (single : Single e n) (lab : e.lab n = .instr p op a) (alive : ¬halted e p (n + 1))
    (out : p ∉ (e.vm (n + 1)).sched.running) : Asleep e (n + 1) p := by
  have hundred : procs = 100 := rfl
  have sane := execution_sane e n hn.le
  obtain ⟨pos, cur, k⟩ := e.ticked hn lab
  have ran := runs_count e n hn lab
  have last : LastBefore (runs e p) (n + 1) n := .here ⟨op, a, lab⟩
  rw [halted_tick e lab, not_or] at alive
  rcases falls_asleep sane.account pos cur k.effect out with rfl | ⟨rfl, range, waits⟩ |
    ⟨rfl, range, waits⟩ | ⟨rfl, none⟩
  · exact absurd ⟨rfl, rfl⟩ alive.2
  · refine .down n a last lab range ?_ waits
    obtain ⟨-, -, done⟩ := down k
    cases done with
    | pass positive value regs semWq =>
      rw [semWq] at waits
      exact absurd waits (not_queued single (by omega) ran)
    | block zero => exact zero
  · exact .send n a last lab range waits
  · refine .recv n a last lab none ?_
    have no : Op.RC ≠ .SD := by decide
    have moved : busy (e.vm (n + 1)) p + (if Op.RC = .HA ∧ p = p then 1 else 0) +
        (if Blocks (e.vm n) p .RC a ∧ p = p then 1 else 0) =
      busy (e.vm n) p + (if Op.RC = .FK ∧ p = (e.vm n).nextPid then 1 else 0) +
        (if (Op.RC = .SD ∧ (e.vm n).receiverWaits p a.toNat) ∧ p = a.toNat then 1 else 0) :=
      busy_effect sane.account pos cur single.one (fun h => absurd h no) k.effect p
    have blocks : Blocks (e.vm n) p .RC a ∧ p = p := ⟨⟨rfl, none⟩, rfl⟩
    have one := single.one p
    rw [if_pos blocks] at moved
    simp only [reduceCtorEq, false_and, if_false] at moved
    omega

/-- Another process that is off the run queue after the step was asleep before it, and still is. -/
theorem slept_other {e : Execution T} {n p q : ℕ} {op : Op} {a : ℤ} (hn : n < e.len)
    (single : Single e n) (safe : WakesReceiver e n) (lab : e.lab n = .instr p op a) (hq : q ≠ p)
    (known : q < (e.vm (n + 1)).nextPid) (out : q ∉ (e.vm (n + 1)).sched.running)
    (alive : ¬halted e q (n + 1)) (h : Slept e n) : Asleep e (n + 1) q := by
  have sane := execution_sane e n hn.le
  obtain ⟨pos, cur, k⟩ := e.ticked hn lab
  have next : (e.vm (n + 1)).nextPid = (e.vm n).nextPid + if op = .FK then 1 else 0 :=
    (nextPid_effect k.effect :)
  have on : SleepsOn (e.vm n) (e.vm (n + 1)) p q op a := by
    obtain ⟨out, hs, hr, old, unwoken⟩ := sleeps_on sane.account pos cur hq k.effect out
    exact ⟨out, hs, hr, old, unwoken⟩
  have before : q < (e.vm n).nextPid := by
    by_cases hf : op = .FK
    · have := on.old hf
      rw [if_pos hf] at next
      omega
    · rw [if_neg hf] at next
      omega
  rw [halted_tick e lab, not_or] at alive
  have other : ¬runs e q n := by
    rintro ⟨op', a', lab'⟩
    exact hq (Label.instr.inj (lab'.symm.trans lab)).1
  cases h q before alive.1 on.out with
  | down i b last lab' range zero waits =>
    exact .down i b (last.keep other) lab' range zero (on.semWq _ waits)
  | send i b last lab' range waits =>
    exact .send i b (last.keep other) lab' range (on.sendWq _ waits)
  | recv i b last lab' none free =>
    refine .recv i b (last.keep other) lab' none ?_
    have moved : busy (e.vm (n + 1)) q + (if op = .HA ∧ q = p then 1 else 0) +
        (if Blocks (e.vm n) p op a ∧ q = p then 1 else 0) =
      busy (e.vm n) q + (if op = .FK ∧ q = (e.vm n).nextPid then 1 else 0) +
        (if (op = .SD ∧ (e.vm n).receiverWaits p a.toNat) ∧ q = a.toNat then 1 else 0) :=
      busy_effect sane.account pos cur single.one
        (fun ho waits => (safe p a (ho ▸ lab) waits).1) k.effect q
    rw [if_neg (fun hf : _ ∧ _ => on.old hf.1 hf.2),
      if_neg (fun hw : _ ∧ _ => on.unwoken hw.1.1 hw.1.2 hw.2)] at moved
    omega

theorem slept (e : Execution T) (safe : ∀ i < e.len, WakesReceiver e i) (n : ℕ)
    (hn : n ≤ e.len) : Slept e n := by
  refine e.toRun.invariant (Slept e) (slept_start e) (fun n hn h q known alive out => ?_) n hn
  have one := single e safe n hn.le
  obtain ⟨-, ⟨p, op, a, lab, -, -⟩ | ⟨lab, s, hs, hm⟩⟩ := e.step hn
  · by_cases hq : q = p
    · subst hq
      exact slept_own hn one lab alive out
    · exact slept_other hn one (safe n hn) lab hq known out alive h
  · obtain ⟨-, perm⟩ := endSlice_running (execution_sane e n hn.le).served.1 hs
    rw [hm] at known out
    have quiet : ¬runs e q n := by
      rintro ⟨op, a, ha⟩
      rw [ha] at lab
      cases lab
    cases h q known (mt (halted_slice e lab q).2 alive) (mt perm.mem_iff.2 out) with
    | down i b last lab' range zero waits =>
      exact .down i b (last.keep quiet) lab' range zero (by rw [hm]; exact waits)
    | send i b last lab' range waits =>
      exact .send i b (last.keep quiet) lab' range (by rw [hm]; exact waits)
    | recv i b last lab' none free =>
      refine .recv i b (last.keep quiet) lab' none ?_
      have same : busy (e.vm (n + 1)) q = busy (e.vm n) q := by
        rw [hm]
        exact congrArg (· + queued (e.vm n).sendWq procs q + queued (e.vm n).semWq procs q)
          (perm.count_eq q)
      rw [same, free]

omit [RedBlackTree T] [LawfulTree T] in
theorem two_places (wq : ℕ → List ℕ) {n i j q : ℕ} (hi : i < n) (hj : j < n) (hne : i ≠ j)
    (hqi : q ∈ wq i) (hqj : q ∈ wq j) : 2 ≤ queued wq n q := by
  have first := queued_update wq n i q []
  have second := count_le_queued (Function.update wq i []) hj q
  have ci := List.count_pos_iff.2 hqi
  have cj := List.count_pos_iff.2 hqj
  rw [Function.update_of_ne hne.symm] at second
  rw [if_pos hi, if_pos hi, List.count_nil] at first
  omega

structure SleepsIn (e : Execution T) (n p i : ℕ) (op : Op) (a : ℤ) : Prop where
  out : p ∉ (e.vm n).sched.running
  last : LastBefore (runs e p) n i
  lab : e.lab i = .instr p op a

/-- Who sleeps since step `i` was asleep at every boundary after it. -/
theorem SleepsIn.before {e : Execution T} {n q i : ℕ} {op : Op} {a : ℤ} (hn : n < e.len)
    (hi : i < n) (h : SleepsIn e (n + 1) q i op a) : SleepsIn e n q i op a := by
  obtain ⟨out, ⟨-, here, quiet⟩, lab⟩ := h
  refine ⟨?_, ⟨hi, here, fun j h1 h2 => quiet j h1 (by omega)⟩, lab⟩
  have sane := execution_sane e n hn.le
  obtain ⟨pos, ⟨p, op', b, lab', cur, k⟩ | ⟨-, t, ht, hm⟩⟩ := e.step hn
  · have hne : q ≠ p := by
      rintro rfl
      exact quiet n hi (Nat.lt_succ_self n) ⟨op', b, lab'⟩
    exact (sleeps_on sane.account pos cur hne k.effect out).out
  · rw [hm] at out
    exact mt (endSlice_running sane.served.1 ht).2.mem_iff.2 out

theorem sleeps_in_down {e : Execution T} (safe : ∀ i < e.len, WakesReceiver e i) {n q s : ℕ}
    (hn : n ≤ e.len) (hs : s < procs) (hq : q ∈ (e.vm n).semWq s) :
    ∃ i, SleepsIn e n q i .PE s ∧ (e.vm i).store.semTable s = 0 := by
  have hundred : procs = 100 := rfl
  have places := single e safe n hn
  have place := queued_pos (e.vm n).semWq hs hq
  have one := places.one q
  rw [busy] at one
  have out : q ∉ (e.vm n).sched.running := by
    rw [← List.count_eq_zero]
    omega
  have alive : ¬halted e q n := by
    intro hh
    have := places.gone q hh
    rw [busy] at this
    omega
  cases slept e safe n hn q ((execution_sane e n hn).semWq s q hq) alive out with
  | down i a last lab range zero waits =>
    have same : s = a.toNat := by
      by_contra hne
      have := two_places (e.vm n).semWq hs (by omega) hne hq waits
      omega
    subst same
    refine ⟨i, ⟨out, last, ?_⟩, zero⟩
    rw [Int.toNat_of_nonneg range.1]
    exact lab
  | send i a last lab range waits =>
    have := queued_pos (e.vm n).sendWq (n := procs) (by omega) waits
    omega
  | recv i a last lab none free =>
    rw [busy] at free
    omega

omit [LawfulTree T] in
theorem send_operand {m u : VM T} {p : ℕ} {a : ℤ} (k : Effect p m u .SD a) : 0 ≤ a ∧ a ≤ 99 := by
  cases k with
  | quiet op a k hsd => exact absurd rfl hsd
  | sendAlone a c ha => exact ha
  | sendWake a c d s ha => exact ha

theorem sleeps_in_send {e : Execution T} (safe : ∀ i < e.len, WakesReceiver e i) {n q r : ℕ}
    (hn : n ≤ e.len) (hr : r < procs) (hq : q ∈ (e.vm n).sendWq r) :
    ∃ i, SleepsIn e n q i .SD r := by
  have hundred : procs = 100 := rfl
  have place := queued_pos (e.vm n).sendWq hr hq
  have one := (single e safe n hn).one q
  rw [busy] at one
  obtain ⟨i, a, last, lab, rfl, -⟩ := (sent e safe n hn q r hr).1 hq
  obtain ⟨-, -, k⟩ := e.ticked (by have := last.1; omega) lab
  refine ⟨i, ?_, last, ?_⟩
  · rw [← List.count_eq_zero]
    omega
  · rw [Int.toNat_of_nonneg (send_operand k.effect).1]
    exact lab

theorem last_of_halted {e : Execution T} (safe : ∀ i < e.len, WakesReceiver e i) {n p i : ℕ}
    (hn : n ≤ e.len) (last : LastBefore (runs e p) n i) (hh : halted e p n) :
    ∃ a, e.lab i = .instr p .HA a := by
  obtain ⟨j, hj, a, ha⟩ := hh
  obtain ⟨hi, ⟨op, b, lab⟩, quiet⟩ := last
  rcases Nat.lt_trichotomy i j with hlt | rfl | hlt
  · exact absurd ⟨.HA, a, ha⟩ (quiet j hlt hj)
  · exact ⟨a, ha⟩
  · -- nobody runs after HA
    have gone := (single e safe i (by omega)).gone p ⟨j, hlt, a, ha⟩
    have ran := runs_count e i (by omega) lab
    rw [busy] at gone
    omega

omit [LawfulTree T] in
theorem nextPid_le (e : Execution T) {i n : ℕ} (hi : i ≤ n) (hn : n ≤ e.len) :
    (e.vm i).nextPid ≤ (e.vm n).nextPid := by
  induction n, hi using Nat.le_induction with
  | base => exact le_rfl
  | succ n hi ih =>
    refine (ih (Nat.le_of_succ_le hn)).trans ?_
    obtain ⟨-, ⟨p, op, a, -, -, k⟩ | ⟨-, s, -, hm⟩⟩ := e.step hn
    · have next : (e.vm (n + 1)).nextPid = (e.vm n).nextPid + if op = .FK then 1 else 0 :=
        (nextPid_effect k.effect :)
      omega
    · rw [hm]

theorem known_of_last {e : Execution T} {n p i : ℕ} (hn : n ≤ e.len)
    (last : LastBefore (runs e p) n i) : p < (e.vm n).nextPid := by
  obtain ⟨hi, ⟨op, a, lab⟩, -⟩ := last
  have ran := runs_count e i (by omega) lab
  have before := (execution_sane e i (by omega)).served.2 p (List.count_pos_iff.1 ran)
  exact before.trans_le (nextPid_le e hi.le hn)

/-- Who is off the run queue after another instruction than HA is asleep. -/
theorem SleepsIn.asleep {e : Execution T} (safe : ∀ i < e.len, WakesReceiver e i) {n p i : ℕ}
    {op : Op} {a : ℤ} (hn : n ≤ e.len) (h : SleepsIn e n p i op a) (other : op ≠ .HA) :
    Asleep e n p := by
  refine slept e safe n hn p (known_of_last hn h.last) (fun hh => ?_) h.out
  obtain ⟨b, hb⟩ := last_of_halted safe hn h.last hh
  exact other (Label.instr.inj (h.lab.symm.trans hb)).2.1

theorem SleepsIn.down {e : Execution T} (safe : ∀ i < e.len, WakesReceiver e i) {n p i : ℕ}
    {a : ℤ} (hn : n ≤ e.len) (h : SleepsIn e n p i .PE a) :
    (0 ≤ a ∧ a ≤ 99) ∧ p ∈ (e.vm n).semWq a.toNat := by
  cases h.asleep safe hn (by decide) with
  | down j b last lab range zero waits =>
    obtain rfl := last.unique h.last
    obtain ⟨-, -, rfl⟩ := Label.instr.inj (lab.symm.trans h.lab)
    exact ⟨range, waits⟩
  | send j b last lab =>
    obtain rfl := last.unique h.last
    exact nomatch lab.symm.trans h.lab
  | recv j b last lab =>
    obtain rfl := last.unique h.last
    exact nomatch lab.symm.trans h.lab

theorem SleepsIn.send {e : Execution T} (safe : ∀ i < e.len, WakesReceiver e i) {n p i : ℕ}
    {a : ℤ} (hn : n ≤ e.len) (h : SleepsIn e n p i .SD a) :
    (0 ≤ a ∧ a ≤ 99) ∧ p ∈ (e.vm n).sendWq a.toNat := by
  cases h.asleep safe hn (by decide) with
  | down j b last lab =>
    obtain rfl := last.unique h.last
    exact nomatch lab.symm.trans h.lab
  | send j b last lab range waits =>
    obtain rfl := last.unique h.last
    obtain ⟨-, -, rfl⟩ := Label.instr.inj (lab.symm.trans h.lab)
    exact ⟨range, waits⟩
  | recv j b last lab =>
    obtain rfl := last.unique h.last
    exact nomatch lab.symm.trans h.lab

theorem SleepsIn.recv {e : Execution T} (safe : ∀ i < e.len, WakesReceiver e i) {n p i : ℕ}
    {a : ℤ} (hn : n ≤ e.len) (h : SleepsIn e n p i .RC a) :
    (e.vm i).waitingSender p a = none := by
  cases h.asleep safe hn (by decide) with
  | down j b last lab =>
    obtain rfl := last.unique h.last
    exact nomatch lab.symm.trans h.lab
  | send j b last lab =>
    obtain rfl := last.unique h.last
    exact nomatch lab.symm.trans h.lab
  | recv j b last lab none =>
    obtain rfl := last.unique h.last
    obtain ⟨-, -, rfl⟩ := Label.instr.inj (lab.symm.trans h.lab)
    exact none

end
end BrainMachine.Sleepers
