import BrainMachine.MachineRuns
import BrainMachine.SortedTree

set_option autoImplicit false

namespace BrainMachine.WaitQueues
open Codec Computations Paging Stdio AddressSpace Instructions HoleList RunQueue Machine Loader
open Dispatch Effects Runs MachineRuns SortedTree

def queued (wq : ℕ → List ℕ) (n pid : ℕ) : ℕ := ((List.range n).map fun i => (wq i).count pid).sum

theorem queued_succ (wq : ℕ → List ℕ) (n pid : ℕ) :
    queued wq (n + 1) pid = queued wq n pid + (wq n).count pid := by
  simp [queued, List.range_succ]

theorem queued_update (wq : ℕ → List ℕ) (n i pid : ℕ) (l : List ℕ) :
    queued (Function.update wq i l) n pid + (if i < n then (wq i).count pid else 0) =
      queued wq n pid + (if i < n then l.count pid else 0) := by
  induction n with
  | zero => rfl
  | succ n ih =>
    rw [queued_succ, queued_succ]
    rcases Nat.lt_trichotomy i n with hi | rfl | hi
    · rw [if_pos hi, if_pos hi] at ih
      rw [if_pos (by omega), if_pos (by omega), Function.update_of_ne (by omega)]
      omega
    · rw [if_neg (by omega), if_neg (by omega)] at ih
      rw [if_pos (by omega), if_pos (by omega), Function.update_self]
      omega
    · rw [if_neg (by omega), if_neg (by omega)] at ih
      rw [if_neg (by omega), if_neg (by omega), Function.update_of_ne (by omega)]
      omega

theorem queued_insert (wq : ℕ → List ℕ) {n i : ℕ} (hi : i < n) (p q : ℕ) :
    queued (Function.update wq i (wq i ++ [p])) n q = queued wq n q + if q = p then 1 else 0 := by
  have h := queued_update wq n i q (wq i ++ [p])
  rw [if_pos hi, if_pos hi, List.count_append, List.count_singleton] at h
  simp only [beq_iff_eq, eq_comm (a := p)] at h
  omega

theorem queued_remove (wq : ℕ → List ℕ) {n i p : ℕ} (hi : i < n) (hp : p ∈ wq i) (q : ℕ) :
    queued (Function.update wq i ((wq i).erase p)) n q + (if q = p then 1 else 0) =
      queued wq n q := by
  have h := queued_update wq n i q ((wq i).erase p)
  have hc := (List.perm_cons_erase hp).count_eq q
  rw [if_pos hi, if_pos hi] at h
  rw [List.count_cons] at hc
  simp only [beq_iff_eq, eq_comm (a := p)] at hc
  omega

theorem queued_pos (wq : ℕ → List ℕ) {n i p : ℕ} (hi : i < n) (hp : p ∈ wq i) :
    0 < queued wq n p := by
  have h := queued_remove wq hi hp p
  rw [if_pos rfl] at h
  omega

section
variable {T : Type}

def entries (m : VM T) (pid : ℕ) : ℕ :=
  queued m.recvWq (procs + 1) pid + queued m.sendWq procs pid + queued m.semWq procs pid

theorem entries_shift {m u : VM T} {rq sq eq : ℕ → List ℕ} (h : Shift m u rq sq eq) (q : ℕ) :
    entries u q = queued rq (procs + 1) q + queued sq procs q + queued eq procs q := by
  rw [entries, h.recvWq, h.sendWq, h.semWq]

variable [RedBlackTree T]

def Runnable (m : VM T) (pid : ℕ) : Prop := m.sched.running.count pid = 1 ∧ entries m pid = 0
def Blocked (m : VM T) (pid : ℕ) : Prop := m.sched.running.count pid = 0 ∧ entries m pid = 1
def Idle (m : VM T) (pid : ℕ) : Prop := m.sched.running.count pid = 0 ∧ entries m pid = 0

def halted (e : Execution T) (pid n : ℕ) : Prop := ∃ j < n, ∃ a, e.lab j = .instr pid .HA a

def Situated (e : Execution T) (n pid : ℕ) : Prop :=
  ¬halted e pid n ∧ Runnable (e.vm n) pid ∨ ¬halted e pid n ∧ Blocked (e.vm n) pid ∨
    halted e pid n ∧ Idle (e.vm n) pid

/-- Every process is in exactly one situation at every boundary, and halts for good. -/
structure Exclusive (e : Execution T) : Prop where
  situated : ∀ n ≤ e.len, ∀ pid < (e.vm n).nextPid, Situated e n pid
  silent : ∀ pid n i, halted e pid n → n ≤ i → i < e.len → ∀ op a, e.lab i ≠ .instr pid op a

def sendTarget : Label → Option ℕ
  | .instr _ .SD a => some a.toNat
  | _ => none

def WakesAnyone (m : VM T) (b : Label) : Prop := ∃ q ∈ sendTarget b, q ∈ m.recvWq procs

instance (m : VM T) (b : Label) : Decidable (WakesAnyone m b) :=
  inferInstanceAs (Decidable (∃ q, q ∈ sendTarget b ∧ q ∈ m.recvWq procs))

def Known (n : ℕ) (wq : ℕ → List ℕ) : Prop := ∀ i, ∀ q ∈ wq i, q < n

theorem Known.mono {wq : ℕ → List ℕ} {n k : ℕ} (h : Known n wq) (hk : n ≤ k) : Known k wq :=
  fun i q hq => Nat.lt_of_lt_of_le (h i q hq) hk

theorem Known.insert {wq : ℕ → List ℕ} {n p : ℕ} (h : Known n wq) (hp : p < n) (i : ℕ) :
    Known n (Function.update wq i (wq i ++ [p])) := by
  intro j q hq
  by_cases hj : j = i
  · subst j
    rw [Function.update_self, List.mem_append, List.mem_singleton] at hq
    rcases hq with hq | rfl
    · exact h _ q hq
    · exact hp
  · rw [Function.update_of_ne hj] at hq
    exact h j q hq

theorem Known.remove {wq : ℕ → List ℕ} {n : ℕ} (h : Known n wq) (i p : ℕ) :
    Known n (Function.update wq i ((wq i).erase p)) := by
  intro j q hq
  by_cases hj : j = i
  · subst j
    rw [Function.update_self] at hq
    exact h _ q (List.mem_of_mem_erase hq)
  · rw [Function.update_of_ne hj] at hq
    exact h j q hq

def Served (n : ℕ) (s : Sched T) : Prop := Counted s ∧ ∀ q ∈ s.running, q < n

structure Sane (m : VM T) : Prop where
  room : m.nextPid ≤ procs
  served : Served m.nextPid m.sched
  recvWq : Known m.nextPid m.recvWq
  sendWq : Known m.nextPid m.sendWq
  semWq : Known m.nextPid m.semWq

theorem Sane.of_shift {m u : VM T} {rq sq eq : ℕ → List ℕ} {n : ℕ} (shift : Shift m u rq sq eq)
    (hn : u.nextPid = n) (room : n ≤ procs) (served : Served n u.sched) (hr : Known n rq)
    (hs : Known n sq) (he : Known n eq) : Sane u := by
  subst n
  exact ⟨room, served, shift.recvWq ▸ hr, shift.sendWq ▸ hs, shift.semWq ▸ he⟩

theorem Sane.still {m u : VM T} (h : Sane m) (k : Still m u) : Sane u :=
  .of_shift k.toShift k.nextPid h.room (k.sched ▸ h.served) h.recvWq h.sendWq h.semWq

theorem Sane.current {m : VM T} (h : Sane m) (pos : 0 < m.sched.nrRunning) :
    m.sched.current < m.nextPid := by
  apply h.served.2
  rw [running_of_pos pos]
  exact List.mem_cons_self

variable [LawfulTree T]

/-- A process that is not on the run queue joins it once when it is resumed. -/
theorem resume_count {s u : Sched T} {pid : ℕ} {r : ℤ} (hs : Counted s) (hp : pid ≤ 99)
    (absent : s.running.count pid = 0) (h : schedResume pid s = .ok (r, u)) (q : ℕ) :
    u.running.count q = s.running.count q + if q = pid then 1 else 0 := by
  obtain ⟨-, ⟨pos, hc, -⟩ | ⟨-, he⟩⟩ := schedResume_running hs hp h
  · rw [running_of_pos pos, hc, List.count_cons_self] at absent
    omega
  · rw [he.count_eq, List.count_cons]
    simp only [beq_iff_eq, eq_comm (a := pid)]

theorem Served.suspend {s t : Sched T} {n p : ℕ} {r : ℤ} (h : Served n s) (hn : n ≤ procs)
    (pos : 0 < s.nrRunning) (hc : s.current = p) (ht : schedSuspend p s = .ok (r, t)) :
    Served n t ∧ s.running.Perm (p :: t.running) := by
  have hp : p < n := by
    apply h.2
    rw [running_of_pos pos, hc]
    exact List.mem_cons_self
  have hundred : procs = 100 := rfl
  obtain ⟨ct, perm⟩ := schedSuspend_current h.1 pos hc (by omega) ht
  exact ⟨⟨ct, fun q hq => h.2 q (perm.mem_iff.2 (List.mem_cons_of_mem _ hq))⟩, perm⟩

theorem Served.resume {s t : Sched T} {n p : ℕ} {r : ℤ} (h : Served n s) (hn : n ≤ procs)
    (hp : p < n) (ht : schedResume p s = .ok (r, t)) : Served n t := by
  have hundred : procs = 100 := rfl
  have hp' : p ≤ 99 := by omega
  refine ⟨(schedResume_running h.1 hp' ht).1, fun q hq => ?_⟩
  rcases (schedResume_mem h.1 hp' ht q).1 hq with rfl | hq
  · exact hp
  · exact h.2 q hq

omit [LawfulTree T] in
theorem Served.reset {s t : Sched T} {n p : ℕ} {r : ℤ} (h : Served n s)
    (ht : schedReset p s = .ok (r, t)) : Served n t := by
  obtain ⟨run, ct, -, -⟩ := schedReset_running ht
  exact ⟨ct h.1, run ▸ h.2⟩

theorem Sane.effect {m u : VM T} {p : ℕ} {op : Op} {a : ℤ} (h : Sane m)
    (pos : 0 < m.sched.nrRunning) (hc : m.sched.current = p) (k : Effect p m u op a) : Sane u := by
  have hp : p < m.nextPid := hc ▸ h.current pos
  have room := h.room
  cases k with
  | quiet op a k => exact h.still k.still
  | execNone a n refused k => exact h.still k.still_holes
  | execGrant a n hn granted k => exact h.still k.still_resized
  | recvBlock a c ha none frame sched shift =>
    have served := (h.served.suspend room pos hc sched).1
    exact .of_shift shift frame.nextPid room served (h.recvWq.insert hp _) h.sendWq h.semWq
  | recvTake a c s some frame sched shift =>
    have hs := h.sendWq p s (List.mem_of_find?_eq_some some)
    have served := h.served.resume room hs sched
    exact .of_shift shift frame.nextPid room served h.recvWq (h.sendWq.remove _ _) h.semWq
  | sendAlone a c ha alone frame sched shift =>
    have served := (h.served.suspend room pos hc sched).1
    exact .of_shift shift frame.nextPid room served h.recvWq (h.sendWq.insert hp _) h.semWq
  | sendWake a c d s ha waits frame suspend resume shift =>
    have hq : a.toNat < m.nextPid := waits.elim (h.recvWq _ _) (h.recvWq _ _)
    have served := (h.served.suspend room pos hc suspend).1.resume room hq resume
    exact .of_shift shift frame.nextPid room served (h.recvWq.remove _ _) (h.sendWq.insert hp _)
      h.semWq
  | downBlock a c ha frame sched shift =>
    have served := (h.served.suspend room pos hc sched).1
    exact .of_shift shift frame.nextPid room served h.recvWq h.sendWq (h.semWq.insert hp _)
  | upWake a c q l ha head frame sched shift =>
    have hq := h.semWq a.toNat q (head ▸ List.mem_cons_self)
    have served := h.served.resume room hq sched
    have known := h.semWq.remove a.toNat q
    rw [head, List.erase_cons_head] at known
    exact .of_shift shift frame.nextPid room served h.recvWq h.sendWq known
  | fork a c d n s hn pos' room' granted nextPid holes files child seg regs reset resume shift =>
    have grown : Served (m.nextPid + 1) m.sched :=
      ⟨h.served.1, fun q hq => Nat.lt_succ_of_lt (h.served.2 q hq)⟩
    have room : m.nextPid + 1 ≤ procs := Nat.succ_le_succ room'
    have served := (grown.reset reset).resume room (Nat.lt_succ_self _) resume
    have le := Nat.le_succ m.nextPid
    exact .of_shift shift nextPid room served (h.recvWq.mono le) (h.sendWq.mono le)
      (h.semWq.mono le)
  | halt a c d s frame reset suspend shift =>
    obtain ⟨-, -, hpos, hcur⟩ := schedReset_running reset
    have served := ((h.served.reset reset).suspend room (hpos ▸ pos) (hcur.trans hc) suspend).1
    have nextPid := frame.nextPid.trans (freeSpace_still m _).nextPid
    exact .of_shift shift nextPid room served h.recvWq h.sendWq h.semWq

def tally (m : VM T) (pid : ℕ) : ℕ := m.sched.running.count pid + entries m pid

def busy (m : VM T) (pid : ℕ) : ℕ :=
  m.sched.running.count pid + queued m.sendWq procs pid + queued m.semWq procs pid

def Blocks (m : VM T) (p : ℕ) (op : Op) (a : ℤ) : Prop := op = .RC ∧ m.waitingSender p a = none

instance (m : VM T) (p : ℕ) (op : Op) (a : ℤ) : Decidable (Blocks m p op a) :=
  inferInstanceAs (Decidable (_ ∧ _))

omit [LawfulTree T] in
theorem tally_busy (m : VM T) (q : ℕ) :
    tally m q = busy m q + queued m.recvWq (procs + 1) q := by
  rw [tally, entries, busy]
  omega

omit [LawfulTree T] in
theorem busy_shift {m u : VM T} {rq sq eq : ℕ → List ℕ} (h : Shift m u rq sq eq) (q : ℕ) :
    busy u q = u.sched.running.count q + queued sq procs q + queued eq procs q := by
  rw [busy, h.sendWq, h.semWq]

omit [LawfulTree T] in
theorem busy_still {m u : VM T} (k : Still m u) (q : ℕ) : busy u q = busy m q := by
  rw [busy_shift k.toShift, k.sched]
  rfl

theorem Served.suspend_count {s t : Sched T} {n p : ℕ} {r : ℤ} (h : Served n s) (hn : n ≤ procs)
    (pos : 0 < s.nrRunning) (hc : s.current = p) (ht : schedSuspend p s = .ok (r, t)) (q : ℕ) :
    s.running.count q = t.running.count q + if q = p then 1 else 0 := by
  rw [(h.suspend hn pos hc ht).2.count_eq, List.count_cons]
  simp only [beq_iff_eq, eq_comm (a := p)]

/-- A step moves processes between the run queue and the queues of senders and semaphores.
FK and a wake out of RC add a place there, HA and an RC that blocks take one away. -/
theorem busy_effect {m u : VM T} {p : ℕ} {op : Op} {a : ℤ} (h : Sane m)
    (pos : 0 < m.sched.nrRunning) (hc : m.sched.current = p) (one : ∀ q, busy m q ≤ 1)
    (safe : op = .SD → m.receiverWaits p a.toNat → busy m a.toNat = 0) (k : Effect p m u op a)
    (q : ℕ) : busy u q + (if op = .HA ∧ q = p then 1 else 0) +
        (if Blocks m p op a ∧ q = p then 1 else 0) =
      busy m q + (if op = .FK ∧ q = m.nextPid then 1 else 0) +
        (if (op = .SD ∧ m.receiverWaits p a.toNat) ∧ q = a.toNat then 1 else 0) := by
  have hp : p < procs := hc ▸ Nat.lt_of_lt_of_le (h.current pos) h.room
  have hundred : procs = 100 := rfl
  -- a process that waits in one of these queues is not on the run queue
  have absent (x : ℕ) (hx : 0 < queued m.sendWq procs x + queued m.semWq procs x) :
      m.sched.running.count x = 0 := by
    have := one x
    rw [busy] at this
    omega
  cases k with
  | quiet op a k hsd hrc hfk hha =>
    simp only [Blocks, hsd, hrc, hfk, hha, false_and, if_false, busy_still k.still]
  | execNone a n refused k =>
    simp only [Blocks, reduceCtorEq, false_and, if_false, busy_still k.still_holes]
  | execGrant a n hn granted k =>
    simp only [Blocks, reduceCtorEq, false_and, if_false, busy_still k.still_resized]
  | recvBlock a c ha none frame sched shift =>
    have hr := h.served.suspend_count h.room pos hc sched q
    simp only [Blocks, none, reduceCtorEq, true_and, false_and, if_false, busy_shift shift]
    rw [busy]
    omega
  | recvTake a c s some frame sched shift =>
    have hs := List.mem_of_find?_eq_some some
    have hq := queued_remove m.sendWq hp hs q
    have hs' : s ≤ 99 := by
      have := h.sendWq p s hs
      have := h.room
      omega
    have hr := resume_count h.served.1 hs' (absent s (by
      have := queued_pos m.sendWq hp hs
      omega)) sched q
    simp only [Blocks, some, reduceCtorEq, and_false, false_and, if_false, busy_shift shift]
    rw [busy]
    omega
  | sendAlone a c ha alone frame sched shift =>
    have hq := queued_insert m.sendWq (n := procs) (i := a.toNat) (by omega) p q
    have hr := h.served.suspend_count h.room pos hc sched q
    simp only [Blocks, reduceCtorEq, false_and, and_false, if_false, alone, busy_shift shift]
    rw [busy]
    omega
  | sendWake a c d s ha waits frame suspend resume shift =>
    have free := safe rfl waits
    rw [busy] at free
    have hq := queued_insert m.sendWq (n := procs) (i := a.toNat) (by omega) p q
    have hr := h.served.suspend_count h.room pos hc suspend
    have hr' := resume_count (h.served.suspend h.room pos hc suspend).1.1
      (show a.toNat ≤ 99 by omega) (by have := hr a.toNat; omega) resume q
    have hr := hr q
    simp only [Blocks, reduceCtorEq, false_and, if_false, true_and, waits, busy_shift shift]
    rw [busy]
    omega
  | downBlock a c ha frame sched shift =>
    have hq := queued_insert m.semWq (n := procs) (i := a.toNat) (by omega) p q
    have hr := h.served.suspend_count h.room pos hc sched q
    simp only [Blocks, reduceCtorEq, false_and, if_false, busy_shift shift]
    rw [busy]
    omega
  | upWake a c w l ha head frame sched shift =>
    have hw : w ∈ m.semWq a.toNat := head ▸ List.mem_cons_self
    have hq := queued_remove m.semWq (n := procs) (by omega) hw q
    rw [head, List.erase_cons_head] at hq
    have hw' : w ≤ 99 := by
      have := h.semWq _ w hw
      have := h.room
      omega
    have hr := resume_count h.served.1 hw' (absent w (by
      have := queued_pos m.semWq (n := procs) (by omega) hw
      omega)) sched q
    simp only [Blocks, reduceCtorEq, false_and, if_false, busy_shift shift]
    rw [busy]
    omega
  | fork a c d n s hn pos' room' granted nextPid holes files child seg regs reset resume shift =>
    obtain ⟨run, cs, -, -⟩ := schedReset_running reset
    have hnew : s.running.count m.nextPid = 0 := by
      rw [run, List.count_eq_zero]
      exact fun hx => Nat.lt_irrefl _ (h.served.2 _ hx)
    have hr := resume_count (cs h.served.1) room' hnew resume q
    rw [run] at hr
    simp only [Blocks, reduceCtorEq, false_and, if_false, true_and, busy_shift shift]
    rw [busy]
    omega
  | halt a c d s frame reset suspend shift =>
    obtain ⟨run, -, hpos, hcur⟩ := schedReset_running reset
    have hr := (h.served.reset reset).suspend_count h.room (hpos ▸ pos) (hcur.trans hc) suspend q
    rw [run] at hr
    simp only [Blocks, reduceCtorEq, false_and, if_false, true_and, busy_shift shift]
    rw [busy]
    omega

omit [LawfulTree T] in
/-- An RC that blocks enters a queue of receivers, and an SD takes the process it names out
of the queue of its sender only. -/
theorem receivers_effect {m u : VM T} {p : ℕ} {op : Op} {a : ℤ} (hp : p < procs)
    (k : Effect p m u op a) (q : ℕ) : queued u.recvWq (procs + 1) q +
        (if (op = .SD ∧ a.toNat ∈ m.recvWq p) ∧ q = a.toNat then 1 else 0) =
      queued m.recvWq (procs + 1) q + (if Blocks m p op a ∧ q = p then 1 else 0) := by
  cases k with
  | quiet op a k hsd hrc hfk hha => simp only [Blocks, hsd, hrc, false_and, if_false, k.recvWq]
  | execNone a n refused k =>
    simp only [Blocks, reduceCtorEq, false_and, if_false, k.still_holes.recvWq]
  | execGrant a n hn granted k =>
    simp only [Blocks, reduceCtorEq, false_and, if_false, k.still_resized.recvWq]
  | recvBlock a c ha none frame sched shift =>
    have hi : recvIndex a < procs + 1 := by
      have hundred : procs = 100 := rfl
      unfold recvIndex
      split <;> omega
    have hq := queued_insert m.recvWq hi p q
    simp only [Blocks, none, reduceCtorEq, true_and, false_and, if_false, shift.recvWq]
    omega
  | recvTake a c s some frame sched shift =>
    simp only [Blocks, some, reduceCtorEq, and_false, false_and, if_false, shift.recvWq]
  | sendAlone a c ha alone frame sched shift =>
    have out : a.toNat ∉ m.recvWq p := fun hw => alone (.inl hw)
    simp only [Blocks, out, reduceCtorEq, and_false, false_and, if_false, shift.recvWq]
  | sendWake a c d s ha waits frame suspend resume shift =>
    by_cases hw : a.toNat ∈ m.recvWq p
    · have hq := queued_remove m.recvWq (n := procs + 1) (by omega) hw q
      simp only [Blocks, hw, reduceCtorEq, true_and, false_and, if_false, shift.recvWq]
      omega
    · simp only [Blocks, hw, reduceCtorEq, and_false, false_and, if_false, shift.recvWq,
        List.erase_of_not_mem hw, Function.update_eq_self]
  | downBlock a c ha frame sched shift =>
    simp only [Blocks, reduceCtorEq, false_and, if_false, shift.recvWq]
  | upWake a c w l ha head frame sched shift =>
    simp only [Blocks, reduceCtorEq, false_and, if_false, shift.recvWq]
  | fork a c d n s hn pos room granted nextPid holes files child seg regs reset resume shift =>
    simp only [Blocks, reduceCtorEq, false_and, if_false, shift.recvWq]
  | halt a c d s frame reset suspend shift =>
    simp only [Blocks, reduceCtorEq, false_and, if_false, shift.recvWq]

/-- While no SD wakes a process that waits for anyone, a step moves processes from place to
place: FK starts one and HA ends one. -/
theorem tally_effect {m u : VM T} {p : ℕ} {op : Op} {a : ℤ} (h : Sane m)
    (pos : 0 < m.sched.nrRunning) (hc : m.sched.current = p) (one : ∀ q, tally m q ≤ 1)
    (safe : op = .SD → a.toNat ∉ m.recvWq procs) (k : Effect p m u op a) (q : ℕ) :
    tally u q + (if op = .HA ∧ q = p then 1 else 0) =
      tally m q + (if op = .FK ∧ q = m.nextPid then 1 else 0) := by
  have hp : p < procs := hc ▸ Nat.lt_of_lt_of_le (h.current pos) h.room
  have split (x : ℕ) := tally_busy m x ▸ one x
  have named : (op = .SD ∧ m.receiverWaits p a.toNat) ↔ op = .SD ∧ a.toNat ∈ m.recvWq p :=
    and_congr_right fun ho => or_iff_left (safe ho)
  have free (ho : op = .SD) (waits : m.receiverWaits p a.toNat) : busy m a.toNat = 0 := by
    have := queued_pos m.recvWq (n := procs + 1) (by omega) (named.1 ⟨ho, waits⟩).2
    have := split a.toNat
    omega
  have hb := busy_effect h pos hc (fun x => (Nat.le_add_right _ _).trans (split x)) free k q
  have hr := receivers_effect hp k q
  simp only [named] at hb
  rw [tally_busy, tally_busy]
  omega

/-- Loading puts each new process on the run queue, once, and nobody in a wait queue. -/
theorem load_placed {pager : Pager} {host : Host} {u : VM T}
    (h : Loads (startState pager host) u) :
    Sane u ∧ ∀ q, tally u q = if q < u.nextPid then 1 else 0 := by
  induction h with
  | start =>
    have none (i : ℕ) : Known i fun _ => [] := fun _ _ hq => by cases hq
    have run : (schedInit : Sched T).running = [] := if_pos rfl
    refine ⟨⟨Nat.zero_le _, ⟨.inl ⟨rfl, LawfulTree.create_nodes⟩, fun q hq => ?_⟩, none _, none _,
      none _⟩, fun q => ?_⟩
    · change q ∈ schedInit.running at hq
      rw [run] at hq
      cases hq
    · change schedInit.running.count q + _ = 0
      rw [run]
      simp [entries, queued, startState]
  | turn w n a b f s t hl hn small room block reset resume ih =>
    obtain ⟨sane, count⟩ := ih
    have le := Nat.le_succ w.nextPid
    have grown : Served (w.nextPid + 1) w.sched :=
      ⟨sane.served.1, fun q hq => Nat.lt_succ_of_lt (sane.served.2 q hq)⟩
    have served := (grown.reset reset).resume (Nat.succ_le_succ room) (Nat.lt_succ_self _) resume
    obtain ⟨run, cs, -, -⟩ := schedReset_running reset
    have new : s.running.count w.nextPid = 0 := by
      rw [run, List.count_eq_zero]
      exact fun hx => Nat.lt_irrefl _ (sane.served.2 _ hx)
    refine ⟨⟨Nat.succ_le_succ room, served, sane.recvWq.mono le, sane.sendWq.mono le,
      sane.semWq.mono le⟩, fun q => ?_⟩
    have hr := resume_count (cs sane.served.1) room new resume q
    have hq := count q
    rw [run] at hr
    rw [tally] at hq
    change t.running.count q + entries w q = if q < w.nextPid + 1 then 1 else 0
    by_cases h1 : q = w.nextPid
    · rw [if_pos h1] at hr
      rw [if_neg (by omega)] at hq
      rw [if_pos (by omega)]
      omega
    · rw [if_neg h1] at hr
      by_cases h2 : q < w.nextPid
      · rw [if_pos h2] at hq
        rw [if_pos (by omega)]
        omega
      · rw [if_neg h2] at hq
        rw [if_neg (by omega)]
        omega

theorem Sane.slice {m : VM T} {s : Sched T} (h : Sane m) (hs : endSlice m.sched = .ok ((), s)) :
    Sane { m with sched := s } := by
  obtain ⟨cs, perm⟩ := endSlice_running h.served.1 hs
  exact ⟨h.room, ⟨cs, fun q hq => h.served.2 q (perm.mem_iff.1 hq)⟩, h.recvWq, h.sendWq, h.semWq⟩

omit [LawfulTree T] in
theorem Sane.account {m : VM T} (h : Sane m) :
    Sane { m with sched := account m.sched } :=
  ⟨h.room, h.served, h.recvWq, h.sendWq, h.semWq⟩

theorem execution_sane (e : Execution T) (n : ℕ) (hn : n ≤ e.len) : Sane (e.vm n) := by
  refine e.invariant Sane (fun pager u fh _ hu => ?_) (fun m s _ h hs => h.slice hs)
    (fun m u op a pos h k => ?_) n hn
  · obtain ⟨⟨room, served, hr, hs, he⟩, -⟩ := load_placed hu
    exact ⟨room, served, hr, hs, he⟩
  · exact h.account.effect pos rfl k.effect

omit [LawfulTree T] in
theorem not_halted_zero (e : Execution T) (q : ℕ) : ¬halted e q 0 := by
  rintro ⟨j, hj, -⟩
  exact Nat.not_lt_zero j hj

omit [LawfulTree T] in
theorem halted_succ (e : Execution T) (q n : ℕ) :
    halted e q (n + 1) ↔ halted e q n ∨ ∃ a, e.lab n = .instr q .HA a := by
  constructor
  · rintro ⟨j, hj, a, ha⟩
    rcases Nat.lt_succ_iff_lt_or_eq.1 hj with hj | rfl
    · exact .inl ⟨j, hj, a, ha⟩
    · exact .inr ⟨a, ha⟩
  · rintro (⟨j, hj, a, ha⟩ | ⟨a, ha⟩)
    · exact ⟨j, Nat.lt_succ_of_lt hj, a, ha⟩
    · exact ⟨n, Nat.lt_succ_self n, a, ha⟩

omit [LawfulTree T] in
theorem halted_tick (e : Execution T) {n p : ℕ} {op : Op} {a : ℤ}
    (lab : e.lab n = .instr p op a) (q : ℕ) :
    halted e q (n + 1) ↔ halted e q n ∨ op = .HA ∧ q = p := by
  rw [halted_succ, lab]
  refine or_congr_right ⟨?_, ?_⟩
  · rintro ⟨b, hb⟩
    obtain ⟨hq, ho, -⟩ := Label.instr.inj hb
    exact ⟨ho, hq.symm⟩
  · rintro ⟨rfl, rfl⟩
    exact ⟨a, rfl⟩

omit [LawfulTree T] in
theorem halted_slice (e : Execution T) {n : ℕ} (lab : e.lab n = .slice) (q : ℕ) :
    halted e q (n + 1) ↔ halted e q n := by
  rw [halted_succ, or_iff_left]
  rintro ⟨a, ha⟩
  rw [ha] at lab
  cases lab

structure Placed (e : Execution T) (n : ℕ) : Prop where
  live : ∀ q < (e.vm n).nextPid, ¬halted e q n → tally (e.vm n) q = 1
  gone : ∀ q, halted e q n ∨ (e.vm n).nextPid ≤ q → tally (e.vm n) q = 0
  started : ∀ q, halted e q n → q < (e.vm n).nextPid

omit [LawfulTree T] in
theorem Placed.one {e : Execution T} {n : ℕ} (h : Placed e n) (q : ℕ) : tally (e.vm n) q ≤ 1 := by
  by_cases hq : halted e q n ∨ (e.vm n).nextPid ≤ q
  · rw [h.gone q hq]
    exact Nat.zero_le 1
  · rw [not_or] at hq
    rw [h.live q (by omega) hq.1]

theorem placed_start (e : Execution T) : Placed e 0 := by
  obtain ⟨pager, u, fh, -, hu, hm⟩ := e.loads
  have count (q : ℕ) : tally (e.vm 0) q = if q < (e.vm 0).nextPid then 1 else 0 := by
    rw [hm]
    exact (load_placed hu).2 q
  refine ⟨fun q hq _ => ?_, fun q hq => ?_, fun q hq => absurd hq (not_halted_zero e q)⟩
  · rw [count, if_pos hq]
  · rw [count, if_neg (by have := hq.resolve_left (not_halted_zero e q); omega)]

omit [RedBlackTree T] [LawfulTree T] in
theorem wakesAnyone_iff (m : VM T) (p : ℕ) (op : Op) (a : ℤ) :
    WakesAnyone m (.instr p op a) ↔ op = .SD ∧ a.toNat ∈ m.recvWq procs := by
  cases op <;> simp [WakesAnyone, sendTarget]

omit [LawfulTree T] in
theorem nextPid_effect {m u : VM T} {p : ℕ} {op : Op} {a : ℤ} (k : Effect p m u op a) :
    u.nextPid = m.nextPid + if op = .FK then 1 else 0 := by
  cases k with
  | quiet op a k hsd hrc hfk hha =>
    rw [if_neg hfk]
    exact k.nextPid
  | execGrant a n hn granted k => exact k.still_resized.nextPid
  | execNone a n refused k => exact k.nextPid
  | fork a c d n s hn pos room granted nextPid => exact nextPid
  | halt a c d s frame => exact frame.nextPid.trans (freeSpace_still m _).nextPid
  | recvBlock a c ha none frame => exact frame.nextPid
  | recvTake a c s some frame => exact frame.nextPid
  | sendAlone a c ha alone frame => exact frame.nextPid
  | sendWake a c d s ha waits frame => exact frame.nextPid
  | downBlock a c ha frame => exact frame.nextPid
  | upWake a c w l ha head frame => exact frame.nextPid

theorem placed_step (e : Execution T) (n : ℕ) (hn : n < e.len)
    (safe : ¬WakesAnyone (e.vm n) (e.lab n)) (h : Placed e n) : Placed e (n + 1) := by
  have sane := execution_sane e n (by omega)
  obtain ⟨pos, ⟨p, op, a, lab, hp, k⟩ | ⟨lab, s, hs, hm⟩⟩ := e.step hn
  · rw [lab] at safe
    have step (q : ℕ) := tally_effect sane.account pos hp h.one
      (fun ho ha => safe ((wakesAnyone_iff _ _ _ _).2 ⟨ho, ha⟩)) k.effect q
    have next := nextPid_effect k.effect
    change (e.vm (n + 1)).nextPid = (e.vm n).nextPid + if op = .FK then 1 else 0 at next
    change ∀ q, tally (e.vm (n + 1)) q + (if op = .HA ∧ q = p then 1 else 0) =
      tally (e.vm n) q + (if op = .FK ∧ q = (e.vm n).nextPid then 1 else 0) at step
    have cur : p < (e.vm n).nextPid := hp ▸ sane.current pos
    refine ⟨fun q hq hh => ?_, fun q hq => ?_, fun q hq => ?_⟩
    · rw [halted_tick e lab, not_or] at hh
      have hs := step q
      rw [if_neg hh.2] at hs
      by_cases hf : op = .FK ∧ q = (e.vm n).nextPid
      · rw [if_pos hf, h.gone q (.inr hf.2.ge)] at hs
        omega
      · rw [if_neg hf, h.live q ?_ hh.1] at hs
        · omega
        · by_cases ho : op = .FK
          · rw [if_pos ho] at next
            have : q ≠ (e.vm n).nextPid := fun hx => hf ⟨ho, hx⟩
            omega
          · rw [if_neg ho] at next
            omega
    · rw [halted_tick e lab] at hq
      have hs := step q
      by_cases hh : op = .HA ∧ q = p
      · have := h.one q
        rw [if_pos hh, if_neg (by rw [hh.1]; simp)] at hs
        omega
      · have hold : halted e q n ∨ (e.vm n).nextPid ≤ q :=
          hq.elim (fun hq => .inl (hq.resolve_right hh)) fun hq => .inr (by omega)
        rw [if_neg hh, h.gone q hold, if_neg] at hs
        · omega
        · rintro ⟨hf, rfl⟩
          rw [if_pos hf] at next
          rcases hq with (hq | hq) | hq
          · exact Nat.lt_irrefl _ (h.started _ hq)
          · exact hh hq
          · omega
    · rw [halted_tick e lab] at hq
      rcases hq with hq | ⟨-, rfl⟩
      · exact Nat.lt_of_lt_of_le (h.started q hq) (by omega)
      · omega
  · obtain ⟨-, perm⟩ := endSlice_running sane.served.1 hs
    have step (q : ℕ) : tally (e.vm (n + 1)) q = tally (e.vm n) q := by
      rw [hm]
      exact congrArg (· + entries (e.vm n) q) (perm.count_eq q)
    have next : (e.vm (n + 1)).nextPid = (e.vm n).nextPid := by rw [hm]
    have same := halted_slice e lab
    refine ⟨fun q hq hh => ?_, fun q hq => ?_, fun q hq => ?_⟩
    · rw [step, h.live q (next ▸ hq) (mt (same q).2 hh)]
    · rw [step, h.gone q (hq.imp (same q).1 fun hq => next ▸ hq)]
    · rw [next]
      exact h.started q ((same q).1 hq)

omit [LawfulTree T] in
theorem Placed.situated {e : Execution T} {n : ℕ} (h : Placed e n) (q : ℕ)
    (hq : q < (e.vm n).nextPid) : Situated e n q := by
  by_cases hh : halted e q n
  · have := h.gone q (.inl hh)
    rw [tally] at this
    exact .inr (.inr ⟨hh, by omega, by omega⟩)
  · have := h.live q hq hh
    rw [tally] at this
    by_cases he : entries (e.vm n) q = 0
    · exact .inl ⟨hh, by omega, he⟩
    · exact .inr (.inl ⟨hh, by omega, by omega⟩)

omit [LawfulTree T] in
/-- The process of an instruction is on the run queue before it. -/
theorem runs_count (e : Execution T) (i : ℕ) (hi : i < e.len) {pid : ℕ} {op : Op} {a : ℤ}
    (lab : e.lab i = .instr pid op a) : 0 < (e.vm i).sched.running.count pid := by
  obtain ⟨pos, rfl, -⟩ := e.ticked hi lab
  rw [running_of_pos pos, List.count_cons_self]
  exact Nat.succ_pos _

/-- An SD to a process that waits for anyone leaves that process in the queue it waits in. -/
theorem wake_keeps {m u : VM T} {p : ℕ} {a : ℤ} (h : Sane m) (pos : 0 < m.sched.nrRunning)
    (hc : m.sched.current = p) (waits : a.toNat ∈ m.recvWq procs) (k : Effect p m u .SD a) :
    a.toNat ∈ u.sched.running ∧ 0 < entries u a.toNat := by
  have hp : p < procs := hc ▸ Nat.lt_of_lt_of_le (h.current pos) h.room
  cases k with
  | quiet op a k hsd => exact absurd rfl hsd
  | sendAlone a c ha alone => exact absurd (.inr waits) alone
  | sendWake a c d s ha found frame suspend resume shift =>
    have counted := (h.served.suspend h.room pos hc suspend).1.1
    refine ⟨(schedResume_mem counted (by omega) resume _).2 (.inl rfl), ?_⟩
    have kept : a.toNat ∈ Function.update m.recvWq p ((m.recvWq p).erase a.toNat) procs := by
      rw [Function.update_of_ne hp.ne']
      exact waits
    have entry : 0 < queued _ (procs + 1) _ := queued_pos _ (Nat.lt_succ_self procs) kept
    rw [entries_shift shift]
    omega

/-- Every process is in exactly one situation all along if and only if no SD is ever sent
to a process that waits for anyone. -/
theorem exclusive_iff (e : Execution T) :
    Exclusive e ↔ ∀ i < e.len, ¬WakesAnyone (e.vm i) (e.lab i) := by
  constructor
  · intro h i hi hw
    obtain ⟨pos, ⟨p, op, a, lab, cur, k⟩ | ⟨lab, -⟩⟩ := e.step hi
    · rw [lab, wakesAnyone_iff] at hw
      obtain ⟨rfl, waits⟩ := hw
      -- the receiver joins the run queue and keeps its entry
      have sane := execution_sane e i (by omega)
      have known := sane.recvWq procs a.toNat waits
      have next : (e.vm (i + 1)).nextPid = (e.vm i).nextPid := (nextPid_effect k.effect :)
      obtain ⟨run, entry⟩ := wake_keeps sane.account pos cur waits k.effect
      rcases h.situated (i + 1) (by omega) a.toNat (next ▸ known) with
        ⟨-, -, h0⟩ | ⟨-, h0, -⟩ | ⟨-, h0, -⟩
      · exact absurd h0 (Nat.ne_of_gt entry)
      · exact absurd run (List.count_eq_zero.1 h0)
      · exact absurd run (List.count_eq_zero.1 h0)
    · rw [lab] at hw
      obtain ⟨q, hq, -⟩ := hw
      cases hq
  · intro safe
    have placed (n : ℕ) (hn : n ≤ e.len) : Placed e n :=
      e.toRun.invariant (Placed e) (placed_start e)
        (fun i hi h => placed_step e i hi (safe i hi) h) n hn
    refine ⟨fun n hn q hq => (placed n hn).situated q hq, fun q n i hh hni hi op a lab => ?_⟩
    obtain ⟨j, hj, b, hb⟩ := hh
    have gone := (placed i (by omega)).gone q (.inl ⟨j, by omega, b, hb⟩)
    have run := runs_count e i hi lab
    rw [tally] at gone
    omega

def namedRun : Execution ListTree :=
  execution 100 halfWeight bareHost
    (bytes "BRAIN10\n10\nRC01\nBRAIN10\n10\nSD00\nDATA\n") 3 (by decide +kernel)
    (by decide +kernel)

theorem namedRun_exclusive : Exclusive namedRun :=
  (exclusive_iff namedRun).2 (by decide +kernel)

def anyRun : Execution ListTree :=
  execution 100 halfWeight bareHost
    (bytes "BRAIN10\n1\nRCXX\nBRAIN10\n1\nSD00\nDATA\n") 2 (by decide +kernel)
    (by decide +kernel)

/-- The receiver runs again and still has its entry among those that wait for anyone. -/
theorem anyRun_not_exclusive : ¬Exclusive anyRun := by
  intro h
  have run : (anyRun.vm 2).sched.running.count 0 = 1 := by decide +kernel
  have entry : entries (anyRun.vm 2) 0 = 1 := by decide +kernel
  rcases h.situated 2 (by decide) 0 (by decide +kernel) with
    ⟨-, -, h0⟩ | ⟨-, h0, -⟩ | ⟨-, h0, -⟩
  · rw [entry] at h0
    cases h0
  · rw [run] at h0
    cases h0
  · rw [run] at h0
    cases h0

end
end BrainMachine.WaitQueues
