import BrainMachine.WaitQueues

set_option autoImplicit false

namespace BrainMachine.MissedWakeups
open Codec Computations Paging Stdio AddressSpace Instructions HoleList RunQueue Machine Loader
open Dispatch Effects Runs MachineRuns SortedTree WaitQueues

section
variable {T : Type} [RedBlackTree T]

def Admits (x : ℤ) (s : ℕ) : Prop := x < 0 ∨ (s : ℤ) = x

def runs (e : Execution T) (pid i : ℕ) : Prop := ∃ op a, e.lab i = .instr pid op a

def Suspended (s : Sched T) (pid : ℕ) : Prop :=
  pid ∉ s.waiting ∧ ¬(s.current = pid ∧ 0 < s.nrRunning)

theorem Suspended.not_running {s : Sched T} {pid : ℕ} (h : Suspended s pid) :
    pid ∉ s.running := by
  intro hp
  by_cases h0 : s.nrRunning = 0
  · rw [Sched.running, if_pos h0] at hp
    cases hp
  · rw [running_of_pos (by omega), List.mem_cons] at hp
    exact hp.elim (fun hp => h.2 ⟨hp.symm, by omega⟩) h.1

/-- The receiver `r` of operand `x` is awake, or it waits and nobody it admits waits for it. -/
def Attended (m : VM T) (r : ℕ) (x : ℤ) : Prop :=
  r ∈ m.sched.running ∨ r ∈ m.recvWq (recvIndex x) ∧ ∀ s ∈ m.sendWq r, ¬Admits x s

omit [RedBlackTree T] in
theorem waitingSender_none {m : VM T} {r : ℕ} {x : ℤ} (h : m.waitingSender r x = none) :
    ∀ s ∈ m.sendWq r, ¬Admits x s := by
  intro s hs hx
  have := List.find?_eq_none.1 h s hs
  exact this (decide_eq_true hx)

omit [RedBlackTree T] in
/-- A sender that finds no receiver in either queue is not admitted by one that waits. -/
theorem not_admits {m : VM T} {p r : ℕ} {x : ℤ} (alone : ¬m.receiverWaits p r)
    (waits : r ∈ m.recvWq (recvIndex x)) : ¬Admits x p := by
  intro hx
  unfold recvIndex at waits
  by_cases h0 : x < 0
  · rw [if_pos h0] at waits
    exact alone (.inr waits)
  · rw [if_neg h0] at waits
    have hp : x.toNat = p := by
      have := hx.resolve_left h0
      omega
    exact alone (.inl (hp ▸ waits))

theorem attended_block {m u : VM T} {p : ℕ} {x : ℤ} (k : Effect p m u .RC x)
    (none : m.waitingSender p x = none) : Attended u p x := by
  cases k with
  | quiet op a k hsd hrc => exact absurd rfl hrc
  | recvTake a c s some =>
    rw [none] at some
    cases some
  | recvBlock a c ha none frame sched shift =>
    refine .inr ⟨?_, ?_⟩
    · rw [shift.recvWq, Function.update_self]
      exact List.mem_append_right _ List.mem_cons_self
    · rw [shift.sendWq]
      exact waitingSender_none none

theorem attended_still {m u : VM T} {r : ℕ} {x : ℤ} (k : Still m u) (h : Attended m r x) :
    Attended u r x := by
  rw [Attended, k.sched, k.recvWq, k.sendWq]
  exact h

variable [LawfulTree T]

theorem attended_effect {m u : VM T} {p r : ℕ} {op : Op} {a x : ℤ} (sane : Sane m)
    (pos : 0 < m.sched.nrRunning) (hc : m.sched.current = p) (hr : r ≠ p)
    (k : Effect p m u op a) (h : Attended m r x) : Attended u r x := by
  have slept {s : Sched T} {c : ℤ} (hs : schedSuspend p m.sched = .ok (c, s))
      (hrun : r ∈ m.sched.running) : r ∈ s.running := by
    have perm := (sane.served.suspend sane.room pos hc hs).2
    exact (List.mem_cons.1 (perm.mem_iff.1 hrun)).resolve_left hr
  have woken {s t : Sched T} {c : ℤ} {q : ℕ} (hs : Counted s) (hq : q < m.nextPid)
      (ht : schedResume q s = .ok (c, t)) (hrun : r = q ∨ r ∈ s.running) : r ∈ t.running := by
    have hundred : procs = 100 := rfl
    have := sane.room
    exact (schedResume_mem hs (by omega) ht r).2 hrun
  cases k with
  | quiet op a k => exact attended_still k.still h
  | execNone a n refused k => exact attended_still k.still_holes h
  | execGrant a n hn granted k => exact attended_still k.still_resized h
  | recvBlock a c ha none frame sched shift =>
    refine h.imp (slept sched) (And.imp (fun hq => ?_) fun hs => ?_)
    · rw [shift.recvWq]
      by_cases hi : recvIndex x = recvIndex a
      · rw [hi, Function.update_self]
        exact List.mem_append_left _ (hi ▸ hq)
      · rwa [Function.update_of_ne hi]
    · rw [shift.sendWq]
      exact hs
  | recvTake a c s some frame sched shift =>
    have known := sane.sendWq p s (List.mem_of_find?_eq_some some)
    refine h.imp (fun hrun => woken sane.served.1 known sched (.inr hrun))
      (And.imp (fun hq => ?_) fun hs => ?_)
    · rw [shift.recvWq]
      exact hq
    · rw [shift.sendWq, Function.update_of_ne hr]
      exact hs
  | sendAlone a c ha alone frame sched shift =>
    apply h.imp (slept sched)
    rintro ⟨hq, hs⟩
    constructor
    · rw [shift.recvWq]
      exact hq
    · rw [shift.sendWq]
      by_cases ht : r = a.toNat
      · rw [ht, Function.update_self]
        intro s hsent
        rcases List.mem_append.1 hsent with hsent | hsent
        · exact hs s (ht ▸ hsent)
        · rw [List.mem_singleton.1 hsent]
          exact not_admits alone (ht ▸ hq)
      · rw [Function.update_of_ne ht]
        exact hs
  | sendWake a c d s ha waits frame suspend resume shift =>
    have known : a.toNat < m.nextPid := waits.elim (sane.recvWq _ _) (sane.recvWq _ _)
    have counted := (sane.served.suspend sane.room pos hc suspend).1.1
    by_cases ht : r = a.toNat
    · exact .inl (woken counted known resume (.inl ht))
    · refine h.imp (fun hrun => woken counted known resume (.inr (slept suspend hrun)))
        (And.imp (fun hq => ?_) fun hs => ?_)
      · rw [shift.recvWq]
        by_cases hi : recvIndex x = p
        · rw [hi, Function.update_self]
          exact (List.mem_erase_of_ne ht).2 (hi ▸ hq)
        · rwa [Function.update_of_ne hi]
      · rw [shift.sendWq, Function.update_of_ne ht]
        exact hs
  | downBlock a c ha frame sched shift =>
    refine h.imp (slept sched) fun hq => ?_
    rw [shift.recvWq, shift.sendWq]
    exact hq
  | upWake a c q l ha head frame sched shift =>
    have known := sane.semWq _ q (head ▸ List.mem_cons_self)
    refine h.imp (fun hrun => woken sane.served.1 known sched (.inr hrun)) fun hq => ?_
    rw [shift.recvWq, shift.sendWq]
    exact hq
  | fork a c d n s hn pos' room' granted nextPid holes files child seg regs reset resume shift =>
    obtain ⟨run, counted, -, -⟩ := schedReset_running reset
    refine h.imp (fun hrun => (schedResume_mem (counted sane.served.1) room' resume r).2 (.inr ?_))
      fun hq => ?_
    · rw [run]
      exact hrun
    · rw [shift.recvWq, shift.sendWq]
      exact hq
  | halt a c d s frame reset suspend shift =>
    obtain ⟨run, -, hpos, hcur⟩ := schedReset_running reset
    refine h.imp (fun hrun => ?_) fun hq => ?_
    · have perm := ((sane.served.reset reset).suspend sane.room (hpos ▸ pos) (hcur.trans hc)
        suspend).2
      exact (List.mem_cons.1 (perm.mem_iff.1 (run ▸ hrun))).resolve_left hr
    · rw [shift.recvWq, shift.sendWq]
      exact hq

theorem attended (e : Execution T) (n : ℕ) (hn : n ≤ e.len) : ∀ r k x,
    LastBefore (runs e r) n k → e.lab k = .instr r .RC x → (e.vm k).waitingSender r x = none →
      Attended (e.vm n) r x := by
  refine e.toRun.invariant (fun n => ∀ r k x, LastBefore (runs e r) n k →
    e.lab k = .instr r .RC x → (e.vm k).waitingSender r x = none → Attended (e.vm n) r x)
    (fun r k x h => absurd h.1 (Nat.not_lt_zero k)) (fun n hn ih r k x last rc none => ?_) n hn
  have sane := execution_sane e n (by omega)
  obtain ⟨pos, ⟨p, op, a, lab, cur, t⟩ | ⟨lab, s, hs, hm⟩⟩ := e.step hn
  · rcases last.cases with ⟨rfl, -⟩ | ⟨other, last⟩
    · obtain ⟨rfl, rfl, rfl⟩ := Label.instr.inj (rc.symm.trans lab)
      exact attended_block t.effect none
    · have hr : r ≠ p := by
        rintro rfl
        exact other ⟨op, a, lab⟩
      exact attended_effect sane.account pos cur hr t.effect (ih r k x last rc none)
  · rcases last.cases with ⟨rfl, -⟩ | ⟨-, last⟩
    · rw [lab] at rc
      cases rc
    · obtain ⟨-, perm⟩ := endSlice_running sane.served.1 hs
      rw [hm]
      exact (ih r k x last rc none).imp_left perm.mem_iff.2

/-- No sender waits for a suspended receiver whose blocked RC admits it. -/
theorem no_missed_rendezvous (e : Execution T) (n r k s : ℕ) (x : ℤ) (hn : n ≤ e.len)
    (last : LastBefore (runs e r) n k) (rc : e.lab k = .instr r .RC x)
    (blocked : (e.vm k).waitingSender r x = none) (suspended : Suspended (e.vm n).sched r)
    (matching : Admits x s) : s ∉ (e.vm n).sendWq r := by
  intro waiting
  rcases attended e n hn r k x last rc blocked with run | ⟨-, free⟩
  · exact suspended.not_running run
  · exact free s waiting matching

def queuedRun : Execution ListTree :=
  execution 100 halfWeight bareHost
    (bytes "BRAIN10\n10\nRC02\nBRAIN10\n10\nSD00\nBRAIN10\n10\nNP00\nDATA\n") 2
    (by decide +kernel) (by decide +kernel)

theorem queuedRun_no_missed :
    (queuedRun.vm 2).sendWq 0 = [1] ∧ 2 ∉ (queuedRun.vm 2).sendWq 0 := by
  have later : ¬runs queuedRun 0 1 := by
    rintro ⟨op, a, lab⟩
    have other : queuedRun.lab 1 = .instr 1 .SD 0 := by decide +kernel
    cases other.symm.trans lab
  exact ⟨by decide +kernel, no_missed_rendezvous queuedRun 2 0 0 2 2 (by decide)
    (.keep (.here ⟨.RC, 2, by decide +kernel⟩) later) (by decide +kernel) (by decide +kernel)
    ⟨by decide +kernel, by decide +kernel⟩ (.inr rfl)⟩

end
end BrainMachine.MissedWakeups
