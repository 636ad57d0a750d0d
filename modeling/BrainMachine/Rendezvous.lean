import BrainMachine.Isolation
import BrainMachine.MemoryRelations
import BrainMachine.ReferenceBalance
import BrainMachine.SenderQueues

set_option autoImplicit false

namespace BrainMachine.Rendezvous
open Codec Computations Paging Stdio AddressSpace Transparency Instructions HoleList RunQueue
open Machine Loader Dispatch Effects Runs MachineRuns SortedTree WaitQueues MissedWakeups
open References MachineMemory MemoryRelations ReferenceBalance Isolation SenderQueues

section
variable {T : Type} [RedBlackTree T]

/-- The RC of `r` at step `k` takes the message of the SD of `s` at step `i`, the last
instruction of `s` before it. -/
structure Consumes (e : Execution T) (i k s r : ℕ) : Prop where
  last : LastBefore (runs e s) k i
  sent : ∃ a, e.lab i = .instr s .SD a ∧ a.toNat = r
  done : Completes e k r s

def buffer (m : VM T) (p j : ℕ) : ℤ := getGlobalAddress (m.seg p) (word2int (m.regs p).r + j)

/-- Messages are neither lost nor duplicated, and arrive as they were sent. A process is on the run
queue again after an SD only when it has been answered, whether or not its next tick succeeds. -/
structure Integrity (e : Execution T) : Prop where
  answered : ∀ i j s a, e.lab i = .instr s .SD a → LastBefore (runs e s) j i → j ≤ e.len →
    s ∈ (e.vm j).sched.running → ∃ k, (i < k ∧ k < j ∧ Completes e k a.toNat s) ∧
      ∀ l, i < l → l < j → Completes e l a.toNat s → l = k
  matched : ∀ k r s, Completes e k r s →
    (∀ x, e.lab k = .instr r .RC x → Admits x s) ∧
      ∃ i, Consumes e i k s r ∧ ∀ j, Consumes e j k s r → j = i
  once : ∀ i k l s r, Consumes e i k s r → Consumes e i l s r → k = l
  words : ∀ i k s r, Consumes e i k s r → ∀ j < 10,
    0 ≤ buffer (e.vm i) s j ∧ 0 ≤ buffer (e.vm k) r j ∧
      (e.vm (k + 1)).store.pager.view (buffer (e.vm k) r j).toNat =
        (e.vm i).store.pager.view (buffer (e.vm i) s j).toNat
  intact : ∀ i k s r, Consumes e i k s r →
    ((e.vm (k + 1)).regs s).r = ((e.vm i).regs s).r ∧ ∀ v, Reach ((e.vm k).seg s) v →
      (e.vm (k + 1)).store.pager.view v = (e.vm k).store.pager.view v

/-- SD wakes nobody but processes that are blocked in RC, live processes have their words to
themselves, and no reference count is about to wrap around. -/
structure Orderly (e : Execution T) : Prop where
  wakes : ∀ i < e.len, WakesReceiver e i
  apart : ∀ i < e.len, Isolated e i
  slack : ∀ i < e.len, Slack 8 (e.vm i).store.pager

theorem reach_apart {e : Execution T} {n : ℕ} (h : Isolated e n) {p q v : ℕ}
    (hp : live e n p) (hq : live e n q) (hne : q ≠ p) (hv : Reach ((e.vm n).seg p) v) :
    ¬Reach ((e.vm n).seg q) v := by
  rintro ⟨b, hb⟩
  obtain ⟨a, ha⟩ := hv
  exact (h.own p a hp (by omega)).2 q b hq hne (by omega)

variable [LawfulTree T]

theorem live_of_runs {e : Execution T} {n : ℕ} (h : Single e n) (hn : n < e.len) {p : ℕ} {op : Op}
    {a : ℤ} (lab : e.lab n = .instr p op a) : live e n p := by
  have ran := runs_count e n hn lab
  refine ⟨(execution_sane e n (by omega)).served.2 p (List.count_pos_iff.1 ran), fun hh => ?_⟩
  have := h.gone p hh
  rw [busy] at this
  omega

/-- A tick writes no word of another process: those that EX or FK has just taken are apart at
the next boundary. -/
theorem Orderly.not_writes {e : Execution T} (h : Orderly e) {n p s v : ℕ} {op : Op} {a : ℤ}
    (hn : n < e.len) (lab : e.lab n = .instr p op a) (next : op = .RC ∨ Isolated e (n + 1))
    (hs : live e n s) (hs' : live e (n + 1) s) (hne : p ≠ s)
    (same : (e.vm (n + 1)).seg s = (e.vm n).seg s) (hv : Reach ((e.vm n).seg s) v) :
    ¬Writes (e.vm n) (e.vm (n + 1)) p op v := by
  obtain ⟨-, -, k⟩ := e.ticked hn lab
  have hp : live e n p := live_of_runs (single e h.wakes n hn.le) hn lab
  have pids : (e.vm (n + 1)).nextPid = (e.vm n).nextPid + if op = .FK then 1 else 0 :=
    (nextPid_effect k.effect :)
  have hv' : Reach ((e.vm (n + 1)).seg s) v := same ▸ hv
  rintro ⟨-, hw | hw | ⟨grown, hw⟩⟩
  · exact reach_apart (h.apart n hn) hs hp hne hv hw
  · by_cases hop : op = .EX
    · have later : Isolated e (n + 1) := next.resolve_left (by rw [hop]; decide)
      have hp' : live e (n + 1) p := by
        refine ⟨Nat.lt_of_lt_of_le hp.1 (by omega), ?_⟩
        rw [halted_tick e lab, hop]
        simpa using hp.2
      exact reach_apart later hs' hp' hne hv' hw
    · have seg : (e.vm (n + 1)).seg p = (e.vm n).seg p := (seg_effect k.effect hp.1 hop :)
      rw [seg] at hw
      exact reach_apart (h.apart n hn) hs hp hne hv hw
  · have later : Isolated e (n + 1) := by
      apply next.resolve_left
      rintro rfl
      exact Nat.ne_of_gt grown pids
    have child : live e (n + 1) (e.vm n).nextPid := by
      refine ⟨grown, ?_⟩
      rw [halted_tick e lab, not_or]
      constructor
      · intro hh
        exact Nat.lt_irrefl _ ((single e h.wakes n hn.le).started _ hh)
      · rintro ⟨-, he⟩
        exact Nat.ne_of_gt hp.1 he
    exact reach_apart later hs' child (Nat.ne_of_gt hs.1) hv' hw

/-- The words and registers of a process that does not run are the same after a step. -/
theorem untouched {e : Execution T} (h : Orderly e) {n s : ℕ} (hn : n < e.len)
    (next : ∀ p op a, e.lab n = .instr p op a → op = .RC ∨ Isolated e (n + 1))
    (hs : live e n s) (other : ¬runs e s n) :
    live e (n + 1) s ∧ (e.vm (n + 1)).seg s = (e.vm n).seg s ∧
      (e.vm (n + 1)).regs s = (e.vm n).regs s ∧ ∀ v, Reach ((e.vm n).seg s) v →
        (e.vm (n + 1)).store.pager.view v = (e.vm n).store.pager.view v := by
  have still : ¬halted e s (n + 1) := by
    rw [halted_succ, not_or]
    refine ⟨hs.2, ?_⟩
    rintro ⟨a, ha⟩
    exact other ⟨.HA, a, ha⟩
  obtain ⟨-, ⟨p, op, a, lab, -, k⟩ | ⟨-, t, -, hm⟩⟩ := e.step hn
  · have hne : s ≠ p := by
      rintro rfl
      exact other ⟨op, a, lab⟩
    have pids : (e.vm (n + 1)).nextPid = (e.vm n).nextPid + if op = .FK then 1 else 0 :=
      (nextPid_effect k.effect :)
    obtain ⟨seg, regs⟩ : (e.vm (n + 1)).seg s = (e.vm n).seg s ∧
        (e.vm (n + 1)).regs s = (e.vm n).regs s := (other_effect k.effect hne hs.1 :)
    have hs' : live e (n + 1) s := ⟨Nat.lt_of_lt_of_le hs.1 (by omega), still⟩
    refine ⟨hs', seg, regs, fun v hv => ?_⟩
    exact (tick_paged k (execution_frames e n hn.le) (h.slack n hn)).view v
      (h.not_writes hn lab (next p op a lab) hs hs' hne.symm seg hv)
  · refine ⟨⟨?_, still⟩, ?_, ?_, fun v _ => ?_⟩ <;> rw [hm]
    · exact hs.1
    · rfl
    · rfl

structure Stays (e : Execution T) (p b n : ℕ) : Prop where
  live : live e n p
  seg : (e.vm n).seg p = (e.vm b).seg p
  regs : (e.vm n).regs p = (e.vm b).regs p
  view : ∀ v, Reach ((e.vm b).seg p) v →
    (e.vm n).store.pager.view v = (e.vm b).store.pager.view v

theorem stays {e : Execution T} (h : Orderly e) {p b : ℕ} (hp : Isolation.live e b p) (n : ℕ)
    (hb : b ≤ n) (hn : n ≤ e.len) (apart : Isolated e n)
    (quiet : ∀ j, b ≤ j → j < n → ¬runs e p j) : Stays e p b n := by
  induction n, hb using Nat.le_induction with
  | base => exact ⟨hp, rfl, rfl, fun v _ => rfl⟩
  | succ n hb ih =>
    have old := ih (Nat.le_of_succ_le hn) (h.apart n hn) fun j h1 h2 => quiet j h1 (by omega)
    obtain ⟨live, seg, regs, view⟩ := untouched h hn (fun _ _ _ _ => .inr apart) old.live
      (quiet n hb (Nat.lt_succ_self n))
    refine ⟨live, seg.trans old.seg, regs.trans old.regs, fun v hv => ?_⟩
    rw [view v (old.seg ▸ hv)]
    exact old.view v hv

structure Kept (e : Execution T) (i s n : ℕ) : Prop where
  live : live e n s
  seg : (e.vm n).seg s = (e.vm i).seg s
  reg : ((e.vm n).regs s).r = ((e.vm i).regs s).r
  view : ∀ v, Reach ((e.vm i).seg s) v →
    (e.vm n).store.pager.view v = (e.vm i).store.pager.view v

theorem kept_sd {e : Execution T} (h : Orderly e) {i s : ℕ} {a : ℤ} (hi : i < e.len)
    (lab : e.lab i = .instr s .SD a) : Kept e i s (i + 1) := by
  have hs : Isolation.live e i s := live_of_runs (single e h.wakes i (by omega)) hi lab
  obtain ⟨-, -, k⟩ := e.ticked hi lab
  have next : (e.vm (i + 1)).nextPid = (e.vm i).nextPid := (nextPid_effect k.effect :)
  refine ⟨⟨next ▸ hs.1, ?_⟩, ?_, tick_send k, fun v _ => ?_⟩
  · rw [halted_tick e lab]
    simpa using hs.2
  · exact (seg_effect k.effect hs.1 (by decide) :)
  · exact (tick_paged k (execution_frames e i (by omega)) (h.slack i hi)).view v fun hw => hw.1 rfl

theorem kept {e : Execution T} (h : Orderly e) {i s : ℕ} {a : ℤ}
    (lab : e.lab i = .instr s .SD a) (n : ℕ) (hi : i < n) (hn : n < e.len)
    (quiet : ∀ j, i < j → j < n → ¬runs e s j) : Kept e i s n := by
  have sent := kept_sd h (by omega) lab
  have later := stays h sent.live n hi hn.le (h.apart n hn) fun j h1 h2 => quiet j (by omega) h2
  refine ⟨later.live, later.seg.trans sent.seg, (congrArg Regs.r later.regs).trans sent.reg,
    fun v hv => ?_⟩
  rw [later.view v (sent.seg ▸ hv)]
  exact sent.view v hv

omit [LawfulTree T] in
theorem send_range {m u : VM T} {p : ℕ} {a : ℤ} (k : Effect p m u .SD a) : a.toNat < procs := by
  have hundred : procs = 100 := rfl
  cases k with
  | quiet op a k hsd => exact absurd rfl hsd
  | sendAlone a c ha => omega
  | sendWake a c d s ha => omega

/-- A receive that takes a sender is a tick of the receiver, and finds the sender waiting. -/
theorem completes_tick {e : Execution T} {k r s : ℕ} (h : Completes e k r s) :
    ∃ x, e.lab k = .instr r .RC x ∧ (e.vm k).waitingSender r x = some s ∧ r < procs ∧
      Ticked (e.vm k) (e.vm (k + 1)) r .RC x := by
  obtain ⟨hk, x, lab, some⟩ := h
  have sane := execution_sane e k (by omega)
  obtain ⟨pos, rfl, t⟩ := e.ticked hk lab
  exact ⟨x, lab, some, Nat.lt_of_lt_of_le (sane.current pos) sane.room, t⟩

theorem completes_waits {e : Execution T} (h : Orderly e) {k r s : ℕ} (hk : Completes e k r s) :
    Waits e k s r := by
  obtain ⟨x, -, some, hr, -⟩ := completes_tick hk
  exact (sent e h.wakes k hk.1.le s r hr).1 (List.mem_of_find?_eq_some some)

theorem completes_once {e : Execution T} (h : Orderly e) {i k l r s : ℕ}
    (hk : Completes e k r s) (hl : Completes e l r s) (last : LastBefore (runs e s) k i)
    (last' : LastBefore (runs e s) l i) : k = l := by
  have general {k l : ℕ} (hk : Completes e k r s) (hl : Completes e l r s)
      (last : LastBefore (runs e s) k i) (last' : LastBefore (runs e s) l i) : ¬k < l := by
    intro hlt
    obtain ⟨j, a, before, -, -, free⟩ := completes_waits h hl
    obtain rfl := before.unique last'
    exact free k last.1 hlt hk
  exact Nat.le_antisymm (not_lt.1 (general hl hk last' last)) (not_lt.1 (general hk hl last last'))

/-- The sender that a receive takes is another process, and has not run since its SD. -/
theorem Consumes.other {e : Execution T} (h : Orderly e) {i k s r : ℕ}
    (c : Consumes e i k s r) : s ≠ r ∧ ¬runs e s k := by
  obtain ⟨x, lab, some, hr, -⟩ := completes_tick c.done
  have hk := c.done.1
  have hne : s ≠ r := by
    rintro rfl
    exact (single e h.wakes k hk.le).idle hr (runs_count e k hk lab)
      (List.mem_of_find?_eq_some some)
  refine ⟨hne, ?_⟩
  rintro ⟨op, a, lab'⟩
  exact hne (Label.instr.inj (lab'.symm.trans lab)).1

theorem Consumes.kept {e : Execution T} (h : Orderly e) {i k s r : ℕ} (c : Consumes e i k s r) :
    Kept e i s k := by
  obtain ⟨a, lab, -⟩ := c.sent
  exact Rendezvous.kept h lab k c.last.1 c.done.1 c.last.2.2

theorem Consumes.words {e : Execution T} (h : Orderly e) {i k s r : ℕ} (c : Consumes e i k s r)
    (j : ℕ) (hj : j < 10) : 0 ≤ buffer (e.vm i) s j ∧ 0 ≤ buffer (e.vm k) r j ∧
      (e.vm (k + 1)).store.pager.view (buffer (e.vm k) r j).toNat =
        (e.vm i).store.pager.view (buffer (e.vm i) s j).toNat := by
  obtain ⟨x, lab, some, -, t⟩ := completes_tick c.done
  have hk := c.done.1
  have kept := c.kept h
  have hne := (c.other h).1
  have hr : live e k r := live_of_runs (single e h.wakes k hk.le) hk lab
  obtain ⟨valid, valid', copy⟩ := tick_recv t (execution_frames e k hk.le) (h.slack k hk) hne some
    (fun v hv => reach_apart (h.apart k hk) kept.live hr hne.symm hv) j hj
  have same : buffer (e.vm i) s j =
      getGlobalAddress ((e.vm k).seg s) (word2int ((e.vm k).regs s).r + j) := by
    rw [buffer, kept.seg, kept.reg]
  rw [← same] at valid copy
  refine ⟨valid, valid', copy.trans (kept.view _ ?_)⟩
  exact reach_address valid

theorem Consumes.intact {e : Execution T} (h : Orderly e) {i k s r : ℕ} (c : Consumes e i k s r) :
    ((e.vm (k + 1)).regs s).r = ((e.vm i).regs s).r ∧ ∀ v, Reach ((e.vm k).seg s) v →
      (e.vm (k + 1)).store.pager.view v = (e.vm k).store.pager.view v := by
  have kept := c.kept h
  obtain ⟨x, lab, -⟩ := completes_tick c.done
  have next (p : ℕ) (op : Op) (a : ℤ) (lab' : e.lab k = .instr p op a) :
      op = .RC ∨ Isolated e (k + 1) := .inl (Label.instr.inj (lab'.symm.trans lab)).2.1
  obtain ⟨-, -, regs, view⟩ := untouched h c.done.1 next kept.live (c.other h).2
  exact ⟨(congrArg Regs.r regs).trans kept.reg, view⟩

theorem answered {e : Execution T} (h : Orderly e) {i j s : ℕ} {a : ℤ}
    (lab : e.lab i = .instr s .SD a) (last : LastBefore (runs e s) j i) (hj : j ≤ e.len)
    (awake : s ∈ (e.vm j).sched.running) : ∃ k, (i < k ∧ k < j ∧ Completes e k a.toNat s) ∧
      ∀ l, i < l → l < j → Completes e l a.toNat s → l = k := by
  obtain ⟨-, -, t⟩ := e.ticked (last.1.trans_le hj) lab
  have range := send_range t.effect
  have out := (single e h.wakes j hj).idle range (List.count_pos_iff.2 awake)
  rw [sent e h.wakes j hj s a.toNat range] at out
  -- the sender is no longer waiting, so that somebody has taken it
  have taken : ∃ k, i < k ∧ k < j ∧ Completes e k a.toNat s := by
    by_contra none
    exact out ⟨i, a, last, lab, rfl, fun k h1 h2 hk => none ⟨k, h1, h2, hk⟩⟩
  obtain ⟨k, h1, h2, hk⟩ := taken
  have part (l : ℕ) (h1 : i < l) (h2 : l < j) : LastBefore (runs e s) l i :=
    ⟨h1, last.2.1, fun x hx hl => last.2.2 x hx (hl.trans h2)⟩
  exact ⟨k, ⟨h1, h2, hk⟩, fun l h1' h2' hl =>
    completes_once h hl hk (part l h1' h2') (part k h1 h2)⟩

/-- Messages are neither lost, duplicated nor changed in runs that are orderly. -/
theorem message_integrity (e : Execution T) (h : Orderly e) : Integrity e := by
  refine ⟨fun i j s a lab last hj awake => answered h lab last hj awake, fun k r s hk => ⟨?_, ?_⟩,
    fun i k l s r hk hl => completes_once h hk.done hl.done hk.last hl.last,
    fun i k s r c => c.words h, fun i k s r c => c.intact h⟩
  · intro x lab
    obtain ⟨y, lab', some, -⟩ := completes_tick hk
    obtain ⟨-, -, rfl⟩ := Label.instr.inj (lab.symm.trans lab')
    have admitted := List.find?_some some
    exact (of_decide_eq_true admitted : x < 0 ∨ (s : ℤ) = x)
  · obtain ⟨i, a, last, lab, ha, -⟩ := completes_waits h hk
    exact ⟨i, ⟨last, ⟨a, lab, ha⟩, hk⟩, fun j c => c.last.unique last⟩

theorem namedRun_lab (i : ℕ) (hi : i < namedRun.len) : namedRun.lab i = .instr 0 .RC 1 ∨
    i = 1 ∧ namedRun.lab i = .instr 1 .SD 0 := by
  have three : i < 3 := hi
  interval_cases i
  · exact .inl (by decide +kernel)
  · exact .inr ⟨rfl, by decide +kernel⟩
  · exact .inl (by decide +kernel)

theorem namedRun_halted (q n : ℕ) (hn : n ≤ namedRun.len) : ¬halted namedRun q n := by
  rintro ⟨j, hj, a, ha⟩
  rcases namedRun_lab j (by omega) with lab | ⟨-, lab⟩ <;> rw [lab] at ha <;> cases ha

/-- The messages of a receiver that names its sender, and of the sender. -/
theorem namedRun_orderly : Orderly namedRun := by
  refine ⟨fun i hi s a lab _ => ?_, fun n hn => ?_, fun n hn => ?_⟩
  · rcases namedRun_lab i hi with lab' | ⟨rfl, lab'⟩
    · rw [lab'] at lab
      cases lab
    · obtain ⟨-, -, rfl⟩ := Label.instr.inj (lab'.symm.trans lab)
      have free : busy (namedRun.vm 1) 0 = 0 := by decide +kernel
      exact ⟨free, namedRun_halted 0 1 (by decide)⟩
  · refine (arranged namedRun ⟨by decide +kernel, fun i hi n hn => ?_, fun i hi p op a _ hh => ?_⟩
      n hn.le).isolated
    · rcases namedRun_lab i hi with lab | ⟨-, lab⟩ <;> rw [lab] at hn <;> cases hn
    · exact absurd hh (namedRun_halted p i (by omega))
  · refine (released namedRun (fun i hi => ?_) n hn.le).slack
    rcases namedRun_lab i hi with lab | ⟨-, lab⟩ <;> rw [lab] <;> exact trivial

theorem namedRun_integral : Integrity namedRun := message_integrity namedRun namedRun_orderly

/-- Process 0 waits for anyone, gets its code from process 1, and then sends to process 3. -/
def straySendRun : Execution ListTree :=
  execution 100 halfWeight bareHost
    (bytes ("BRAIN10\n10\nRCXX\nBRAIN10\n10\nSD00\nSD03\nNP00\n" ++
      "BRAIN10\n1\nSD00\nBRAIN10\n1\nRC03\nDATA\n")) 8 (by decide +kernel) (by decide +kernel)

/-- A send to process 0 finds the entry that its receive has left behind, and ends its wait. -/
theorem straySendRun_not_integral : ¬Integrity straySendRun := by
  intro h
  have sd : straySendRun.lab 6 = .instr 0 .SD 3 := by decide +kernel
  obtain ⟨k, ⟨h1, h2, -⟩, -⟩ := h.answered 6 7 0 3 sd (.here ⟨.SD, 3, sd⟩) (by decide)
    (by decide +kernel)
  omega

end
end BrainMachine.Rendezvous
