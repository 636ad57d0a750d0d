import Mathlib.Data.Finset.Card
import BrainMachine.RunQueueSteps
import BrainMachine.SortedTree

set_option autoImplicit false

namespace BrainMachine.RunQueue
open Computations SortedTree

section
variable {T : Type} [RedBlackTree T]

/-- The calls of the scheduler, a tick charged by `sched_run` and its preemption check. -/
inductive SchedOp where
  | resume (pid : ℕ)
  | suspend (pid : ℕ)
  | reset (pid : ℕ)
  | tick
  | check
  deriving DecidableEq, Repr

def SchedOp.run : SchedOp → Exec (Sched T) Unit
  | .resume pid => do let _ ← schedResume pid
  | .suspend pid => do let _ ← schedSuspend pid
  | .reset pid => do let _ ← schedReset pid
  | .tick => modify account
  | .check => endSlice

def SchedOp.runnable (R : Finset ℕ) : SchedOp → Finset ℕ
  | .resume pid => if pid > 99 then R else insert pid R
  | .suspend pid => R.erase pid
  | _ => R

def SchedOp.admissible (s : Sched T) (R : Finset ℕ) : SchedOp → Prop
  | .resume pid => pid ∈ R → pid = s.current
  | .suspend pid => pid ∈ R
  | .reset pid => pid ∉ s.waiting
  | .tick => 0 < s.nrRunning
  | .check => True

def SchedOp.charge (s : Sched T) : SchedOp → Sched T
  | .resume pid => if pid > 99 then s else place pid s
  | .reset pid => if pid > 99 then s else setTask pid (fun e => { e with vruntime := 0 }) s
  | .tick => account s
  | _ => s

/-- The scheduler after admissible operations, with the processes they leave runnable. -/
inductive Reachable : Sched T → Finset ℕ → Prop
  | init : Reachable schedInit ∅
  | step (s u : Sched T) (R : Finset ℕ) (op : SchedOp) (h : Reachable s R)
      (adm : op.admissible s R) (run : op.run s = .ok ((), u)) : Reachable u (op.runnable R)

structure Linked (s : Sched T) : Prop where
  nodup : s.waiting.Nodup
  node : ∀ pid i, (s.taskTable pid).n = some i ↔ ⟨i, pid⟩ ∈ s.nodes

theorem mem_waiting {s : Sched T} {pid : ℕ} : pid ∈ s.waiting ↔ ∃ i, ⟨i, pid⟩ ∈ s.nodes := by
  rw [Sched.waiting, List.mem_map]
  constructor
  · rintro ⟨⟨i, q⟩, hn, rfl⟩
    exact ⟨i, hn⟩
  · rintro ⟨i, hi⟩
    exact ⟨⟨i, pid⟩, hi, rfl⟩

theorem Linked.none {s : Sched T} (h : Linked s) {pid : ℕ} (hp : pid ∉ s.waiting) :
    (s.taskTable pid).n = none := by
  cases hn : (s.taskTable pid).n with
  | none => rfl
  | some i => exact absurd (mem_waiting.2 ⟨i, (h.node pid i).1 hn⟩) hp

theorem enqueue_n (pid q : ℕ) (s : Sched T) :
    ((enqueue pid s).taskTable q).n = if q = pid then some s.fresh else (s.taskTable q).n := by
  by_cases hq : q = pid <;> simp [enqueue, setTask, hq]

theorem dequeue_n (n : Node) (q : ℕ) (s : Sched T) :
    ((dequeue n s).taskTable q).n = if q = n.pid then none else (s.taskTable q).n := by
  by_cases hq : q = n.pid <;> simp [dequeue, setTask, hq]

theorem enqueue_vruntime (pid : ℕ) (s : Sched T) : (enqueue pid s).vruntime = s.vruntime := by
  funext q
  by_cases hq : q = pid <;> simp [enqueue, setTask, Sched.vruntime, hq]

theorem dequeue_vruntime (n : Node) (s : Sched T) : (dequeue n s).vruntime = s.vruntime := by
  funext q
  by_cases hq : q = n.pid <;> simp [dequeue, setTask, Sched.vruntime, hq]

theorem ctxtSwitch_eq {s : Sched T} {n : Node} {l : List Node} (h : s.nodes = n :: l) :
    ctxtSwitch s = .ok ((), dequeue n { s with current := n.pid }) := by
  have hl : leftmost s = .ok (n, s) := by
    rw [leftmost, get_bind, h]
    rfl
  change Except.bind (leftmost s) _ = _
  rw [hl]
  rfl

theorem preempt_eq {s : Sched T} {n : Node} {l : List Node} (b : Bool) (h : s.nodes = n :: l) :
    preempt b s =
      if keyComp s.minVruntime (s.vruntime s.current) (s.vruntime n.pid) > 0 then
        ctxtSwitch (enqueue s.current
          { s with minVruntime := if b then s.vruntime n.pid else s.minVruntime })
      else .ok ((), s) := by
  have hl : leftmost s = .ok (n, s) := by
    rw [leftmost, get_bind, h]
    rfl
  change Except.bind (leftmost s) _ = _
  rw [hl]
  change (ite _ _ _ : Exec (Sched T) Unit) s = _
  split <;> rfl

variable [LawfulTree T]

theorem enqueue_linked {s : Sched T} {pid : ℕ} (h : Linked s) (hp : pid ∉ s.waiting) :
    Linked (enqueue pid s) := by
  obtain ⟨l, r, hs, hu⟩ := enqueue_nodes pid s
  have old (i q : ℕ) : ⟨i, q⟩ ∈ (enqueue pid s).nodes ↔
      (i = s.fresh ∧ q = pid) ∨ ⟨i, q⟩ ∈ s.nodes := by
    rw [hs, hu]
    simp only [List.mem_append, List.mem_cons, Node.mk.injEq]
    tauto
  refine ⟨(enqueue_waiting pid s).nodup_iff.2 (List.nodup_cons.2 ⟨hp, h.nodup⟩), fun q i => ?_⟩
  rw [old, enqueue_n]
  by_cases hq : q = pid
  · rw [if_pos hq, hq]
    have absent : ⟨i, pid⟩ ∉ s.nodes := fun hi => hp (mem_waiting.2 ⟨i, hi⟩)
    simp [absent, eq_comm]
  · rw [if_neg hq, h.node]
    simp [hq]

theorem dequeue_waiting {s : Sched T} {n : Node} (hn : n ∈ s.nodes) :
    s.waiting.Perm (n.pid :: (dequeue n s).waiting) := by
  rw [Sched.waiting, Sched.waiting, dequeue_nodes hn]
  exact (List.perm_cons_erase hn).map Node.pid

theorem dequeue_linked {s : Sched T} {n : Node} (h : Linked s) (hn : n ∈ s.nodes) :
    Linked (dequeue n s) := by
  have perm := dequeue_waiting hn
  obtain ⟨gone, nodup⟩ := List.nodup_cons.1 (perm.nodup_iff.1 h.nodup)
  refine ⟨nodup, fun q i => ?_⟩
  rw [dequeue_n]
  by_cases hq : q = n.pid
  · rw [if_pos hq, hq]
    exact iff_of_false (by simp) fun hi => gone (mem_waiting.2 ⟨i, hi⟩)
  · have hne : (⟨i, q⟩ : Node) ≠ n := fun he => hq (congrArg Node.pid he)
    rw [if_neg hq, h.node, dequeue_nodes hn, List.mem_erase_of_ne hne]

structure Apart (s : Sched T) : Prop extends Linked s where
  current : s.current ∉ s.waiting

theorem ctxtSwitch_apart {s : Sched T} {n : Node} {l : List Node} (h : Linked s)
    (hs : s.nodes = n :: l) : ∃ u, ctxtSwitch s = .ok ((), u) ∧ Apart u ∧ u.vruntime = s.vruntime := by
  have hn : n ∈ s.nodes := hs ▸ List.mem_cons_self
  have linked : Linked { s with current := n.pid } := ⟨h.nodup, h.node⟩
  have perm := dequeue_waiting (s := { s with current := n.pid }) hn
  refine ⟨_, ctxtSwitch_eq hs, ⟨dequeue_linked linked hn, ?_⟩, dequeue_vruntime n _⟩
  exact (List.nodup_cons.1 (perm.nodup_iff.1 h.nodup)).1

/-- A preemption check does not fail while the tree is not empty, and it writes no vruntime. -/
theorem preempt_apart {s : Sched T} (b : Bool) (h : Apart s) (hs : s.nodes ≠ []) :
    ∃ u, preempt b s = .ok ((), u) ∧ Apart u ∧ u.vruntime = s.vruntime := by
  obtain ⟨n, l, hn⟩ := List.exists_cons_of_ne_nil hs
  rw [preempt_eq b hn]
  split
  · have linked : Linked { s with minVruntime := if b then s.vruntime n.pid else s.minVruntime } :=
      ⟨h.nodup, h.node⟩
    have queued := enqueue_linked linked h.current
    obtain ⟨k, r, -, hk⟩ := enqueue_nodes s.current
      { s with minVruntime := if b then s.vruntime n.pid else s.minVruntime }
    obtain ⟨x, t, hx⟩ := List.exists_cons_of_ne_nil (l := k ++ _ :: r) (by simp)
    obtain ⟨u, hu, apart, he⟩ := ctxtSwitch_apart queued (hk.trans hx)
    exact ⟨u, hu, apart, he.trans (enqueue_vruntime s.current _)⟩
  · exact ⟨s, rfl, h, rfl⟩

omit [LawfulTree T] in
theorem setTask_linked {s : Sched T} (h : Linked s) (pid : ℕ) {f : Task → Task}
    (hf : ∀ e, (f e).n = e.n) : Linked (setTask pid f s) := by
  refine ⟨h.nodup, fun q i => ?_⟩
  rw [show ((setTask pid f s).taskTable q).n = (s.taskTable q).n from ?_]
  · exact h.node q i
  · by_cases hq : q = pid <;> simp [setTask, hq, hf]

structure Tracked (s : Sched T) (R : Finset ℕ) : Prop where
  linked : Linked s
  counted : Counted s
  current : 0 < s.nrRunning → s.current ∉ s.waiting
  mem : ∀ pid, pid ∈ s.running ↔ pid ∈ R
  small : ∀ pid ∈ R, pid ≤ 99

omit [LawfulTree T] in
theorem Tracked.running_nodup {s : Sched T} {R : Finset ℕ} (h : Tracked s R) :
    s.running.Nodup := by
  by_cases h0 : s.nrRunning = 0
  · rw [Sched.running, if_pos h0]
    exact List.nodup_nil
  · rw [running_of_pos (by omega)]
    exact List.nodup_cons.2 ⟨h.current (by omega), h.linked.nodup⟩

omit [LawfulTree T] in
theorem Tracked.pos {s : Sched T} {R : Finset ℕ} (h : Tracked s R) {pid : ℕ} (hp : pid ∈ R) :
    0 < s.nrRunning := by
  have hp := (h.mem pid).2 hp
  rw [← h.counted.length]
  exact List.length_pos_of_mem hp

theorem Tracked.unqueue {s : Sched T} {R : Finset ℕ} (h : Tracked s R) {pid : ℕ} (hp : pid ∈ R) :
    ∃ u, unqueue pid s = .ok ((), u) ∧ Linked u ∧ (1 < s.nrRunning → u.current ∉ u.waiting) ∧
      u.nrRunning = s.nrRunning ∧ u.vruntime = s.vruntime ∧
      (s.current ≠ pid → u.current = s.current ∧ s.waiting.Perm (pid :: u.waiting)) := by
  have pos := h.pos hp
  have hlen := h.counted.pos pos
  have apart := h.current pos
  rw [RunQueue.unqueue, get_bind]
  by_cases hc : s.current = pid
  · rw [if_pos hc]
    by_cases h1 : s.nrRunning > 1
    · obtain ⟨n, l, hn⟩ := List.exists_cons_of_ne_nil (l := s.nodes)
        (List.length_pos_iff.1 (by omega))
      obtain ⟨u, hu, hua, hv⟩ := ctxtSwitch_apart h.linked hn
      have hnr := (ctxtSwitch_waiting hu).2
      rw [if_pos h1]
      exact ⟨u, hu, hua.toLinked, fun _ => hua.current, hnr, hv, fun hne => absurd hc hne⟩
    · rw [if_neg h1]
      exact ⟨s, rfl, h.linked, fun h => absurd h h1, rfl, rfl, fun hne => absurd hc hne⟩
  · have hw : pid ∈ s.waiting := by
      have := (h.mem pid).2 hp
      rw [running_of_pos pos, List.mem_cons] at this
      exact this.resolve_left (Ne.symm hc)
    obtain ⟨i, hi⟩ := mem_waiting.1 hw
    have perm := dequeue_waiting hi
    rw [if_neg hc, (h.linked.node pid i).2 hi]
    refine ⟨_, rfl, dequeue_linked h.linked hi, fun _ hm => apart ?_, rfl, dequeue_vruntime _ _,
      fun _ => ⟨rfl, perm⟩⟩
    exact perm.mem_iff.2 (List.mem_cons_of_mem _ hm)

theorem Tracked.suspend {s : Sched T} {R : Finset ℕ} (h : Tracked s R) {pid : ℕ} (hp : pid ∈ R) :
    ∃ u, schedSuspend pid s = .ok (0, u) ∧ Tracked u (R.erase pid) ∧ u.vruntime = s.vruntime := by
  have pos := h.pos hp
  have small := h.small pid hp
  obtain ⟨u, hu, linked, apart, nr, hv, other⟩ := h.unqueue hp
  have run : schedSuspend pid s = .ok (0, { u with nrRunning := u.nrRunning - 1 }) := by
    rw [schedSuspend, if_neg (by omega), bind_of_ok hu]
    rfl
  have left : Counted { u with nrRunning := u.nrRunning - 1 } ∧
      s.running.Perm (pid :: Sched.running { u with nrRunning := u.nrRunning - 1 }) := by
    by_cases hc : s.current = pid
    · exact schedSuspend_current h.counted pos hc small run
    · obtain ⟨cur, perm⟩ := other hc
      have hlen := h.counted.pos pos
      have hl := perm.length_eq
      simp only [Sched.waiting, List.length_map, List.length_cons] at hl
      have pos' : 0 < u.nrRunning - 1 := by omega
      refine ⟨.inr ?_, ?_⟩
      · change u.nrRunning - 1 = u.nodes.length + 1
        omega
      · rw [running_of_pos pos, running_of_pos pos']
        change (s.current :: s.waiting).Perm (pid :: u.current :: u.waiting)
        rw [cur]
        exact (perm.cons s.current).trans (.swap _ _ _)
  obtain ⟨counted, perm⟩ := left
  have nodup := perm.nodup_iff.1 h.running_nodup
  refine ⟨_, run, ⟨⟨linked.nodup, linked.node⟩, counted, fun h1 => apart ?_, fun q => ?_,
    fun q hq => h.small q (Finset.mem_of_mem_erase hq)⟩, hv⟩
  · change 0 < u.nrRunning - 1 at h1
    omega
  · have hq := h.mem q
    rw [perm.mem_iff, List.mem_cons] at hq
    rw [Finset.mem_erase, ← hq]
    constructor
    · intro hm
      refine ⟨?_, .inr hm⟩
      rintro rfl
      exact (List.nodup_cons.1 nodup).1 hm
    · rintro ⟨hne, hm⟩
      exact hm.resolve_left hne

theorem Tracked.resume {s : Sched T} {R : Finset ℕ} (h : Tracked s R) {pid : ℕ} (hp : pid ≤ 99)
    (adm : pid ∈ R → pid = s.current) :
    ∃ u, schedResume pid s = .ok (0, u) ∧ Tracked u (insert pid R) ∧
      u.vruntime = (place pid s).vruntime := by
  have placed : Linked (place pid s) := setTask_linked h.linked pid fun _ => rfl
  have total : ∃ u, schedResume pid s = .ok (0, u) ∧ Linked u ∧ u.current ∉ u.waiting ∧
      u.vruntime = (place pid s).vruntime := by
    rw [schedResume, if_neg (by omega), modify_bind, get_bind]
    by_cases h0 : s.nrRunning = 0
    · have none : s.waiting = [] := by
        rcases h.counted with ⟨-, hn⟩ | hn
        · rw [Sched.waiting, hn]
          rfl
        · omega
      rw [if_pos (show (place pid s).nrRunning = 0 from h0)]
      refine ⟨_, rfl, ⟨placed.nodup, placed.node⟩, ?_, rfl⟩
      change pid ∉ s.waiting
      rw [none]
      exact List.not_mem_nil
    · have apart : s.current ∉ s.waiting := h.current (by omega)
      rw [if_neg (show (place pid s).nrRunning ≠ 0 from h0)]
      by_cases hc : pid = s.current
      · rw [if_pos (show pid = (place pid s).current from hc)]
        exact ⟨_, rfl, placed, apart, rfl⟩
      · have absent : pid ∉ s.waiting := by
          intro hw
          have hr : pid ∈ s.running := by
            rw [running_of_pos (by omega)]
            exact List.mem_cons_of_mem _ hw
          exact hc (adm ((h.mem pid).1 hr))
        have queued : Apart (enqueue pid (place pid s)) := by
          refine ⟨enqueue_linked placed absent, fun hw => ?_⟩
          rcases List.mem_cons.1 ((enqueue_waiting pid (place pid s)).mem_iff.1 hw) with he | hw
          · exact hc he.symm
          · exact apart hw
        have filled : (enqueue pid (place pid s)).nodes ≠ [] := by
          obtain ⟨l, r, -, hn⟩ := enqueue_nodes pid (place pid s)
          rw [hn]
          simp
        obtain ⟨u, hu, hua, hv⟩ := preempt_apart false queued filled
        rw [if_neg (show pid ≠ (place pid s).current from hc), modify_bind, bind_of_ok hu]
        exact ⟨_, rfl, ⟨hua.nodup, hua.node⟩, hua.current, hv.trans (enqueue_vruntime _ _)⟩
  obtain ⟨u, hu, linked, apart, hv⟩ := total
  obtain ⟨counted, -⟩ := schedResume_running h.counted hp hu
  refine ⟨u, hu, ⟨linked, counted, fun _ => apart, fun q => ?_, fun q hq => ?_⟩, hv⟩
  · rw [Finset.mem_insert, ← h.mem]
    exact schedResume_mem h.counted hp hu q
  · rcases Finset.mem_insert.1 hq with rfl | hq
    · exact hp
    · exact h.small q hq

omit [LawfulTree T] in
theorem Tracked.setTask {s : Sched T} {R : Finset ℕ} (h : Tracked s R) (pid : ℕ) {f : Task → Task}
    (hf : ∀ e, (f e).n = e.n) : Tracked (RunQueue.setTask pid f s) R :=
  ⟨setTask_linked h.linked pid hf, h.counted, h.current, h.mem, h.small⟩

theorem Tracked.check {s : Sched T} {R : Finset ℕ} (h : Tracked s R) :
    ∃ u, endSlice s = .ok ((), u) ∧ Tracked u R ∧ u.vruntime = s.vruntime := by
  rw [endSlice, get_bind]
  by_cases h2 : s.nrRunning < 2
  · rw [if_pos h2]
    exact ⟨s, rfl, h, rfl⟩
  · have hlen := h.counted.pos (by omega)
    have apart : Apart s := ⟨h.linked, h.current (by omega)⟩
    obtain ⟨u, hu, hua, hv⟩ := preempt_apart true apart (List.length_pos_iff.1 (by omega))
    have run : endSlice s = .ok ((), u) := by
      rw [endSlice, get_bind, if_neg h2]
      exact hu
    obtain ⟨counted, perm⟩ := endSlice_running h.counted run
    rw [if_neg h2]
    refine ⟨u, hu, ⟨hua.toLinked, counted, fun _ => hua.current, fun q => ?_, h.small⟩, hv⟩
    rw [perm.mem_iff]
    exact h.mem q

/-- An admissible operation does not fail, and only its first statement writes a vruntime. -/
theorem Tracked.run {s : Sched T} {R : Finset ℕ} (h : Tracked s R) (op : SchedOp)
    (adm : op.admissible s R) : ∃ u, op.run s = .ok ((), u) ∧ Tracked u (op.runnable R) ∧
      u.vruntime = (op.charge s).vruntime := by
  cases op with
  | resume pid =>
    by_cases hp : pid > 99
    · have hu : schedResume pid s = .ok (1, s) := by
        rw [schedResume, if_pos hp]
        rfl
      refine ⟨s, bind_of_ok hu, ?_, ?_⟩
      · rw [SchedOp.runnable, if_pos hp]
        exact h
      · rw [SchedOp.charge, if_pos hp]
    · obtain ⟨u, hu, tracked, hv⟩ := h.resume (by omega) adm
      refine ⟨u, bind_of_ok hu, ?_, ?_⟩
      · rw [SchedOp.runnable, if_neg hp]
        exact tracked
      · rw [SchedOp.charge, if_neg hp]
        exact hv
  | suspend pid =>
    obtain ⟨u, hu, tracked, hv⟩ := h.suspend adm
    exact ⟨u, bind_of_ok hu, tracked, hv⟩
  | reset pid =>
    by_cases hp : pid > 99
    · have hu : schedReset pid s = .ok (1, s) := by
        rw [schedReset, if_pos hp]
        rfl
      refine ⟨s, bind_of_ok hu, h, ?_⟩
      rw [SchedOp.charge, if_pos hp]
    · have hu : schedReset pid s =
          .ok (0, RunQueue.setTask pid (fun e => { e with vruntime := 0 }) s) := by
        rw [schedReset, if_neg hp]
        rfl
      refine ⟨_, bind_of_ok hu, h.setTask pid fun _ => rfl, ?_⟩
      rw [SchedOp.charge, if_neg hp]
  | tick => exact ⟨account s, rfl, h.setTask s.current fun _ => rfl, rfl⟩
  | check => exact h.check

theorem init_tracked : Tracked (schedInit : Sched T) ∅ := by
  have nodes : (schedInit : Sched T).nodes = [] := LawfulTree.create_nodes
  have waiting : (schedInit : Sched T).waiting = [] := by
    rw [Sched.waiting, nodes]
    rfl
  refine ⟨⟨?_, fun pid i => ?_⟩, .inl ⟨rfl, nodes⟩, fun h => absurd h (Nat.lt_irrefl 0),
    fun pid => ?_, fun pid h => by cases h⟩
  · rw [waiting]
    exact List.nodup_nil
  · rw [nodes]
    simp [schedInit]
  · rw [Sched.running, if_pos (show (schedInit : Sched T).nrRunning = 0 from rfl)]
    simp

theorem Reachable.tracked {s : Sched T} {R : Finset ℕ} (h : Reachable s R) : Tracked s R := by
  induction h with
  | init => exact init_tracked
  | step s u R op h adm run ih =>
    obtain ⟨w, hw, tracked, -⟩ := ih.run op adm
    obtain ⟨-, rfl⟩ := Prod.mk.inj (Except.ok.inj (hw.symm.trans run))
    exact tracked

structure Accounted (s : Sched T) (R : Finset ℕ) : Prop where
  count : s.nrRunning = R.card
  current : 0 < s.nrRunning →
    s.current ∈ R ∧ s.current ∉ s.waiting ∧ (s.taskTable s.current).n = none
  queued : 0 < s.nrRunning → ∀ pid ∈ R, pid ≠ s.current →
    ∃ i, (s.taskTable pid).n = some i ∧ s.nodes.filter (fun n => n.pid = pid) = [⟨i, pid⟩]
  runnable : ∀ n ∈ s.nodes, n.pid ∈ R
  empty : s.nrRunning = 0 → s.nodes = []

omit [LawfulTree T] in
theorem Linked.filter {s : Sched T} (h : Linked s) {pid i : ℕ} (hi : ⟨i, pid⟩ ∈ s.nodes) :
    s.nodes.filter (fun n => n.pid = pid) = [⟨i, pid⟩] := by
  have nodup := h.nodup
  rw [Sched.waiting] at nodup
  generalize s.nodes = l at hi nodup
  induction l with
  | nil => cases hi
  | cons n l ih =>
    rw [List.map_cons, List.nodup_cons] at nodup
    rcases List.mem_cons.1 hi with rfl | hi
    · have none : l.filter (fun n => n.pid = pid) = [] := by
        refine List.filter_eq_nil_iff.2 fun n hn hp => nodup.1 ?_
        exact List.mem_map.2 ⟨n, hn, of_decide_eq_true hp⟩
      rw [List.filter_cons_of_pos (by simp), none]
    · have hne : n.pid ≠ pid := fun he => nodup.1 (he ▸ List.mem_map.2 ⟨_, hi, rfl⟩)
      rw [List.filter_cons_of_neg (by simpa using hne)]
      exact ih hi nodup.2

omit [LawfulTree T] in
theorem Tracked.accounted {s : Sched T} {R : Finset ℕ} (h : Tracked s R) : Accounted s R := by
  have queued (pid : ℕ) (pos : 0 < s.nrRunning) :
      pid ∈ R ↔ pid = s.current ∨ pid ∈ s.waiting := by
    rw [← h.mem, running_of_pos pos, List.mem_cons]
  refine ⟨?_, fun pos => ?_, fun pos pid hp hc => ?_, fun n hn => ?_, fun h0 => ?_⟩
  · have same : s.running.toFinset = R := by
      ext pid
      rw [List.mem_toFinset]
      exact h.mem pid
    rw [← h.counted.length, ← same, List.toFinset_card_of_nodup h.running_nodup]
  · exact ⟨(queued _ pos).2 (.inl rfl), h.current pos, h.linked.none (h.current pos)⟩
  · obtain ⟨i, hi⟩ := mem_waiting.1 (((queued pid pos).1 hp).resolve_left hc)
    exact ⟨i, (h.linked.node pid i).2 hi, h.linked.filter hi⟩
  · have pos : 0 < s.nrRunning := by
      rcases h.counted with ⟨-, h0⟩ | h1
      · rw [h0] at hn
        cases hn
      · omega
    exact (queued _ pos).2 (.inr (mem_waiting.2 ⟨n.id, hn⟩))
  · rcases h.counted with ⟨-, hn⟩ | h1
    · exact hn
    · omega

omit [LawfulTree T] in
/-- The first statement leaves the vruntimes of the tasks in the tree alone. -/
theorem charge_waiting {s : Sched T} {R : Finset ℕ} (h : Tracked s R) (op : SchedOp)
    (adm : op.admissible s R) (pid : ℕ) (hp : pid ∈ s.waiting) :
    (op.charge s).vruntime pid = s.vruntime pid := by
  have pos : 0 < s.nrRunning := by
    rcases h.counted with ⟨-, h0⟩ | h1
    · rw [Sched.waiting, h0] at hp
      cases hp
    · omega
  have apart := h.current pos
  have other (q : ℕ) (f : Task → Task) (hq : q ∉ s.waiting) :
      (RunQueue.setTask q f s).vruntime pid = s.vruntime pid := by
    have hne : pid ≠ q := fun he => hq (he ▸ hp)
    simp [RunQueue.setTask, Sched.vruntime, hne]
  cases op with
  | resume q =>
    rw [SchedOp.charge]
    split
    · rfl
    · refine other q _ fun hq => apart ?_
      have hr : q ∈ s.running := by
        rw [running_of_pos pos]
        exact List.mem_cons_of_mem _ hq
      rw [← adm ((h.mem q).1 hr)]
      exact hq
  | suspend q => rfl
  | reset q =>
    rw [SchedOp.charge]
    split
    · rfl
    · exact other q _ adm
  | tick =>
    rw [SchedOp.charge, account]
    exact other s.current _ apart
  | check => rfl

/-- After every sequence of admissible operations the accounts are right, and the next one
neither fails nor writes the vruntime of a task in the tree. -/
theorem accounting (s : Sched T) (R : Finset ℕ) (h : Reachable s R) :
    Accounted s R ∧ ∀ op : SchedOp, op.admissible s R → ∃ u, op.run s = .ok ((), u) ∧
      u.vruntime = (op.charge s).vruntime ∧
      ∀ pid ∈ s.waiting, (op.charge s).vruntime pid = s.vruntime pid := by
  refine ⟨h.tracked.accounted, fun op adm => ?_⟩
  obtain ⟨u, hu, -, hv⟩ := h.tracked.run op adm
  exact ⟨u, hu, hv, charge_waiting h.tracked op adm⟩

def SchedOp.result (op : SchedOp) (s : Sched T) : Sched T :=
  match op.run s with
  | .ok (_, u) => u
  | .error _ => s

def ticked (n : ℕ) (s : Sched T) : Sched T :=
  setTask s.current (fun e => { e with vruntime := e.vruntime + UInt32.ofNat n }) s

omit [RedBlackTree T] [LawfulTree T] in
theorem ticked_zero (s : Sched T) : ticked 0 s = s := by
  simp [ticked, setTask]

omit [RedBlackTree T] [LawfulTree T] in
theorem ticked_succ (n : ℕ) (s : Sched T) : account (ticked n s) = ticked (n + 1) s := by
  simp [account, ticked, setTask, UInt32.ofNat_add, UInt32.add_assoc]

omit [LawfulTree T] in
theorem Reachable.ticked {s : Sched T} {R : Finset ℕ} (h : Reachable s R) (n : ℕ)
    (busy : n = 0 ∨ 0 < s.nrRunning) : Reachable (RunQueue.ticked n s) R := by
  induction n with
  | zero => rwa [ticked_zero]
  | succ n ih =>
    have pos : 0 < s.nrRunning := busy.resolve_left (Nat.succ_ne_zero n)
    rw [← ticked_succ]
    exact .step _ _ _ .tick (ih (.inr pos)) pos rfl

def perform : List (ℕ × SchedOp) → Sched T × Finset ℕ → Sched T × Finset ℕ
  | [], c => c
  | (n, op) :: l, c => perform l (op.result (ticked n c.1), op.runnable c.2)

def Allowed : List (ℕ × SchedOp) → Sched T × Finset ℕ → Prop
  | [], _ => True
  | (n, op) :: l, c => (n = 0 ∨ 0 < c.1.nrRunning) ∧ op.admissible (ticked n c.1) c.2 ∧
    Allowed l (op.result (ticked n c.1), op.runnable c.2)

instance (s : Sched T) (R : Finset ℕ) (op : SchedOp) : Decidable (op.admissible s R) :=
  match op with
  | .resume pid => inferInstanceAs (Decidable (pid ∈ R → pid = s.current))
  | .suspend pid => inferInstanceAs (Decidable (pid ∈ R))
  | .reset pid => inferInstanceAs (Decidable (pid ∉ s.waiting))
  | .tick => inferInstanceAs (Decidable (0 < s.nrRunning))
  | .check => .isTrue trivial

instance allowedDecidable : (l : List (ℕ × SchedOp)) → (c : Sched T × Finset ℕ) →
    Decidable (Allowed l c)
  | [], _ => .isTrue trivial
  | (n, op) :: l, c =>
    have := allowedDecidable l (op.result (ticked n c.1), op.runnable c.2)
    inferInstanceAs (Decidable (_ ∧ _ ∧ _))

theorem perform_reachable {l : List (ℕ × SchedOp)} {c : Sched T × Finset ℕ}
    (h : Reachable c.1 c.2) (allowed : Allowed l c) :
    Reachable (perform l c).1 (perform l c).2 := by
  induction l generalizing c with
  | nil => exact h
  | cons a l ih =>
    obtain ⟨n, op⟩ := a
    obtain ⟨busy, adm, rest⟩ := allowed
    have before := h.ticked n busy
    obtain ⟨u, run, -⟩ := before.tracked.run op adm
    have result : op.result (ticked n c.1) = u := by rw [SchedOp.result, run]
    refine ih ?_ rest
    rw [result]
    exact .step _ _ _ op before adm run

def twoTasks : Sched ListTree :=
  (SchedOp.resume 1).result ((SchedOp.resume 0).result schedInit)

theorem twoTasks_reachable : Reachable twoTasks {1, 0} :=
  .step _ _ _ (.resume 1)
    (.step _ _ _ (.resume 0) .init (fun h => by cases h) rfl)
    (fun h => absurd (show 1 ∈ ({0} : Finset ℕ) from h) (by decide)) rfl

theorem twoTasks_accounting : Accounted twoTasks {1, 0} ∧
    ∀ op : SchedOp, op.admissible twoTasks {1, 0} → ∃ u, op.run twoTasks = .ok ((), u) ∧
      u.vruntime = (op.charge twoTasks).vruntime ∧
      ∀ pid ∈ twoTasks.waiting, (op.charge twoTasks).vruntime pid = twoTasks.vruntime pid :=
  accounting twoTasks {1, 0} twoTasks_reachable

end
end BrainMachine.RunQueue
