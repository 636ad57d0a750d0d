import BrainMachine.ColoredQueue
import BrainMachine.WrapAround

set_option autoImplicit false

/-!
# Scheduling decisions

A suspension, a wake-up and the end of a slice take the current process in and out of the tree
along three paths. While the tree is in the order of its comparison, all three leave a current
process that no key is below, and a tree in order. Only the end of a slice moves `min_vruntime`
under a tree that is not empty, and the order survives that unless somebody is half the range ahead.
-/
namespace BrainMachine.Decisions
open Computations RunQueue SortedTree Fairness WrapAround ColoredQueue

theorem keyComp_ge (m x y : UInt32) :
    keyComp m x y ≠ -1 ↔ signed (y - m) ≤ signed (x - m) := by
  simp only [keyComp]
  split
  · omega
  · split <;> omega

/-- The offset from `w` is the difference of the offsets from `m`. -/
theorem signed_rebase {v w m : UInt32} (low : -2147483648 ≤ signed (v - m) - signed (w - m))
    (high : signed (v - m) - signed (w - m) < 2147483648) :
    signed (v - w) = signed (v - m) - signed (w - m) := by
  have hv := toNat_lt v
  have hw := toNat_lt w
  have hm := toNat_lt m
  simp only [signed_eq, toNat_sub_mod] at *
  split at low <;> split at low <;> split <;> omega

section
variable {T : Type} [RedBlackTree T]

def Within (s : Sched T) (p : ℕ) : Prop :=
  -1073741824 < signed (s.vruntime p - s.minVruntime) ∧
    signed (s.vruntime p - s.minVruntime) < 1073741824

/-- Nobody who is runnable is half the range ahead of one that is behind the current process. -/
def Narrow (s : Sched T) (R : Finset ℕ) : Prop := ∀ p ∈ R, ∀ q ∈ R,
  signed (s.vruntime q - s.minVruntime) < signed (s.vruntime s.current - s.minVruntime) →
    signed (s.vruntime p - s.minVruntime) - signed (s.vruntime q - s.minVruntime) < 2147483648

omit [RedBlackTree T] in
theorem narrow_of_within {s : Sched T} {R : Finset ℕ} (h : ∀ p ∈ R, Within s p) : Narrow s R := by
  intro p hp q hq _
  have := (h p hp).2
  have := (h q hq).1
  omega

/-- The current process is one that no key in the tree is below, and the tree is in order. -/
structure Settled (u : Sched T) : Prop where
  least : ∀ n ∈ u.nodes, keyComp u.minVruntime (u.vruntime n.pid) (u.vruntime u.current) ≠ -1
  ordered : Ordered u.compare u.nodes

omit [RedBlackTree T] in
theorem compare_congr {s u : Sched T} (min : u.minVruntime = s.minVruntime)
    (vr : u.vruntime = s.vruntime) : u.compare = s.compare := by
  funext a b
  rw [Sched.compare, Sched.compare, min, vr]

omit [RedBlackTree T] in
/-- The order does not depend on the vruntimes of processes that are not in the tree. -/
theorem ordered_congr {s u : Sched T} {l : List Node} (h : Ordered s.compare l)
    (min : u.minVruntime = s.minVruntime) (vr : ∀ n ∈ l, u.vruntime n.pid = s.vruntime n.pid) :
    Ordered u.compare l := by
  refine List.Pairwise.imp_of_mem (fun {a b} ha hb le => ?_) h
  rw [Sched.compare, min, vr a ha, vr b hb]
  exact le

/-- The order survives a move of `min_vruntime` to the leftmost key, when no key is half the range
ahead of that. -/
theorem ordered_follow {s : Sched T} {n : Node} {l : List Node} (h : Ordered s.compare s.nodes)
    (first : s.nodes = n :: l) (narrow : ∀ m ∈ s.nodes, signed (s.vruntime m.pid - s.minVruntime) -
      signed (s.vruntime n.pid - s.minVruntime) < 2147483648) :
    Ordered (Sched.compare { s with minVruntime := s.vruntime n.pid }) s.nodes := by
  have ahead : ∀ m ∈ s.nodes, signed (s.vruntime n.pid - s.minVruntime) ≤
      signed (s.vruntime m.pid - s.minVruntime) := by
    intro m hm
    rw [first] at h hm
    rcases List.mem_cons.1 hm with rfl | hm
    · exact le_rfl
    · exact (keyComp_le _ _ _).1 ((List.pairwise_cons.1 h).1 m hm)
  have moved (m : Node) (hm : m ∈ s.nodes) : signed (s.vruntime m.pid - s.vruntime n.pid) =
      signed (s.vruntime m.pid - s.minVruntime) - signed (s.vruntime n.pid - s.minVruntime) := by
    have low := ahead m hm
    exact signed_rebase (by omega) (narrow m hm)
  refine List.Pairwise.imp_of_mem (fun {a b} ha hb le => ?_) h
  have le := (keyComp_le _ _ _).1 le
  apply (keyComp_le _ _ _).2
  change signed (s.vruntime a.pid - s.vruntime n.pid) ≤ signed (s.vruntime b.pid - s.vruntime n.pid)
  rw [moved a ha, moved b hb]
  omega

variable [LawfulTree T]

theorem enqueue_ordered {s : Sched T} (pid : ℕ) (h : Ordered s.compare s.nodes) :
    Ordered (enqueue pid s).compare (enqueue pid s).nodes := by
  rw [compare_congr (s := s) (u := enqueue pid s) rfl (enqueue_vruntime pid s)]
  exact LawfulTree.insert_ordered _ s.t ⟨s.fresh, pid⟩ (compare_comparison s) h

theorem ctxtSwitch_settled {s u : Sched T} (h : Ordered s.compare s.nodes)
    (run : ctxtSwitch s = .ok ((), u)) : Settled u := by
  obtain ⟨n, l, first, rfl, rest⟩ := ctxtSwitch_ok run
  have vr : (dequeue n { s with current := n.pid }).vruntime = s.vruntime := dequeue_vruntime n _
  rw [first] at h
  obtain ⟨least, ordered⟩ := List.pairwise_cons.1 h
  constructor
  · intro m hm
    rw [rest] at hm
    rw [vr, keyComp_ge]
    exact (keyComp_le _ _ _).1 (least m hm)
  · rw [rest, compare_congr (s := s) (u := dequeue n { s with current := n.pid }) rfl vr]
    exact ordered

/-- A preemption check settles a tree in order, when the order survives what `min_vruntime` is
assigned. -/
theorem preempt_settled {s u : Sched T} {b : Bool} {n : Node} {l : List Node}
    (h : Ordered s.compare s.nodes) (first : s.nodes = n :: l)
    (moved : b = true → signed (s.vruntime n.pid - s.minVruntime) <
        signed (s.vruntime s.current - s.minVruntime) →
      Ordered (Sched.compare { s with minVruntime := s.vruntime n.pid }) s.nodes)
    (run : preempt b s = .ok ((), u)) : Settled u := by
  rw [preempt_eq b first] at run
  by_cases switch : keyComp s.minVruntime (s.vruntime s.current) (s.vruntime n.pid) > 0
  · rw [if_pos switch] at run
    refine ctxtSwitch_settled (enqueue_ordered s.current ?_) run
    cases b with
    | false => exact h
    | true => exact moved rfl ((keyComp_gt _ _ _).1 switch)
  · rw [if_neg switch] at run
    obtain ⟨-, rfl⟩ := Prod.mk.inj (Except.ok.inj run)
    refine ⟨fun m hm => ?_, h⟩
    rw [first] at h hm
    have here : signed (s.vruntime s.current - s.minVruntime) ≤
        signed (s.vruntime n.pid - s.minVruntime) := by
      rw [keyComp_gt] at switch
      omega
    rw [keyComp_ge]
    rcases List.mem_cons.1 hm with rfl | hm
    · exact here
    · exact here.trans ((keyComp_le _ _ _).1 ((List.pairwise_cons.1 h).1 m hm))

theorem schedSuspend_settled {s u : Sched T} {r : ℤ} (h : Ordered s.compare s.nodes)
    (small : s.current ≤ 99) (others : 1 < s.nrRunning)
    (run : schedSuspend s.current s = .ok (r, u)) : Settled u := by
  rw [schedSuspend, if_neg (by omega)] at run
  obtain ⟨a, w, hw, run⟩ := bind_ok.1 run
  rw [modify_bind] at run
  obtain ⟨-, rfl⟩ := Prod.mk.inj (pure_ok.1 run)
  rw [unqueue, get_bind, if_pos rfl, if_pos others] at hw
  obtain ⟨least, ordered⟩ := ctxtSwitch_settled h hw
  exact ⟨least, ordered⟩

omit [LawfulTree T] in
theorem setTask_ordered {s : Sched T} {pid : ℕ} {f : Task → Task} (h : Ordered s.compare s.nodes)
    (absent : pid ∉ s.waiting) : Ordered (setTask pid f s).compare s.nodes := by
  refine ordered_congr h rfl fun n hn => ?_
  have other : n.pid ≠ pid := by
    rintro rfl
    exact absent (mem_waiting.2 ⟨n.id, hn⟩)
  simp [setTask, Sched.vruntime, other]

/-- A woken process takes over, or is queued behind the current one. -/
theorem schedResume_settled {s u : Sched T} {pid : ℕ} {r : ℤ} (h : Ordered s.compare s.nodes)
    (hp : pid ≤ 99) (pos : 0 < s.nrRunning) (new : pid ≠ s.current) (absent : pid ∉ s.waiting)
    (run : schedResume pid s = .ok (r, u)) : Settled u := by
  rw [schedResume, if_neg (by omega), modify_bind, get_bind,
    if_neg (show (place pid s).nrRunning ≠ 0 from pos.ne'),
    if_neg (show pid ≠ (place pid s).current from new), modify_bind] at run
  obtain ⟨a, w, hw, run⟩ := bind_ok.1 run
  rw [modify_bind] at run
  obtain ⟨-, rfl⟩ := Prod.mk.inj (pure_ok.1 run)
  have queued := enqueue_ordered (s := place pid s) pid (setTask_ordered h absent)
  obtain ⟨l, t, -, hn⟩ := enqueue_nodes pid (place pid s)
  obtain ⟨n, k, first⟩ := List.exists_cons_of_ne_nil (l := (enqueue pid (place pid s)).nodes)
    (by rw [hn]; simp)
  obtain ⟨least, ordered⟩ := preempt_settled (b := false) queued first
    (fun refresh => Bool.noConfusion refresh) hw
  exact ⟨least, ordered⟩

theorem endSlice_settled {s u : Sched T} {R : Finset ℕ} (tracked : Tracked s R)
    (h : Ordered s.compare s.nodes) (narrow : Narrow s R)
    (run : endSlice s = .ok ((), u)) : Settled u := by
  rw [endSlice, get_bind] at run
  rcases ite_ok.1 run with ⟨few, run⟩ | ⟨many, run⟩
  · obtain ⟨-, rfl⟩ := Prod.mk.inj (pure_ok.1 run)
    have alone : u.nodes = [] := by
      rcases tracked.counted with ⟨-, none⟩ | count
      · exact none
      · exact List.eq_nil_of_length_eq_zero (by omega)
    constructor
    · intro m hm
      rw [alone] at hm
      exact absurd hm List.not_mem_nil
    · exact h
  · have length := tracked.counted.pos (by omega)
    obtain ⟨n, l, first⟩ := List.exists_cons_of_ne_nil (l := s.nodes)
      (List.length_pos_iff.1 (by omega))
    have known := tracked.accounted.runnable
    refine preempt_settled h first (fun _ behind => ordered_follow h first fun m hm => ?_) run
    exact narrow m.pid (known m hm) n.pid (known n (first ▸ List.mem_cons_self)) behind

/-- The scheduler after admissible operations, each preemption check of which found nobody half the
range ahead of one that was behind the current process. -/
inductive Steady : Sched T → Finset ℕ → Prop
  | init : Steady schedInit ∅
  | step (s u : Sched T) (R : Finset ℕ) (op : SchedOp) (h : Steady s R)
      (adm : op.admissible s R) (narrow : op = .check → Narrow s R)
      (run : op.run s = .ok ((), u)) : Steady u (op.runnable R)

theorem resume_ordered {s u : Sched T} {R : Finset ℕ} {pid : ℕ} {r : ℤ} (tracked : Tracked s R)
    (h : Ordered s.compare s.nodes) (adm : pid ∈ R → pid = s.current)
    (run : schedResume pid s = .ok (r, u)) : Ordered u.compare u.nodes := by
  by_cases hp : pid ≤ 99
  · by_cases pos : 0 < s.nrRunning
    · have absent : pid ∉ s.waiting := by
        intro hw
        have mem : pid ∈ s.running := running_of_pos pos ▸ List.mem_cons_of_mem _ hw
        rw [adm ((tracked.mem pid).1 mem)] at hw
        exact tracked.current pos hw
      by_cases new : pid = s.current
      · rw [schedResume, if_neg (by omega), modify_bind, get_bind,
          if_neg (show (place pid s).nrRunning ≠ 0 from pos.ne'),
          if_pos (show pid = (place pid s).current from new)] at run
        obtain ⟨-, rfl⟩ := Prod.mk.inj (pure_ok.1 run)
        exact setTask_ordered h absent
      · exact (schedResume_settled h hp pos new absent run).ordered
    · rw [schedResume, if_neg (by omega), modify_bind, get_bind,
        if_pos (show (place pid s).nrRunning = 0 by change s.nrRunning = 0; omega),
        modify_bind] at run
      obtain ⟨-, rfl⟩ := Prod.mk.inj (pure_ok.1 run)
      have empty : s.nodes = [] := tracked.accounted.empty (by omega)
      change Ordered _ s.nodes
      rw [empty]
      exact .nil
  · rw [schedResume, if_pos (by omega)] at run
    obtain ⟨-, rfl⟩ := Prod.mk.inj (pure_ok.1 run)
    exact h

/-- An operation keeps the tree in order, the end of a slice while it is narrow. -/
theorem run_ordered {s u : Sched T} {R : Finset ℕ} {op : SchedOp} (tracked : Tracked s R)
    (h : Ordered s.compare s.nodes) (adm : op.admissible s R)
    (narrow : op = .check → Narrow s R) (run : op.run s = .ok ((), u)) :
    Ordered u.compare u.nodes := by
  cases op with
  | resume pid =>
    obtain ⟨r, w, hw, done⟩ := bind_ok.1 run
    obtain ⟨-, rfl⟩ := Prod.mk.inj (pure_ok.1 done)
    exact resume_ordered tracked h adm hw
  | suspend pid =>
    obtain ⟨r, w, hw, done⟩ := bind_ok.1 run
    obtain ⟨-, rfl⟩ := Prod.mk.inj (pure_ok.1 done)
    obtain ⟨v, hv, -, vr⟩ := tracked.suspend adm
    obtain ⟨-, rfl⟩ := Prod.mk.inj (Except.ok.inj (hv.symm.trans hw))
    obtain ⟨sub, min⟩ := schedSuspend_sublist tracked.linked hw
    rw [compare_congr min vr]
    exact h.sublist sub
  | reset pid =>
    obtain ⟨r, w, hw, done⟩ := bind_ok.1 run
    obtain ⟨-, rfl⟩ := Prod.mk.inj (pure_ok.1 done)
    rw [schedReset] at hw
    rcases ite_ok.1 hw with ⟨-, hw⟩ | ⟨-, hw⟩
    · obtain ⟨-, rfl⟩ := Prod.mk.inj (pure_ok.1 hw)
      exact h
    · rw [modify_bind] at hw
      obtain ⟨-, rfl⟩ := Prod.mk.inj (pure_ok.1 hw)
      exact setTask_ordered h adm
  | tick =>
    obtain ⟨-, rfl⟩ := Prod.mk.inj (modify_ok.1 run)
    exact setTask_ordered h (tracked.current adm)
  | check => exact (endSlice_settled tracked h (narrow rfl) run).ordered

/-- That the tree is in order is not lost while the slices end narrow. -/
theorem Steady.ordered {s : Sched T} {R : Finset ℕ} (h : Steady s R) :
    Reachable s R ∧ Ordered s.compare s.nodes := by
  induction h with
  | init =>
    refine ⟨.init, ?_⟩
    rw [show (schedInit : Sched T).nodes = [] from LawfulTree.create_nodes]
    exact .nil
  | step s u R op _ adm narrow run ih =>
    obtain ⟨reachable, ordered⟩ := ih
    exact ⟨.step s u R op reachable adm run,
      run_ordered reachable.tracked ordered adm narrow run⟩

/-- While no preemption check finds somebody half the range ahead, no key in the tree is below that
of the process that a decision picks, and the decision changes the runnable processes by the one
that is suspended or resumed. -/
theorem scheduling_decisions (s : Sched T) (R : Finset ℕ) (h : Steady s R) :
    (1 < s.nrRunning → ∃ u, schedSuspend s.current s = .ok (0, u) ∧ Settled u ∧
      ∀ q, q ∈ u.running ↔ q ∈ s.running ∧ q ≠ s.current) ∧
    (∀ pid ≤ 99, pid ∉ s.running → 0 < s.nrRunning →
      ∃ u, schedResume pid s = .ok (0, u) ∧ Settled u ∧
        ∀ q, q ∈ u.running ↔ q ∈ s.running ∨ q = pid) ∧
    ((∀ p ∈ s.running, Within s p) →
      ∃ u, endSlice s = .ok ((), u) ∧ Settled u ∧ ∀ q, q ∈ u.running ↔ q ∈ s.running) := by
  obtain ⟨reachable, tree⟩ := h.ordered
  have tracked := reachable.tracked
  refine ⟨fun others => ?_, fun pid hp out pos => ?_, fun window => ?_⟩
  · have cur := (tracked.accounted.current (by omega)).1
    obtain ⟨u, run, after, -⟩ := tracked.suspend cur
    refine ⟨u, run, schedSuspend_settled tree (tracked.small _ cur) others run, fun q => ?_⟩
    rw [after.mem, tracked.mem, Finset.mem_erase]
    exact and_comm
  · have cur := (tracked.accounted.current pos).1
    have new : pid ≠ s.current := fun he => out (he ▸ (tracked.mem _).2 cur)
    have absent : pid ∉ s.waiting := fun hw =>
      out (running_of_pos pos ▸ List.mem_cons_of_mem _ hw)
    obtain ⟨u, run, after, -⟩ := tracked.resume hp fun mem =>
      absurd ((tracked.mem pid).2 mem) out
    refine ⟨u, run, schedResume_settled tree hp pos new absent run, fun q => ?_⟩
    rw [after.mem, tracked.mem, Finset.mem_insert]
    exact or_comm
  · obtain ⟨u, run, after, -⟩ := tracked.check
    have narrow : Narrow s R := narrow_of_within fun p mem => window p ((tracked.mem p).2 mem)
    refine ⟨u, run, endSlice_settled tracked tree narrow run, fun q => ?_⟩
    rw [after.mem, tracked.mem]

end

def turnTaken : Sched ListTree := SchedOp.check.result (account (account twoTasks))

theorem turnTaken_steady : Steady turnTaken {1, 0} := by
  have rest (op : SchedOp) (R : Finset ℕ) (s : Sched ListTree) (h : op ≠ .check) :
      op = .check → Narrow s R := fun he => absurd he h
  have first : Steady ((SchedOp.resume 0).result (schedInit : Sched ListTree)) {0} :=
    .step _ _ _ (.resume 0) .init (by decide) (rest _ _ _ (by decide)) rfl
  have both : Steady twoTasks {1, 0} :=
    .step _ _ _ (.resume 1) first (by decide) (rest _ _ _ (by decide)) rfl
  have tick : Steady (account twoTasks) {1, 0} :=
    .step _ _ _ .tick both (by decide) (rest _ _ _ (by decide)) rfl
  have ticks : Steady (account (account twoTasks)) {1, 0} :=
    .step _ _ _ .tick tick (by decide) (rest _ _ _ (by decide)) rfl
  exact .step _ _ _ .check ticks trivial (fun _ => by unfold Narrow; decide) rfl

theorem turnTaken_decisions :
    (∃ u, schedSuspend turnTaken.current turnTaken = .ok (0, u) ∧ Settled u ∧
      ∀ q, q ∈ u.running ↔ q ∈ turnTaken.running ∧ q ≠ turnTaken.current) ∧
    (∃ u, schedResume 2 turnTaken = .ok (0, u) ∧ Settled u ∧
      ∀ q, q ∈ u.running ↔ q ∈ turnTaken.running ∨ q = 2) ∧
    ∃ u, endSlice turnTaken = .ok ((), u) ∧ Settled u ∧
      ∀ q, q ∈ u.running ↔ q ∈ turnTaken.running := by
  obtain ⟨suspend, resume, check⟩ := scheduling_decisions turnTaken {1, 0} turnTaken_steady
  exact ⟨suspend (by decide), resume 2 (by decide) (by decide) (by decide),
    check (by unfold Within; decide)⟩

def strayCalls : List (ℕ × SchedOp) :=
  [(0, .resume 1), (2147483647, .suspend 1), (0, .resume 2), (2147483648, .suspend 2),
    (0, .resume 3), (2147483649, .suspend 3), (0, .resume 0), (0, .resume 1), (0, .resume 2),
    (0, .resume 3), (3, .check), (0, .suspend 0)]

def stray : Sched NodeTree × Finset ℕ := perform strayCalls (schedInit, ∅)

theorem stray_reachable : Reachable stray.1 stray.2 :=
  perform_reachable .init (by decide +kernel)

/-- Processes 1 and 2 are two ticks before and after `min_vruntime`, and the tree has them in the
wrong order: 2 takes over from process 3. -/
theorem stray_picks : ¬∀ (s : Sched NodeTree) (R : Finset ℕ), Reachable s R →
    (∀ p ∈ s.running, Within s p) → 1 < s.nrRunning →
      ∃ u, schedSuspend s.current s = .ok (0, u) ∧
        ∀ n ∈ u.nodes, keyComp u.minVruntime (u.vruntime n.pid) (u.vruntime u.current) ≠ -1 := by
  intro h
  obtain ⟨u, run, least⟩ := h stray.1 stray.2 stray_reachable
    (by unfold Within; decide +kernel) (by decide +kernel)
  have behind : (schedSuspend stray.1.current stray.1).toOption.any (fun r => r.2.nodes.any
      fun n => keyComp r.2.minVruntime (r.2.vruntime n.pid) (r.2.vruntime r.2.current) = -1) := by
    decide +kernel
  rw [run] at behind
  obtain ⟨n, mem, below⟩ := List.any_eq_true.1 behind
  exact least n mem (of_decide_eq_true below)

end BrainMachine.Decisions
