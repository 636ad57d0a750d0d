import BrainMachine.Fairness

set_option autoImplicit false

/-!
# Wrap-around

Every 32-bit counter of the scheduler is given the integer that it counts. The comparison is the
one of the integers as long as they are less than half the range away from that of `min_vruntime`,
which follows only when a slice ends in a switch or a process wakes alone.
-/
namespace BrainMachine.WrapAround
open Computations RunQueue Runs SortedTree Fairness

/-- The scheduler, the processes that are runnable, and the integers that their vruntimes and
`min_vruntime` count. -/
structure Clock (T : Type) where
  sched : Sched T
  runnable : Finset ℕ
  real : ℕ → ℤ
  base : ℤ

def Counts (v : UInt32) (x : ℤ) : Prop := (v.toNat : ℤ) = x % 4294967296

def Exact (min : UInt32) (v : ℕ → UInt32) (x : ℕ → ℤ) (R : Finset ℕ) : Prop :=
  ∀ p ∈ R, ∀ q ∈ R, keyComp min (v p) (v q) = (x p - x q).sign

def Sorted (x : ℕ → ℤ) (l : List Node) : Prop := l.Pairwise fun y z => x y.pid ≤ x z.pid

theorem keyComp_sign (m v w : UInt32) :
    keyComp m v w = (signed (v - m) - signed (w - m)).sign := by
  rcases lt_trichotomy (signed (v - m)) (signed (w - m)) with lt | eq | gt
  · rw [Int.sign_eq_neg_one_of_neg (by omega)]
    simp [keyComp, lt, lt.ne]
  · simp [keyComp, eq]
  · rw [Int.sign_eq_one_of_pos (by omega)]
    simp [keyComp, gt.ne', gt.le]

theorem signed_real {v m : UInt32} {x b : ℤ} (hv : Counts v x) (hm : Counts m b)
    (low : -2147483648 ≤ x - b) (high : x - b < 2147483648) : signed (v - m) = x - b := by
  rw [Counts] at hv hm
  rw [signed_eq]
  simp only [toNat_sub_mod]
  have := toNat_lt v
  have := toNat_lt m
  split <;> omega

section
variable {T : Type} [RedBlackTree T]

def charged (c : Clock T) : SchedOp → ℕ → ℤ
  | .resume pid =>
    if pid > 99 ∨ c.sched.vruntime pid > wakeFloor c.sched.minVruntime then c.real
    else Function.update c.real pid
      (if c.sched.minVruntime < schedLatency then c.base else c.base - 2)
  | .tick => Function.update c.real c.sched.current (c.real c.sched.current + 1)
  | _ => c.real

def followed (c : Clock T) : SchedOp → ℤ
  | .resume pid =>
    if pid ≤ 99 ∧ c.sched.nrRunning = 0 then charged c (.resume pid) pid else c.base
  | .check =>
    match c.sched.nodes with
    | [] => c.base
    | n :: _ =>
      if 2 ≤ c.sched.nrRunning ∧ keyComp c.sched.minVruntime
          (c.sched.vruntime c.sched.current) (c.sched.vruntime n.pid) > 0 then c.real n.pid
      else c.base
  | _ => c.base

def Admits (c : Clock T) : SchedOp → Prop
  | .resume pid => pid ∉ c.runnable
  | .suspend pid => pid ∈ c.runnable
  | .reset _ => False
  | .tick => 0 < c.sched.nrRunning
  | .check => True

structure ClockStep (c : Clock T) (op : SchedOp) (d : Clock T) : Prop where
  admits : Admits c op
  run : op.run c.sched = .ok ((), d.sched)
  runnable : d.runnable = op.runnable c.runnable
  real : d.real = charged c op
  base : d.base = followed c op

def clockInit : Clock T := ⟨schedInit, ∅, fun _ => 0, 0⟩

structure InOrder (c : Clock T) : Prop where
  exact : Exact c.sched.minVruntime c.sched.vruntime c.real c.runnable
  ordered : Ordered c.sched.compare c.sched.nodes

def Undisturbed (c d : Clock T) : Prop := ∀ p ∈ d.runnable, ∀ q ∈ d.runnable,
  keyComp d.sched.minVruntime (d.sched.vruntime p) (d.sched.vruntime q) =
    keyComp c.sched.minVruntime (d.sched.vruntime p) (d.sched.vruntime q)

def Near (c : Clock T) (p : ℕ) : Prop :=
  -2147483648 ≤ c.real p - c.base ∧ c.real p - c.base < 2147483648

/-- The operation takes no counter out of the range of the comparison: no tick beside others at
its end; no wake-up beside a process that has left it, nor of one that has; and no switch while
somebody is half the range ahead. -/
def InRange (c : Clock T) : SchedOp → Prop
  | .resume pid => pid ≤ 99 → 0 < c.sched.nrRunning → (∀ p ∈ c.runnable, Near c p) ∧
    (c.sched.vruntime pid > wakeFloor c.sched.minVruntime → Near c pid)
  | .tick => 2 ≤ c.sched.nrRunning → c.real c.sched.current - c.base < 2147483647
  | .check => ∀ p ∈ c.runnable, ∀ q ∈ c.runnable, c.real q < c.real c.sched.current →
    c.real p - c.real q < 2147483648
  | _ => True

structure Timed (c : Clock T) : Prop where
  tracked : Tracked c.sched c.runnable
  counts : ∀ p, Counts (c.sched.vruntime p) (c.real p)
  base : Counts c.sched.minVruntime c.base
  near : 2 ≤ c.sched.nrRunning → ∀ p ∈ c.runnable, Near c p
  sorted : Sorted c.real c.sched.nodes

omit [RedBlackTree T] in
theorem exact_of_near {min : UInt32} {v : ℕ → UInt32} {x : ℕ → ℤ} {b : ℤ} {R : Finset ℕ}
    (counts : ∀ p, Counts (v p) (x p)) (base : Counts min b)
    (near : ∀ p ∈ R, -2147483648 ≤ x p - b ∧ x p - b < 2147483648) : Exact min v x R := by
  intro p hp q hq
  have ⟨lowp, highp⟩ := near p hp
  have ⟨lowq, highq⟩ := near q hq
  rw [keyComp_sign, signed_real (counts p) base lowp highp, signed_real (counts q) base lowq highq]
  congr 1
  omega

theorem Exact.le {min : UInt32} {v : ℕ → UInt32} {x : ℕ → ℤ} {R : Finset ℕ}
    (h : Exact min v x R) {p q : ℕ} (hp : p ∈ R) (hq : q ∈ R) :
    keyComp min (v p) (v q) ≠ 1 ↔ x p ≤ x q := by
  rw [h p hp q hq, Ne, Int.sign_eq_one_iff_pos]
  omega

theorem Exact.gt {min : UInt32} {v : ℕ → UInt32} {x : ℕ → ℤ} {R : Finset ℕ}
    (h : Exact min v x R) {p q : ℕ} (hp : p ∈ R) (hq : q ∈ R) :
    keyComp min (v p) (v q) > 0 ↔ x q < x p := by
  rw [h p hp q hq, gt_iff_lt, Int.sign_pos_iff]
  omega

theorem Timed.exact {c : Clock T} (h : Timed c) :
    Exact c.sched.minVruntime c.sched.vruntime c.real c.runnable := by
  by_cases two : 2 ≤ c.sched.nrRunning
  · exact exact_of_near h.counts h.base (h.near two)
  · have one : c.runnable.card ≤ 1 := by
      have count := h.tracked.accounted.count
      omega
    intro p hp q hq
    rw [Finset.card_le_one.1 one p hp q hq, keyComp_sign, Int.sub_self, Int.sub_self]

theorem Timed.inOrder {c : Clock T} (h : Timed c) : InOrder c := by
  refine ⟨h.exact, List.Pairwise.imp_of_mem (fun {y z} hy hz le => ?_) h.sorted⟩
  have known := h.tracked.accounted.runnable
  exact (h.exact.le (known y hy) (known z hz)).2 le

variable [LawfulTree T]

theorem enqueue_sorted {s : Sched T} {x : ℕ → ℤ} {R : Finset ℕ} {pid : ℕ}
    (exact' : Exact s.minVruntime s.vruntime x R) (mem : pid ∈ R) (known : ∀ n ∈ s.nodes, n.pid ∈ R)
    (sorted : Sorted x s.nodes) :
    Sorted x (enqueue pid s).nodes ∧ ∀ n ∈ (enqueue pid s).nodes, n.pid ∈ R := by
  obtain ⟨l, r, hs, hu⟩ := enqueue_nodes pid s
  have known' : ∀ n ∈ (enqueue pid s).nodes, n.pid ∈ R := by
    intro n hn
    rw [hu, List.mem_append, List.mem_cons] at hn
    rcases hn with hn | rfl | hn
    · exact known n (by rw [hs]; exact List.mem_append_left _ hn)
    · exact mem
    · exact known n (by rw [hs]; exact List.mem_append_right _ hn)
  have before : Ordered s.compare s.nodes := by
    refine List.Pairwise.imp_of_mem (fun {y z} hy hz le => ?_) sorted
    exact (exact'.le (known y hy) (known z hz)).2 le
  have after : Ordered s.compare (enqueue pid s).nodes :=
    LawfulTree.insert_ordered _ s.t ⟨s.fresh, pid⟩ (compare_comparison s) before
  refine ⟨List.Pairwise.imp_of_mem (fun {y z} hy hz le => ?_) after, known'⟩
  exact (exact'.le (known' y hy) (known' z hz)).1 le

theorem ctxtSwitch_sorted {s u : Sched T} {x : ℕ → ℤ} (h : ctxtSwitch s = .ok ((), u))
    (sorted : Sorted x s.nodes) : Sorted x u.nodes ∧ u.minVruntime = s.minVruntime := by
  obtain ⟨n, l, hs, rfl, hl⟩ := ctxtSwitch_ok h
  rw [hs] at sorted
  rw [hl]
  exact ⟨(List.pairwise_cons.1 sorted).2, rfl⟩

/-- A preemption check keeps the tree sorted, when the comparison is the real one by what
`min_vruntime` is assigned. -/
theorem preempt_sorted {s u : Sched T} {x : ℕ → ℤ} {R : Finset ℕ} {b : Bool} {n : Node}
    {l : List Node} (h : preempt b s = .ok ((), u)) (first : s.nodes = n :: l)
    (mem : s.current ∈ R) (known : ∀ n ∈ s.nodes, n.pid ∈ R) (sorted : Sorted x s.nodes)
    (exact' : keyComp s.minVruntime (s.vruntime s.current) (s.vruntime n.pid) > 0 →
      Exact (if b then s.vruntime n.pid else s.minVruntime) s.vruntime x R) :
    Sorted x u.nodes ∧ u.minVruntime =
      if keyComp s.minVruntime (s.vruntime s.current) (s.vruntime n.pid) > 0 then
        (if b then s.vruntime n.pid else s.minVruntime) else s.minVruntime := by
  rw [preempt_eq b first] at h
  by_cases switch : keyComp s.minVruntime (s.vruntime s.current) (s.vruntime n.pid) > 0
  · rw [if_pos switch] at h ⊢
    obtain ⟨queued, -⟩ := enqueue_sorted
      (s := { s with minVruntime := if b then s.vruntime n.pid else s.minVruntime })
      (exact' switch) mem known sorted
    exact ctxtSwitch_sorted h queued
  · rw [if_neg switch] at h ⊢
    obtain ⟨-, rfl⟩ := Prod.mk.inj (Except.ok.inj h)
    exact ⟨sorted, rfl⟩

omit [LawfulTree T] in
theorem Sorted.update {s : Sched T} {x : ℕ → ℤ} {pid : ℕ} (h : Sorted x s.nodes)
    (out : pid ∉ s.waiting) (y : ℤ) : Sorted (Function.update x pid y) s.nodes := by
  refine List.Pairwise.imp_of_mem (fun {m n} hm hn le => ?_) h
  have other (k : Node) (hk : k ∈ s.nodes) : k.pid ≠ pid :=
    fun he => out (mem_waiting.2 ⟨k.id, he ▸ hk⟩)
  rw [Function.update_of_ne (other m hm), Function.update_of_ne (other n hn)]
  exact le

theorem counts_succ {v : UInt32} {x : ℤ} (h : Counts v x) : Counts (v + 1) (x + 1) := by
  have add : (v + 1).toNat = (v.toNat + 1) % 4294967296 := UInt32.toNat_add v 1
  rw [Counts] at h ⊢
  omega

theorem counts_wakeFloor {min : UInt32} {b : ℤ} (h : Counts min b) :
    Counts (wakeFloor min) (if min < schedLatency then b else b - 2) := by
  have latency : schedLatency.toNat = 2 := rfl
  rw [wakeFloor]
  split
  · exact h
  · rename_i high
    have sub := toNat_sub_mod min schedLatency
    have lt := toNat_lt min
    rw [UInt32.lt_iff_toNat_lt] at high
    rw [Counts] at h ⊢
    omega

omit [RedBlackTree T] [LawfulTree T] in
theorem charged_tick (c : Clock T) (p : ℕ) : charged c .tick p =
    if p = c.sched.current then c.real p + 1 else c.real p := by
  rw [charged, Function.update_apply]
  split
  · rename_i hp
    rw [hp]
  · rfl

omit [LawfulTree T] in
theorem Timed.tick {c : Clock T} (h : Timed c) (pos : 0 < c.sched.nrRunning)
    (range : 2 ≤ c.sched.nrRunning → c.real c.sched.current - c.base < 2147483647) :
    Timed ⟨account c.sched, c.runnable, charged c .tick, c.base⟩ := by
  have tracked : Tracked (account c.sched) c.runnable :=
    h.tracked.setTask c.sched.current fun _ => rfl
  refine ⟨tracked, fun p => ?_, h.base, fun two p hp => ?_, ?_⟩
  · change Counts ((account c.sched).vruntime p) (charged c .tick p)
    rw [account_vruntime, charged_tick]
    by_cases hp : p = c.sched.current
    · rw [if_pos hp, if_pos hp]
      exact counts_succ (h.counts p)
    · rw [if_neg hp, if_neg hp]
      exact h.counts p
  · have ⟨low, high⟩ := h.near two p hp
    have last := range two
    change -2147483648 ≤ charged c .tick p - c.base ∧ charged c .tick p - c.base < 2147483648
    rw [charged_tick]
    by_cases here : p = c.sched.current
    · rw [← here] at last
      rw [if_pos here]
      omega
    · rw [if_neg here]
      exact ⟨low, high⟩
  · exact h.sorted.update (h.tracked.current pos) _

/-- A suspension takes nodes out of the tree and leaves `min_vruntime` alone. -/
theorem schedSuspend_sublist {s u : Sched T} {pid : ℕ} {r : ℤ} (linked : Linked s)
    (h : schedSuspend pid s = .ok (r, u)) :
    u.nodes.Sublist s.nodes ∧ u.minVruntime = s.minVruntime := by
  rw [schedSuspend] at h
  rcases ite_ok.1 h with ⟨-, h⟩ | ⟨-, h⟩
  · obtain ⟨-, rfl⟩ := Prod.mk.inj (pure_ok.1 h)
    exact ⟨.refl _, rfl⟩
  · obtain ⟨a, w, hw, h⟩ := bind_ok.1 h
    rw [modify_bind] at h
    obtain ⟨-, rfl⟩ := Prod.mk.inj (pure_ok.1 h)
    change w.nodes.Sublist s.nodes ∧ w.minVruntime = s.minVruntime
    rw [unqueue, get_bind] at hw
    rcases ite_ok.1 hw with ⟨-, hw⟩ | ⟨-, hw⟩
    · rcases ite_ok.1 hw with ⟨-, hw⟩ | ⟨-, hw⟩
      · obtain ⟨n, l, hs, rfl, hl⟩ := ctxtSwitch_ok hw
        rw [hl, hs]
        exact ⟨List.sublist_cons_self n l, rfl⟩
      · obtain ⟨-, rfl⟩ := Prod.mk.inj (pure_ok.1 hw)
        exact ⟨.refl _, rfl⟩
    · cases node : (s.taskTable pid).n with
      | none =>
        rw [node] at hw
        exact (fault_ok.1 hw).elim
      | some i =>
        rw [node] at hw
        obtain ⟨-, rfl⟩ := Prod.mk.inj (modify_ok.1 hw)
        rw [dequeue_nodes ((linked.node pid i).1 node)]
        exact ⟨List.erase_sublist, rfl⟩

theorem Timed.suspend {c : Clock T} {u : Sched T} {pid : ℕ} {r : ℤ} (h : Timed c)
    (mem : pid ∈ c.runnable) (run : schedSuspend pid c.sched = .ok (r, u)) :
    Timed ⟨u, c.runnable.erase pid, c.real, c.base⟩ ∧ u.minVruntime = c.sched.minVruntime := by
  obtain ⟨w, hw, tracked, vr⟩ := h.tracked.suspend mem
  obtain ⟨-, rfl⟩ := Prod.mk.inj (Except.ok.inj (hw.symm.trans run))
  obtain ⟨sub, min⟩ := schedSuspend_sublist h.tracked.linked run
  refine ⟨⟨tracked, fun p => ?_, ?_, fun two p hp => ?_, ?_⟩, min⟩
  · change Counts (w.vruntime p) (c.real p)
    rw [vr]
    exact h.counts p
  · change Counts w.minVruntime c.base
    rw [min]
    exact h.base
  · have fewer := Finset.card_le_card (Finset.erase_subset pid c.runnable)
    rw [← h.tracked.accounted.count, ← tracked.accounted.count] at fewer
    exact h.near (Nat.le_trans two fewer) p (Finset.mem_of_mem_erase hp)
  · exact h.sorted.sublist sub

omit [RedBlackTree T] [LawfulTree T] in
theorem place_vruntime (pid p : ℕ) (s : Sched T) : (place pid s).vruntime p =
    if p = pid then
      if s.vruntime pid > wakeFloor s.minVruntime then s.vruntime pid else wakeFloor s.minVruntime
    else s.vruntime p := by
  by_cases hp : p = pid <;> simp [place, setTask, Sched.vruntime, hp]

omit [RedBlackTree T] [LawfulTree T] in
theorem charged_resume (c : Clock T) {pid : ℕ} (hp : pid ≤ 99) (p : ℕ) :
    charged c (.resume pid) p =
      if p = pid then
        if c.sched.vruntime pid > wakeFloor c.sched.minVruntime then c.real pid
        else if c.sched.minVruntime < schedLatency then c.base else c.base - 2
      else c.real p := by
  rw [charged]
  by_cases kept : c.sched.vruntime pid > wakeFloor c.sched.minVruntime
  · rw [if_pos (.inr kept), if_pos kept]
    split
    · rename_i here
      rw [here]
    · rfl
  · rw [if_neg (fun h => h.elim (by omega) kept), if_neg kept, Function.update_apply]

omit [LawfulTree T] in
theorem counts_placed {c : Clock T} (h : Timed c) {pid : ℕ} (hp : pid ≤ 99) (p : ℕ) :
    Counts ((place pid c.sched).vruntime p) (charged c (.resume pid) p) := by
  rw [place_vruntime, charged_resume c hp]
  by_cases here : p = pid
  · rw [if_pos here, if_pos here]
    by_cases kept : c.sched.vruntime pid > wakeFloor c.sched.minVruntime
    · rw [if_pos kept, if_pos kept]
      exact h.counts pid
    · rw [if_neg kept, if_neg kept]
      exact counts_wakeFloor h.base
  · rw [if_neg here, if_neg here]
    exact h.counts p

omit [RedBlackTree T] [LawfulTree T] in
theorem placed_near {c : Clock T} {pid : ℕ} (hp : pid ≤ 99)
    (others : ∀ p ∈ c.runnable, Near c p)
    (old : c.sched.vruntime pid > wakeFloor c.sched.minVruntime → Near c pid) :
    ∀ p ∈ insert pid c.runnable, -2147483648 ≤ charged c (.resume pid) p - c.base ∧
      charged c (.resume pid) p - c.base < 2147483648 := by
  intro p mem
  rw [charged_resume c hp]
  by_cases here : p = pid
  · rw [if_pos here]
    by_cases kept : c.sched.vruntime pid > wakeFloor c.sched.minVruntime
    · rw [if_pos kept]
      exact old kept
    · rw [if_neg kept]
      split <;> omega
  · rw [if_neg here]
    exact others p (Finset.mem_of_mem_insert_of_ne mem here)

theorem schedResume_sorted {s u : Sched T} {x : ℕ → ℤ} {R : Finset ℕ} {pid : ℕ} {r : ℤ}
    (h : schedResume pid s = .ok (r, u)) (hp : pid ≤ 99) (pos : 0 < s.nrRunning)
    (new : pid ≠ s.current) (mem : pid ∈ R) (cur : s.current ∈ R)
    (known : ∀ n ∈ s.nodes, n.pid ∈ R) (sorted : Sorted x s.nodes)
    (exact' : Exact s.minVruntime (place pid s).vruntime x R) :
    Sorted x u.nodes ∧ u.minVruntime = s.minVruntime := by
  rw [schedResume, if_neg (by omega), modify_bind, get_bind,
    if_neg (show (place pid s).nrRunning ≠ 0 by exact pos.ne'),
    if_neg (show pid ≠ (place pid s).current from new), modify_bind] at h
  obtain ⟨a, w, hw, h⟩ := bind_ok.1 h
  rw [modify_bind] at h
  obtain ⟨-, rfl⟩ := Prod.mk.inj (pure_ok.1 h)
  obtain ⟨queued, known'⟩ := enqueue_sorted (s := place pid s) exact' mem known sorted
  obtain ⟨l, t, -, hn⟩ := enqueue_nodes pid (place pid s)
  obtain ⟨n, k, first⟩ := List.exists_cons_of_ne_nil (l := (enqueue pid (place pid s)).nodes)
    (by rw [hn]; simp)
  have same : (enqueue pid (place pid s)).vruntime = (place pid s).vruntime :=
    enqueue_vruntime pid _
  obtain ⟨switched, min⟩ := preempt_sorted hw first cur known' queued fun _ => by
    rw [same]
    exact exact'
  refine ⟨switched, min.trans ?_⟩
  simp only [Bool.false_eq_true, if_false, ite_self]
  rfl

theorem Timed.resume {c : Clock T} {u : Sched T} {pid : ℕ} {r : ℤ} (h : Timed c) (hp : pid ≤ 99)
    (out : pid ∉ c.runnable) (range : 0 < c.sched.nrRunning → (∀ p ∈ c.runnable, Near c p) ∧
      (c.sched.vruntime pid > wakeFloor c.sched.minVruntime → Near c pid))
    (run : schedResume pid c.sched = .ok (r, u)) :
    Timed ⟨u, insert pid c.runnable, charged c (.resume pid), followed c (.resume pid)⟩ ∧
      (u.minVruntime = c.sched.minVruntime ∨ c.runnable = ∅) := by
  obtain ⟨w, hw, tracked, vr⟩ := h.tracked.resume hp fun hr => absurd hr out
  obtain ⟨-, rfl⟩ := Prod.mk.inj (Except.ok.inj (hw.symm.trans run))
  have counts (p : ℕ) : Counts (w.vruntime p) (charged c (.resume pid) p) := by
    rw [vr]
    exact counts_placed h hp p
  by_cases idle : c.sched.nrRunning = 0
  · have empty : c.runnable = ∅ := by
      rw [← Finset.card_eq_zero, ← h.tracked.accounted.count, idle]
    have nodes : w.nodes = [] ∧ w.minVruntime = w.vruntime pid := by
      rw [schedResume, if_neg (by omega), modify_bind, get_bind,
        if_pos (show (place pid c.sched).nrRunning = 0 from idle), modify_bind] at run
      obtain ⟨-, rfl⟩ := Prod.mk.inj (pure_ok.1 run)
      exact ⟨h.tracked.accounted.empty idle, rfl⟩
    have base : followed c (.resume pid) = charged c (.resume pid) pid :=
      if_pos ⟨hp, idle⟩
    refine ⟨⟨tracked, counts, ?_, fun two => ?_, ?_⟩, .inr empty⟩
    · change Counts w.minVruntime (followed c (.resume pid))
      rw [nodes.2, base]
      exact counts pid
    · have count := tracked.accounted.count
      rw [empty, insert_empty_eq, Finset.card_singleton] at count
      change 2 ≤ w.nrRunning at two
      omega
    · change Sorted _ w.nodes
      rw [nodes.1]
      exact .nil
  · have pos : 0 < c.sched.nrRunning := by omega
    have base : followed c (.resume pid) = c.base := if_neg fun h => idle h.2
    have near := placed_near hp (range pos).1 (range pos).2
    have cur := (h.tracked.accounted.current pos).1
    have absent : pid ∉ c.sched.waiting := by
      intro hw
      obtain ⟨i, hi⟩ := mem_waiting.1 hw
      exact out (h.tracked.accounted.runnable _ hi)
    have sorted : Sorted (charged c (.resume pid)) c.sched.nodes := by
      rw [charged]
      split
      · exact h.sorted
      · exact h.sorted.update absent _
    obtain ⟨queued, min⟩ := schedResume_sorted run hp pos (fun he => out (he ▸ cur))
      (Finset.mem_insert_self pid _) (Finset.mem_insert_of_mem cur)
      (fun n hn => Finset.mem_insert_of_mem (h.tracked.accounted.runnable n hn)) sorted
      (exact_of_near (counts_placed h hp) h.base near)
    rw [base]
    refine ⟨⟨tracked, counts, ?_, fun _ => near, queued⟩, .inl min⟩
    change Counts w.minVruntime c.base
    rw [min]
    exact h.base

omit [LawfulTree T] in
/-- Nobody is behind the leftmost process, when the current one is not. -/
theorem Timed.leftmost {c : Clock T} (h : Timed c) {n : Node} {l : List Node}
    (first : c.sched.nodes = n :: l) {p : ℕ} (hp : p ∈ c.runnable)
    (ahead : c.real n.pid < c.real c.sched.current) : c.real n.pid ≤ c.real p := by
  by_cases cur : p = c.sched.current
  · rw [cur]
    exact ahead.le
  · obtain ⟨i, -, filter⟩ := h.tracked.accounted.queued (h.tracked.pos hp) p hp cur
    have mem : ⟨i, p⟩ ∈ n :: l := by
      rw [← first]
      exact (List.mem_filter.1 (filter ▸ List.mem_cons_self)).1
    have sorted := h.sorted
    rw [first] at sorted
    rcases List.mem_cons.1 mem with rfl | mem
    · exact le_rfl
    · exact (List.pairwise_cons.1 sorted).1 _ mem

/-- A switch makes the amount of the leftmost process the base of the comparison. -/
theorem Timed.check {c : Clock T} {u : Sched T} (h : Timed c)
    (range : ∀ p ∈ c.runnable, ∀ q ∈ c.runnable, c.real q < c.real c.sched.current →
      c.real p - c.real q < 2147483648) (run : endSlice c.sched = .ok ((), u)) :
    Timed ⟨u, c.runnable, c.real, followed c .check⟩ := by
  obtain ⟨w, hw, tracked, vr⟩ := h.tracked.check
  obtain ⟨-, rfl⟩ := Prod.mk.inj (Except.ok.inj (hw.symm.trans run))
  have counts (p : ℕ) : Counts (w.vruntime p) (c.real p) := by
    rw [vr]
    exact h.counts p
  rw [endSlice, get_bind] at run
  rcases ite_ok.1 run with ⟨few, run⟩ | ⟨many, run⟩
  · obtain ⟨-, rfl⟩ := Prod.mk.inj (pure_ok.1 run)
    have base : followed c .check = c.base := by
      rw [followed]
      split
      · rfl
      · exact if_neg fun h => by omega
    rw [base]
    exact h
  · have length := h.tracked.counted.pos (by omega)
    obtain ⟨n, l, first⟩ := List.exists_cons_of_ne_nil (l := c.sched.nodes)
      (List.length_pos_iff.1 (by omega))
    have known := h.tracked.accounted.runnable
    have cur := (h.tracked.accounted.current (by omega)).1
    have left : n.pid ∈ c.runnable := known n (first ▸ List.mem_cons_self)
    have near (switch : c.real n.pid < c.real c.sched.current) : ∀ p ∈ c.runnable,
        -2147483648 ≤ c.real p - c.real n.pid ∧ c.real p - c.real n.pid < 2147483648 := by
      intro p hp
      have least := h.leftmost first hp switch
      have close := range p hp _ left switch
      omega
    have base : followed c .check = if c.real n.pid < c.real c.sched.current then c.real n.pid
        else c.base := by
      rw [followed, first]
      dsimp only
      simp only [h.exact.gt cur left, show 2 ≤ c.sched.nrRunning by omega, true_and]
    obtain ⟨queued, min⟩ := preempt_sorted run first cur known h.sorted fun switch =>
      exact_of_near h.counts (h.counts n.pid) (near ((h.exact.gt cur left).1 switch))
    simp only [h.exact.gt cur left, if_true] at min
    rw [base]
    by_cases switch : c.real n.pid < c.real c.sched.current
    · rw [if_pos switch] at min ⊢
      refine ⟨tracked, counts, ?_, fun _ => near switch, queued⟩
      change Counts w.minVruntime (c.real n.pid)
      rw [min]
      exact h.counts n.pid
    · rw [if_neg switch] at min ⊢
      refine ⟨tracked, counts, ?_, fun _ => h.near (by omega), queued⟩
      change Counts w.minVruntime c.base
      rw [min]
      exact h.base

theorem Timed.step {c d : Clock T} {op : SchedOp} (h : Timed c) (k : ClockStep c op d)
    (range : InRange c op) : Timed d ∧ Undisturbed c d := by
  obtain ⟨u, R, x, b⟩ := d
  obtain ⟨admits, run, hR, hx, hb⟩ := k
  obtain rfl : R = _ := hR
  obtain rfl : x = _ := hx
  obtain rfl : b = _ := hb
  have still (min : u.minVruntime = c.sched.minVruntime) :
      Undisturbed c ⟨u, op.runnable c.runnable, charged c op, followed c op⟩ := by
    intro p _ q _
    exact congrArg (fun m => keyComp m (u.vruntime p) (u.vruntime q)) min
  cases op with
  | resume pid =>
    obtain ⟨r, w, hw, done⟩ := bind_ok.1 run
    obtain ⟨-, rfl⟩ := Prod.mk.inj (pure_ok.1 done)
    by_cases hp : pid ≤ 99
    · rw [SchedOp.runnable, if_neg (by omega)] at still ⊢
      obtain ⟨timed, min | empty⟩ := h.resume hp admits (range hp) hw
      · exact ⟨timed, still min⟩
      · refine ⟨timed, fun p mem q mem' => ?_⟩
        simp only [empty, insert_empty_eq, Finset.mem_singleton] at mem mem'
        rw [mem, mem', keyComp_sign, keyComp_sign, Int.sub_self, Int.sub_self]
    · rw [schedResume, if_pos (by omega)] at hw
      obtain ⟨-, rfl⟩ := Prod.mk.inj (pure_ok.1 hw)
      rw [SchedOp.runnable, if_pos (by omega), charged, if_pos (.inl (by omega)), followed,
        if_neg fun h => hp h.1]
      exact ⟨h, fun p _ q _ => rfl⟩
  | suspend pid =>
    obtain ⟨r, w, hw, done⟩ := bind_ok.1 run
    obtain ⟨-, rfl⟩ := Prod.mk.inj (pure_ok.1 done)
    obtain ⟨timed, min⟩ := h.suspend admits hw
    exact ⟨timed, still min⟩
  | reset pid => exact admits.elim
  | tick =>
    obtain ⟨-, rfl⟩ := Prod.mk.inj (modify_ok.1 run)
    exact ⟨h.tick admits range, still rfl⟩
  | check =>
    have timed := h.check range run
    obtain ⟨w, hw, -, vr⟩ := h.tracked.check
    obtain ⟨-, rfl⟩ := Prod.mk.inj (Except.ok.inj (hw.symm.trans run))
    refine ⟨timed, fun p hp q hq => (timed.exact p hp q hq).trans ?_⟩
    change _ = keyComp c.sched.minVruntime (w.vruntime p) (w.vruntime q)
    rw [vr]
    exact (h.exact p hp q hq).symm

theorem timed_init : Timed (clockInit : Clock T) := by
  refine ⟨init_tracked, fun p => rfl, rfl, fun two => ?_, ?_⟩
  · exact absurd (show 2 ≤ 0 from two) (by decide)
  · change Sorted _ (schedInit : Sched T).nodes
    rw [show (schedInit : Sched T).nodes = [] from LawfulTree.create_nodes]
    exact .nil

/-- While every operation stays in range, the order of the run queue survives that the counters
wrap around. -/
theorem order_survives (r : Run (ClockStep (T := T))) (start : r.st 0 = clockInit)
    (range : ∀ n < r.len, InRange (r.st n) (r.lab n)) :
    (∀ n ≤ r.len, InOrder (r.st n)) ∧ ∀ n < r.len, Undisturbed (r.st n) (r.st (n + 1)) := by
  have timed := r.invariant (fun n => Timed (r.st n)) (by rw [start]; exact timed_init)
    fun n hn h => (h.step (r.ok n hn) (range n hn)).1
  constructor
  · intro n hn
    exact (timed n hn).inOrder
  · intro n hn
    exact ((timed n hn.le).step (r.ok n hn) (range n hn)).2

def clockNext (c : Clock T) (op : SchedOp) : Clock T :=
  ⟨op.result c.sched, op.runnable c.runnable, charged c op, followed c op⟩

omit [LawfulTree T] in
theorem clockStep_next {c : Clock T} {op : SchedOp} (admits : Admits c op)
    (run : op.run c.sched = .ok ((), op.result c.sched)) : ClockStep c op (clockNext c op) :=
  ⟨admits, run, rfl, rfl, rfl⟩

def extend (r : Run (ClockStep (T := T))) (op : SchedOp) (admits : Admits (r.st r.len) op)
    (run : op.run (r.st r.len).sched = .ok ((), op.result (r.st r.len).sched)) :
    Run (ClockStep (T := T)) :=
  r.snoc op (clockNext (r.st r.len) op) (clockStep_next admits run)

instance (c : Clock T) (op : SchedOp) : Decidable (Admits c op) :=
  match op with
  | .resume pid => inferInstanceAs (Decidable (pid ∉ c.runnable))
  | .suspend pid => inferInstanceAs (Decidable (pid ∈ c.runnable))
  | .reset _ => .isFalse id
  | .tick => inferInstanceAs (Decidable (0 < c.sched.nrRunning))
  | .check => .isTrue trivial

instance (c : Clock T) (p : ℕ) : Decidable (Near c p) := inferInstanceAs (Decidable (_ ∧ _))

instance (c : Clock T) (op : SchedOp) : Decidable (InRange c op) :=
  match op with
  | .resume _ => inferInstanceAs (Decidable (_ → _))
  | .tick => inferInstanceAs (Decidable (_ → _))
  | .check => inferInstanceAs (Decidable (∀ p ∈ c.runnable, _))
  | .suspend _ => .isTrue trivial
  | .reset _ => .isTrue trivial

def switchRun : Run (ClockStep (T := ListTree)) :=
  extend (extend (extend (extend (.start clockInit .check) (.resume 0) (by decide) rfl)
    (.resume 1) (by decide) rfl) .tick (by decide) rfl) .check (by decide) rfl

theorem switchRun_inOrder : (∀ n ≤ switchRun.len, InOrder (switchRun.st n)) ∧
    ∀ n < switchRun.len, Undisturbed (switchRun.st n) (switchRun.st (n + 1)) :=
  order_survives switchRun rfl (by decide +kernel)

def aloneClock (n : ℕ) : Clock ListTree :=
  ⟨⟨fun p => ⟨if p = 0 then UInt32.ofNat n else 0, none⟩, [], 0, 0, 1, 0⟩,
    {0}, fun p => if p = 0 then n else 0, 0⟩

theorem aloneClock_start : clockNext clockInit (.resume 0) = aloneClock 0 := by
  have table : (place 0 (schedInit : Sched ListTree)).taskTable =
      (aloneClock 0).sched.taskTable := by
    funext p
    by_cases hp : p = 0
    · rw [hp]
      rfl
    · simp [place, setTask, schedInit, aloneClock, hp]
  have real : charged (clockInit : Clock ListTree) (.resume 0) = (aloneClock 0).real := by
    funext p
    rw [charged_resume _ (Nat.zero_le 99)]
    by_cases hp : p = 0 <;> simp [aloneClock, clockInit, schedInit, Sched.vruntime, wakeFloor,
      schedLatency, hp]
  change Clock.mk ⟨(place 0 (schedInit : Sched ListTree)).taskTable, [], 0, 0, 1, 0⟩ {0}
    (charged clockInit (.resume 0)) 0 = _
  rw [table, real]
  rfl

theorem aloneClock_tick (n : ℕ) : clockNext (aloneClock n) .tick = aloneClock (n + 1) := by
  have table : (account (aloneClock n).sched).taskTable = (aloneClock (n + 1)).sched.taskTable := by
    funext p
    by_cases hp : p = 0
    · simp [account, setTask, aloneClock, hp, UInt32.ofNat_add]
    · simp [account, setTask, aloneClock, hp]
  have real : charged (aloneClock n) .tick = (aloneClock (n + 1)).real := by
    funext p
    rw [charged_tick]
    by_cases hp : p = 0 <;> simp [aloneClock, hp]
  change Clock.mk ⟨(account (aloneClock n).sched).taskTable, [], 0, 0, 1, 0⟩ {0}
    (charged (aloneClock n) .tick) 0 = _
  rw [table, real]
  rfl

theorem aloneRun (n : ℕ) : ∃ r : Run (ClockStep (T := ListTree)),
    r.st 0 = clockInit ∧ r.st r.len = aloneClock n := by
  induction n with
  | zero =>
    refine ⟨extend (.start clockInit .check) (.resume 0) (by decide) rfl, rfl, ?_⟩
    exact (Run.snoc_last _ _ _ _).trans aloneClock_start
  | succ n ih =>
    obtain ⟨r, start, last⟩ := ih
    have step : ClockStep (r.st r.len) .tick (aloneClock (n + 1)) := by
      rw [last, ← aloneClock_tick]
      exact clockStep_next Nat.zero_lt_one rfl
    refine ⟨r.snoc .tick _ step, ?_, r.snoc_last _ _ step⟩
    rw [Run.snoc_st _ _ _ _ (Nat.zero_le _), start]

/-- After 2^31 ticks alone a process compares as the one behind. -/
theorem aloneRun_disordered : ∃ r : Run (ClockStep (T := ListTree)), r.st 0 = clockInit ∧
    ¬∀ n ≤ r.len, InOrder (r.st n) := by
  obtain ⟨r, start, last⟩ := aloneRun 2147483648
  have step : ClockStep (r.st r.len) (.resume 1)
      (clockNext (aloneClock 2147483648) (.resume 1)) := by
    rw [last]
    exact clockStep_next (show 1 ∉ ({0} : Finset ℕ) by decide) rfl
  refine ⟨r.snoc (.resume 1) _ step, ?_, fun h => ?_⟩
  · rw [Run.snoc_st _ _ _ _ (Nat.zero_le _), start]
  · have inOrder := h _ le_rfl
    rw [Run.snoc_last] at inOrder
    have behind := inOrder.exact 0 (by decide) 1 (by decide)
    revert behind
    decide +kernel

end
end BrainMachine.WrapAround
