import Mathlib.Data.Int.Order.Lemmas
import BrainMachine.MachineRuns
import BrainMachine.RunQueueAccounting

set_option autoImplicit false

namespace BrainMachine.Fairness
open Codec Computations Paging Stdio AddressSpace Instructions HoleList RunQueue Machine Loader
open Dispatch Effects Runs MachineRuns SortedTree

theorem signed_eq (x : UInt32) :
    signed x = if x.toNat < 2147483648 then (x.toNat : ℤ) else x.toNat - 4294967296 := by
  unfold signed
  rw [BitVec.toInt_eq_toNat_cond]
  change (if 2 * x.toNat < 2 ^ 32 then _ else _) = _
  split <;> split <;> first | rfl | omega

theorem toNat_sub_mod (x y : UInt32) :
    (x - y).toNat = (4294967296 - y.toNat + x.toNat) % 4294967296 := UInt32.toNat_sub x y

theorem toNat_lt (x : UInt32) : x.toNat < 4294967296 := UInt32.toNat_lt x

theorem keyComp_gt (m x y : UInt32) : keyComp m x y > 0 ↔ signed (y - m) < signed (x - m) := by
  simp only [keyComp]
  split
  · omega
  · split <;> omega

theorem keyComp_le (m x y : UInt32) : keyComp m x y ≠ 1 ↔ signed (x - m) ≤ signed (y - m) := by
  simp only [keyComp]
  split
  · omega
  · split <;> omega

section
variable {T : Type} [RedBlackTree T]

omit [RedBlackTree T] in
theorem compare_comparison (s : Sched T) : Comparison s.compare := by
  refine ⟨fun a b => ?_, fun a b c hab hbc => ?_⟩
  · rw [Sched.compare, Sched.compare, keyComp_le, keyComp_le]
    omega
  · rw [Sched.compare, keyComp_le] at hab hbc ⊢
    omega

def Least (s : Sched T) (R : Finset ℕ) (q : ℕ) : Prop :=
  q ∈ R ∧ ∀ p ∈ R, 0 ≤ signed (s.vruntime p - s.vruntime q)

/-- `min_vruntime` lags behind `m`, by more than the latency while it is below the latency.
Behind by half of the range is ahead. -/
def Lags (min m : UInt32) : Prop :=
  if min < schedLatency then signed (min - m) < -2
  else signed (min - m) < 0 ∧ -2147483646 ≤ signed (min - m)

/-- A process woken now is placed too far behind `m`: its own vruntime is that old, or it
is placed by a `min_vruntime` that lags. -/
def PlacedBehind (s : Sched T) (pid : ℕ) (m : UInt32) : Prop :=
  if s.vruntime pid > wakeFloor s.minVruntime then signed (s.vruntime pid - m) < -2
  else Lags s.minVruntime m

theorem wakeFloor_behind (min m : UInt32) : -2 ≤ signed (wakeFloor min - m) ↔ ¬Lags min m := by
  unfold wakeFloor Lags
  split
  · omega
  · have hl : schedLatency.toNat = 2 := rfl
    have hm := toNat_lt m
    have hmin := toNat_lt min
    simp only [signed_eq, toNat_sub_mod, hl]
    split <;> split <;> omega

variable [LawfulTree T]

/-- A woken process is at most the latency behind the least runnable one if and only if
neither its own vruntime nor `min_vruntime` is too far behind that one. -/
theorem wakeup_bound_iff (s : Sched T) (R : Finset ℕ) (pid : ℕ) (h : Reachable s R)
    (hp : pid ≤ 99) (suspended : pid ∉ R) :
    ∃ u, schedResume pid s = .ok (0, u) ∧
      ((∀ q, Least s R q → -2 ≤ signed (u.vruntime pid - s.vruntime q)) ↔
        ∀ q, Least s R q → ¬PlacedBehind s pid (s.vruntime q)) := by
  obtain ⟨u, hu, -, hv⟩ := h.tracked.resume hp fun hr => absurd hr suspended
  have placed : u.vruntime pid = if s.vruntime pid > wakeFloor s.minVruntime then s.vruntime pid
      else wakeFloor s.minVruntime := by
    rw [hv]
    simp [place, setTask, Sched.vruntime]
  have bound (m : UInt32) : -2 ≤ signed (u.vruntime pid - m) ↔ ¬PlacedBehind s pid m := by
    rw [placed, PlacedBehind]
    split
    · omega
    · exact wakeFloor_behind s.minVruntime m
  exact ⟨u, hu, forall_congr' fun q => imp_congr_right fun _ => bound (s.vruntime q)⟩

def sliced : Sched ListTree × Finset ℕ :=
  perform [(0, .resume 0), (0, .resume 1), (2, .check), (0, .tick)] (schedInit, ∅)

theorem sliced_wakeup : sliced.1.vruntime 0 ≠ sliced.1.vruntime 1 ∧
    ∃ u, schedResume 2 sliced.1 = .ok (0, u) ∧
      ∀ q, Least sliced.1 sliced.2 q → -2 ≤ signed (u.vruntime 2 - sliced.1.vruntime q) := by
  have reachable : Reachable sliced.1 sliced.2 := perform_reachable .init (by decide +kernel)
  obtain ⟨u, hu, bound⟩ := wakeup_bound_iff sliced.1 sliced.2 2 reachable (by decide)
    (by decide +kernel)
  have near : ∀ q ∈ sliced.2, ¬PlacedBehind sliced.1 2 (sliced.1.vruntime q) := by
    unfold PlacedBehind Lags
    decide +kernel
  exact ⟨by decide +kernel, u, hu, bound.2 fun q least => near q least.1⟩

def aloneTask : Sched ListTree :=
  account (account (account ((SchedOp.resume 0).result schedInit)))

theorem aloneTask_reachable : Reachable aloneTask {0} :=
  .step _ _ _ .tick (.step _ _ _ .tick (.step _ _ _ .tick
    (.step _ _ _ (.resume 0) .init (fun h => by cases h) rfl)
    Nat.zero_lt_one rfl) Nat.zero_lt_one rfl) Nat.zero_lt_one rfl

/-- A process woken then is three behind. -/
theorem aloneTask_starves : ¬∀ (s u : Sched ListTree) (R : Finset ℕ) (pid q : ℕ),
    Reachable s R → 0 < s.nrRunning → pid ≤ 99 → pid ∉ R → schedResume pid s = .ok (0, u) →
    Least s R q → -2 ≤ signed (u.vruntime pid - s.vruntime q) := by
  intro h
  have least : Least aloneTask {0} 0 := by
    refine ⟨by decide, fun p hp => ?_⟩
    rw [Finset.mem_singleton.1 hp]
    decide
  have run : schedResume 1 aloneTask = .ok (0, (SchedOp.resume 1).result aloneTask) := rfl
  have bound := h aloneTask _ {0} 1 0 aloneTask_reachable (by decide) (by decide) (by decide)
    run least
  revert bound
  decide

/-- The state at tick `i` of a slice: vruntimes lie in a window from `b`, where the current
process started the slice, and `x` counts what they count from `k` on. After a tie
`min_vruntime` may be two slices behind, but then the others have not moved. -/
structure Fair (s : Sched T) (R : Finset ℕ) (i : ℕ) (x : ℕ → ℕ) (b : UInt32) (k : ℕ) : Prop where
  tracked : Tracked s R
  two : 2 ≤ s.nrRunning
  ordered : s.nodes.Pairwise fun y z =>
    (s.vruntime y.pid - b).toNat ≤ (s.vruntime z.pid - b).toNat
  window : ∀ p ∈ R, (s.vruntime p - b).toNat ≤ 20
  count : ∀ p ∈ R, x p = k + (s.vruntime p - b).toNat
  current : (s.vruntime s.current - b).toNat = i
  lag : (b - s.minVruntime).toNat ≤ 20 ∨ (b - s.minVruntime).toNat ≤ 40 ∧
    ∀ p ∈ R, p ≠ s.current → (s.vruntime p - b).toNat = 0

theorem signed_window {v b m : UInt32} (h : (v - b).toNat ≤ 20) (hm : (b - m).toNat ≤ 40) :
    signed (v - m) = (v - b).toNat + (b - m).toNat := by
  rw [signed_eq]
  simp only [toNat_sub_mod] at *
  have := toNat_lt v
  have := toNat_lt b
  have := toNat_lt m
  split <;> omega

theorem succ_window {v b : UInt32} (h : (v - b).toNat < 20) :
    (v + 1 - b).toNat = (v - b).toNat + 1 := by
  have ha : (v + 1).toNat = (v.toNat + 1) % 4294967296 := UInt32.toNat_add v 1
  simp only [toNat_sub_mod, ha] at *
  have := toNat_lt v
  have := toNat_lt b
  omega

theorem sub_window {v w b : UInt32} (hv : (v - b).toNat ≤ 20) (hw : (w - b).toNat ≤ (v - b).toNat) :
    (v - w).toNat = (v - b).toNat - (w - b).toNat := by
  simp only [toNat_sub_mod] at *
  have := toNat_lt v
  have := toNat_lt w
  have := toNat_lt b
  omega

omit [RedBlackTree T] [LawfulTree T] in
theorem account_vruntime (s : Sched T) (p : ℕ) :
    (account s).vruntime p = if p = s.current then s.vruntime p + 1 else s.vruntime p := by
  by_cases hp : p = s.current <;> simp [account, setTask, Sched.vruntime, hp]

omit [LawfulTree T] in
theorem Fair.queued {s : Sched T} {R : Finset ℕ} {i k : ℕ} {x : ℕ → ℕ} {b : UInt32}
    (h : Fair s R i x b k) {n : Node} (hn : n ∈ s.nodes) : n.pid ∈ R ∧ n.pid ≠ s.current := by
  refine ⟨h.tracked.accounted.runnable n hn, fun he => ?_⟩
  refine h.tracked.current (by have := h.two; omega) (mem_waiting.2 ⟨n.id, ?_⟩)
  rw [← he]
  exact hn

omit [LawfulTree T] in
theorem Fair.current_mem {s : Sched T} {R : Finset ℕ} {i k : ℕ} {x : ℕ → ℕ} {b : UInt32}
    (h : Fair s R i x b k) : s.current ∈ R :=
  (h.tracked.accounted.current (by have := h.two; omega)).1

omit [LawfulTree T] in
theorem Fair.leftmost {s : Sched T} {R : Finset ℕ} {i k : ℕ} {x : ℕ → ℕ} {b : UInt32} {n : Node}
    {l : List Node} (h : Fair s R i x b k) (hn : s.nodes = n :: l) {p : ℕ} (hp : p ∈ R)
    (hc : p ≠ s.current) : (s.vruntime n.pid - b).toNat ≤ (s.vruntime p - b).toNat := by
  have pos : 0 < s.nrRunning := by have := h.two; omega
  obtain ⟨j, -, hf⟩ := h.tracked.accounted.queued pos p hp hc
  have hpm : ⟨j, p⟩ ∈ n :: l := by
    rw [← hn]
    exact (List.mem_filter.1 (hf ▸ List.mem_cons_self)).1
  rcases List.mem_cons.1 hpm with he | hl
  · rw [← he]
  · have ordered := h.ordered
    rw [hn] at ordered
    exact (List.pairwise_cons.1 ordered).1 _ hl

omit [LawfulTree T] in
theorem Fair.tick {s : Sched T} {R : Finset ℕ} {i k : ℕ} {x : ℕ → ℕ} {b : UInt32}
    (h : Fair s R i x b k) (hi : i < 20) :
    Fair (account s) R (i + 1) (fun p => x p + if p = s.current then 1 else 0) b k := by
  have cur := h.current
  have here : (s.vruntime s.current + 1 - b).toNat = i + 1 := by
    rw [succ_window (by omega), cur]
  have moved (p : ℕ) : ((account s).vruntime p - b).toNat =
      if p = s.current then i + 1 else (s.vruntime p - b).toNat := by
    rw [account_vruntime]
    split
    · rename_i hp
      rw [hp, here]
    · rfl
  refine ⟨h.tracked.setTask s.current fun _ => rfl, h.two, ?_, fun p hp => ?_, fun p hp => ?_, ?_,
    h.lag.imp_right (And.imp_right fun still p hp hc => ?_)⟩
  · refine List.Pairwise.imp_of_mem (fun {y z} hy hz hyz => ?_) h.ordered
    rw [moved, moved, if_neg (h.queued hy).2, if_neg (h.queued hz).2]
    exact hyz
  · have := h.window p hp
    rw [moved]
    split <;> omega
  · have hx := h.count p hp
    rw [moved]
    split
    · rename_i hc
      rw [hc, cur] at hx
      rw [hc]
      omega
    · omega
  · change ((account s).vruntime s.current - b).toNat = i + 1
    rw [moved, if_pos rfl]
  · rw [moved, if_neg (show p ≠ s.current from hc)]
    exact still p hp hc

omit [LawfulTree T] in
/-- A slice that ends in a tie: everybody is where the current process is. -/
theorem Fair.stay {s : Sched T} {R : Finset ℕ} {k : ℕ} {x : ℕ → ℕ} {b : UInt32} {n : Node}
    {l : List Node} (h : Fair s R 20 x b k) (hn : s.nodes = n :: l)
    (tie : 20 ≤ (s.vruntime n.pid - b).toNat) :
    Fair s R 0 x (s.vruntime s.current) (k + 20) := by
  have hmem : n ∈ s.nodes := hn ▸ List.mem_cons_self
  have all (p : ℕ) (hp : p ∈ R) : (s.vruntime p - b).toNat = 20 := by
    by_cases hc : p = s.current
    · rw [hc, h.current]
    · exact Nat.le_antisymm (h.window p hp) (tie.trans (h.leftmost hn hp hc))
  have zero (p : ℕ) (hp : p ∈ R) : (s.vruntime p - s.vruntime s.current).toNat = 0 := by
    rw [sub_window (h.window p hp), all p hp, h.current]
    rw [all p hp, h.current]
  have near : (b - s.minVruntime).toNat ≤ 20 := by
    apply h.lag.resolve_right
    rintro ⟨-, still⟩
    obtain ⟨hr, hc⟩ := h.queued hmem
    rw [still _ hr hc] at tie
    omega
  refine ⟨h.tracked, h.two, ?_, fun p hp => ?_, fun p hp => ?_, zero _ h.current_mem,
    .inr ⟨?_, fun p hp _ => zero p hp⟩⟩
  · refine List.Pairwise.imp_of_mem (fun {y z} hy hz _ => ?_) h.ordered
    rw [zero _ (h.queued hy).1]
    exact Nat.zero_le _
  · rw [zero p hp]
    omega
  · rw [zero p hp, h.count p hp, all p hp]
  · have hc := h.current
    simp only [toNat_sub_mod] at *
    have := toNat_lt (s.vruntime s.current)
    have := toNat_lt s.minVruntime
    have := toNat_lt b
    omega

omit [LawfulTree T] in
/-- At the end of a slice nobody is behind the leftmost process. -/
theorem Fair.first {s : Sched T} {R : Finset ℕ} {k : ℕ} {x : ℕ → ℕ} {b : UInt32} {n : Node}
    {l : List Node} (h : Fair s R 20 x b k) (hn : s.nodes = n :: l) {p : ℕ} (hp : p ∈ R) :
    (s.vruntime n.pid - b).toNat ≤ (s.vruntime p - b).toNat := by
  by_cases hc : p = s.current
  · rw [hc, h.current]
    exact h.window _ (h.queued (hn ▸ List.mem_cons_self)).1
  · exact h.leftmost hn hp hc

omit [LawfulTree T] in
theorem Fair.rebase {s : Sched T} {R : Finset ℕ} {k : ℕ} {x : ℕ → ℕ} {b : UInt32} {n : Node}
    {l : List Node} (h : Fair s R 20 x b k) (hn : s.nodes = n :: l) {p : ℕ} (hp : p ∈ R) :
    (s.vruntime p - s.vruntime n.pid).toNat =
        (s.vruntime p - b).toNat - (s.vruntime n.pid - b).toNat ∧
      (s.vruntime p - s.vruntime n.pid).toNat ≤ 20 := by
  have off := sub_window (h.window p hp) (h.first hn hp)
  have := h.window p hp
  exact ⟨off, by omega⟩

theorem signed_small {v w : UInt32} (h : (v - w).toNat ≤ 20) :
    signed (v - w) = (v - w).toNat := by
  rw [signed_eq, if_pos (by omega)]

/-- The keys after the switch: `min_vruntime` is the key of the leftmost process, and the
current process is back among the others. -/
theorem Fair.requeue {s : Sched T} {R : Finset ℕ} {k : ℕ} {x : ℕ → ℕ} {b : UInt32} {n : Node}
    {l : List Node} (h : Fair s R 20 x b k) (hn : s.nodes = n :: l) :
    n ∈ (enqueue s.current { s with minVruntime := s.vruntime n.pid }).nodes ∧
      (enqueue s.current { s with minVruntime := s.vruntime n.pid }).nodes.Pairwise fun y z =>
        (s.vruntime y.pid - s.vruntime n.pid).toNat ≤
          (s.vruntime z.pid - s.vruntime n.pid).toNat := by
  have before : Ordered (Sched.compare { s with minVruntime := s.vruntime n.pid }) s.nodes := by
    refine List.Pairwise.imp_of_mem (fun {y z} hy hz hyz => ?_) h.ordered
    obtain ⟨offy, neary⟩ := h.rebase hn (h.queued hy).1
    obtain ⟨offz, nearz⟩ := h.rebase hn (h.queued hz).1
    apply (keyComp_le _ _ _).2
    change signed (s.vruntime y.pid - s.vruntime n.pid) ≤
      signed (s.vruntime z.pid - s.vruntime n.pid)
    rw [signed_small neary, signed_small nearz]
    omega
  have after : Ordered (Sched.compare { s with minVruntime := s.vruntime n.pid })
      (enqueue s.current { s with minVruntime := s.vruntime n.pid }).nodes :=
    LawfulTree.insert_ordered _ s.t ⟨s.fresh, s.current⟩ (compare_comparison _) before
  obtain ⟨y, z, hs, hq⟩ := enqueue_nodes s.current { s with minVruntime := s.vruntime n.pid }
  change s.nodes = y ++ z at hs
  have old (m : Node) : m ∈ (enqueue s.current { s with minVruntime := s.vruntime n.pid }).nodes ↔
      m = ⟨s.fresh, s.current⟩ ∨ m ∈ s.nodes := by
    rw [hq, hs]
    change m ∈ y ++ (⟨s.fresh, s.current⟩ : Node) :: z ↔ _
    simp only [List.mem_append, List.mem_cons]
    tauto
  have known (m : Node)
      (hm : m ∈ (enqueue s.current { s with minVruntime := s.vruntime n.pid }).nodes) :
      m.pid ∈ R := by
    rcases (old m).1 hm with rfl | hm
    · exact h.current_mem
    · exact (h.queued hm).1
  refine ⟨(old n).2 (.inr (hn ▸ List.mem_cons_self)), ?_⟩
  refine List.Pairwise.imp_of_mem (fun {y z} hy hz hyz => ?_) after
  have hyz := (keyComp_le _ _ _).1 hyz
  change signed (s.vruntime y.pid - s.vruntime n.pid) ≤
    signed (s.vruntime z.pid - s.vruntime n.pid) at hyz
  rw [signed_small (h.rebase hn (known y hy)).2, signed_small (h.rebase hn (known z hz)).2] at hyz
  omega

theorem Fair.switch {s u : Sched T} {R : Finset ℕ} {k : ℕ} {x : ℕ → ℕ} {b : UInt32} {n : Node}
    {l : List Node} (h : Fair s R 20 x b k) (hn : s.nodes = n :: l) (tracked : Tracked u R)
    (hu : ctxtSwitch (enqueue s.current { s with minVruntime := s.vruntime n.pid }) =
      .ok ((), u)) : Fair u R 0 x (s.vruntime n.pid) (x n.pid) := by
  have hnR := (h.queued (hn ▸ List.mem_cons_self)).1
  obtain ⟨there, sorted⟩ := h.requeue hn
  obtain ⟨n', l', hn', rfl, hl'⟩ := ctxtSwitch_ok hu
  rw [hn'] at there sorted
  have zero : (s.vruntime n.pid - s.vruntime n.pid).toNat = 0 := by simp
  have least : (s.vruntime n'.pid - s.vruntime n.pid).toNat = 0 := by
    rcases List.mem_cons.1 there with he | hl
    · rw [← he, zero]
    · have := (List.pairwise_cons.1 sorted).1 n hl
      omega
  have vr := (dequeue_vruntime n' { enqueue s.current { s with
    minVruntime := s.vruntime n.pid } with current := n'.pid }).trans (enqueue_vruntime s.current _)
  refine ⟨tracked, h.two, ?_, fun p hp => ?_, fun p hp => ?_, ?_, .inl ?_⟩
  · rw [hl', vr]
    exact (List.pairwise_cons.1 sorted).2
  · rw [vr]
    exact (h.rebase hn hp).2
  · have hx := h.count p hp
    have hxn := h.count _ hnR
    have := h.first hn hp
    have off := (h.rebase hn hp).1
    rw [vr]
    change x p = x n.pid + (s.vruntime p - s.vruntime n.pid).toNat
    omega
  · rw [vr]
    exact least
  · exact zero.le.trans (Nat.zero_le _)

theorem Fair.slice {s u : Sched T} {R : Finset ℕ} {k : ℕ} {x : ℕ → ℕ} {b : UInt32}
    (h : Fair s R 20 x b k) (hu : endSlice s = .ok ((), u)) : ∃ c j, Fair u R 0 x c j := by
  obtain ⟨v, hv, tracked, -⟩ := h.tracked.check
  obtain ⟨-, rfl⟩ := Prod.mk.inj (Except.ok.inj (hv.symm.trans hu))
  have two := h.two
  have hlen := h.tracked.counted.pos (by omega)
  obtain ⟨n, l, hn⟩ := List.exists_cons_of_ne_nil (l := s.nodes)
    (List.length_pos_iff.1 (by omega))
  have hnR := (h.queued (hn ▸ List.mem_cons_self)).1
  have far : (b - s.minVruntime).toNat ≤ 40 := h.lag.elim (by omega) And.left
  rw [endSlice, get_bind, if_neg (by omega), preempt_eq true hn] at hu
  by_cases hk : keyComp s.minVruntime (s.vruntime s.current) (s.vruntime n.pid) > 0
  · rw [if_pos hk] at hu
    exact ⟨_, _, h.switch hn tracked hu⟩
  · rw [if_neg hk] at hu
    obtain ⟨-, rfl⟩ := Prod.mk.inj (Except.ok.inj hu)
    refine ⟨_, _, h.stay hn ?_⟩
    rw [keyComp_gt, signed_window (h.window _ hnR) far,
      signed_window (h.window _ h.current_mem) far, h.current] at hk
    omega

theorem window_close {v w b : UInt32} (hv : (v - b).toNat ≤ 20) (hw : (w - b).toNat ≤ 20) :
    |signed (v - w)| ≤ 20 := by
  rw [abs_le, signed_eq]
  simp only [toNat_sub_mod] at *
  have := toNat_lt v
  have := toNat_lt w
  have := toNat_lt b
  split <;> omega

omit [LawfulTree T] in
theorem Fair.close {s : Sched T} {R : Finset ℕ} {i k : ℕ} {x : ℕ → ℕ} {b : UInt32}
    (h : Fair s R i x b k) {p q : ℕ} (hp : p ∈ R) (hq : q ∈ R) :
    |signed (s.vruntime p - s.vruntime q)| ≤ 20 ∧ |(x p : ℤ) - x q| ≤ 20 := by
  refine ⟨window_close (h.window p hp) (h.window q hq), ?_⟩
  have hwp := h.window p hp
  have hwq := h.window q hq
  have hxp := h.count p hp
  have hxq := h.count q hq
  rw [abs_le]
  omega

def executed (lab : ℕ → Label) (pid : ℕ) : ℕ → ℕ
  | 0 => 0
  | n + 1 => executed lab pid n + match lab n with
    | .instr q _ _ => if pid = q then 1 else 0
    | .slice => 0

def Quiet (r : Run (StepOf (next (T := T)))) : Prop :=
  ∀ i < r.len, ∀ pid op a, r.lab i = .instr pid op a →
    (r.st (i + 1)).vm.sched = account (r.st i).vm.sched

theorem fair_run (r : Run (StepOf (next (T := T)))) (R : Finset ℕ) (x : ℕ → ℕ) (quiet : Quiet r)
    (start : ∃ b k, Fair (r.st 0).vm.sched R (r.st 0).i x b k) (n : ℕ) (hn : n ≤ r.len) :
    ∃ b k, Fair (r.st n).vm.sched R (r.st n).i (fun p => x p + executed r.lab p n) b k := by
  refine r.invariant (fun n => ∃ b k, Fair (r.st n).vm.sched R (r.st n).i
    (fun p => x p + executed r.lab p n) b k) start (fun n hn ⟨b, k, h⟩ => ?_) n hn
  obtain ⟨-, ⟨op, a, lab, hi, hd, -⟩ | ⟨lab, hi, hd, s, hs, hm⟩⟩ := next_cases (r.ok n hn)
  · have count : (fun p => x p + executed r.lab p (n + 1)) = fun p =>
        x p + executed r.lab p n + if p = (r.st n).vm.sched.current then 1 else 0 := by
      funext p
      rw [executed, lab, Nat.add_assoc]
    rw [hd, quiet n hn _ op a lab, count]
    exact ⟨b, k, h.tick hi⟩
  · have count : (fun p => x p + executed r.lab p (n + 1)) =
        fun p => x p + executed r.lab p n := by
      funext p
      rw [executed, lab]
      rfl
    have last : (r.st n).i = 20 := by
      have hw := h.window _ h.current_mem
      rw [h.current] at hw
      exact Nat.le_antisymm hw hi
    rw [last] at h
    rw [hd, hm, count]
    exact h.slice hs

/-- A slice may start: the current process is the most unfairly treated one, nobody is more
than a slice ahead of it, and `min_vruntime` is at most a slice behind. -/
structure SliceStart (s : Sched T) (R : Finset ℕ) : Prop where
  tracked : Tracked s R
  ordered : Ordered s.compare s.nodes
  close : ∀ p ∈ R, ∀ q ∈ R, |signed (s.vruntime p - s.vruntime q)| ≤ schedGranularity
  minimal : ∀ p ∈ R, 0 ≤ signed (s.vruntime p - s.vruntime s.current)
  behind : 0 ≤ signed (s.vruntime s.current - s.minVruntime) ∧
    signed (s.vruntime s.current - s.minVruntime) ≤ schedGranularity

theorem signed_nonneg {x : UInt32} (h : 0 ≤ signed x) : signed x = x.toNat := by
  have := toNat_lt x
  rw [signed_eq] at h ⊢
  split at h
  · rw [if_pos (by assumption)]
  · omega

omit [LawfulTree T] in
theorem SliceStart.fair {s : Sched T} {R : Finset ℕ} (h : SliceStart s R) (two : 2 ≤ R.card) :
    Fair s R 0 (fun p => (s.vruntime p - s.vruntime s.current).toNat) (s.vruntime s.current) 0 := by
  have twenty : (schedGranularity : ℤ) = 20 := rfl
  have nr : 2 ≤ s.nrRunning := h.tracked.accounted.count ▸ two
  have cur := (h.tracked.accounted.current (by omega)).1
  have window (p : ℕ) (hp : p ∈ R) : (s.vruntime p - s.vruntime s.current).toNat ≤ 20 := by
    have hc := h.close p hp _ cur
    rw [abs_le, signed_nonneg (h.minimal p hp)] at hc
    omega
  have lag : (s.vruntime s.current - s.minVruntime).toNat ≤ 20 := by
    have hb := h.behind.2
    rw [signed_nonneg h.behind.1] at hb
    omega
  refine ⟨h.tracked, nr, ?_, window, fun p _ => (Nat.zero_add _).symm, by simp, .inl lag⟩
  refine List.Pairwise.imp_of_mem (fun {y z} hy hz hyz => ?_) h.ordered
  have hyR := h.tracked.accounted.runnable y hy
  have hzR := h.tracked.accounted.runnable z hz
  have hyz := (keyComp_le _ _ _).1 hyz
  rw [signed_window (window _ hyR) (by omega), signed_window (window _ hzR) (by omega)] at hyz
  omega

theorem preempt_min {s u : Sched T} {a : Unit} (h : preempt false s = .ok (a, u)) :
    u.minVruntime = s.minVruntime := by
  rw [preempt, bind_ok] at h
  obtain ⟨n, w, hn, h⟩ := h
  obtain ⟨l, -, rfl⟩ := leftmost_ok hn
  rw [get_bind] at h
  rcases ite_ok.1 h with ⟨-, h⟩ | ⟨-, h⟩
  · simp only [modify_bind] at h
    obtain ⟨m, l', -, rfl, -⟩ := ctxtSwitch_ok h
    rfl
  · obtain ⟨-, rfl⟩ := Prod.mk.inj (pure_ok.1 h)
    rfl

/-- Waking a process moves `min_vruntime` only when nobody else runs. -/
theorem schedResume_min {s u : Sched T} {pid : ℕ} {r : ℤ} (hp : pid ≤ 99)
    (h : schedResume pid s = .ok (r, u)) :
    u.minVruntime = s.minVruntime ∨ u.minVruntime = (place pid s).vruntime pid := by
  rw [schedResume, if_neg (by omega), modify_bind, get_bind] at h
  rcases ite_ok.1 h with ⟨-, h⟩ | ⟨-, h⟩
  · rw [modify_bind] at h
    obtain ⟨-, rfl⟩ := Prod.mk.inj (pure_ok.1 h)
    exact .inr rfl
  · rcases ite_ok.1 h with ⟨-, h⟩ | ⟨-, h⟩
    · obtain ⟨-, rfl⟩ := Prod.mk.inj (pure_ok.1 h)
      exact .inl rfl
    · rw [modify_bind, bind_ok] at h
      obtain ⟨a, w, hw, h⟩ := h
      rw [modify_bind] at h
      obtain ⟨-, rfl⟩ := Prod.mk.inj (pure_ok.1 h)
      have hm : w.minVruntime = (enqueue pid (place pid s)).minVruntime := preempt_min hw
      exact .inl hm

theorem load_fair {pager : Pager} {host : Host} {u : VM T}
    (h : Loads (startState pager host) u) : Tracked u.sched (Finset.range u.nextPid) ∧
      (∀ p, u.sched.vruntime p = 0) ∧ u.sched.minVruntime = 0 := by
  induction h with
  | start => exact ⟨init_tracked, fun _ => rfl, rfl⟩
  | turn w n a b f s t hl hn small room block reset resume ih =>
    obtain ⟨tracked, zero, min⟩ := ih
    have hs : s = setTask w.nextPid (fun e => { e with vruntime := 0 }) w.sched := by
      rw [schedReset, if_neg (by omega), modify_bind] at reset
      exact (Prod.mk.inj (pure_ok.1 reset)).2
    subst s
    have zero' (p : ℕ) :
        (setTask w.nextPid (fun e => { e with vruntime := 0 }) w.sched).vruntime p = 0 := by
      by_cases hp : p = w.nextPid
      · simp [setTask, Sched.vruntime, hp]
      · simpa [setTask, Sched.vruntime, hp] using zero p
    have new : w.nextPid ∉ Finset.range w.nextPid := by simp
    have wiped := tracked.setTask (f := fun e => { e with vruntime := 0 }) w.nextPid fun _ => rfl
    obtain ⟨v, hv, tracked, vr⟩ := wiped.resume room fun hp => absurd hp new
    obtain ⟨-, rfl⟩ := Prod.mk.inj (Except.ok.inj (hv.symm.trans resume))
    have placed (p : ℕ) : (place w.nextPid
        (setTask w.nextPid (fun e => { e with vruntime := 0 }) w.sched)).vruntime p = 0 := by
      by_cases hp : p = w.nextPid
      · simp [place, setTask, Sched.vruntime, hp, min, wakeFloor, schedLatency]
      · have := zero' p
        simpa [place, setTask, Sched.vruntime, hp] using this
    refine ⟨?_, fun p => (congrFun vr p).trans (placed p), ?_⟩
    · rw [← Finset.range_add_one] at tracked
      exact tracked
    · rcases schedResume_min room hv with he | he
      · exact he.trans min
      · exact he.trans (placed _)

/-- A run after loading starts with a slice in which everybody is equal. -/
theorem execution_start (e : Execution T) :
    SliceStart (e.vm 0).sched (Finset.range (e.vm 0).nextPid) ∧
      ∀ p, (e.vm 0).sched.vruntime p = 0 := by
  obtain ⟨pager, u, fh, -, hu, hm⟩ := e.loads
  obtain ⟨tracked, zero, min⟩ := load_fair hu
  rw [hm]
  change SliceStart u.sched (Finset.range u.nextPid) ∧ ∀ p, u.sched.vruntime p = 0
  refine ⟨⟨tracked, ?_, fun p _ q _ => ?_, fun p _ => ?_, ?_⟩, zero⟩
  · apply List.pairwise_of_forall
    intro y z
    rw [Sched.compare, zero, zero, keyComp_le]
  · rw [zero, zero]
    decide
  · rw [zero, zero]
    decide
  · rw [zero, min]
    decide

/-- Runnable processes that neither sleep nor wake stay within a slice of one another, and
so do the numbers of instructions that loaded processes have executed. -/
theorem bounded_unfairness :
    (∀ (r : Run (StepOf (next (T := T)))) (R : Finset ℕ), 2 ≤ R.card → (r.st 0).i = 0 →
      SliceStart (r.st 0).vm.sched R → Quiet r → ∀ n ≤ r.len, ∀ p ∈ R, ∀ q ∈ R,
        |signed ((r.st n).vm.sched.vruntime p - (r.st n).vm.sched.vruntime q)| ≤
          schedGranularity) ∧
    ∀ e : Execution T, Quiet e.toRun → ∀ n ≤ e.len, ∀ p < (e.vm 0).nextPid,
      ∀ q < (e.vm 0).nextPid, |(executed e.lab p n : ℤ) - executed e.lab q n| ≤
        schedGranularity := by
  constructor
  · intro r R two hi start quiet n hn p hp q hq
    obtain ⟨b, k, h⟩ := fair_run r R _ quiet ⟨_, _, by rw [hi]; exact start.fair two⟩ n hn
    exact (h.close hp hq).1
  · intro e quiet n hn p hp q hq
    obtain ⟨start, zero⟩ := execution_start e
    by_cases two : 2 ≤ (e.vm 0).nextPid
    · have fair := start.fair (by rwa [Finset.card_range])
      obtain ⟨b, k, h⟩ := fair_run e.toRun _ _ quiet ⟨_, _, by rw [e.slice]; exact fair⟩ n hn
      have close := (h.close (Finset.mem_range.2 hp) (Finset.mem_range.2 hq)).2
      have none (p : ℕ) :
          ((e.vm 0).sched.vruntime p - (e.vm 0).sched.vruntime (e.vm 0).sched.current).toNat = 0 := by
        rw [zero, zero]
        rfl
      simp only [none, Nat.zero_add] at close
      exact close
    · obtain rfl : p = q := by omega
      simp

omit [LawfulTree T] in
theorem quiet_of_instructions (r : Run (StepOf (next (T := T))))
    (h : ∀ i < r.len, ∀ pid op a, r.lab i = .instr pid op a → op.instruction.isSome) :
    Quiet r := by
  intro i hi pid op a lab
  obtain ⟨-, ⟨op', a', lab', -, -, k⟩ | ⟨lab', -⟩⟩ := next_cases (r.ok i hi)
  · obtain ⟨rfl, rfl, rfl⟩ := Label.instr.inj (lab.symm.trans lab')
    have some := h i hi _ op a lab
    have effect := k.effect
    cases effect with
    | quiet op a k => exact k.sched
    | _ => cases some
  · rw [lab'] at lab
    cases lab

def busyRun : Execution ListTree :=
  execution 100 halfWeight bareHost
    (bytes "BRAIN10\n1\nBU00\nBRAIN10\n1\nBU00\nDATA\n") 22 (by decide +kernel)
    (by decide +kernel)

theorem busyRun_fair :
    (∀ n ≤ busyRun.len, ∀ p ∈ Finset.range 2, ∀ q ∈ Finset.range 2,
      |signed ((busyRun.st n).vm.sched.vruntime p - (busyRun.st n).vm.sched.vruntime q)| ≤ 20) ∧
    |(executed busyRun.lab 0 22 : ℤ) - executed busyRun.lab 1 22| ≤ 20 := by
  have local' (i : ℕ) (hi : i < busyRun.len) : (match busyRun.lab i with
      | .instr _ op _ => op.instruction.isSome
      | .slice => true) = true := by
    revert i
    decide +kernel
  have quiet : Quiet busyRun.toRun := by
    apply quiet_of_instructions
    intro i hi pid op a lab
    have := local' i hi
    rwa [lab] at this
  have two : (busyRun.vm 0).nextPid = 2 := by decide +kernel
  have start := (execution_start busyRun).1
  rw [two] at start
  exact ⟨bounded_unfairness.1 busyRun.toRun (Finset.range 2) (by decide) busyRun.slice start quiet,
    bounded_unfairness.2 busyRun quiet 22 le_rfl 0 (by rw [two]; decide) 1 (by rw [two]; decide)⟩

end
end BrainMachine.Fairness
