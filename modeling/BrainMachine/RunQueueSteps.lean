import Mathlib.Data.List.Perm.Basic
import BrainMachine.RunQueue

set_option autoImplicit false

namespace BrainMachine.RunQueue
open Computations

section
variable {T : Type} [RedBlackTree T]

def Sched.waiting (s : Sched T) : List ℕ := s.nodes.map Node.pid

def Sched.running (s : Sched T) : List ℕ :=
  if s.nrRunning = 0 then [] else s.current :: s.waiting

def Counted (s : Sched T) : Prop :=
  s.nrRunning = 0 ∧ s.nodes = [] ∨ s.nrRunning = s.nodes.length + 1

theorem Counted.length {s : Sched T} (h : Counted s) : s.running.length = s.nrRunning := by
  unfold Sched.running
  rcases h with ⟨h, -⟩ | h
  · simp [h]
  · rw [if_neg (by omega)]
    simp [Sched.waiting, h]

theorem running_of_pos {s : Sched T} (h : 0 < s.nrRunning) :
    s.running = s.current :: s.waiting := if_neg (by omega)

variable [LawfulTree T]

theorem enqueue_nodes (pid : ℕ) (s : Sched T) :
    ∃ l r, s.nodes = l ++ r ∧ (enqueue pid s).nodes = l ++ ⟨s.fresh, pid⟩ :: r :=
  LawfulTree.insert_nodes s.compare s.t ⟨s.fresh, pid⟩

theorem enqueue_waiting (pid : ℕ) (s : Sched T) :
    (enqueue pid s).waiting.Perm (pid :: s.waiting) := by
  obtain ⟨l, r, hs, hu⟩ := enqueue_nodes pid s
  rw [Sched.waiting, Sched.waiting, hs, hu]
  simp only [List.map_append, List.map_cons]
  exact List.perm_middle

theorem dequeue_nodes {s : Sched T} {n : Node} (h : n ∈ s.nodes) :
    (dequeue n s).nodes = s.nodes.erase n := LawfulTree.delete_nodes s.t n h

/-- A context switch takes the leftmost node out of the tree and makes its task current. -/
theorem ctxtSwitch_ok {s u : Sched T} {a : Unit} (h : ctxtSwitch s = .ok (a, u)) :
    ∃ n l, s.nodes = n :: l ∧ u = dequeue n { s with current := n.pid } ∧ u.nodes = l := by
  simp only [ctxtSwitch, leftmost, bind_ok, get_bind] at h
  obtain ⟨n, w, hn, h⟩ := h
  cases hs : s.nodes with
  | nil =>
    rw [hs] at hn
    exact (fault_ok.1 hn).elim
  | cons m l =>
    rw [hs] at hn
    obtain ⟨rfl, rfl⟩ := Prod.mk.inj (pure_ok.1 hn)
    obtain ⟨-, rfl⟩ := Prod.mk.inj (modify_ok.1 h)
    refine ⟨n, l, rfl, rfl, ?_⟩
    rw [dequeue_nodes (show n ∈ Sched.nodes { w with current := n.pid } from by
      change n ∈ w.nodes
      rw [hs]
      exact List.mem_cons_self)]
    change w.nodes.erase n = l
    rw [hs, List.erase_cons_head]

theorem ctxtSwitch_waiting {s u : Sched T} {a : Unit} (h : ctxtSwitch s = .ok (a, u)) :
    s.waiting = u.current :: u.waiting ∧ u.nrRunning = s.nrRunning := by
  obtain ⟨n, l, hs, rfl, hl⟩ := ctxtSwitch_ok h
  refine ⟨?_, rfl⟩
  rw [Sched.waiting, Sched.waiting, hs, hl]
  rfl

omit [LawfulTree T] in
theorem leftmost_ok {s : Sched T} {r : Node × Sched T} (h : leftmost s = .ok r) :
    ∃ l, s.nodes = r.1 :: l ∧ r.2 = s := by
  simp only [leftmost, get_bind] at h
  cases hs : s.nodes with
  | nil =>
    rw [hs] at h
    exact (fault_ok.1 h).elim
  | cons m l =>
    rw [hs] at h
    obtain rfl := pure_ok.1 h
    exact ⟨l, rfl, rfl⟩

/-- A preemption check leaves the current process and the tree together as they were. -/
theorem preempt_waiting {s u : Sched T} {b : Bool} {a : Unit} (h : preempt b s = .ok (a, u)) :
    (u.current :: u.waiting).Perm (s.current :: s.waiting) ∧ u.nrRunning = s.nrRunning := by
  rw [preempt, bind_ok] at h
  obtain ⟨n, w, hn, h⟩ := h
  obtain ⟨l, -, rfl⟩ := leftmost_ok hn
  simp only [get_bind] at h
  rcases ite_ok.1 h with ⟨-, h⟩ | ⟨-, h⟩
  · simp only [modify_bind] at h
    obtain ⟨hu, hn⟩ := ctxtSwitch_waiting h
    rw [← hu]
    exact ⟨enqueue_waiting _ _, hn⟩
  · obtain ⟨-, rfl⟩ := Prod.mk.inj (pure_ok.1 h)
    exact ⟨.refl _, rfl⟩

omit [LawfulTree T] in
theorem Counted.pos {s : Sched T} (h : Counted s) (pos : 0 < s.nrRunning) :
    s.nrRunning = s.nodes.length + 1 := by
  rcases h with ⟨h0, -⟩ | h1
  · omega
  · exact h1

/-- Suspending the current process takes it, and nobody else, off the run queue. -/
theorem schedSuspend_current {s u : Sched T} {pid : ℕ} {r : ℤ} (hs : Counted s)
    (pos : 0 < s.nrRunning) (hc : s.current = pid) (hp : pid ≤ 99)
    (h : schedSuspend pid s = .ok (r, u)) :
    Counted u ∧ s.running.Perm (pid :: u.running) := by
  have hlen := hs.pos pos
  rw [schedSuspend, if_neg (by omega)] at h
  obtain ⟨a, w, hw, h⟩ := bind_ok.1 h
  simp only [modify_bind] at h
  obtain ⟨-, rfl⟩ := Prod.mk.inj (pure_ok.1 h)
  simp only [unqueue, get_bind] at hw
  rw [if_pos hc] at hw
  rcases ite_ok.1 hw with ⟨hm, hw⟩ | ⟨hm, hw⟩
  · obtain ⟨hq, hn⟩ := ctxtSwitch_waiting hw
    have hl : w.waiting.length + 1 = s.nodes.length := by
      have := congrArg List.length hq
      simpa [Sched.waiting] using this.symm
    have hwn : w.nrRunning = w.nodes.length + 2 := by
      have : w.waiting.length = w.nodes.length := List.length_map _
      omega
    refine ⟨.inr ?_, ?_⟩
    · change w.nrRunning - 1 = w.nodes.length + 1
      omega
    · rw [running_of_pos pos, hc, hq, running_of_pos]
      · exact .refl _
      · change 0 < w.nrRunning - 1
        omega
  · obtain ⟨-, rfl⟩ := Prod.mk.inj (pure_ok.1 hw)
    have h0 : w.nodes = [] := List.length_eq_zero_iff.1 (by omega)
    have hn : w.nrRunning - 1 = 0 := by omega
    refine ⟨.inl ⟨hn, h0⟩, ?_⟩
    rw [running_of_pos pos, hc, Sched.waiting, h0, Sched.running, if_pos hn]
    exact .refl _

/-- Resuming the current process changes nothing in the run queue; any other pid joins it. -/
theorem schedResume_running {s u : Sched T} {pid : ℕ} {r : ℤ} (hs : Counted s) (hp : pid ≤ 99)
    (h : schedResume pid s = .ok (r, u)) : Counted u ∧
      (0 < s.nrRunning ∧ s.current = pid ∧ u.running = s.running ∨
        ¬(0 < s.nrRunning ∧ s.current = pid) ∧ u.running.Perm (pid :: s.running)) := by
  rw [schedResume, if_neg (by omega)] at h
  simp only [modify_bind, get_bind] at h
  have hnr : (place pid s).nrRunning = s.nrRunning := rfl
  have hcur : (place pid s).current = s.current := rfl
  rw [hnr] at h
  rcases ite_ok.1 h with ⟨h0, h⟩ | ⟨h0, h⟩
  · simp only [modify_bind] at h
    obtain ⟨-, rfl⟩ := Prod.mk.inj (pure_ok.1 h)
    have hn : s.nodes = [] := by
      rcases hs with ⟨-, hn⟩ | h1
      · exact hn
      · omega
    refine ⟨.inr ?_, .inr ⟨by omega, ?_⟩⟩
    · change s.nrRunning + 1 = s.nodes.length + 1
      rw [h0, hn]
      rfl
    · rw [running_of_pos (show 0 < s.nrRunning + 1 by omega)]
      change (pid :: s.waiting).Perm (pid :: s.running)
      rw [Sched.waiting, hn, Sched.running, if_pos h0]
      exact .refl _
  · have hlen : s.nrRunning = s.nodes.length + 1 := by
      rcases hs with ⟨h1, -⟩ | h1
      · omega
      · exact h1
    rw [hcur] at h
    rcases ite_ok.1 h with ⟨hc, h⟩ | ⟨hc, h⟩
    · obtain ⟨-, rfl⟩ := Prod.mk.inj (pure_ok.1 h)
      exact ⟨.inr hlen, .inl ⟨by omega, hc.symm, rfl⟩⟩
    · rw [modify_bind, bind_ok] at h
      obtain ⟨a, w, hw, h⟩ := h
      simp only [modify_bind] at h
      obtain ⟨-, rfl⟩ := Prod.mk.inj (pure_ok.1 h)
      obtain ⟨hperm, hn⟩ := preempt_waiting hw
      have hq : (enqueue pid (place pid s)).waiting.Perm (pid :: s.waiting) :=
        enqueue_waiting pid (place pid s)
      have hall : (w.current :: w.waiting).Perm (pid :: s.current :: s.waiting) :=
        hperm.trans ((hq.cons s.current).trans (.swap pid s.current s.waiting))
      have hwn : w.nrRunning = s.nrRunning := hn
      have hl := hall.length_eq
      simp only [List.length_cons, Sched.waiting, List.length_map] at hl
      refine ⟨.inr ?_, .inr ⟨fun hx => hc hx.2.symm, ?_⟩⟩
      · change w.nrRunning + 1 = w.nodes.length + 1
        omega
      · rw [running_of_pos (show 0 < w.nrRunning + 1 by omega), running_of_pos (by omega)]
        exact hall

theorem schedResume_mem {s u : Sched T} {pid : ℕ} {r : ℤ} (hs : Counted s) (hp : pid ≤ 99)
    (h : schedResume pid s = .ok (r, u)) (q : ℕ) : q ∈ u.running ↔ q = pid ∨ q ∈ s.running := by
  obtain ⟨-, ⟨pos, hc, he⟩ | ⟨-, he⟩⟩ := schedResume_running hs hp h
  · rw [he]
    refine ⟨.inr, fun hq => hq.elim (fun hq => ?_) id⟩
    rw [hq, running_of_pos pos, hc]
    exact List.mem_cons_self
  · rw [he.mem_iff, List.mem_cons]

omit [LawfulTree T] in
theorem schedReset_running {s u : Sched T} {pid : ℕ} {r : ℤ} (h : schedReset pid s = .ok (r, u)) :
    u.running = s.running ∧ (Counted s → Counted u) ∧ u.nrRunning = s.nrRunning ∧
      u.current = s.current := by
  rcases ite_ok.1 h with ⟨-, h⟩ | ⟨-, h⟩
  · obtain ⟨-, rfl⟩ := Prod.mk.inj (pure_ok.1 h)
    exact ⟨rfl, id, rfl, rfl⟩
  · simp only [modify_bind] at h
    obtain ⟨-, rfl⟩ := Prod.mk.inj (pure_ok.1 h)
    exact ⟨rfl, id, rfl, rfl⟩

theorem endSlice_running {s u : Sched T} {a : Unit} (hs : Counted s)
    (h : endSlice s = .ok (a, u)) : Counted u ∧ u.running.Perm s.running := by
  simp only [endSlice, get_bind] at h
  rcases ite_ok.1 h with ⟨-, h⟩ | ⟨h2, h⟩
  · obtain ⟨-, rfl⟩ := Prod.mk.inj (pure_ok.1 h)
    exact ⟨hs, .refl _⟩
  · obtain ⟨hp, hn⟩ := preempt_waiting h
    have hlen := hs.pos (by omega)
    have hl := hp.length_eq
    simp only [List.length_cons, Sched.waiting, List.length_map] at hl
    refine ⟨.inr (by omega), ?_⟩
    rw [running_of_pos (by omega), running_of_pos (by omega)]
    exact hp

end
end BrainMachine.RunQueue
