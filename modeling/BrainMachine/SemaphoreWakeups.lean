import BrainMachine.Semaphores
import BrainMachine.SenderQueues
import Mathlib.Data.Finset.Card

set_option autoImplicit false

namespace BrainMachine.SemaphoreWakeups
open Codec Computations Paging AddressSpace Instructions RunQueue Machine Dispatch Effects
open MachineRuns SortedTree WaitQueues SenderQueues Semaphores

section
variable {T : Type} [RedBlackTree T]

/-- The processes that a VE took out of the queue and that have not run their PE since. -/
def woken (e : Execution T) (s : ℕ) : ℕ → Finset ℕ
  | 0 => ∅
  | n + 1 =>
    match e.lab n, (e.vm n).semWq s with
    | .instr _ .VE a, q :: _ => if a = s then insert q (woken e s n) else woken e s n
    | .instr p .PE a, _ => if a = s then (woken e s n).erase p else woken e s n
    | _, _ => woken e s n

def SetsSafely (e : Execution T) (i : ℕ) : Prop := ∀ p a, e.lab i = .instr p .SI a →
  (e.vm i).semWq a.toNat = [] ∨ word2int ((e.vm i).regs p).r ≤ (woken e a.toNat i).card

structure Awaited (e : Execution T) (s n : ℕ) : Prop where
  awake : ∀ q ∈ woken e s n, q ∉ (e.vm n).semWq s
  promised : (e.vm n).semWq s ≠ [] → value e s n ≤ (woken e s n).card

theorem semWq_same {p : ℕ} {op : Op} {a : ℤ} {m u : VM T} (k : Ticked m u p op a)
    (down : op ≠ .PE) (up : op ≠ .VE) : u.semWq = m.semWq := by
  cases k.effect with
  | quiet op a k => exact k.semWq
  | execNone a n refused h => exact h.semWq
  | execGrant a n hn granted h => exact (Local.still_resized h).semWq
  | recvBlock a c ha none frame sched shift => exact shift.semWq
  | recvTake a c s some frame sched shift => exact shift.semWq
  | sendAlone a c ha alone frame sched shift => exact shift.semWq
  | sendWake a c d s ha waits frame suspend resume shift => exact shift.semWq
  | downBlock a c ha frame sched shift => exact absurd rfl down
  | upWake a c q l ha head frame sched shift => exact absurd rfl up
  | fork a c d n s hn pos' room' granted nextPid holes files child seg regs reset resume shift =>
    exact shift.semWq
  | halt a c d s frame reset suspend shift => exact shift.semWq

theorem load_semWq {pager : Pager} {host : Host} {u : VM T}
    (h : Loads (startState pager host) u) : u.semWq = fun _ => [] := by
  induction h with
  | start => rfl
  | turn w n a b f s t _ hn small room block reset resume ih => exact ih

theorem awaited_start (e : Execution T) (s : ℕ) : Awaited e s 0 := by
  obtain ⟨pager, u, fh, -, hu, hm⟩ := e.loads
  refine ⟨fun q hq => absurd hq (Finset.notMem_empty q), fun waiting => absurd ?_ waiting⟩
  rw [hm]
  exact congrFun (load_semWq hu) s

theorem single_nodup {e : Execution T} {n s : ℕ} (h : Single e n) (hs : s < procs) :
    ((e.vm n).semWq s).Nodup := by
  rw [List.nodup_iff_count_le_one]
  intro q
  have le := count_le_queued (e.vm n).semWq hs q
  have one := h.one q
  rw [busy] at one
  omega

theorem woken_same {e : Execution T} {s i : ℕ}
    (h : ∀ p a, (a : ℤ) = s → e.lab i ≠ .instr p .PE a ∧ e.lab i ≠ .instr p .VE a) :
    woken e s (i + 1) = woken e s i := by
  rw [woken]
  split
  · rename_i q p a w l lab queue
    rw [if_neg]
    intro ha
    exact (h p a ha).2 lab
  · rename_i p a lab
    rw [if_neg]
    intro ha
    exact (h p a ha).1 lab
  · rfl

theorem woken_instr {e : Execution T} {s i p : ℕ} {op : Op} {a : ℤ}
    (lab : e.lab i = .instr p op a) (apart : a = s → op ≠ .PE ∧ op ≠ .VE) :
    woken e s (i + 1) = woken e s i := by
  apply woken_same
  intro p' a' ha'
  rw [lab]
  constructor
  · rintro ⟨⟩
    exact (apart ha').1 rfl
  · rintro ⟨⟩
    exact (apart ha').2 rfl

/-- A step that leaves the queue, the value and the woken processes as they are. -/
theorem Awaited.keep {e : Execution T} {s i : ℕ} (h : Awaited e s i)
    (queue : (e.vm (i + 1)).semWq s = (e.vm i).semWq s)
    (same : woken e s (i + 1) = woken e s i)
    (promised : (e.vm i).semWq s ≠ [] → value e s (i + 1) ≤ (woken e s i).card) :
    Awaited e s (i + 1) := by
  constructor
  · rw [queue, same]
    exact h.awake
  · rw [queue, same]
    exact promised

theorem awaited_down {e : Execution T} {s i p : ℕ} {a : ℤ} (h : Awaited e s i)
    (lab : e.lab i = .instr p .PE a) (k : Ticked (e.vm i) (e.vm (i + 1)) p .PE a) :
    Awaited e s (i + 1) := by
  obtain ⟨ha, -, done⟩ := down k
  by_cases hs : a = s
  · subst hs
    have woke : woken e s (i + 1) = (woken e s i).erase p := by
      rw [woken, lab]
      exact if_pos rfl
    cases done with
    | pass positive table regs semWq =>
      have queue : (e.vm (i + 1)).semWq s = (e.vm i).semWq s := congrFun semWq s
      have pred : value e s (i + 1) + 1 = value e s i := by
        rw [value, table]
        simp only [Int.toNat_natCast, Function.update_self] at positive ⊢
        exact toNat_pred positive
      have card := Finset.pred_card_le_card_erase (s := woken e s i) (a := p)
      constructor
      · rw [woke, queue]
        intro q hq
        exact h.awake q (Finset.mem_of_mem_erase hq)
      · rw [woke, queue]
        intro waiting
        have := h.promised waiting
        omega
    | block zero table regs semWq =>
      have queue : (e.vm (i + 1)).semWq s = (e.vm i).semWq s ++ [p] := by
        rw [semWq, Int.toNat_natCast, Function.update_self]
      have none : value e s (i + 1) = 0 := by
        rw [value, table]
        exact UInt32.toNat_inj.2 zero
      constructor
      · rw [woke, queue]
        intro q hq hm
        rcases List.mem_append.1 hm with hm | hm
        · exact h.awake q (Finset.mem_of_mem_erase hq) hm
        · exact Finset.ne_of_mem_erase hq (List.mem_singleton.1 hm)
      · rw [none]
        exact fun _ => Nat.zero_le _
  · have apart : s ≠ a.toNat := by omega
    have same := woken_instr lab fun here => absurd here hs
    cases done with
    | pass positive table regs semWq =>
      refine h.keep (congrFun semWq s) same fun waiting => ?_
      rw [value, table, Function.update_of_ne apart]
      exact h.promised waiting
    | block zero table regs semWq =>
      refine h.keep ?_ same fun waiting => ?_
      · rw [semWq, Function.update_of_ne apart]
      · rw [value, table]
        exact h.promised waiting

theorem awaited_up {e : Execution T} {s i p : ℕ} {a : ℤ} (h : Awaited e s i)
    (nodup : ((e.vm i).semWq s).Nodup) (lab : e.lab i = .instr p .VE a)
    (k : Ticked (e.vm i) (e.vm (i + 1)) p .VE a) : Awaited e s (i + 1) := by
  obtain ⟨ha, table, semWq⟩ := up k
  by_cases hs : a = s
  · subst hs
    have queue : (e.vm (i + 1)).semWq s = ((e.vm i).semWq s).tail := by
      rw [semWq, Int.toNat_natCast, Function.update_self]
    cases waiting : (e.vm i).semWq s with
    | nil =>
      have woke : woken e s (i + 1) = woken e s i := by
        rw [woken, lab, waiting]
      apply h.keep
      · rw [queue, waiting, List.tail_nil]
      · exact woke
      · exact fun some => absurd waiting some
    | cons q l =>
      have woke : woken e s (i + 1) = insert q (woken e s i) := by
        rw [woken, lab, waiting]
        exact if_pos rfl
      rw [waiting] at queue nodup
      obtain ⟨gone, -⟩ := List.nodup_cons.1 nodup
      have asleep : q ∉ woken e s i := by
        intro hq
        apply h.awake q hq
        rw [waiting]
        exact List.mem_cons_self
      have bound := h.promised (by rw [waiting]; exact List.cons_ne_nil q l)
      have raised : value e s (i + 1) ≤ value e s i + 1 := by
        rw [value, table, Int.toNat_natCast, Function.update_self]
        exact (UInt32.toNat_add _ 1).trans_le (Nat.mod_le _ _)
      constructor
      · rw [woke, queue, List.tail_cons]
        intro r hr hm
        rcases Finset.mem_insert.1 hr with rfl | hr
        · exact gone hm
        · apply h.awake r hr
          rw [waiting]
          exact List.mem_cons_of_mem q hm
      · rw [woke, Finset.card_insert_of_notMem asleep]
        intro _
        omega
  · have apart : s ≠ a.toNat := by omega
    have same := woken_instr lab fun here => absurd here hs
    apply h.keep
    · rw [semWq, Function.update_of_ne apart]
    · exact same
    · rw [value, table, Function.update_of_ne apart]
      exact h.promised

theorem awaited_set {e : Execution T} {s i p : ℕ} {a : ℤ} (h : Awaited e s i)
    (safe : SetsSafely e i) (lab : e.lab i = .instr p .SI a)
    (k : Ticked (e.vm i) (e.vm (i + 1)) p .SI a) : Awaited e s (i + 1) := by
  obtain ⟨ha, hr, table⟩ := set k
  have queue := semWq_same k (by decide) (by decide)
  apply h.keep (congrFun queue s)
  · exact woken_instr lab fun _ => ⟨by decide, by decide⟩
  · intro waiting
    by_cases hs : a = s
    · subst hs
      have small := (safe p s lab).resolve_left waiting
      obtain ⟨c, hc⟩ := Int.eq_ofNat_of_zero_le hr
      have bound := word2int_bounds ((e.vm i).regs p).r
      rw [Int.toNat_natCast, hc] at small
      rw [value, table, Int.toNat_natCast, Function.update_self, hc, toNat_ofInt (by omega)]
      exact Int.ofNat_le.1 small
    · have apart : s ≠ a.toNat := by omega
      rw [value, table, Function.update_of_ne apart]
      exact h.promised waiting

variable [LawfulTree T]

theorem awaited (e : Execution T) (s : ℕ) (hs : s < procs)
    (receivers : ∀ i < e.len, WakesReceiver e i) (sets : ∀ i < e.len, SetsSafely e i) (n : ℕ)
    (hn : n ≤ e.len) : Awaited e s n := by
  refine e.toRun.invariant (Awaited e s) (awaited_start e s) (fun i hi h => ?_) n hn
  obtain ⟨-, ⟨p, op, a, lab, -, k⟩ | ⟨lab, t, -, hm⟩⟩ := e.step hi
  · by_cases sem : Op.semaphore op
    · obtain rfl | rfl | rfl := sem
      · exact awaited_set h (sets i hi) lab k
      · exact awaited_down h lab k
      · exact awaited_up h (single_nodup (single e receivers i (by omega)) hs) lab k
    · have down : op ≠ .PE := fun ho => sem (.inr (.inl ho))
      have up : op ≠ .VE := fun ho => sem (.inr (.inr ho))
      apply h.keep (congrFun (semWq_same k down up) s)
      · exact woken_instr lab fun _ => ⟨down, up⟩
      · rw [value, other k sem]
        exact h.promised
  · apply h.keep
    · rw [hm]
    · apply woken_same
      intro p' a' _
      rw [lab]
      constructor <;> rintro ⟨⟩
    · rw [value, hm]
      exact h.promised

/-- In a run whose SIs are safe and whose SDs wake receivers only, the value of a semaphore
that somebody waits for is at most the number of woken processes, so that nobody waits for a
positive one while no wakeup is pending. -/
theorem no_lost_wakeup (e : Execution T) (s : ℕ) (hs : s < procs)
    (receivers : ∀ i < e.len, WakesReceiver e i) (sets : ∀ i < e.len, SetsSafely e i) (n : ℕ)
    (hn : n ≤ e.len) (waiting : (e.vm n).semWq s ≠ []) :
    value e s n ≤ (woken e s n).card ∧ (woken e s n = ∅ → value e s n = 0) := by
  have bound := (awaited e s hs receivers sets n hn).promised waiting
  refine ⟨bound, fun none => ?_⟩
  rw [none, Finset.card_empty] at bound
  exact Nat.le_zero.1 bound

def wakeRun : Execution ListTree :=
  execution 100 halfWeight bareHost
    (bytes "BRAIN10\n2\nPE05\nPE05\nBRAIN10\n1\nPE05\nBRAIN10\n2\nVE05\nHA00\nDATA\n") 4
    (by decide +kernel) (by decide +kernel)

theorem wakeRun_promised :
    value wakeRun 5 4 ≤ (woken wakeRun 5 4).card ∧ (woken wakeRun 5 4 = ∅ → value wakeRun 5 4 = 0) := by
  have semaphores : ∀ i < 4, wakeRun.lab i = .instr 0 .PE 5 ∨ wakeRun.lab i = .instr 1 .PE 5 ∨
      wakeRun.lab i = .instr 2 .VE 5 := by decide +kernel
  apply no_lost_wakeup wakeRun 5 (by decide) _ _ 4 le_rfl (by decide +kernel)
  · intro i hi s a lab
    rcases semaphores i hi with h | h | h
    all_goals
      rw [h] at lab
      cases lab
  · intro i hi p a lab
    rcases semaphores i hi with h | h | h
    all_goals
      rw [h] at lab
      cases lab

/-- After an SI a process waits for a positive semaphore, and nobody is awake to take it. -/
theorem setRun_not_promised : (setRun.vm 4).semWq 5 ≠ [] ∧
    ¬value setRun 5 4 ≤ (woken setRun 5 4).card := by decide +kernel

end
end BrainMachine.SemaphoreWakeups
