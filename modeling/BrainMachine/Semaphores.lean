import BrainMachine.MemoryRelations
import BrainMachine.WaitQueues
import BrainMachine.TickSteps

set_option autoImplicit false

namespace BrainMachine.Semaphores
open Codec Computations Paging Stdio AddressSpace Instructions HoleList RunQueue Machine Loader
open Dispatch Effects Runs MachineRuns SortedTree MachineMemory MemoryRelations References
open ProcessImages TickSteps Footprints

instance : MemoryRelation (Order.Preimage Store.semTable (· = ·)) where
  touches p a s u b h := by rw [Order.Preimage, getWordref_rest h]
  releases p a s u b h := by rw [Order.Preimage, releaseWordref_rest h]
  assigns x w s u b h := by rw [Order.Preimage, assign_rest h]
  codes s f := rfl
  rest s u _ h := h.symm

def Op.semaphore (op : Op) : Prop := op = .SI ∨ op = .PE ∨ op = .VE

theorem run_keeps {T : Type} [RedBlackTree T] {op : Op} {p : ℕ} {a : ℤ} {m u : VM T}
    (other : ¬Op.semaphore op) (h : op.run p a m = .ok (0, u)) :
    u.store.semTable = m.store.semTable := by
  have apart : op ≠ .SI ∧ op ≠ .PE ∧ op ≠ .VE := by
    rwa [Op.semaphore, not_or, not_or] at other
  have same : Order.Preimage Store.semTable (· = ·) m.store u.store :=
    respects_run apart.1 apart.2.1 apart.2.2 h
  exact same.symm

section
variable {T : Type} [RedBlackTree T]

inductive Down (p s : ℕ) (m u : VM T) : Prop
  | pass (positive : m.store.semTable s ≠ 0)
      (value : u.store.semTable = Function.update m.store.semTable s (m.store.semTable s - 1))
      (regs : u.regs p = advance (m.regs p)) (semWq : u.semWq = m.semWq)
  | block (zero : m.store.semTable s = 0) (value : u.store.semTable = m.store.semTable)
      (regs : u.regs p = retreat (advance (m.regs p)))
      (semWq : u.semWq = Function.update m.semWq s (m.semWq s ++ [p]))

theorem down {m u : VM T} {p : ℕ} {a : ℤ} (k : Ticked m u p .PE a) :
    0 ≤ a ∧ a ≤ 99 ∧ Down p a.toNat m u := by
  obtain ⟨v, x, s, t, parts⟩ := tick_parts k
  obtain rfl := parts.final
  have h := parts.run
  rw [Op.run, semDown] at h
  rcases ite_ok.1 h with ⟨-, h⟩ | ⟨ha, h⟩
  · cases (Prod.mk.inj (pure_ok.1 h)).1
  · obtain ⟨r, y, hy, h⟩ := onMemory_bind h
    rw [semP, get_bind] at hy
    rcases ite_ok.1 hy with ⟨-, hy⟩ | ⟨ha', hy⟩
    · obtain ⟨rfl, -⟩ := Prod.mk.inj (pure_ok.1 hy)
      rcases ite_ok.1 h with ⟨hr, -⟩ | ⟨-, h⟩
      · cases hr
      · rcases ite_ok.1 h with ⟨hr, -⟩ | ⟨-, h⟩
        · cases hr
        · cases (Prod.mk.inj (pure_ok.1 h)).1
    · refine ⟨by omega, by omega, ?_⟩
      rcases ite_ok.1 hy with ⟨zero, hy⟩ | ⟨positive, hy⟩
      · obtain ⟨rfl, rfl⟩ := Prod.mk.inj (pure_ok.1 hy)
        rw [if_neg (by decide), if_pos rfl] at h
        obtain ⟨c, w, hc, h⟩ := bind_ok.1 h
        rcases ite_ok.1 h with ⟨-, h⟩ | ⟨hc', h⟩
        · cases (Prod.mk.inj (pure_ok.1 h)).1
        · obtain rfl := not_not.1 hc'
          obtain rfl := retry_eq hc
          obtain ⟨d, q, -, h⟩ := onSched_bind h
          obtain ⟨e, w, he, h⟩ := bind_ok.1 h
          obtain ⟨rfl, rfl⟩ := updateSemWq_ok he
          obtain ⟨-, rfl⟩ := Prod.mk.inj (pure_ok.1 h)
          refine .block zero rfl ?_ rfl
          refine (setCore_regs p _ _).trans ?_
          exact congrArg retreat (fetched_regs p _ m)
      · obtain ⟨rfl, rfl⟩ := Prod.mk.inj (pure_ok.1 hy)
        rw [if_pos rfl] at h
        obtain ⟨-, rfl⟩ := Prod.mk.inj (pure_ok.1 h)
        exact .pass positive rfl (fetched_regs p _ m) rfl

/-- A VE that returned 0 put its semaphore up and took the first process out of the queue. -/
theorem up {m u : VM T} {p : ℕ} {a : ℤ} (k : Ticked m u p .VE a) : 0 ≤ a ∧
    u.store.semTable =
      Function.update m.store.semTable a.toNat (m.store.semTable a.toNat + 1) ∧
    u.semWq = Function.update m.semWq a.toNat (m.semWq a.toNat).tail := by
  obtain ⟨v, x, s, t, parts⟩ := tick_parts k
  obtain rfl := parts.final
  have h := parts.run
  rw [Op.run, semUp] at h
  rcases ite_ok.1 h with ⟨-, h⟩ | ⟨ha, h⟩
  · cases (Prod.mk.inj (pure_ok.1 h)).1
  · obtain ⟨r, y, hy, h⟩ := onMemory_bind h
    rcases ite_ok.1 hy with ⟨-, hy⟩ | ⟨-, hy⟩
    · obtain ⟨rfl, -⟩ := Prod.mk.inj (pure_ok.1 hy)
      cases (Prod.mk.inj (pure_ok.1 h)).1
    · obtain ⟨rfl, rfl⟩ := Prod.mk.inj (pure_ok.1 hy)
      rw [if_neg (by decide), get_bind] at h
      cases hq : m.semWq a.toNat with
      | nil =>
        simp only [show (fetched p s.pager m).semWq a.toNat = [] from hq] at h
        obtain ⟨-, rfl⟩ := Prod.mk.inj (pure_ok.1 h)
        refine ⟨by omega, rfl, ?_⟩
        rw [List.tail_nil, ← hq, Function.update_eq_self]
        rfl
      | cons q l =>
        simp only [show (fetched p s.pager m).semWq a.toNat = q :: l from hq] at h
        obtain ⟨c, b, -, h⟩ := onSched_bind h
        obtain ⟨e, w, he, h⟩ := bind_ok.1 h
        obtain ⟨rfl, rfl⟩ := updateSemWq_ok he
        obtain ⟨-, rfl⟩ := Prod.mk.inj (pure_ok.1 h)
        refine ⟨by omega, rfl, ?_⟩
        change Function.update m.semWq _ ((m.semWq a.toNat).erase q) = _
        rw [hq, List.erase_cons_head, List.tail_cons]

/-- An SI that returned 0 set its semaphore to the number in the register. -/
theorem set {m u : VM T} {p : ℕ} {a : ℤ} (k : Ticked m u p .SI a) : 0 ≤ a ∧
    0 ≤ word2int (m.regs p).r ∧ u.store.semTable =
      Function.update m.store.semTable a.toNat (UInt32.ofInt (word2int (m.regs p).r)) := by
  obtain ⟨v, x, s, t, parts⟩ := tick_parts k
  obtain rfl := parts.final
  have h := parts.run
  have r : ((fetched p s.pager m).core p).regs.r = (m.regs p).r := by
    rw [VM.core, fetched_regs]
    rfl
  rw [run_instr rfl, instr, get_bind] at h
  obtain ⟨c, hc, rfl⟩ := zoom_ok.1 h
  rw [setSem, get_bind, r] at hc
  rcases ite_ok.1 hc with ⟨-, hc⟩ | ⟨hr, hc⟩
  · cases (Prod.mk.inj (pure_ok.1 hc)).1
  · rcases ite_ok.1 hc with ⟨-, hc⟩ | ⟨ha, hc⟩
    · cases (Prod.mk.inj (pure_ok.1 hc)).1
    · obtain ⟨b, d, hd, hc⟩ := bind_ok.1 hc
      obtain ⟨y, hy, rfl⟩ := onStore_ok hd
      rcases ite_ok.1 hy with ⟨-, hy⟩ | ⟨-, hy⟩
      · obtain ⟨rfl, rfl⟩ := Prod.mk.inj (pure_ok.1 hy)
        cases (Prod.mk.inj (pure_ok.1 hc)).1
      · obtain ⟨rfl, rfl⟩ := Prod.mk.inj (pure_ok.1 hy)
        obtain ⟨-, rfl⟩ := Prod.mk.inj (pure_ok.1 hc)
        exact ⟨by omega, by omega, rfl⟩

theorem other {m u : VM T} {p : ℕ} {op : Op} {a : ℤ} (k : Ticked m u p op a)
    (h : ¬Op.semaphore op) : u.store.semTable = m.store.semTable := by
  obtain ⟨v, x, s, t, parts⟩ := tick_parts k
  obtain rfl := parts.final
  exact (run_keeps h parts.run :)

def completes (e : Execution T) (s i : ℕ) : Bool :=
  match e.lab i with
  | .instr p .PE a =>
    decide (a = s ∧ ((e.vm (i + 1)).regs p).ic = (advance ((e.vm i).regs p)).ic)
  | _ => false

def raises (e : Execution T) (s i : ℕ) : Bool :=
  match e.lab i with
  | .instr _ .VE a => decide (a = s)
  | _ => false

def downs (e : Execution T) (s k n : ℕ) : ℕ := tallyFrom (completes e s) k n
def ups (e : Execution T) (s k n : ℕ) : ℕ := tallyFrom (raises e s) k n
def value (e : Execution T) (s n : ℕ) : ℕ := ((e.vm n).store.semTable s).toNat

/-- From `b` to `n` nobody sets the semaphore `s`, which was set to `k` just before. -/
structure Since (e : Execution T) (s k b n : ℕ) : Prop where
  origin : b = 0 ∧ k = 1 ∨
    ∃ i p, b = i + 1 ∧ e.lab i = .instr p .SI s ∧ (k : ℤ) = word2int ((e.vm i).regs p).r
  le : b ≤ n
  len : n ≤ e.len
  still : ∀ i p, b ≤ i → i < n → e.lab i ≠ .instr p .SI s

theorem load_semTable {pager : Pager} {host : Host} {u : VM T}
    (h : Loads (startState pager host) u) : u.store.semTable = fun _ => 1 := by
  induction h with
  | start => rfl
  | turn w n a b f s t _ hn small room block reset resume ih => exact ih

theorem value_start (e : Execution T) (s : ℕ) : value e s 0 = 1 := by
  obtain ⟨pager, u, fh, -, hu, hm⟩ := e.loads
  rw [value, hm]
  exact congrArg (fun t : ℕ → UInt32 => (t s).toNat) (load_semTable hu)

theorem toNat_pred {v : UInt32} (h : v ≠ 0) : (v - 1).toNat + 1 = v.toNat := by
  have pos : v.toNat ≠ 0 := fun h0 => h (UInt32.toNat_inj.1 h0)
  have le : (1 : UInt32) ≤ v := UInt32.le_iff_toNat_le.2 (Nat.one_le_iff_ne_zero.2 pos)
  rw [UInt32.toNat_sub_of_le v 1 le]
  exact Nat.sub_add_cancel (Nat.one_le_iff_ne_zero.2 pos)

theorem toNat_ofInt {k : ℕ} (h : k < 4294967296) : (UInt32.ofInt k).toNat = k := by
  have low : ((k : ℤ) % 2 ^ 32).toNat = k := by omega
  rw [UInt32.ofInt, UInt32.toNat_ofNat', low]
  exact Nat.mod_eq_of_lt h

/-- A step other than an SI on `s` moves the value with the counts, unless it wraps. -/
theorem value_step {e : Execution T} {s i : ℕ} (hi : i < e.len)
    (still : ∀ p, e.lab i ≠ .instr p .SI s) :
    value e s (i + 1) + (if completes e s i then 1 else 0) =
      (value e s i + if raises e s i then 1 else 0) % 4294967296 := by
  have small : value e s i < 4294967296 := UInt32.toNat_lt _
  obtain ⟨-, ⟨p, op, a, lab, -, k⟩ | ⟨lab, t, -, hm⟩⟩ := e.step hi
  · by_cases sem : Op.semaphore op
    · obtain rfl | rfl | rfl := sem
      · -- an SI, on another semaphore
        obtain ⟨ha, -, table⟩ := set k
        have apart : s ≠ a.toNat := by
          intro hs
          apply still p
          rw [lab, hs, Int.toNat_of_nonneg ha]
        simp only [value, completes, raises, lab, table, Function.update_of_ne apart]
        exact (Nat.mod_eq_of_lt small).symm
      · obtain ⟨ha, -, done⟩ := down k
        cases done with
        | pass positive table regs =>
          by_cases hs : a = s
          · subst hs
            have pred := toNat_pred positive
            simp only [value, completes, raises, lab, table, regs, Int.toNat_natCast,
              Function.update_self, and_self, decide_true, if_true] at pred ⊢
            exact pred.trans (Nat.mod_eq_of_lt small).symm
          · have apart : s ≠ a.toNat := by omega
            simp only [value, completes, raises, lab, table, Function.update_of_ne apart, hs,
              false_and, decide_false]
            exact (Nat.mod_eq_of_lt small).symm
        | block zero table regs =>
          have stays := retreat_ne (tick_counter k).1
          simp only [value, completes, raises, lab, table, regs, stays, and_false, decide_false]
          exact (Nat.mod_eq_of_lt small).symm
      · obtain ⟨ha, table, -⟩ := up k
        by_cases hs : a = s
        · subst hs
          simp only [value, completes, raises, lab, table, Int.toNat_natCast,
            Function.update_self, decide_true, if_true, Bool.false_eq_true, if_false]
          exact UInt32.toNat_add _ 1
        · have apart : s ≠ a.toNat := by omega
          simp only [value, completes, raises, lab, table, Function.update_of_ne apart, hs,
            decide_false]
          exact (Nat.mod_eq_of_lt small).symm
    · have table := other k sem
      have plain : completes e s i = false ∧ raises e s i = false := by
        rw [completes, raises, lab]
        cases op <;> first | exact ⟨rfl, rfl⟩ | exact absurd (by simp [Op.semaphore]) sem
      rw [value, table, plain.1, plain.2]
      exact (Nat.mod_eq_of_lt small).symm
  · rw [value, hm, completes, raises, lab]
    exact (Nat.mod_eq_of_lt small).symm

theorem not_completes {e : Execution T} {s i : ℕ} (h : raises e s i = true) :
    completes e s i = false := by
  rw [raises] at h
  split at h
  · rename_i lab
    rw [completes, lab]
  · cases h

theorem value_origin {e : Execution T} {s k b n : ℕ} (h : Since e s k b n) :
    value e s b = k := by
  rcases h.origin with ⟨rfl, rfl⟩ | ⟨i, p, rfl, lab, hk⟩
  · exact value_start e s
  · have hi : i < e.len := by
      have := h.le
      have := h.len
      omega
    obtain ⟨-, -, t⟩ := e.ticked hi lab
    obtain ⟨-, -, table⟩ := set t
    have bound := word2int_bounds ((e.vm i).regs p).r
    rw [value, table, Int.toNat_natCast, Function.update_self, ← hk]
    rw [← hk] at bound
    exact toNat_ofInt (by omega)

/-- The completed PEs are never more than what the semaphore was set to and the VEs allow, and
the value is the difference until it passes the largest counter. -/
theorem semaphore_safety (e : Execution T) (s k b n : ℕ) (h : Since e s k b n) :
    downs e s b n ≤ k + ups e s b n ∧
      ((∀ j, b ≤ j → j ≤ n → k + ups e s b j ≤ downs e s b j + 4294967295) →
        value e s n + downs e s b n = k + ups e s b n) := by
  have step (j : ℕ) (hj : b ≤ j) (hn : j < n) := value_step (e := e) (s := s) (i := j)
    (by have := h.len; omega) (fun p => h.still j p hj hn)
  have kept (j : ℕ) (hj : b ≤ j) : j ≤ n → value e s j + downs e s b j ≤ k + ups e s b j ∧
      ((∀ i, b ≤ i → i ≤ j → k + ups e s b i ≤ downs e s b i + 4294967295) →
        value e s j + downs e s b j = k + ups e s b j) := by
    induction j, hj using Nat.le_induction with
    | base =>
      intro hn
      rw [value_origin h, downs, ups, tallyFrom_self, tallyFrom_self]
      exact ⟨le_rfl, fun _ => rfl⟩
    | succ j hj ih =>
      intro hn
      obtain ⟨bound, exact⟩ := ih (by omega)
      have next := step j hj hn
      have d : downs e s b (j + 1) = downs e s b j + if completes e s j then 1 else 0 :=
        tallyFrom_succ _ hj
      have u : ups e s b (j + 1) = ups e s b j + if raises e s j then 1 else 0 :=
        tallyFrom_succ _ hj
      rw [d, u]
      have wrap := Nat.mod_le (value e s j + if raises e s j then 1 else 0) 4294967296
      refine ⟨by omega, fun small => ?_⟩
      have before := exact fun i hi hij => small i hi (by omega)
      have last := small (j + 1) (by omega) le_rfl
      rw [d, u] at last
      have value_lt : value e s j < 4294967296 := UInt32.toNat_lt _
      cases up : raises e s j with
      | false =>
        simp only [up, Bool.false_eq_true, if_false, add_zero] at next ⊢
        rw [Nat.mod_eq_of_lt value_lt] at next
        omega
      | true =>
        rw [not_completes up] at next last ⊢
        simp only [up, Bool.false_eq_true, if_false, if_true, add_zero] at next last ⊢
        rw [Nat.mod_eq_of_lt (by omega)] at next
        omega
  obtain ⟨bound, exact⟩ := kept n h.le le_rfl
  exact ⟨by omega, exact⟩

def setRun : Execution ListTree :=
  execution 100 halfWeight bareHost
    (bytes "BRAIN10\n2\nPE05\nPE05\nBRAIN10\n3\nLR02\nSI05\n0001\nDATA\n") 4
    (by decide +kernel) (by decide +kernel)

/-- The second PE blocks and does not count. -/
theorem setRun_safe : downs setRun 5 0 2 ≤ 1 + ups setRun 5 0 2 ∧
    ((∀ j, 0 ≤ j → j ≤ 2 → 1 + ups setRun 5 0 j ≤ downs setRun 5 0 j + 4294967295) →
      value setRun 5 2 + downs setRun 5 0 2 = 1 + ups setRun 5 0 2) := by
  have pe : ∀ i < 2, setRun.lab i = .instr 0 .PE 5 := by decide +kernel
  refine semaphore_safety setRun 5 1 0 2 ⟨.inl ⟨rfl, rfl⟩, by decide, by decide, ?_⟩
  intro i p hb hi lab
  rw [pe i hi] at lab
  cases lab

end
end BrainMachine.Semaphores
