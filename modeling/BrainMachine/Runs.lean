import Mathlib.Data.Nat.Basic
import Mathlib.Data.List.Range

set_option autoImplicit false

namespace BrainMachine.Runs

structure Run {σ l : Type} (step : σ → l → σ → Prop) where
  len : ℕ
  st : ℕ → σ
  lab : ℕ → l
  ok : ∀ i, i < len → step (st i) (lab i) (st (i + 1))

section
variable {σ l : Type} {step : σ → l → σ → Prop}

/-- What holds at the start and is kept by each step holds all along. -/
theorem Run.invariant (r : Run step) (I : ℕ → Prop) (start : I 0)
    (kept : ∀ i, i < r.len → I i → I (i + 1)) (n : ℕ) (hn : n ≤ r.len) : I n := by
  induction n with
  | zero => exact start
  | succ n ih => exact kept n (by omega) (ih (by omega))

def Run.start (s : σ) (a : l) : Run step := ⟨0, fun _ => s, fun _ => a, fun _ h => nomatch h⟩

def Run.snoc (r : Run step) (a : l) (u : σ) (h : step (r.st r.len) a u) : Run step where
  len := r.len + 1
  st i := if i ≤ r.len then r.st i else u
  lab i := if i < r.len then r.lab i else a
  ok i hi := by
    by_cases last : i < r.len
    · rw [if_pos last.le, if_pos last, if_pos (Nat.succ_le_of_lt last)]
      exact r.ok i last
    · obtain rfl : i = r.len := by omega
      rw [if_pos le_rfl, if_neg (lt_irrefl _), if_neg (by omega)]
      exact h

theorem Run.snoc_st (r : Run step) (a : l) (u : σ) (h : step (r.st r.len) a u) {i : ℕ}
    (hi : i ≤ r.len) : (r.snoc a u h).st i = r.st i := if_pos hi

theorem Run.snoc_last (r : Run step) (a : l) (u : σ) (h : step (r.st r.len) a u) :
    (r.snoc a u h).st (r.snoc a u h).len = u := if_neg (Nat.not_succ_le_self _)

def Run.map {l' : Type} {step' : σ → l' → σ → Prop} (r : Run step) (f : l → l')
    (h : ∀ s a u, step s a u → step' s (f a) u) : Run step' where
  len := r.len
  st := r.st
  lab i := f (r.lab i)
  ok i hi := h _ _ _ (r.ok i hi)

theorem performs_take {next : σ → l → Option σ} {s : σ} {labels : List l}
    (h : (labels.foldlM next s).isSome) (i : ℕ) : ((labels.take i).foldlM next s).isSome := by
  rw [← List.take_append_drop i labels, List.foldlM_append] at h
  exact Option.isSome_of_isSome_bind h

def performed {next : σ → l → Option σ} (sound : ∀ s a u, next s a = some u → step s a u)
    (s : σ) (a : l) (labels : List l) (h : (labels.foldlM next s).isSome) : Run step where
  len := labels.length
  st i := ((labels.take i).foldlM next s).getD s
  lab i := labels.getD i a
  ok i hi := by
    obtain ⟨u, hu⟩ := Option.isSome_iff_exists.1 (performs_take h i)
    obtain ⟨w, hw⟩ := Option.isSome_iff_exists.1 (performs_take h (i + 1))
    rw [hu, hw]
    refine sound _ _ _ ?_
    rw [List.take_succ_eq_append_getElem hi, List.foldlM_append, hu] at hw
    simpa [List.getD, hi] using hw

def LastBefore (P : ℕ → Prop) (n k : ℕ) : Prop := k < n ∧ P k ∧ ∀ j, k < j → j < n → ¬P j

theorem LastBefore.unique {P : ℕ → Prop} {n k j : ℕ} (h : LastBefore P n k)
    (h' : LastBefore P n j) : k = j := by
  rcases Nat.lt_trichotomy k j with hl | he | hl
  · exact absurd h'.2.1 (h.2.2 j hl h'.1)
  · exact he
  · exact absurd h.2.1 (h'.2.2 k hl h.1)

theorem LastBefore.keep {P : ℕ → Prop} {n k : ℕ} (h : LastBefore P n k) (hn : ¬P n) :
    LastBefore P (n + 1) k := by
  refine ⟨Nat.lt_succ_of_lt h.1, h.2.1, fun j hk hj => ?_⟩
  rcases Nat.lt_succ_iff_lt_or_eq.1 hj with hj | rfl
  · exact h.2.2 j hk hj
  · exact hn

theorem LastBefore.here {P : ℕ → Prop} {n : ℕ} (hn : P n) : LastBefore P (n + 1) n :=
  ⟨Nat.lt_succ_self n, hn, fun j hk hj => by omega⟩

theorem LastBefore.cases {P : ℕ → Prop} {n k : ℕ} (h : LastBefore P (n + 1) k) :
    k = n ∧ P n ∨ ¬P n ∧ LastBefore P n k := by
  obtain ⟨hk, hp, hl⟩ := h
  rcases Nat.lt_succ_iff_lt_or_eq.1 hk with hk | rfl
  · exact .inr ⟨hl n hk (Nat.lt_succ_self n), hk, hp, fun j h1 h2 => hl j h1 (by omega)⟩
  · exact .inl ⟨rfl, hp⟩

def tallyFrom (P : ℕ → Bool) (k n : ℕ) : ℕ := ((List.range' k (n - k)).filter P).length

theorem tallyFrom_self (P : ℕ → Bool) (k : ℕ) : tallyFrom P k k = 0 := by
  simp [tallyFrom]

theorem tallyFrom_succ (P : ℕ → Bool) {k n : ℕ} (h : k ≤ n) :
    tallyFrom P k (n + 1) = tallyFrom P k n + if P n then 1 else 0 := by
  have length : n + 1 - k = n - k + 1 := by omega
  have last : k + 1 * (n - k) = n := by omega
  rw [tallyFrom, tallyFrom, length, List.range'_concat, last, List.filter_append,
    List.length_append]
  cases hp : P n <;> simp [hp]

end

section
variable {σ l : Type}

def after (next : σ → Option (l × σ)) : ℕ → σ → Option σ
  | 0, s => some s
  | n + 1, s => (after next n s).bind fun u => (next u).map Prod.snd

def StepOf (next : σ → Option (l × σ)) (s : σ) (a : l) (u : σ) : Prop := next s = some (a, u)

theorem after_le (next : σ → Option (l × σ)) {n : ℕ} {s : σ} (h : (after next n s).isSome)
    {i : ℕ} (hi : i ≤ n) : (after next i s).isSome := by
  induction n with
  | zero =>
    obtain rfl : i = 0 := by omega
    exact h
  | succ n ih =>
    rcases Nat.lt_succ_iff_lt_or_eq.1 (Nat.lt_succ_of_le hi) with hi | rfl
    · refine ih ?_ (by omega)
      cases he : after next n s with
      | none => simp [after, he] at h
      | some u => rfl
    · exact h

def runOf (next : σ → Option (l × σ)) (s : σ) (a : l) (n : ℕ)
    (h : (after next n s).isSome) : Run (StepOf next) where
  len := n
  st i := (after next i s).getD s
  lab i := (((after next i s).bind next).map Prod.fst).getD a
  ok i hi := by
    obtain ⟨u, hu⟩ := Option.isSome_iff_exists.1 (after_le next h (show i ≤ n by omega))
    obtain ⟨w, hw⟩ := Option.isSome_iff_exists.1 (after_le next h (show i + 1 ≤ n by omega))
    have hn : ((next u).map Prod.snd) = some w := by simpa [after, hu] using hw
    obtain ⟨⟨b, x⟩, hx, rfl⟩ := Option.map_eq_some_iff.1 hn
    simp [StepOf, hu, hw, hx]

end
end BrainMachine.Runs
