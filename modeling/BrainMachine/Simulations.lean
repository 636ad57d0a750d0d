import BrainMachine.Computations
import BrainMachine.Runs

set_option autoImplicit false

namespace BrainMachine.Simulations
open Computations Runs

section
variable {σ τ l : Type} {step : σ → l → σ → Prop} {next : τ → Option (l × τ)}

def Refines (r : Run step) (abs : σ → τ) (next : τ → Option (l × τ)) : Prop :=
  ∀ i < r.len, next (abs (r.st i)) = some (r.lab i, abs (r.st (i + 1)))

def Refines.run {r : Run step} {abs : σ → τ} (h : Refines r abs next) : Run (StepOf next) :=
  ⟨r.len, fun i => abs (r.st i), r.lab, h⟩

theorem Refines.after {r : Run step} {abs : σ → τ} (h : Refines r abs next) (n : ℕ)
    (hn : n ≤ r.len) : Runs.after next n (abs (r.st 0)) = some (abs (r.st n)) := by
  induction n with
  | zero => rfl
  | succ n ih =>
    rw [Runs.after, ih (by omega), Option.bind_some, h n hn]
    rfl

/-- Two runs of a deterministic machine from one state are one run, as far as both go. -/
theorem agree (r s : Run (StepOf next)) (start : r.st 0 = s.st 0) (n : ℕ) (hr : n ≤ r.len)
    (hs : n ≤ s.len) : r.st n = s.st n ∧ ∀ i < n, r.lab i = s.lab i := by
  induction n with
  | zero => exact ⟨start, fun i hi => absurd hi (Nat.not_lt_zero i)⟩
  | succ n ih =>
    obtain ⟨here, before⟩ := ih (by omega) (by omega)
    have left : next (r.st n) = some (r.lab n, r.st (n + 1)) := r.ok n hr
    have right : next (s.st n) = some (s.lab n, s.st (n + 1)) := s.ok n hs
    rw [here, right] at left
    obtain ⟨lab, st⟩ := Prod.mk.inj (Option.some.inj left)
    refine ⟨st.symm, fun i hi => ?_⟩
    rcases Nat.lt_succ_iff_lt_or_eq.1 hi with hi | rfl
    · exact before i hi
    · exact lab.symm

/-- Runs that are refined by one deterministic machine look alike in it. -/
theorem Refines.agree {σ' : Type} {step' : σ' → l → σ' → Prop} {r : Run step} {s : Run step'}
    {abs : σ → τ} {abs' : σ' → τ} (h : Refines r abs next) (k : Refines s abs' next)
    (start : abs (r.st 0) = abs' (s.st 0)) (n : ℕ) (hr : n ≤ r.len) (hs : n ≤ s.len) :
    abs (r.st n) = abs' (s.st n) ∧ ∀ i < n, r.lab i = s.lab i :=
  Simulations.agree h.run k.run start n hr hs

end

section
variable {σ τ α β : Type}

inductive Outcome (R : σ → τ → Prop) : Except Fault (α × σ) → Except Fault (α × τ) → Prop
  | ok (a : α) (s : σ) (t : τ) (h : R s t) : Outcome R (.ok (a, s)) (.ok (a, t))
  | error (e : Fault) : Outcome R (.error e) (.error e)

def Agrees (R : σ → τ → Prop) (x : Exec σ α) (y : Exec τ α) : Prop :=
  ∀ s t, R s t → Outcome R (x s) (y t)

variable {R : σ → τ → Prop}

theorem Agrees.pure (a : α) : Agrees R (Pure.pure a) (Pure.pure a) :=
  fun s t h => .ok a s t h

theorem Agrees.fault (e : Fault) : Agrees R (fault e : Exec σ α) (fault e : Exec τ α) :=
  fun _ _ _ => .error e

theorem Agrees.modify {f : σ → σ} {g : τ → τ} (h : ∀ s t, R s t → R (f s) (g t)) :
    Agrees R (modify f : Exec σ PUnit) (modify g : Exec τ PUnit) := by
  intro s t hst
  change Outcome R (.ok (PUnit.unit, f s)) (.ok (PUnit.unit, g t))
  exact .ok _ _ _ (h s t hst)

theorem Agrees.bind {x : Exec σ α} {y : Exec τ α} {f : α → Exec σ β} {g : α → Exec τ β}
    (h : Agrees R x y) (k : ∀ a, Agrees R (f a) (g a)) : Agrees R (x >>= f) (y >>= g) := by
  intro s t hst
  change Outcome R (Except.bind (x s) fun p => f p.1 p.2) (Except.bind (y t) fun p => g p.1 p.2)
  have first := h s t hst
  generalize x s = r at first
  generalize y t = r' at first
  cases first with
  | ok a u v huv => exact k a u v huv
  | error e => exact .error e

theorem Agrees.get {f : σ → Exec σ β} {g : τ → Exec τ β}
    (h : ∀ s t, R s t → Outcome R (f s s) (g t t)) :
    Agrees R (MonadState.get >>= f) (MonadState.get >>= g) := h

theorem Agrees.ite {c : Prop} [Decidable c] {x x' : Exec σ α} {y y' : Exec τ α}
    (h : c → Agrees R x y) (k : ¬c → Agrees R x' y') :
    Agrees R (if c then x else x') (if c then y else y') := by
  by_cases hc : c
  · rw [if_pos hc, if_pos hc]
    exact h hc
  · rw [if_neg hc, if_neg hc]
    exact k hc

theorem Agrees.zoom {π : Type} {look : σ → π} {put : π → σ → σ} {look' : τ → π}
    {put' : π → τ → τ} (x : Exec π α) (same : ∀ s t, R s t → look s = look' t)
    (keep : ∀ s t p, R s t → R (put p s) (put' p t)) :
    Agrees R (zoom look put x) (zoom look' put' x) := by
  intro s t hst
  unfold Computations.zoom
  rw [same s t hst]
  cases x (look' t) with
  | error e => exact .error e
  | ok r => exact .ok r.1 _ _ (keep s t r.2 hst)

theorem Agrees.ok {x : Exec σ α} {y : Exec τ α} (h : Agrees R x y) {s u : σ} {t : τ} {a : α}
    (hst : R s t) (k : x s = .ok (a, u)) : ∃ v, y t = .ok (a, v) ∧ R u v := by
  have outcome := h s t hst
  rw [k] at outcome
  generalize hy : y t = r at outcome
  cases outcome with
  | ok a u v huv => exact ⟨v, rfl, huv⟩

end
end BrainMachine.Simulations
