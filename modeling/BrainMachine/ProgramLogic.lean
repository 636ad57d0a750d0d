import Mathlib.Data.Nat.Basic

set_option autoImplicit false

/-!
# Total correctness with a clock

A machine is a partial function on its states. `Leads step n P Q` is the triple of the
precondition `P` and the postcondition `Q` of a piece of its run that takes exactly `n` steps.
-/
namespace BrainMachine.ProgramLogic

section
variable {σ : Type} {step : σ → Option σ} {m n : ℕ} {P Q R : σ → Prop}

def iterate (step : σ → Option σ) : ℕ → σ → Option σ
  | 0, s => some s
  | n + 1, s => (iterate step n s).bind step

theorem iterate_add (step : σ → Option σ) (m n : ℕ) (s : σ) :
    iterate step (m + n) s = (iterate step m s).bind (iterate step n) := by
  induction n with
  | zero => cases iterate step m s <;> simp [iterate]
  | succ n ih =>
    change (iterate step (m + n) s).bind step = _
    rw [ih, Option.bind_assoc]
    rfl

theorem iterate_below {s t : σ} (h : iterate step n s = some t) (hm : m ≤ n) :
    ∃ u, iterate step m s = some u := by
  obtain ⟨k, rfl⟩ := Nat.exists_eq_add_of_le hm
  rw [iterate_add] at h
  obtain ⟨u, hu, -⟩ := Option.bind_eq_some_iff.1 h
  exact ⟨u, hu⟩

def Leads (step : σ → Option σ) (n : ℕ) (P Q : σ → Prop) : Prop :=
  ∀ s, P s → ∃ t, iterate step n s = some t ∧ Q t

theorem Leads.skip (h : ∀ s, P s → Q s) : Leads step 0 P Q := fun s hs => ⟨s, rfl, h s hs⟩

theorem Leads.one (h : ∀ s, P s → ∃ t, step s = some t ∧ Q t) : Leads step 1 P Q := h

theorem Leads.seq (h : Leads step m P Q) (k : Leads step n Q R) : Leads step (m + n) P R := by
  intro s hs
  obtain ⟨t, ht, hq⟩ := h s hs
  obtain ⟨u, hu, hr⟩ := k t hq
  refine ⟨u, ?_, hr⟩
  rw [iterate_add, ht, Option.bind_some, hu]

theorem Leads.conseq {P' Q' : σ → Prop} (h : Leads step n P Q) (pre : ∀ s, P' s → P s)
    (post : ∀ s, Q s → Q' s) : Leads step n P' Q' := by
  intro s hs
  obtain ⟨t, ht, hq⟩ := h s (pre s hs)
  exact ⟨t, ht, post t hq⟩

theorem Leads.pre {P' : σ → Prop} (h : Leads step n P Q) (pre : ∀ s, P' s → P s) :
    Leads step n P' Q := h.conseq pre fun _ => id

theorem Leads.loop {I : ℕ → σ → Prop} (turn : ∀ k, Leads step n (I (k + 1)) (I k)) (k : ℕ) :
    Leads step (n * k) (I k) (I 0) := by
  induction k with
  | zero => exact .skip fun _ => id
  | succ k ih =>
    rw [Nat.mul_succ, Nat.add_comm]
    exact (turn k).seq ih

end
end BrainMachine.ProgramLogic
