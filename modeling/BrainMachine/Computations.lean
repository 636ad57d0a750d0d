import Mathlib.Data.Nat.Basic
import Mathlib.Order.RelClasses

set_option autoImplicit false

/-!
# Computations over a state that may fault

A computation reads and writes a state of type `σ` and either returns a value or
stops with a fault. Two kinds of rules carry the proofs about such computations:
inversion of a run that returned, and relations between the first and the last state.
-/
namespace BrainMachine.Computations

inductive Fault where
  | undefined
  | diverges
  deriving DecidableEq, Repr

abbrev Exec (σ α : Type) := StateT σ (Except Fault) α

section
variable {σ τ α β : Type}

def fault (e : Fault) : Exec σ α := fun _ => .error e

def zoom (look : σ → τ) (put : τ → σ → σ) (x : Exec τ α) : Exec σ α := fun s =>
  match x (look s) with
  | .ok (a, t) => .ok (a, put t s)
  | .error e => .error e

/-- `body i`, `body (i + 1)`, … for `n` turns; the first nonzero result ends the loop. -/
def loopFrom (body : ℕ → Exec σ ℤ) : ℕ → ℕ → Exec σ ℤ
  | 0, _ => pure 0
  | n + 1, i => do
    let r ← body i
    if r = 0 then loopFrom body n (i + 1) else pure r

theorem bind_ok {x : Exec σ α} {f : α → Exec σ β} {s : σ} {r : β × σ} :
    (x >>= f) s = .ok r ↔ ∃ a u, x s = .ok (a, u) ∧ f a u = .ok r := by
  change Except.bind (x s) (fun p => f p.1 p.2) = .ok r ↔ _
  cases h : x s with
  | error e => simp [Except.bind]
  | ok p =>
    obtain ⟨a, u⟩ := p
    constructor
    · exact fun hf => ⟨a, u, rfl, hf⟩
    · rintro ⟨b, v, hb, hf⟩
      obtain ⟨rfl, rfl⟩ := Prod.mk.inj (Except.ok.inj hb)
      exact hf

theorem bind_of_ok {x : Exec σ α} {f : α → Exec σ β} {s u : σ} {a : α} (h : x s = .ok (a, u)) :
    (x >>= f) s = f a u := by
  change Except.bind (x s) (fun p => f p.1 p.2) = _
  rw [h]
  rfl

theorem pure_ok {a : α} {s : σ} {r : α × σ} :
    (pure a : Exec σ α) s = .ok r ↔ r = (a, s) := by
  change Except.ok (a, s) = .ok r ↔ _
  rw [Except.ok.injEq, eq_comm]

theorem modify_ok {f : σ → σ} {s : σ} {r : PUnit × σ} :
    (modify f : Exec σ PUnit) s = .ok r ↔ r = (⟨⟩, f s) := by
  change Except.ok (PUnit.unit, f s) = .ok r ↔ _
  rw [Except.ok.injEq, eq_comm]

theorem get_bind {f : σ → Exec σ β} {s : σ} : ((get : Exec σ σ) >>= f) s = f s s := rfl

theorem modify_bind {g : σ → σ} {f : PUnit → Exec σ β} {s : σ} :
    ((modify g : Exec σ PUnit) >>= f) s = f ⟨⟩ (g s) := rfl

theorem fault_ok {e : Fault} {s : σ} {r : α × σ} :
    (fault e : Exec σ α) s = .ok r ↔ False := by
  simp [fault]

theorem zoom_ok {look : σ → τ} {put : τ → σ → σ} {x : Exec τ α} {s : σ} {r : α × σ} :
    zoom look put x s = .ok r ↔ ∃ t, x (look s) = .ok (r.1, t) ∧ r.2 = put t s := by
  obtain ⟨a, u⟩ := r
  unfold zoom
  cases h : x (look s) with
  | error e => simp
  | ok p =>
    obtain ⟨b, t⟩ := p
    simp only [Except.ok.injEq, Prod.mk.injEq]
    constructor
    · rintro ⟨rfl, rfl⟩
      exact ⟨t, ⟨rfl, rfl⟩, rfl⟩
    · rintro ⟨v, ⟨rfl, rfl⟩, rfl⟩
      exact ⟨rfl, rfl⟩

theorem ok_of_result {x : Exec σ α} {s : σ} {a : α} (d : α × σ)
    (h : (x s).toOption.map Prod.fst = some a) : x s = .ok (a, ((x s).toOption.getD d).2) := by
  cases hx : x s with
  | error e =>
    rw [hx] at h
    cases h
  | ok q =>
    rw [hx] at h
    exact congrArg Except.ok (Prod.ext (Option.some.inj h) rfl)

theorem ite_ok {c : Prop} [Decidable c] {x y : Exec σ α} {s : σ} {r : α × σ} :
    (if c then x else y) s = .ok r ↔ (c ∧ x s = .ok r) ∨ (¬c ∧ y s = .ok r) := by
  split <;> simp [*]

/-- A loop that returns 0 ran every turn, and each turn kept the invariant. -/
theorem loopFrom_ok (I : ℕ → σ → Prop) {body : ℕ → Exec σ ℤ} {n i : ℕ} {s u : σ}
    (step : ∀ j s u, i ≤ j → j < i + n → I j s → body j s = .ok (0, u) → I (j + 1) u)
    (start : I i s) (run : loopFrom body n i s = .ok (0, u)) : I (i + n) u := by
  induction n generalizing i s with
  | zero =>
    obtain ⟨-, rfl⟩ := Prod.mk.inj (pure_ok.1 run)
    exact start
  | succ n ih =>
    obtain ⟨r, t, hb, ht⟩ := bind_ok.1 run
    rcases ite_ok.1 ht with ⟨rfl, ht⟩ | ⟨hr, ht⟩
    · have h := ih (fun j s u hj hn => step j s u (by omega) (by omega))
        (step i s t (by omega) (by omega) start hb) ht
      rwa [Nat.add_assoc, Nat.add_comm 1 n] at h
    · exact absurd (Prod.mk.inj (pure_ok.1 ht)).1.symm hr

/-- Whatever it returns, the computation goes from a state to one related to it. -/
def Respects (R : σ → σ → Prop) (x : Exec σ α) : Prop := ∀ s u a, x s = .ok (a, u) → R s u

section
variable {R : σ → σ → Prop} [IsPreorder σ R]

theorem Respects.pure (a : α) : Respects R (Pure.pure a : Exec σ α) := by
  intro s u b h
  rw [(Prod.mk.inj (pure_ok.1 h)).2]
  exact refl s

theorem Respects.get : Respects R (MonadState.get : Exec σ σ) := by
  intro s u b h
  rw [← (Prod.mk.inj (Except.ok.inj h)).2]
  exact refl s

omit [IsPreorder σ R] in
theorem Respects.fault (e : Fault) : Respects R (fault e : Exec σ α) := by
  intro s u b h
  exact (fault_ok.1 h).elim

omit [IsPreorder σ R] in
theorem Respects.modify {g : σ → σ} (h : ∀ s, R s (g s)) :
    Respects R (modify g : Exec σ PUnit) := by
  intro s u b k
  rw [(Prod.mk.inj (modify_ok.1 k)).2]
  exact h s

theorem Respects.bind {x : Exec σ α} {y : α → Exec σ β} (h : Respects R x)
    (k : ∀ a, Respects R (y a)) : Respects R (x >>= y) := by
  intro s u b hb
  obtain ⟨a, w, hw, hb⟩ := bind_ok.1 hb
  exact trans_of R (h s w a hw) (k a w u b hb)

omit [IsPreorder σ R] in
theorem Respects.ite {c : Prop} [Decidable c] {x y : Exec σ α} (h : Respects R x)
    (k : Respects R y) : Respects R (if c then x else y) := by
  split
  · exact h
  · exact k

omit [IsPreorder σ R] in
theorem Respects.zoom {S : τ → τ → Prop} {look : σ → τ} {put : τ → σ → σ} {x : Exec τ α}
    (h : Respects S x) (lift : ∀ s t, S (look s) t → R s (put t s)) :
    Respects R (zoom look put x) := by
  intro s u b hb
  obtain ⟨t, ht, rfl⟩ := zoom_ok.1 hb
  exact lift s t (h _ t b ht)

theorem Respects.loopFrom {body : ℕ → Exec σ ℤ} (h : ∀ i, Respects R (body i)) (n i : ℕ) :
    Respects R (loopFrom body n i) := by
  induction n generalizing i with
  | zero => exact .pure 0
  | succ n ih => exact (h i).bind fun r => .ite (ih (i + 1)) (.pure r)

end
end
end BrainMachine.Computations
