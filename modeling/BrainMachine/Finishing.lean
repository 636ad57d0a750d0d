import BrainMachine.Computations

set_option autoImplicit false

namespace BrainMachine.Computations

section
variable {σ τ α β : Type}

def Finishes (x : Exec σ α) (Q : α → σ → Prop) (s : σ) : Prop :=
  ∃ a u, x s = .ok (a, u) ∧ Q a u

variable {x y : Exec σ α} {Q : α → σ → Prop} {R : β → σ → Prop} {s : σ}

theorem Finishes.mono {P : α → σ → Prop} (h : Finishes x P s) (k : ∀ a u, P a u → Q a u) :
    Finishes x Q s := by
  obtain ⟨a, u, run, post⟩ := h
  exact ⟨a, u, run, k a u post⟩

theorem Finishes.run (h : Finishes x Q s) : ∃ r, x s = .ok r := by
  obtain ⟨a, u, run, -⟩ := h
  exact ⟨(a, u), run⟩

theorem Finishes.get_bind {f : σ → Exec σ β} (h : Finishes (f s) R s) :
    Finishes ((get : Exec σ σ) >>= f) R s := h

theorem Finishes.modify_bind {g : σ → σ} {f : PUnit → Exec σ β} (h : Finishes (f ⟨⟩) R (g s)) :
    Finishes ((modify g : Exec σ PUnit) >>= f) R s := h

theorem Finishes.modify {g : σ → σ} {P : PUnit → σ → Prop} (h : P ⟨⟩ (g s)) :
    Finishes (modify g : Exec σ PUnit) P s := ⟨⟨⟩, g s, rfl, h⟩

theorem Finishes.pure {a : α} (h : Q a s) : Finishes (Pure.pure a) Q s := ⟨a, s, rfl, h⟩

theorem Finishes.bind {f : α → Exec σ β} (h : Finishes x Q s)
    (k : ∀ a u, Q a u → Finishes (f a) R u) : Finishes (x >>= f) R s := by
  obtain ⟨a, u, run, post⟩ := h
  obtain ⟨b, v, next, last⟩ := k a u post
  exact ⟨b, v, (bind_of_ok run).trans next, last⟩

theorem Finishes.ite {c : Prop} [Decidable c] (h : c → Finishes x Q s)
    (k : ¬c → Finishes y Q s) : Finishes (if c then x else y) Q s := by
  split
  · exact h ‹c›
  · exact k ‹¬c›

theorem Finishes.zoom {look : σ → τ} {put : τ → σ → σ} {z : Exec τ α} {P : α → τ → Prop}
    (h : Finishes z P (look s)) (k : ∀ a t, P a t → Q a (put t s)) :
    Finishes (zoom look put z) Q s := by
  obtain ⟨a, t, run, post⟩ := h
  exact ⟨a, put t s, zoom_ok.2 ⟨t, run, rfl⟩, k a t post⟩

/-- A loop finishes when every turn does that is reached, `I` being what is known before it. -/
theorem Finishes.loopFrom (I : ℕ → σ → Prop) {body : ℕ → Exec σ ℤ} {n i : ℕ}
    (step : ∀ j u, i ≤ j → j < i + n → I j u →
      Finishes (body j) (fun r v => r = 0 → I (j + 1) v) u) (start : I i s) :
    Finishes (loopFrom body n i) (fun r u => r = 0 → I (i + n) u) s := by
  induction n generalizing i s with
  | zero => exact .pure fun _ => start
  | succ n ih =>
    refine (step i s le_rfl (by omega) start).bind fun r u next => ?_
    apply Finishes.ite
    · intro zero
      have rest := ih (fun j v hj hn => step j v (by omega) (by omega)) (next zero)
      rw [Nat.add_assoc, Nat.add_comm 1 n] at rest
      exact rest
    · intro nonzero
      exact .pure fun zero => absurd zero nonzero

/-- A loop all of whose turns finish and keep `I`, however it ends. -/
theorem Finishes.loop_keeps (I : σ → Prop) {body : ℕ → Exec σ ℤ} {n i : ℕ}
    (step : ∀ j u, j < i + n → I u → Finishes (body j) (fun _ v => I v) u) (start : I s) :
    Finishes (Computations.loopFrom body n i) (fun _ v => I v) s := by
  induction n generalizing i s with
  | zero => exact .pure start
  | succ n ih =>
    refine (step i s (by omega) start).bind fun r u next => .ite (fun _ => ?_) fun _ => .pure next
    exact ih (fun j v hj => step j v (by omega)) next

end
end BrainMachine.Computations
