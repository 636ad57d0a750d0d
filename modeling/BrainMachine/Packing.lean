import Mathlib.Data.Nat.Basic

set_option autoImplicit false

namespace BrainMachine.Packing

section
variable {ι : Type} {top : ℕ}

structure Packed (top : ℕ) (blk : ι → ℕ → ℕ → Prop) (starts : ℕ → Prop) : Prop where
  inside : ∀ p b s, blk p b s → b + s ≤ top
  apart : ∀ p q b s c t, p ≠ q → blk p b s → blk q c t → b + s ≤ c ∨ c + t ≤ b
  clear : ∀ p b s a, blk p b s → starts a → a ≤ b ∨ b + s ≤ a

structure Room (top : ℕ) (blk : ι → ℕ → ℕ → Prop) (starts : ℕ → Prop) (a n : ℕ) : Prop where
  fits : a + n ≤ top
  free : ∀ p b s, blk p b s → b < a ∨ a + n ≤ b
  clear : ∀ c, starts c → c ≤ a ∨ a + n ≤ c

theorem Packed.mono {blk blk' : ι → ℕ → ℕ → Prop} {starts starts' : ℕ → Prop}
    (h : Packed top blk starts) (hb : ∀ p b s, blk' p b s → blk p b s)
    (hs : ∀ a, starts' a → starts a) : Packed top blk' starts' where
  inside p b s hp := h.inside p b s (hb p b s hp)
  apart p q b s c t hne hp hq := h.apart p q b s c t hne (hb p b s hp) (hb q c t hq)
  clear p b s a hp ha := h.clear p b s a (hb p b s hp) (hs a ha)

theorem Packed.start {blk : ι → ℕ → ℕ → Prop} {starts starts' : ℕ → Prop} {x : ℕ}
    (h : Packed top blk starts) (hx : ∀ p b s, blk p b s → x ≤ b ∨ b + s ≤ x)
    (hs : ∀ a, starts' a → a = x ∨ starts a) : Packed top blk starts' where
  inside := h.inside
  apart := h.apart
  clear p b s a hp ha := by
    rcases hs a ha with rfl | ha
    · exact hx p b s hp
    · exact h.clear p b s a hp ha

theorem Packed.base {blk : ι → ℕ → ℕ → Prop} {starts : ℕ → Prop} {p q : ι} {b s c t : ℕ}
    (h : Packed top blk starts) (hp : blk p b s) (hq : blk q c t) (hne : q ≠ p) :
    b ≤ c ∨ c + t ≤ b := by
  have := h.apart q p c t b s hne hq hp
  omega

/-- A block of `n` places is handed out at a start with room for it. -/
theorem Packed.put {blk blk' : ι → ℕ → ℕ → Prop} {starts starts' : ℕ → Prop} {p : ι} {a n : ℕ}
    (h : Packed top blk starts) (ha : starts a) (room : Room top blk starts a n)
    (hb : ∀ q b s, blk' q b s → blk q b s ∧ q ≠ p ∨ q = p ∧ b = a ∧ s = n)
    (hs : ∀ c, starts' c → starts c ∨ c = a + n) : Packed top blk' starts' where
  inside q b s hq := by
    rcases hb q b s hq with ⟨hq, -⟩ | ⟨-, rfl, rfl⟩
    · exact h.inside q b s hq
    · exact room.fits
  apart q r b s c t hne hq hr := by
    have new (x : ι) (d v : ℕ) (hx : blk x d v) : d + v ≤ a ∨ a + n ≤ d := by
      have := h.clear x d v a hx ha
      have := room.free x d v hx
      omega
    rcases hb q b s hq with ⟨hq, -⟩ | ⟨rfl, rfl, rfl⟩ <;>
      rcases hb r c t hr with ⟨hr, -⟩ | ⟨rfl, rfl, rfl⟩
    · exact h.apart q r b s c t hne hq hr
    · exact new q b s hq
    · exact (new r c t hr).symm
    · exact absurd rfl hne
  clear q b s c hq hc := by
    rcases hb q b s hq with ⟨hq, -⟩ | ⟨rfl, rfl, rfl⟩
    · rcases hs c hc with hc | rfl
      · exact h.clear q b s c hq hc
      · have := h.clear q b s a hq ha
        have := room.free q b s hq
        omega
    · rcases hs c hc with hc | rfl
      · exact room.clear c hc
      · exact .inr le_rfl

end
end BrainMachine.Packing
