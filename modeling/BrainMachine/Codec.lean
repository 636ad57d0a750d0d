import Mathlib.Tactic.Linarith
import Mathlib.Tactic.IntervalCases

set_option autoImplicit false

/-!
# Words and the decimal codec

A word is four bytes. `word2int` reads four decimal digits and `int2word` writes the four
last decimal digits of an `int`, with the remainder of C for negative numbers.
-/
namespace BrainMachine.Codec

structure Word where
  b0 : UInt8
  b1 : UInt8
  b2 : UInt8
  b3 : UInt8
  deriving DecidableEq, Repr

def bytes (s : String) : List UInt8 := s.toList.map Char.toUInt8

/-- The loop of `word2int`, with `i` the value of the digits read so far. -/
def word2intFrom (i : ℤ) : List UInt8 → ℤ
  | [] => i
  | c :: cs => if c < 48 ∨ 57 < c then -1 else word2intFrom (i * 10 + (c.toNat - 48)) cs

def word2int (p : Word) : ℤ := word2intFrom 0 [p.b0, p.b1, p.b2, p.b3]

def digitChar (a : ℤ) : UInt8 := UInt8.ofInt (a.tmod 10 + 48)

def int2word (a : ℤ) : Word :=
  let a2 := a.tdiv 10
  let a1 := a2.tdiv 10
  let a0 := a1.tdiv 10
  ⟨digitChar a0, digitChar a1, digitChar a2, digitChar a⟩

/-- `memset(p, '0', 4)` -/
def zeros : Word := ⟨48, 48, 48, 48⟩

theorem digitChar_toNat (n : ℕ) : (digitChar n).toNat = n % 10 + 48 := by
  have h : (n : ℤ).tmod 10 = ((n % 10 : ℕ) : ℤ) := by
    rw [Int.tmod_eq_emod_of_nonneg (by omega)]
    omega
  have hn : n % 10 < 10 := Nat.mod_lt n (by omega)
  unfold digitChar
  rw [h]
  generalize n % 10 = d at hn
  interval_cases d <;> rfl

theorem word2intFrom_digit (i : ℤ) (c : UInt8) (cs : List UInt8) (d : ℕ) (hd : d < 10)
    (hc : c.toNat = d + 48) : word2intFrom i (c :: cs) = word2intFrom (i * 10 + d) cs := by
  have hr : ¬ (c < 48 ∨ 57 < c) := by
    rw [UInt8.lt_iff_toNat_lt, UInt8.lt_iff_toNat_lt, hc]
    change ¬ (d + 48 < 48 ∨ 57 < d + 48)
    omega
  have he : ((c.toNat : ℤ) - 48) = d := by omega
  rw [word2intFrom, if_neg hr, he]

theorem word2int_int2word (n : ℕ) : word2int (int2word n) = ((n % 10000 : ℕ) : ℤ) := by
  have h (m : ℕ) : (m : ℤ).tdiv 10 = ((m / 10 : ℕ) : ℤ) := by
    rw [Int.tdiv_eq_ediv_of_nonneg (by omega)]
    omega
  simp only [word2int, int2word, h]
  rw [word2intFrom_digit _ _ _ _ (Nat.mod_lt _ (by omega)) (digitChar_toNat _),
    word2intFrom_digit _ _ _ _ (Nat.mod_lt _ (by omega)) (digitChar_toNat _),
    word2intFrom_digit _ _ _ _ (Nat.mod_lt _ (by omega)) (digitChar_toNat _),
    word2intFrom_digit _ _ _ _ (Nat.mod_lt _ (by omega)) (digitChar_toNat _)]
  simp only [word2intFrom]
  omega

theorem word2intFrom_bounds (cs : List UInt8) (i : ℤ) (hi : 0 ≤ i) :
    word2intFrom i cs = -1 ∨
      0 ≤ word2intFrom i cs ∧ word2intFrom i cs < (i + 1) * 10 ^ cs.length := by
  induction cs generalizing i with
  | nil => simp [word2intFrom, hi]
  | cons c cs ih =>
    rw [word2intFrom]
    split
    · exact .inl rfl
    · rename_i hc
      simp only [UInt8.lt_iff_toNat_lt, not_or, not_lt] at hc
      have lo : 48 ≤ c.toNat := hc.1
      have hi' : c.toNat ≤ 57 := hc.2
      rcases ih (i * 10 + (c.toNat - 48)) (by omega) with h | ⟨h0, h1⟩
      · exact .inl h
      · refine .inr ⟨h0, h1.trans_le ?_⟩
        rw [List.length_cons, pow_succ', ← mul_assoc]
        exact Int.mul_le_mul_of_nonneg_right (by omega) (by positivity)

theorem word2int_bounds (p : Word) : word2int p = -1 ∨ 0 ≤ word2int p ∧ word2int p < 10000 := by
  unfold word2int
  simpa using word2intFrom_bounds [p.b0, p.b1, p.b2, p.b3] 0 le_rfl

theorem word2intFrom_cons {i : ℤ} {c : UInt8} {cs : List UInt8}
    (h : 0 ≤ word2intFrom i (c :: cs)) : ∃ d : ℕ, d < 10 ∧ c.toNat = d + 48 ∧
      word2intFrom i (c :: cs) = word2intFrom (i * 10 + d) cs := by
  rw [word2intFrom] at h
  split at h
  · omega
  · rename_i hc
    simp only [UInt8.lt_iff_toNat_lt, not_or, not_lt] at hc
    have lo : 48 ≤ c.toNat := hc.1
    have hi : c.toNat ≤ 57 := hc.2
    refine ⟨c.toNat - 48, by omega, by omega, ?_⟩
    exact word2intFrom_digit i c cs _ (by omega) (by omega)

theorem int2word_word2int {w : Word} (h : 0 ≤ word2int w) : int2word (word2int w) = w := by
  obtain ⟨b0, b1, b2, b3⟩ := w
  unfold word2int at h ⊢
  dsimp only at h ⊢
  obtain ⟨d0, h0, c0, e0⟩ := word2intFrom_cons h
  rw [e0] at h ⊢
  obtain ⟨d1, h1, c1, e1⟩ := word2intFrom_cons h
  rw [e1] at h ⊢
  obtain ⟨d2, h2, c2, e2⟩ := word2intFrom_cons h
  rw [e2] at h ⊢
  obtain ⟨d3, h3, c3, e3⟩ := word2intFrom_cons h
  rw [e3]
  have digits : word2intFrom ((((0 * 10 + d0) * 10 + d1) * 10 + d2) * 10 + d3) [] =
      ((1000 * d0 + 100 * d1 + 10 * d2 + d3 : ℕ) : ℤ) := by
    rw [word2intFrom]
    omega
  have div (m : ℕ) : (m : ℤ).tdiv 10 = ((m / 10 : ℕ) : ℤ) := by
    rw [Int.tdiv_eq_ediv_of_nonneg (by omega)]
    omega
  rw [digits]
  simp only [int2word, div, Word.mk.injEq, ← UInt8.toNat_inj, digitChar_toNat, c0, c1, c2, c3]
  omega

end BrainMachine.Codec
