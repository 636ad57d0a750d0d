import Mathlib.Data.Set.Lattice
import Mathlib.Data.List.Pairwise
import Mathlib.Order.CompletePartialOrder

set_option autoImplicit false

namespace BrainMachine.Intervals

structure Interval where
  start : ℕ
  len : ℕ
  deriving DecidableEq, Repr

def Interval.cells (b : Interval) : Set ℕ := { x | b.start ≤ x ∧ x < b.start + b.len }

def covered (l : List Interval) : Set ℕ := { x | ∃ b ∈ l, x ∈ b.cells }

structure Arranged (l : List Interval) : Prop where
  sorted : l.Pairwise fun a b => a.start ≤ b.start
  apart : l.Pairwise fun a b => Disjoint a.cells b.cells

theorem disjoint_cells {b c : Interval} (h : b.start + b.len ≤ c.start) :
    Disjoint b.cells c.cells := by
  rw [Set.disjoint_left]
  rintro x ⟨-, below⟩ ⟨above, -⟩
  exact absurd (below.trans_le h) (Nat.not_lt.2 above)

theorem covered_nil : covered [] = ∅ := by
  ext x
  simp [covered]

theorem covered_cons (b : Interval) (l : List Interval) :
    covered (b :: l) = b.cells ∪ covered l := by
  ext x
  simp [covered]

theorem covered_append (l r : List Interval) : covered (l ++ r) = covered l ∪ covered r := by
  induction l with
  | nil => rw [covered_nil, Set.empty_union, List.nil_append]
  | cons b l ih => rw [List.cons_append, covered_cons, covered_cons, ih, Set.union_assoc]

theorem covered_middle (l r : List Interval) (b : Interval) :
    covered (l ++ b :: r) = b.cells ∪ covered (l ++ r) := by
  rw [covered_append, covered_append, covered_cons, Set.union_left_comm]

/-- An interval in the middle of an arranged list is disjoint from all others. -/
theorem Arranged.middle {l r : List Interval} {b : Interval} (h : Arranged (l ++ b :: r)) :
    Disjoint b.cells (covered (l ++ r)) := by
  obtain ⟨-, right, left⟩ := List.pairwise_append.1 h.apart
  rw [Set.disjoint_right]
  rintro x ⟨c, hc, hx⟩
  rcases List.mem_append.1 hc with hc | hc
  · exact Set.disjoint_left.1 (left c hc b List.mem_cons_self) hx
  · exact Set.disjoint_right.1 ((List.pairwise_cons.1 right).1 c hc) hx

theorem Arranged.remove {l r : List Interval} {b : Interval} (h : Arranged (l ++ b :: r)) :
    Arranged (l ++ r) ∧ covered (l ++ r) = covered (l ++ b :: r) \ b.cells := by
  have sub : (l ++ r).Sublist (l ++ b :: r) :=
    List.Sublist.append_left (List.sublist_cons_self b r) l
  refine ⟨⟨h.sorted.sublist sub, h.apart.sublist sub⟩, ?_⟩
  rw [covered_middle, Set.union_sdiff_left]
  exact (sdiff_eq_left.2 h.middle.symm).symm

theorem Arranged.insert {l r : List Interval} {b : Interval} (h : Arranged (l ++ r))
    (free : Disjoint b.cells (covered (l ++ r))) (before : ∀ c ∈ l, c.start ≤ b.start)
    (behind : ∀ c ∈ r, b.start ≤ c.start) : Arranged (l ++ b :: r) := by
  obtain ⟨sl, sr, slr⟩ := List.pairwise_append.1 h.sorted
  obtain ⟨al, ar, alr⟩ := List.pairwise_append.1 h.apart
  have apart (c : Interval) (hc : c ∈ l ++ r) : Disjoint b.cells c.cells := by
    have sub : c.cells ⊆ covered (l ++ r) := fun x hx => ⟨c, hc, hx⟩
    exact free.mono_right sub
  constructor
  · refine List.pairwise_append.2 ⟨sl, List.pairwise_cons.2 ⟨behind, sr⟩, fun c hc d hd => ?_⟩
    rcases List.mem_cons.1 hd with rfl | hd
    · exact before c hc
    · exact slr c hc d hd
  · refine List.pairwise_append.2 ⟨al, List.pairwise_cons.2 ⟨fun c hc => ?_, ar⟩,
      fun c hc d hd => ?_⟩
    · exact apart c (List.mem_append_right l hc)
    · rcases List.mem_cons.1 hd with rfl | hd
      · exact (apart c (List.mem_append_left r hc)).symm
      · exact alr c hc d hd

/-- An interval that takes the place of another and reaches outside it covers a new cell, or
a cell of a third interval. -/
theorem Arranged.replace {l r : List Interval} {b c : Interval} {x : ℕ}
    (h : Arranged (l ++ c :: r)) (new : x ∈ c.cells) (outside : x ∉ b.cells) :
    x ∉ covered (l ++ b :: r) := by
  rw [covered_middle]
  rintro (hx | hx)
  · exact outside hx
  · exact Set.disjoint_left.1 h.middle new hx

end BrainMachine.Intervals
