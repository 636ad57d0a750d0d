import Mathlib.Data.List.Induction
import BrainMachine.HoleListSteps
import BrainMachine.Intervals

set_option autoImplicit false

namespace BrainMachine.HoleAccounting
open HoleList Intervals

def block (a size : UInt32) : Set ℕ := (Interval.mk a.toNat size.toNat).cells

def intervals (holes : List Hole) : List Interval :=
  holes.map fun h => ⟨h.addr.toNat, h.size.toNat⟩

def free (holes : List Hole) : Set ℕ := covered (intervals holes)

def Kept (holes : List Hole) : Prop := Arranged (intervals holes)

/-- What a call may return: -1 with the list unchanged, or the address of a block that was
free, with a list that covers the other words. The address is read back as unsigned. -/
structure Accounts (size : UInt32) (holes : List Hole) (r : ℤ × List Hole) : Prop where
  refused : r.1 = -1 → r.2 = holes
  inside : r.1 ≠ -1 → block (UInt32.ofInt r.1) size ⊆ free holes
  rest : r.1 ≠ -1 → free r.2 = free holes \ block (UInt32.ofInt r.1) size
  kept : r.1 ≠ -1 → Kept r.2

theorem intervals_middle (l t : List Hole) (k : Hole) :
    intervals (l ++ k :: t) = intervals l ++ ⟨k.addr.toNat, k.size.toNat⟩ :: intervals t :=
  List.map_append

theorem intervals_append (l t : List Hole) : intervals (l ++ t) = intervals l ++ intervals t :=
  List.map_append

theorem ofInt_toInt (a : UInt32) : UInt32.ofInt a.toBitVec.toInt = a := by
  apply UInt32.toNat_inj.1
  have lt := a.toBitVec.isLt
  have val : a.toBitVec.toNat = a.toNat := rfl
  rw [UInt32.ofInt, UInt32.toNat_ofNat', BitVec.toInt_eq_toNat_cond]
  split <;> omega

theorem toInt_eq_neg_one (a : UInt32) : a.toBitVec.toInt = -1 ↔ a = 4294967295 := by
  constructor
  · intro h
    rw [← ofInt_toInt a, h]
    rfl
  · rintro rfl
    rfl

inductive Serves (size : UInt32) (l : List Hole) (k : Hole) (t : List Hole) :
    ℤ × List Hole → Prop
  | whole (exact : k.size = size) : Serves size l k t (k.addr.toBitVec.toInt, l ++ t)
  | cut (larger : size < k.size) : Serves size l k t
      (k.addr.toBitVec.toInt, l ++ { k with addr := k.addr + size } :: t)

/-- A hole that moved up and kept its size reaches outside of where it was. -/
theorem moved_outside {a n size : UInt32} (pos : 1 ≤ size) (larger : size < n) :
    ∃ x, x ∈ block (a + size) n ∧ x ∉ block a n := by
  have hp : 1 ≤ size.toNat := UInt32.le_iff_toNat_le.1 pos
  have hl : size.toNat < n.toNat := UInt32.lt_iff_toNat_lt.1 larger
  have ha := a.toNat_lt
  have hs := size.toNat_lt
  have sum : (a + size).toNat = (a.toNat + size.toNat) % 2 ^ 32 := UInt32.toNat_add a size
  by_cases wrap : a.toNat + size.toNat < 2 ^ 32
  · rw [Nat.mod_eq_of_lt wrap] at sum
    refine ⟨a.toNat + n.toNat, ⟨?_, ?_⟩, fun h => ?_⟩
    · change (a + size).toNat ≤ _
      omega
    · change _ < (a + size).toNat + n.toNat
      omega
    · exact Nat.lt_irrefl _ h.2
  · refine ⟨(a + size).toNat, ⟨Nat.le_refl _, ?_⟩, fun h => ?_⟩
    · change _ < (a + size).toNat + n.toNat
      omega
    · have : a.toNat ≤ (a + size).toNat := h.1
      omega

theorem serves_accounts {size : UInt32} {l t : List Hole} {k : Hole} {r : ℤ × List Hole}
    (kept : Kept (l ++ k :: t)) (pos : 1 ≤ size) (h : Serves size l k t r) :
    Accounts size (l ++ k :: t) r ↔ k.size = size ∧ k.addr ≠ 4294967295 := by
  rw [Kept, intervals_middle] at kept
  cases h with
  | whole exact =>
    constructor
    · intro h
      refine ⟨exact, fun last => ?_⟩
      have same := h.refused ((toInt_eq_neg_one k.addr).2 last)
      have length := congrArg List.length same
      simp only [List.length_append, List.length_cons] at length
      omega
    · rintro ⟨-, last⟩
      have other : k.addr.toBitVec.toInt ≠ -1 := mt (toInt_eq_neg_one k.addr).1 last
      obtain ⟨arranged, rest⟩ := kept.remove
      have here : block (UInt32.ofInt k.addr.toBitVec.toInt) size =
          (Interval.mk k.addr.toNat k.size.toNat).cells := by
        rw [ofInt_toInt, exact]
        rfl
      constructor
      · exact fun h => absurd h other
      · intro _
        rw [here, free, intervals_middle, covered_middle]
        exact Set.subset_union_left
      · intro _
        rw [here, free, free, intervals_append, intervals_middle]
        exact rest
      · intro _
        rw [Kept, intervals_append]
        exact arranged
  | cut larger =>
    constructor
    · intro h
      exfalso
      obtain ⟨x, new, outside⟩ := moved_outside (a := k.addr) pos larger
      by_cases last : k.addr.toBitVec.toInt = -1
      · have same := List.append_cancel_left (h.refused last)
        have moved : k.addr + size = k.addr :=
          congrArg Hole.addr (List.head_eq_of_cons_eq same)
        rw [moved] at new
        exact outside new
      · have arranged := h.kept last
        have rest := h.rest last
        rw [Kept, intervals_middle] at arranged
        have covers : x ∈ free (l ++ { k with addr := k.addr + size } :: t) := by
          rw [free, intervals_middle, covered_middle]
          exact .inl new
        rw [rest, free, intervals_middle] at covers
        exact arranged.replace new outside covers.1
    · rintro ⟨exact, -⟩
      rw [exact] at larger
      exact absurd larger (UInt32.lt_irrefl size)

theorem getFirstHole_skip {size : UInt32} {h : Hole} (small : ¬size ≤ h.size) (t : List Hole) :
    getFirstHole size (h :: t) = ((getFirstHole size t).1, h :: (getFirstHole size t).2) := by
  rw [getFirstHole, getFirstHole, firstHole, choice_passed (UInt32.not_le.1 small)]
  cases firstHole size t <;> rfl

theorem getFirstHole_serves (size : UInt32) (holes : List Hole) :
    (chosen size holes = none ∧ getFirstHole size holes = (-1, holes)) ∨
      ∃ l k t, holes = l ++ k :: t ∧ chosen size holes = some k ∧
        Serves size l k t (getFirstHole size holes) := by
  induction holes with
  | nil => exact .inl ⟨rfl, rfl⟩
  | cons h t ih =>
    by_cases fits : size ≤ h.size
    · refine .inr ⟨[], h, t, rfl, List.find?_cons_of_pos (decide_eq_true fits), ?_⟩
      rw [getFirstHole, firstHole]
      rcases choice_cases h.size size with exact | larger | small
      · rw [choice_whole exact]
        exact .whole exact
      · rw [choice_cut larger]
        exact .cut larger
      · exact absurd fits (UInt32.not_le.2 small)
    · rw [getFirstHole_skip fits, chosen,
        List.find?_cons_of_neg (by rw [decide_eq_true_eq]; exact fits)]
      rcases ih with ⟨none, call⟩ | ⟨l, k, t', rfl, found, serves⟩
      · rw [call]
        exact .inl ⟨none, rfl⟩
      · refine .inr ⟨h :: l, k, t', rfl, found, ?_⟩
        generalize getFirstHole size (l ++ k :: t') = r at serves
        cases serves with
        | whole exact => exact .whole exact
        | cut larger => exact .cut larger

/-- What `minHole` finds: no hole is large enough, or the first one of the least such size. -/
def Best (size : UInt32) (holes : List Hole) : Option (Hole × ℕ) → Prop
  | none => ∀ x ∈ holes, x.size < size
  | some (k, i) => ∃ l t, holes = l ++ k :: t ∧ l.length = i ∧ size ≤ k.size ∧
      (∀ x ∈ l, x.size < size ∨ k.size < x.size) ∧ ∀ x ∈ t, x.size < size ∨ k.size ≤ x.size

theorem minHole_snoc (size : UInt32) (holes : List Hole) (h : Hole) :
    minHole size (holes ++ [h]) = bestStep size (minHole size holes) (h, holes.length) := by
  rw [minHole, List.zipIdx_append, List.foldl_append, Nat.zero_add]
  rfl

theorem bestStep_best {size : UInt32} {holes : List Hole} {h : Hole} {best : Option (Hole × ℕ)}
    (old : Best size holes best) :
    Best size (holes ++ [h]) (bestStep size best (h, holes.length)) := by
  cases best with
  | none =>
    rw [bestStep]
    split
    · rename_i fits
      refine ⟨holes, [], rfl, rfl, fits, fun x hx => .inl (old x hx), fun x hx => ?_⟩
      cases hx
    · rename_i small
      intro x hx
      rcases List.mem_append.1 hx with hx | hx
      · exact old x hx
      · rw [List.mem_singleton.1 hx]
        exact UInt32.not_le.1 small
  | some b =>
    obtain ⟨k, i⟩ := b
    obtain ⟨l, t, rfl, rfl, fits, before, behind⟩ := old
    rw [bestStep]
    split
    · rename_i better
      refine ⟨l ++ k :: t, [], rfl, rfl, better.1, fun x hx => ?_, fun x hx => ?_⟩
      · rcases List.mem_append.1 hx with hx | hx
        · exact (before x hx).imp_right (UInt32.lt_trans better.2)
        · rcases List.mem_cons.1 hx with rfl | hx
          · exact .inr better.2
          · exact (behind x hx).imp_right (UInt32.lt_of_lt_of_le better.2)
      · cases hx
    · rename_i worse
      refine ⟨l, t ++ [h], List.append_assoc _ _ _, rfl, fits, before, fun x hx => ?_⟩
      rcases List.mem_append.1 hx with hx | hx
      · exact behind x hx
      · rw [List.mem_singleton.1 hx]
        by_cases small : h.size < size
        · exact .inl small
        · exact .inr (UInt32.not_lt.1 fun less => worse ⟨UInt32.not_lt.1 small, less⟩)

theorem minHole_best (size : UInt32) (holes : List Hole) :
    Best size holes (minHole size holes) := by
  induction holes using List.reverseRecOn with
  | nil => exact fun x hx => absurd hx List.not_mem_nil
  | append_singleton holes h ih =>
    rw [minHole_snoc]
    exact bestStep_best ih

def fitting (size : UInt32) (holes : List Hole) : Option Hole :=
  holes.find? fun h => decide (h.size = size)

theorem fitting_middle {size : UInt32} {l t : List Hole} {k : Hole} (exact : k.size = size)
    (before : ∀ x ∈ l, x.size < size ∨ k.size < x.size) : fitting size (l ++ k :: t) = some k := by
  rw [fitting, List.find?_append, List.find?_eq_none.2, Option.none_or]
  · exact List.find?_cons_of_pos (decide_eq_true exact)
  · intro x hx he
    have he := of_decide_eq_true he
    rcases before x hx with h | h
    · exact UInt32.ne_of_lt h he
    · exact UInt32.ne_of_lt h (exact.trans he.symm)

theorem fitting_none {size : UInt32} {l t : List Hole} {k : Hole} (larger : size < k.size)
    (before : ∀ x ∈ l, x.size < size ∨ k.size < x.size)
    (behind : ∀ x ∈ t, x.size < size ∨ k.size ≤ x.size) : fitting size (l ++ k :: t) = none := by
  have none (x : Hole) (h : x.size < size ∨ k.size ≤ x.size) : x.size ≠ size := by
    rcases h with h | h
    · exact UInt32.ne_of_lt h
    · exact (UInt32.ne_of_lt (UInt32.lt_of_lt_of_le larger h)).symm
  rw [fitting, List.find?_eq_none]
  intro x hx he
  have he := of_decide_eq_true he
  rcases List.mem_append.1 hx with hx | hx
  · exact none x ((before x hx).imp_right UInt32.le_of_lt) he
  · rcases List.mem_cons.1 hx with rfl | hx
    · exact none x (.inr (UInt32.le_refl _)) he
    · exact none x (behind x hx) he

theorem getBestHole_some {size : UInt32} {holes : List Hole} {k : Hole} {i : ℕ}
    (found : minHole size holes = some (k, i)) :
    getBestHole size holes =
      if k.size = size then (k.addr.toBitVec.toInt, holes.eraseIdx i)
      else if k.size > size then
        (k.addr.toBitVec.toInt, holes.set i { k with addr := k.addr + size })
      else (-1, holes) := by
  rw [getBestHole, found]

/-- Best fit serves a request from the first hole of the least size that is large enough. -/
theorem getBestHole_serves (size : UInt32) (holes : List Hole) :
    ((∀ x ∈ holes, x.size < size) ∧ getBestHole size holes = (-1, holes)) ∨
      ∃ l k t, holes = l ++ k :: t ∧ size ≤ k.size ∧
        (∀ x ∈ l, x.size < size ∨ k.size < x.size) ∧
        (∀ x ∈ t, x.size < size ∨ k.size ≤ x.size) ∧
        Serves size l k t (getBestHole size holes) := by
  have best := minHole_best size holes
  rcases found : minHole size holes with _ | ⟨k, i⟩ <;> rw [found] at best
  · exact .inl ⟨best, by rw [getBestHole, found]⟩
  · obtain ⟨l, t, rfl, rfl, fits, before, behind⟩ := best
    refine .inr ⟨l, k, t, rfl, fits, before, behind, ?_⟩
    rw [getBestHole_some found]
    rcases choice_cases k.size size with exact | larger | small
    · rw [choice_whole exact, List.eraseIdx_append_of_length_le (Nat.le_refl _), Nat.sub_self]
      exact .whole exact
    · rw [choice_cut larger, List.set_append_right _ _ (Nat.le_refl _), Nat.sub_self]
      exact .cut larger
    · exact absurd fits (UInt32.not_le.2 small)

theorem addHole_split (loc size : UInt32) (holes : List Hole) (kept : Kept holes) :
    ∃ l t, holes = l ++ t ∧ addHole loc size holes = l ++ ⟨loc, size⟩ :: t ∧
      (∀ x ∈ l, x.addr < loc) ∧ ∀ x ∈ t, loc ≤ x.addr := by
  induction holes with
  | nil => exact ⟨[], [], rfl, rfl, by simp, by simp⟩
  | cons h t ih =>
    obtain ⟨least, sorted⟩ := List.pairwise_cons.1 kept.sorted
    rw [addHole]
    split
    · rename_i behind
      refine ⟨[], h :: t, rfl, rfl, by simp, fun x hx => ?_⟩
      rcases List.mem_cons.1 hx with rfl | hx
      · exact behind
      · have := least _ (List.mem_map_of_mem hx)
        exact UInt32.le_trans behind (UInt32.le_iff_toNat_le.2 this)
    · rename_i before
      obtain ⟨l, r, rfl, eq, front, back⟩ := ih ⟨sorted, (List.pairwise_cons.1 kept.apart).2⟩
      refine ⟨h :: l, r, rfl, by rw [eq]; rfl, fun x hx => ?_, back⟩
      rcases List.mem_cons.1 hx with rfl | hx
      · exact UInt32.not_le.1 before
      · exact front x hx

/-- Giving a block back keeps the list in order and adds the words of the block. -/
theorem addHole_accounts {loc size : UInt32} {holes : List Hole} (kept : Kept holes)
    (apart : Disjoint (block loc size) (free holes)) :
    Kept (addHole loc size holes) ∧ free (addHole loc size holes) = free holes ∪ block loc size := by
  obtain ⟨l, t, rfl, eq, front, back⟩ := addHole_split loc size holes kept
  rw [Kept, intervals_append] at kept
  rw [free, intervals_append] at apart
  rw [eq, Kept, free, free, intervals_middle, intervals_append]
  constructor
  · refine kept.insert apart (fun c hc => ?_) (fun c hc => ?_)
    · obtain ⟨x, hx, rfl⟩ := List.mem_map.1 hc
      exact Nat.le_of_lt (UInt32.lt_iff_toNat_lt.1 (front x hx))
    · obtain ⟨x, hx, rfl⟩ := List.mem_map.1 hc
      exact UInt32.le_iff_toNat_le.1 (back x hx)
  · rw [covered_middle, Set.union_comm]
    rfl

/-- First fit is accounted for exactly when no hole is large enough, or the first such hole
has the size of the request and does not start at the address that reads as -1. Best fit is
when a hole of that size exists if any is large enough, with the same exception; giving
back always is. -/
theorem hole_accounting (size : UInt32) (holes : List Hole) (pos : 1 ≤ size)
    (kept : Kept holes) :
    (Accounts size holes (getFirstHole size holes) ↔
      ∀ k, chosen size holes = some k → k.size = size ∧ k.addr ≠ 4294967295) ∧
    (Accounts size holes (getBestHole size holes) ↔ ((∃ k ∈ holes, size ≤ k.size) →
      ∃ k, fitting size holes = some k ∧ k.addr ≠ 4294967295)) ∧
    ∀ loc n, Disjoint (block loc n) (free holes) → Kept (addHole loc n holes) ∧
      free (addHole loc n holes) = free holes ∪ block loc n := by
  have unchanged : Accounts size holes (-1, holes) :=
    ⟨fun _ => rfl, fun h => absurd rfl h, fun h => absurd rfl h, fun h => absurd rfl h⟩
  refine ⟨?_, ?_, fun loc n apart => addHole_accounts kept apart⟩
  · rcases getFirstHole_serves size holes with ⟨none, call⟩ | ⟨l, k, t, rfl, found, serves⟩
    · rw [call, none]
      exact iff_of_true unchanged fun k hk => absurd hk (by simp)
    · rw [serves_accounts kept pos serves, found]
      simp only [Option.some.injEq, forall_eq']
  · rcases getBestHole_serves size holes with
      ⟨small, call⟩ | ⟨l, k, t, rfl, fits, before, behind, serves⟩
    · rw [call]
      refine iff_of_true unchanged ?_
      rintro ⟨k, hk, fits⟩
      exact absurd (small k hk) (UInt32.not_lt.2 fits)
    · rw [serves_accounts kept pos serves]
      have some : ∃ x ∈ l ++ k :: t, size ≤ x.size := ⟨k, by simp, fits⟩
      simp only [some, forall_const]
      by_cases exact : k.size = size
      · rw [fitting_middle exact before]
        simp [exact]
      · have larger : size < k.size := UInt32.lt_of_le_of_ne fits (Ne.symm exact)
        rw [fitting_none larger before behind]
        simp [exact]

/-- A hole of ten words that serves four keeps the recorded size ten. -/
theorem cut_hole_covers_too_much :
    ¬(∀ (size : UInt32) (holes : List Hole), 1 ≤ size → Kept holes →
      Accounts size holes (getFirstHole size holes)) ∧
    ¬(∀ (size : UInt32) (holes : List Hole), 1 ≤ size → Kept holes →
      Accounts size holes (getBestHole size holes)) := by
  have kept : Kept [⟨0, 10⟩] := ⟨List.pairwise_singleton _ _, List.pairwise_singleton _ _⟩
  have serves : Serves 4 [] ⟨0, 10⟩ [] (0, [⟨4, 10⟩]) := .cut (k := ⟨0, 10⟩) (by decide)
  have wrong : ¬Accounts 4 [⟨0, 10⟩] (0, [⟨4, 10⟩]) := by
    intro h
    have whole : (10 : UInt32) = 4 := ((serves_accounts kept (by decide) serves).1 h).1
    exact absurd whole (by decide)
  exact ⟨fun h => wrong (h 4 [⟨0, 10⟩] (by decide) kept),
    fun h => wrong (h 4 [⟨0, 10⟩] (by decide) kept)⟩

def fourHoles : List Hole := [⟨0, 4⟩, ⟨10, 20⟩, ⟨40, 10⟩, ⟨60, 10⟩]

theorem fourHoles_kept : Kept fourHoles := by
  have apart : (intervals fourHoles).Pairwise fun a b => a.start + a.len ≤ b.start := by decide
  exact ⟨by decide, apart.imp Intervals.disjoint_cells⟩

theorem fourHoles_accounting :
    ¬Accounts 10 fourHoles (getFirstHole 10 fourHoles) ∧
      Accounts 4 fourHoles (getFirstHole 4 fourHoles) ∧
      Accounts 10 fourHoles (getBestHole 10 fourHoles) ∧
      Kept (addHole 30 10 fourHoles) ∧
      free (addHole 30 10 fourHoles) = free fourHoles ∪ block 30 10 := by
  obtain ⟨first, best, back⟩ := hole_accounting 10 fourHoles (by decide) fourHoles_kept
  obtain ⟨exact, -⟩ := hole_accounting 4 fourHoles (by decide) fourHoles_kept
  refine ⟨fun h => ?_, exact.2 fun k hk => ?_, best.2 fun _ => ⟨⟨40, 10⟩, rfl, by decide⟩,
    back 30 10 ?_⟩
  · have large : (20 : UInt32) = 10 := (first.1 h ⟨10, 20⟩ rfl).1
    exact absurd large (by decide)
  · obtain rfl : ⟨0, 4⟩ = k := Option.some.inj hk
    decide
  · have around : ∀ c ∈ intervals fourHoles, c.start + c.len ≤ 30 ∨ 40 ≤ c.start := by decide
    rw [Set.disjoint_right]
    rintro x ⟨c, hc, inside⟩
    rcases around c hc with below | above
    · exact Set.disjoint_left.1 (Intervals.disjoint_cells (b := c) (c := ⟨30, 10⟩) below) inside
    · exact Set.disjoint_right.1 (Intervals.disjoint_cells (b := ⟨30, 10⟩) (c := c) above) inside

end BrainMachine.HoleAccounting
