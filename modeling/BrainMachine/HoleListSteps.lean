import BrainMachine.HoleList

set_option autoImplicit false

namespace BrainMachine.HoleList

theorem ofInt_toNat {n : ℤ} (h : 0 ≤ n) (hn : n < 4294967296) :
    (UInt32.ofInt n).toNat = n.toNat := by
  rw [UInt32.ofInt, UInt32.toNat_ofNat']
  change (n % 4294967296).toNat % 4294967296 = _
  omega

theorem add_ofInt {k : UInt32} {n : ℤ} (h : 0 ≤ n) (hn : k.toNat + n.toNat < 4294967296) :
    (k + UInt32.ofInt n).toNat = k.toNat + n.toNat := by
  rw [UInt32.toNat_add, ofInt_toNat h (by omega)]
  omega

section
variable {α : Type} {n size : UInt32}

theorem choice_whole (exact : n = size) (x y z : α) :
    (if n = size then x else if n > size then y else z) = x := if_pos exact

theorem choice_cut (larger : n > size) (x y z : α) :
    (if n = size then x else if n > size then y else z) = y := by
  rw [if_neg (UInt32.ne_of_lt larger).symm, if_pos larger]

theorem choice_passed (small : n < size) (x y z : α) :
    (if n = size then x else if n > size then y else z) = z := by
  rw [if_neg (UInt32.ne_of_lt small), if_neg (UInt32.lt_asymm small)]

theorem choice_cases (n size : UInt32) : n = size ∨ n > size ∨ n < size := by
  by_cases exact : n = size
  · exact .inl exact
  · by_cases fits : size ≤ n
    · exact .inr (.inl (UInt32.lt_of_le_of_ne fits (Ne.symm exact)))
    · exact .inr (.inr (UInt32.not_le.1 fits))

end

def chosen (size : UInt32) (holes : List Hole) : Option Hole :=
  holes.find? fun h => decide (size ≤ h.size)

theorem chosen_some {size : UInt32} {holes : List Hole} {k : Hole}
    (h : chosen size holes = some k) : k ∈ holes ∧ size ≤ k.size := by
  unfold chosen at h
  exact ⟨List.mem_of_find?_eq_some h, of_decide_eq_true (List.find?_some h :)⟩

theorem firstHole_chosen (size : UInt32) (holes : List Hole) :
    (firstHole size holes).map Prod.fst = (chosen size holes).map Hole.addr := by
  induction holes with
  | nil => rfl
  | cons h t ih =>
    rw [firstHole, chosen, List.find?_cons]
    rcases choice_cases h.size size with exact | larger | small
    · rw [choice_whole exact, decide_eq_true (exact ▸ UInt32.le_refl size)]
      rfl
    · rw [choice_cut larger, decide_eq_true (UInt32.le_of_lt larger)]
      rfl
    · rw [choice_passed small, decide_eq_false (UInt32.not_le.2 small), Option.map_map]
      exact ih

/-- The hole that serves a request goes or moves up, and the others stay. -/
theorem firstHole_split {size a : UInt32} {holes rest : List Hole}
    (h : firstHole size holes = some (a, rest)) :
    ∃ l k t, holes = l ++ k :: t ∧ a = k.addr ∧
      (rest = l ++ t ∨ rest = l ++ { k with addr := k.addr + size } :: t) := by
  induction holes generalizing rest with
  | nil => cases h
  | cons x t ih =>
    rw [firstHole] at h
    rcases choice_cases x.size size with exact | larger | small
    · rw [choice_whole exact] at h
      obtain ⟨rfl, rfl⟩ := Prod.mk.inj (Option.some.inj h)
      exact ⟨[], x, t, rfl, rfl, .inl rfl⟩
    · rw [choice_cut larger] at h
      obtain ⟨rfl, rfl⟩ := Prod.mk.inj (Option.some.inj h)
      exact ⟨[], x, t, rfl, rfl, .inr rfl⟩
    · rw [choice_passed small] at h
      obtain ⟨⟨b, r⟩, hr, he⟩ := Option.map_eq_some_iff.1 h
      obtain ⟨rfl, rfl⟩ := Prod.mk.inj he
      obtain ⟨l, k, t, rfl, same, gone | cut⟩ := ih hr
      · exact ⟨x :: l, k, t, rfl, same, .inl (congrArg (x :: ·) gone)⟩
      · exact ⟨x :: l, k, t, rfl, same, .inr (congrArg (x :: ·) cut)⟩

theorem firstHole_rest {size a : UInt32} {holes rest : List Hole}
    (h : firstHole size holes = some (a, rest)) :
    ∀ k ∈ rest, k ∈ holes ∨ k.addr = a + size := by
  obtain ⟨l, k, t, rfl, rfl, rfl | rfl⟩ := firstHole_split h
  · intro x hx
    exact .inl ((List.sublist_cons_self k t).append_left l |>.subset hx)
  · intro x hx
    rw [List.mem_append, List.mem_cons] at hx
    rcases hx with hx | rfl | hx
    · exact .inl (List.mem_append_left _ hx)
    · exact .inr rfl
    · exact .inl (List.mem_append_right _ (List.mem_cons_of_mem _ hx))

theorem firstHole_sizes {size a : UInt32} {holes rest : List Hole}
    (h : firstHole size holes = some (a, rest)) : ∀ k ∈ rest, ∃ x ∈ holes, k.size = x.size := by
  obtain ⟨l, k, t, rfl, rfl, rfl | rfl⟩ := firstHole_split h
  · intro x hx
    exact ⟨x, (List.sublist_cons_self k t).append_left l |>.subset hx, rfl⟩
  · intro x hx
    rw [List.mem_append, List.mem_cons] at hx
    rcases hx with hx | rfl | hx
    · exact ⟨x, List.mem_append_left _ hx, rfl⟩
    · exact ⟨k, List.mem_append_right _ List.mem_cons_self, rfl⟩
    · exact ⟨x, List.mem_append_right _ (List.mem_cons_of_mem _ hx), rfl⟩

theorem memalloc_sizes (n : ℤ) (holes : List Hole) :
    ∀ k ∈ (memalloc n holes).2, ∃ x ∈ holes, k.size = x.size := by
  intro k hk
  unfold memalloc getFirstHole at hk
  split at hk
  · exact ⟨k, hk, rfl⟩
  · split at hk
    · exact ⟨k, hk, rfl⟩
    · rename_i hf
      exact firstHole_sizes hf k hk

theorem toInt_nonneg {a : UInt32} (h : 0 ≤ a.toBitVec.toInt) : a.toBitVec.toInt = a.toNat := by
  rw [BitVec.toInt_eq_toNat_cond] at h ⊢
  split at h
  · rw [if_pos (by assumption)]
    rfl
  · have := a.toBitVec.isLt
    omega

/-- A granted request is served at the address of the chosen hole. -/
theorem memalloc_granted {n : ℤ} {holes : List Hole} (h : 0 ≤ (memalloc n holes).1) :
    ∃ k, chosen (UInt32.ofInt n) holes = some k ∧ (memalloc n holes).1 = k.addr.toNat ∧
      ∀ x ∈ (memalloc n holes).2, x ∈ holes ∨ x.addr = k.addr + UInt32.ofInt n := by
  unfold memalloc getFirstHole at h ⊢
  by_cases hn : n < 0
  · rw [if_pos hn] at h
    exact absurd (show (0 : ℤ) ≤ -1 from h) (by decide)
  · rw [if_neg hn] at h ⊢
    have hc := firstHole_chosen (UInt32.ofInt n) holes
    cases hf : firstHole (UInt32.ofInt n) holes with
    | none =>
      simp only [hf] at h
      exact absurd h (by decide)
    | some r =>
      simp only [hf] at h ⊢
      rw [hf] at hc
      obtain ⟨k, hk, he⟩ := Option.map_eq_some_iff.1 hc.symm
      refine ⟨k, hk, ?_, ?_⟩
      · rw [toInt_nonneg h, he]
      · rw [he]
        exact firstHole_rest hf

theorem firstHole_single (size : UInt32) (k : Hole) {r : UInt32 × List Hole}
    (h : firstHole size [k] = some r) :
    r.2 = [] ∨ r.2 = [{ k with addr := k.addr + size }] := by
  rw [firstHole] at h
  rcases choice_cases k.size size with exact | larger | small
  · rw [choice_whole exact] at h
    rw [← Option.some.inj h]
    exact .inl rfl
  · rw [choice_cut larger] at h
    rw [← Option.some.inj h]
    exact .inr rfl
  · rw [choice_passed small] at h
    cases h

/-- A granted request uses up the only hole, or moves its address. -/
theorem memalloc_single {n : ℤ} {k : Hole} (h : 0 ≤ (memalloc n [k]).1) :
    (memalloc n [k]).2 = [] ∨
      (memalloc n [k]).2 = [{ k with addr := k.addr + UInt32.ofInt n }] := by
  unfold memalloc getFirstHole at h ⊢
  by_cases hn : n < 0
  · rw [if_pos hn] at h
    exact absurd (show (0 : ℤ) ≤ -1 from h) (by decide)
  · rw [if_neg hn] at h ⊢
    cases hf : firstHole (UInt32.ofInt n) [k] with
    | none =>
      simp only [hf] at h
      exact absurd h (by decide)
    | some r => exact firstHole_single _ k hf

/-- A refused request leaves the list alone, unless the chosen address is negative. -/
theorem memalloc_refused {n : ℤ} {holes : List Hole} (h : (memalloc n holes).1 < 0) :
    (memalloc n holes).2 = holes ∨ ∃ k, chosen (UInt32.ofInt n) holes = some k ∧
      k.addr.toBitVec.toInt < 0 ∧
      ∀ x ∈ (memalloc n holes).2, x ∈ holes ∨ x.addr = k.addr + UInt32.ofInt n := by
  unfold memalloc getFirstHole at h ⊢
  by_cases hn : n < 0
  · rw [if_pos hn]
    exact .inl rfl
  · rw [if_neg hn] at h ⊢
    have hc := firstHole_chosen (UInt32.ofInt n) holes
    cases hf : firstHole (UInt32.ofInt n) holes with
    | none => exact .inl rfl
    | some r =>
      simp only [hf] at h ⊢
      rw [hf] at hc
      obtain ⟨k, hk, he⟩ := Option.map_eq_some_iff.1 hc.symm
      refine .inr ⟨k, hk, ?_, ?_⟩
      · rw [he]
        exact h
      · rw [he]
        exact firstHole_rest hf

theorem addHole_mem (loc size : UInt32) (holes : List Hole) (k : Hole) :
    k ∈ addHole loc size holes ↔ k = ⟨loc, size⟩ ∨ k ∈ holes := by
  induction holes with
  | nil => simp [addHole]
  | cons h t ih =>
    rw [addHole]
    split
    · simp
    · rw [List.mem_cons, List.mem_cons, ih]
      tauto

end BrainMachine.HoleList
