import BrainMachine.HoleAccounting
import BrainMachine.HoleNodes

set_option autoImplicit false

namespace BrainMachine.HoleNodes
open Computations LinkedCells
open HoleList (Hole minHole bestStep choice_whole choice_cut choice_passed choice_cases)

section
variable {size : UInt32} {s : Memory} {c t : List (ℕ × Hole)} {a d n : ℕ} {v w : Hole}
  {m : Option ℕ} {call : Exec Memory ℤ}

theorem left_whole {k : ℕ × Hole} (exact : k.2.size = size) : left size k = [] := if_pos exact

theorem left_cut {k : ℕ × Hole} (larger : k.2.size > size) :
    left size k = [(k.1, { k.2 with addr := k.2.addr + size })] :=
  if_neg fun exact => UInt32.ne_of_lt larger exact.symm

theorem serves_pop (held : Holds s ((a, v) :: t)) (here : s.heap.lookup a = some ⟨v, m⟩)
    (exact : v.size = size)
    (run : call s = .ok (v.addr.toBitVec.toInt, ⟨s.heap.erase a, m⟩)) :
    Serves size call s [] (a, v) t := by
  refine ⟨exact ▸ UInt32.le_refl v.size, _, run, ?_⟩
  rw [left_whole exact]
  obtain ⟨first, -⟩ := chain_cons.1 held
  rw [Holds, first] at held
  exact held.pop here

theorem serves_unlink (held : Holds s (c ++ (d, w) :: (a, v) :: t))
    (here : s.heap.lookup a = some ⟨v, m⟩) (exact : v.size = size)
    (run : call s = .ok
      (v.addr.toBitVec.toInt, ⟨(s.heap.insert d ⟨w, m⟩).erase a, s.vars⟩)) :
    Serves size call s (c ++ [(d, w)]) (a, v) t := by
  refine ⟨exact ▸ UInt32.le_refl v.size, _, run, ?_⟩
  rw [left_whole exact, List.append_assoc]
  exact held.unlink here

theorem serves_cut (held : Holds s (c ++ (a, v) :: t))
    (here : s.heap.lookup a = some ⟨v, m⟩) (larger : v.size > size)
    (run : call s = .ok (v.addr.toBitVec.toInt,
      ⟨s.heap.insert a ⟨{ v with addr := v.addr + size }, m⟩, s.vars⟩)) :
    Serves size call s c (a, v) t := by
  refine ⟨UInt32.le_of_lt larger, _, run, ?_⟩
  rw [left_cut larger]
  exact held.update here _

theorem firstLoop_last (here : s.heap.lookup a = some ⟨v, none⟩) :
    firstLoop size (n + 1) a s = .ok (-1, s) := by
  rw [firstLoop, load_bind here]
  rfl

theorem firstLoop_next (size : UInt32) (n : ℕ) (here : s.heap.lookup d = some ⟨w, some a⟩)
    (next : s.heap.lookup a = some ⟨v, m⟩) (other : d ≠ a) :
    firstLoop size (n + 1) d s =
      if v.size = size then
        .ok (v.addr.toBitVec.toInt, ⟨(s.heap.insert d ⟨w, m⟩).erase a, s.vars⟩)
      else if v.size > size then .ok (v.addr.toBitVec.toInt,
        ⟨s.heap.insert a ⟨{ v with addr := v.addr + size }, m⟩, s.vars⟩)
      else firstLoop size n a s := by
  have after : (s.heap.insert d ⟨w, m⟩).lookup a = some ⟨v, m⟩ :=
    (Finmap.lookup_insert_of_ne _ other.symm).trans next
  rw [firstLoop, load_bind here]
  change (load a >>= _) s = _
  rw [load_bind next]
  split
  · rw [store_bind here, free_bind after]
    rfl
  · split
    · rw [store_bind next]
      rfl
    · rfl

theorem firstLoop_run (size : UInt32) (held : Holds s (c ++ (d, w) :: t)) (turns : t.length < n) :
    ((∀ x ∈ t, x.2.size < size) ∧ firstLoop size n d s = .ok (-1, s)) ∨
      ∃ b k r, t = b ++ k :: r ∧ (∀ x ∈ b, x.2.size < size) ∧
        Serves size (firstLoop size n d) s (c ++ (d, w) :: b) k r := by
  induction t generalizing c d w n with
  | nil =>
    obtain ⟨n, rfl⟩ := Nat.exists_eq_add_one_of_ne_zero (Nat.ne_zero_of_lt turns)
    obtain ⟨-, m, here, last⟩ := chain_middle.1 held
    obtain rfl := chain_nil.1 last
    exact .inl ⟨by simp, firstLoop_last here⟩
  | cons x t ih =>
    obtain ⟨a, v⟩ := x
    obtain ⟨n, rfl⟩ := Nat.exists_eq_add_one_of_ne_zero (Nat.ne_zero_of_lt turns)
    obtain ⟨-, m, here, rest⟩ := chain_middle.1 held
    obtain ⟨rfl, m', next, -⟩ := chain_cons.1 rest
    have other : d ≠ a := fun eq => held.apart.2.1 (eq ▸ List.mem_cons_self)
    have turn := firstLoop_next size n here next other
    have held' : Holds s ((c ++ [(d, w)]) ++ (a, v) :: t) := by
      rw [List.append_assoc]
      exact held
    rcases choice_cases v.size size with exact | larger | small
    · rw [choice_whole exact] at turn
      exact .inr ⟨[], (a, v), t, rfl, by simp, serves_unlink held next exact turn⟩
    · rw [choice_cut larger] at turn
      exact .inr ⟨[], (a, v), t, rfl, by simp, serves_cut held' next larger turn⟩
    · rw [choice_passed small] at turn
      rcases ih held' (Nat.lt_of_succ_lt_succ turns) with
        ⟨all, run⟩ | ⟨b, k, r, rfl, before, serves⟩
      · refine .inl ⟨fun x hx => ?_, turn.trans run⟩
        rcases List.mem_cons.1 hx with rfl | hx
        · exact small
        · exact all x hx
      · refine .inr ⟨(a, v) :: b, k, r, rfl, fun x hx => ?_, serves.fits, ?_⟩
        · rcases List.mem_cons.1 hx with rfl | hx
          · exact small
          · exact before x hx
        · obtain ⟨u, run, rest⟩ := serves.runs
          refine ⟨u, turn.trans run, ?_⟩
          simpa only [List.append_assoc, List.cons_append, List.nil_append] using rest

theorem getFirstHole_head (size : UInt32) (start : s.vars = some a)
    (here : s.heap.lookup a = some ⟨v, m⟩) :
    getFirstHole size s =
      if v.size = size then .ok (v.addr.toBitVec.toInt, ⟨s.heap.erase a, m⟩)
      else if v.size > size then .ok (v.addr.toBitVec.toInt,
        ⟨s.heap.insert a ⟨{ v with addr := v.addr + size }, m⟩, s.vars⟩)
      else firstLoop size s.heap.keys.card a s := by
  rw [getFirstHole, get_bind, start]
  change (load a >>= _) s = _
  rw [load_bind here]
  split
  · rw [assign_bind, free_bind (s := ⟨s.heap, m⟩) here]
    rfl
  · split
    · rw [store_bind here]
      rw [← start]
      rfl
    · rfl

/-- First fit serves a request from the first cell that is large enough. -/
theorem getFirstHole_run (size : UInt32) {l : List (ℕ × Hole)} (held : Holds s l) :
    ((∀ x ∈ l, x.2.size < size) ∧ getFirstHole size s = .ok (-1, s)) ∨
      ∃ b k t, l = b ++ k :: t ∧ (∀ x ∈ b, x.2.size < size) ∧
        Serves size (getFirstHole size) s b k t := by
  cases l with
  | nil =>
    have start := chain_nil.1 held
    refine .inl ⟨by simp, ?_⟩
    rw [getFirstHole, get_bind, start]
    rfl
  | cons x t =>
    obtain ⟨a, v⟩ := x
    obtain ⟨start, m, here, rest⟩ := chain_cons.1 held
    have head := getFirstHole_head size start here
    rcases choice_cases v.size size with exact | larger | small
    · rw [choice_whole exact] at head
      exact .inr ⟨[], (a, v), t, rfl, by simp, serves_pop held here exact head⟩
    · rw [choice_cut larger] at head
      exact .inr ⟨[], (a, v), t, rfl, by simp, serves_cut held here larger head⟩
    · rw [choice_passed small] at head
      rcases firstLoop_run size (c := []) held held.length_le with
        ⟨all, run⟩ | ⟨b, k, r, rfl, before, serves⟩
      · refine .inl ⟨fun x hx => ?_, head.trans run⟩
        rcases List.mem_cons.1 hx with rfl | hx
        · exact small
        · exact all x hx
      · obtain ⟨u, run, rest⟩ := serves.runs
        refine .inr ⟨(a, v) :: b, k, r, rfl, fun x hx => ?_, serves.fits, u, head.trans run, rest⟩
        rcases List.mem_cons.1 hx with rfl | hx
        · exact small
        · exact before x hx

end
section
variable {size : UInt32} {s : Memory} {l b t : List (ℕ × Hole)} {a n i : ℕ} {k : Hole}
  {p : Option ℕ}

theorem minHole_some (found : minHole size (contents l) = some (k, i)) :
    ∃ b a t, l = b ++ (a, k) :: t ∧ b.length = i ∧ size ≤ k.size ∧
      (∀ x ∈ b, x.2.size < size ∨ k.size < x.2.size) ∧
      ∀ x ∈ t, x.2.size < size ∨ k.size ≤ x.2.size := by
  have best := HoleAccounting.minHole_best size (contents l)
  rw [found] at best
  obtain ⟨front, back, split, rfl, fits, before, behind⟩ := best
  obtain ⟨b, r, rfl, rfl, rest⟩ := List.map_eq_append_iff.1 split
  obtain ⟨⟨a, k⟩, t, rfl, rfl, rfl⟩ := List.map_eq_cons_iff.1 rest
  refine ⟨b, a, t, rfl, (List.length_map _).symm, fits, fun x hx => ?_, fun x hx => ?_⟩
  · exact before _ (List.mem_map_of_mem hx)
  · exact behind _ (List.mem_map_of_mem hx)

theorem minHole_none (found : minHole size (contents l) = none) : ∀ x ∈ l, x.2.size < size := by
  have best := HoleAccounting.minHole_best size (contents l)
  rw [found] at best
  exact fun x hx => best _ (List.mem_map_of_mem hx)

def place (l : List (ℕ × Hole)) (found : Option (Hole × ℕ)) : Option ℕ :=
  found.bind fun r => (addresses l)[r.2]?

theorem place_middle (b t : List (ℕ × Hole)) (a : ℕ) (k k' : Hole) :
    place (b ++ (a, k) :: t) (some (k', b.length)) = some a := by
  simp [place, addresses]

theorem place_append {l : List (ℕ × Hole)} (t : List (ℕ × Hole)) {r : Hole × ℕ}
    (inside : r.2 < l.length) : place (l ++ t) (some r) = place l (some r) := by
  change (addresses (l ++ t))[r.2]? = (addresses l)[r.2]?
  rw [addresses_append, List.getElem?_append_left (by rwa [addresses, List.length_map])]

theorem better_small {h : Hole} (small : h.size < size) : better size h p s = .ok (false, s) := by
  rw [better.eq_def, if_neg (UInt32.not_le.2 small)]
  rfl

theorem better_none {h : Hole} (fits : size ≤ h.size) :
    better size h none s = .ok (true, s) := by
  rw [better.eq_def, if_pos fits]
  rfl

theorem better_some {h : Hole} (fits : size ≤ h.size) (there : s.heap.lookup a = some ⟨k, p⟩) :
    better size h (some a) s = .ok (decide (h.size < k.size), s) := by
  rw [better.eq_def, if_pos fits]
  exact load_bind there _

theorem better_run (size : UInt32) {h : Hole} (held : Holds s (b ++ (a, h) :: t)) :
    ∃ r, better size h (place b (minHole size (contents b))) s = .ok (r, s) ∧
      (if r then some a else place b (minHole size (contents b))) =
        place (b ++ [(a, h)]) (minHole size (contents (b ++ [(a, h)]))) := by
  have snoc : minHole size (contents (b ++ [(a, h)])) =
      bestStep size (minHole size (contents b)) (h, b.length) := by
    rw [contents, List.map_append]
    exact (HoleAccounting.minHole_snoc size _ h).trans (by rw [List.length_map]; rfl)
  rw [snoc]
  by_cases fits : size ≤ h.size
  · cases found : minHole size (contents b) with
    | none =>
      refine ⟨true, better_none fits, ?_⟩
      rw [bestStep, if_pos fits, place_middle]
      rfl
    | some r =>
      obtain ⟨k, i⟩ := r
      obtain ⟨c, d, e, rfl, rfl, -⟩ := minHole_some found
      have there : place (c ++ (d, k) :: e) (some (k, c.length)) = some d := place_middle c e d k k
      rw [List.append_assoc, List.cons_append] at held
      obtain ⟨-, m, here, -⟩ := chain_middle.1 held
      refine ⟨decide (h.size < k.size), ?_, ?_⟩
      · rw [there]
        exact better_some fits here
      · rw [bestStep]
        by_cases smaller : h.size < k.size
        · rw [if_pos (decide_eq_true smaller), if_pos ⟨fits, smaller⟩, place_middle]
        · rw [if_neg (mt of_decide_eq_true smaller), if_neg fun both => smaller both.2]
          exact (place_append _ (by simp)).symm
  · have small : h.size < size := UInt32.not_le.1 fits
    refine ⟨false, better_small small, ?_⟩
    cases found : minHole size (contents b) with
    | none =>
      rw [bestStep, if_neg fits]
      rfl
    | some r =>
      obtain ⟨k, i⟩ := r
      obtain ⟨c, d, e, rfl, rfl, -⟩ := minHole_some found
      rw [if_neg Bool.false_ne_true, bestStep, if_neg fun both => fits both.1]
      exact (place_append _ (by simp)).symm

/-- The scan points to the hole that the scan of the list finds. -/
theorem minLoop_run (size : UInt32) (held : Holds s (b ++ t)) (rest : Chain s.heap p t none)
    (turns : t.length ≤ n) :
    minLoop size n p (place b (minHole size (contents b))) s =
      .ok (place (b ++ t) (minHole size (contents (b ++ t))), s) := by
  induction t generalizing b p n with
  | nil =>
    obtain rfl := chain_nil.1 rest
    rw [List.append_nil]
    cases n <;> rfl
  | cons x t ih =>
    obtain ⟨a, h⟩ := x
    obtain ⟨n, rfl⟩ := Nat.exists_eq_add_one_of_ne_zero (Nat.ne_zero_of_lt turns)
    obtain ⟨rfl, m, here, rest'⟩ := chain_cons.1 rest
    obtain ⟨r, decision, next⟩ := better_run size held
    have held' : Holds s ((b ++ [(a, h)]) ++ t) := by
      rw [List.append_assoc]
      exact held
    have later := ih held' rest' (Nat.le_of_succ_le_succ turns)
    rw [List.append_assoc] at later
    rw [minLoop, load_bind here, bind_of_ok decision, next]
    exact later

theorem parentLoop_first (chain : Chain s.heap p l none) (turns : l.length ≤ n)
    (out : a ∉ addresses l.tail) : parentLoop a n p s = .ok (none, s) := by
  induction l generalizing p n with
  | nil =>
    obtain rfl := chain_nil.1 chain
    cases n <;> rfl
  | cons x l ih =>
    obtain ⟨b, h⟩ := x
    obtain ⟨n, rfl⟩ := Nat.exists_eq_add_one_of_ne_zero (Nat.ne_zero_of_lt turns)
    obtain ⟨rfl, m, here, rest⟩ := chain_cons.1 chain
    have other : m ≠ some a := by
      rintro rfl
      cases rest with
      | cons there more => exact out List.mem_cons_self
    rw [parentLoop, load_bind here, if_neg other]
    refine ih rest (Nat.le_of_succ_le_succ turns) fun ha => out ?_
    cases l with
    | nil => cases ha
    | cons y l => exact List.mem_cons_of_mem _ ha

theorem parentLoop_inside {d : ℕ} {w : Hole}
    (chain : Chain s.heap p (b ++ (d, w) :: (a, k) :: t) none) (turns : b.length < n) :
    parentLoop a n p s = .ok (some d, s) := by
  induction b generalizing p n with
  | nil =>
    obtain ⟨n, rfl⟩ := Nat.exists_eq_add_one_of_ne_zero (Nat.ne_zero_of_lt turns)
    obtain ⟨rfl, m, here, rest⟩ := chain_cons.1 chain
    obtain ⟨rfl, -⟩ := chain_cons.1 rest
    rw [parentLoop, load_bind here, if_pos rfl]
    rfl
  | cons x b ih =>
    obtain ⟨c, h⟩ := x
    obtain ⟨n, rfl⟩ := Nat.exists_eq_add_one_of_ne_zero (Nat.ne_zero_of_lt turns)
    rw [List.cons_append] at chain
    obtain ⟨rfl, m, here, rest⟩ := chain_cons.1 chain
    have other : m ≠ some a := by
      rintro rfl
      obtain ⟨-, q, there, back⟩ := chain_middle.1 rest
      obtain ⟨rfl, -⟩ := chain_cons.1 back
      have length := congrArg List.length (rest.unique back)
      simp only [List.length_append, List.length_cons] at length
      omega
    rw [parentLoop, load_bind here, if_neg other]
    exact ih rest (Nat.lt_of_succ_lt_succ turns)

theorem getBestHole_none (scan : minLoop size s.heap.keys.card s.vars none s = .ok (none, s)) :
    getBestHole size s = .ok (-1, s) := by
  rw [getBestHole, get_bind, bind_of_ok scan]
  rfl

section
variable {m q : Option ℕ}
  (scan : minLoop size s.heap.keys.card s.vars none s = .ok (some a, s))
  (above : parentLoop a s.heap.keys.card s.vars s = .ok (q, s))
  (here : s.heap.lookup a = some ⟨k, m⟩)
include scan above here

theorem getBestHole_cut (larger : k.size > size) :
    getBestHole size s = .ok (k.addr.toBitVec.toInt,
      ⟨s.heap.insert a ⟨{ k with addr := k.addr + size }, m⟩, s.vars⟩) := by
  rw [getBestHole, get_bind, bind_of_ok scan]
  change (parentLoop a _ _ >>= _) s = _
  rw [bind_of_ok above, load_bind here, if_neg fun exact => UInt32.ne_of_lt larger exact.symm,
    if_pos larger, store_bind here]
  rfl

theorem getBestHole_pop (exact : k.size = size) (first : q = none) (start : s.vars = some a) :
    getBestHole size s = .ok (k.addr.toBitVec.toInt, ⟨s.heap.erase a, m⟩) := by
  rw [first] at above
  rw [getBestHole, get_bind, bind_of_ok scan]
  change (parentLoop a _ _ >>= _) s = _
  rw [bind_of_ok above, load_bind here, if_pos exact, start]
  change (deref (some a) >>= _) s = _
  rw [deref_bind, load_bind here, assign_bind, free_bind (s := ⟨s.heap, m⟩) here]
  rfl

theorem getBestHole_unlink {d : ℕ} {w : Hole} (exact : k.size = size) (behind : q = some d)
    (there : s.heap.lookup d = some ⟨w, some a⟩) (other : d ≠ a) :
    getBestHole size s = .ok
      (k.addr.toBitVec.toInt, ⟨(s.heap.insert d ⟨w, m⟩).erase a, s.vars⟩) := by
  have after : (s.heap.insert d ⟨w, m⟩).lookup a = some ⟨k, m⟩ :=
    (Finmap.lookup_insert_of_ne _ other.symm).trans here
  rw [behind] at above
  rw [getBestHole, get_bind, bind_of_ok scan]
  change (parentLoop a _ _ >>= _) s = _
  rw [bind_of_ok above, load_bind here, if_pos exact]
  change (load d >>= _) s = _
  rw [load_bind there, deref_bind, load_bind here, store_bind there, load_bind after,
    free_bind after]
  rfl

end

/-- Best fit serves a request from the cell of the smallest hole that is large enough. -/
theorem getBestHole_run (size : UInt32) (held : Holds s l) :
    (minHole size (contents l) = none ∧ getBestHole size s = .ok (-1, s)) ∨
      ∃ b k t, l = b ++ k :: t ∧ minHole size (contents l) = some (k.2, b.length) ∧
        (∀ x ∈ b, x.2.size < size ∨ k.2.size < x.2.size) ∧
        (∀ x ∈ t, x.2.size < size ∨ k.2.size ≤ x.2.size) ∧
        Serves size (getBestHole size) s b k t := by
  have scan := minLoop_run size (b := []) held held held.length_le
  rw [List.nil_append] at scan
  cases found : minHole size (contents l) with
  | none =>
    rw [found] at scan
    exact .inl ⟨rfl, getBestHole_none scan⟩
  | some r =>
    obtain ⟨k, i⟩ := r
    obtain ⟨b, a, t, rfl, rfl, fits, before, behind⟩ := minHole_some found
    rw [found, place_middle] at scan
    obtain ⟨front, m, here, -⟩ := chain_middle.1 held
    refine .inr ⟨b, (a, k), t, rfl, rfl, before, behind, ?_⟩
    have turns := held.length_le
    rcases List.eq_nil_or_concat' b with rfl | ⟨c, ⟨d, w⟩, rfl⟩
    · have start := chain_nil.1 front
      have above := parentLoop_first held turns held.apart.2.1
      rcases choice_cases k.size size with exact | larger | small
      · exact serves_pop held here exact (getBestHole_pop scan above here exact rfl start)
      · exact serves_cut held here larger (getBestHole_cut scan above here larger)
      · exact absurd fits (UInt32.not_le.2 small)
    · have other : d ≠ a := fun eq => held.apart.1 (by simp [eq])
      rw [List.append_assoc, List.singleton_append] at held
      rw [List.length_append, List.length_append, List.length_cons] at turns
      have above := parentLoop_inside (n := s.heap.keys.card) held (by omega)
      obtain ⟨-, n, there, rest⟩ := chain_middle.1 held
      obtain ⟨rfl, -⟩ := chain_cons.1 rest
      rcases choice_cases k.size size with exact | larger | small
      · exact serves_unlink held here exact
          (getBestHole_unlink scan above here exact rfl there other)
      · rw [← List.singleton_append, ← List.append_assoc] at held
        exact serves_cut held here larger (getBestHole_cut scan above here larger)
      · exact absurd fits (UInt32.not_le.2 small)

end
end BrainMachine.HoleNodes
