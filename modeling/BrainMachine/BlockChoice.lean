import BrainMachine.HoleNodeSteps

set_option autoImplicit false

namespace BrainMachine.BlockChoice
open Computations LinkedCells HoleNodes
open HoleList (Hole minHole choice_whole choice_cut choice_cases)

def Refines (call : Exec Memory ℤ) (s : Memory) (r : ℤ × List Hole) : Prop :=
  ∃ u l, call s = .ok (r.1, u) ∧ Holds u l ∧ contents l = r.2

section
variable {size loc : UInt32} {s : Memory} {l : List (ℕ × Hole)} {a : ℕ}

theorem contents_append (l t : List (ℕ × Hole)) : contents (l ++ t) = contents l ++ contents t :=
  List.map_append

theorem contents_left (k : ℕ × Hole) : contents (left size k) =
    if k.2.size = size then [] else [{ k.2 with addr := k.2.addr + size }] := by
  rw [left]
  split <;> rfl

theorem getFirstHole_small {holes : List Hole} (small : ∀ x ∈ holes, x.size < size) :
    HoleList.getFirstHole size holes = (-1, holes) := by
  rcases HoleAccounting.getFirstHole_serves size holes with ⟨-, call⟩ | ⟨b, k, t, -, found, -⟩
  · exact call
  · obtain ⟨mem, fits⟩ := HoleList.chosen_some found
    exact absurd fits (UInt32.not_le.2 (small k mem))

theorem getFirstHole_middle {b t : List (ℕ × Hole)} {k : ℕ × Hole}
    (before : ∀ x ∈ b, x.2.size < size) (fits : size ≤ k.2.size) :
    HoleList.getFirstHole size (contents (b ++ k :: t)) =
      (k.2.addr.toBitVec.toInt, contents (b ++ (left size k ++ t))) := by
  induction b with
  | nil =>
    rw [List.nil_append, List.nil_append, contents_append, contents_left]
    change HoleList.getFirstHole size (k.2 :: contents t) = _
    rw [HoleList.getFirstHole, HoleList.firstHole]
    rcases choice_cases k.2.size size with exact | larger | small
    · rw [choice_whole exact, if_pos exact]
      rfl
    · rw [choice_cut larger, if_neg (UInt32.ne_of_lt larger).symm]
      rfl
    · exact absurd fits (UInt32.not_le.2 small)
  | cons x b ih =>
    have small : ¬size ≤ x.2.size := UInt32.not_le.2 (before x List.mem_cons_self)
    change HoleList.getFirstHole size (x.2 :: contents (b ++ k :: t)) = _
    rw [HoleAccounting.getFirstHole_skip small, ih fun y hy => before y (List.mem_cons_of_mem _ hy)]
    rfl

theorem getBestHole_middle {b t : List (ℕ × Hole)} {k : ℕ × Hole} (fits : size ≤ k.2.size)
    (found : minHole size (contents (b ++ k :: t)) = some (k.2, b.length)) :
    HoleList.getBestHole size (contents (b ++ k :: t)) =
      (k.2.addr.toBitVec.toInt, contents (b ++ (left size k ++ t))) := by
  have length : b.length = (contents b).length := (List.length_map _).symm
  rw [HoleAccounting.getBestHole_some found, contents_append, contents_append, contents_append,
    contents_left, length]
  rcases choice_cases k.2.size size with exact | larger | small
  · rw [choice_whole exact, if_pos exact, List.eraseIdx_append_of_length_le (Nat.le_refl _),
      Nat.sub_self]
    rfl
  · rw [choice_cut larger, if_neg (UInt32.ne_of_lt larger).symm,
      List.set_append_right _ _ (Nat.le_refl _), Nat.sub_self]
    rfl
  · exact absurd fits (UInt32.not_le.2 small)

theorem getFirstHole_refines (held : Holds s l) :
    Refines (getFirstHole size) s (HoleList.getFirstHole size (contents l)) := by
  rcases getFirstHole_run size held with ⟨all, run⟩ | ⟨b, k, t, rfl, before, fits, u, run, rest⟩
  · have small : ∀ x ∈ contents l, x.size < size := List.forall_mem_map.2 all
    rw [getFirstHole_small small]
    exact ⟨s, l, run, held, rfl⟩
  · rw [getFirstHole_middle before fits]
    exact ⟨u, _, run, rest, rfl⟩

theorem getBestHole_refines (held : Holds s l) :
    Refines (getBestHole size) s (HoleList.getBestHole size (contents l)) := by
  rcases getBestHole_run size held with
    ⟨none, run⟩ | ⟨b, k, t, rfl, found, -, -, fits, u, run, rest⟩
  · rw [HoleList.getBestHole, none]
    exact ⟨s, l, run, held, rfl⟩
  · rw [getBestHole_middle fits found]
    exact ⟨u, _, run, rest, rfl⟩

theorem addHole_passed {b t : List (ℕ × Hole)} (before : ∀ x ∈ b, x.2.addr < loc)
    (behind : ∀ x ∈ t.head?, loc ≤ x.2.addr) (a : ℕ) :
    HoleList.addHole loc size (contents (b ++ t)) =
      contents (b ++ (a, ⟨loc, size⟩) :: t) := by
  induction b with
  | nil =>
    cases t with
    | nil => rfl
    | cons x t => exact if_pos (behind x rfl)
  | cons x b ih =>
    have passed : ¬x.2.addr ≥ loc := UInt32.not_le.2 (before x List.mem_cons_self)
    change HoleList.addHole loc size (x.2 :: contents (b ++ t)) = _
    rw [HoleList.addHole, if_neg passed, ih fun y hy => before y (List.mem_cons_of_mem _ hy)]
    rfl

theorem addHole_failed (held : Holds s l) : addHole none loc size s = .ok (1, s) := by
  cases l with
  | nil =>
    rw [addHole, get_bind, chain_nil.1 held]
    rfl
  | cons x t =>
    obtain ⟨p, v⟩ := x
    obtain ⟨start, m, here, -⟩ := chain_cons.1 held
    rw [Holds, start] at held
    obtain ⟨b, r, c, d, w, -, -, walk, -⟩ :=
      seek_run (fun h : Hole => !decide (h.addr < loc)) held held.length_le
    rw [addHole, get_bind, start]
    change (load p >>= _) s = _
    rw [load_bind here]
    split
    · rfl
    · rw [bind_of_ok walk]
      rfl

theorem addHole_refines (held : Holds s l) (fresh : a ∉ s.heap) :
    Refines (addHole (some a) loc size) s (0, HoleList.addHole loc size (contents l)) := by
  cases l with
  | nil =>
    have start := chain_nil.1 held
    refine ⟨⟨s.heap.insert a ⟨⟨loc, size⟩, none⟩, some a⟩, [(a, ⟨loc, size⟩)], ?_, ?_, rfl⟩
    · rw [addHole, get_bind, start]
      rfl
    · exact (Chain.nil none).push fresh _
  | cons x t =>
    obtain ⟨p, v⟩ := x
    obtain ⟨start, m, here, -⟩ := chain_cons.1 held
    rw [Holds, start] at held
    by_cases front : v.addr ≥ loc
    · refine ⟨⟨s.heap.insert a ⟨⟨loc, size⟩, some p⟩, some a⟩, (a, ⟨loc, size⟩) :: (p, v) :: t,
        ?_, held.push fresh _, (if_pos front).symm⟩
      rw [addHole, get_bind, start]
      change (load p >>= _) s = _
      rw [load_bind here, if_pos front]
      rfl
    · obtain ⟨b, r, c, d, w, rfl, split, walk, passed, stopped⟩ :=
        seek_run (fun h : Hole => !decide (h.addr < loc)) held held.length_le
      have before : ∀ x ∈ (p, v) :: b, x.2.addr < loc := by
        intro x hx
        rcases List.mem_cons.1 hx with rfl | hx
        · exact UInt32.not_le.1 front
        · simpa using passed x hx
      have behind : ∀ x ∈ r.head?, loc ≤ x.2.addr := by
        intro x hx
        simpa using stopped x hx
      have regroup (t : List (ℕ × Hole)) : (p, v) :: b ++ t = c ++ (d, w) :: t := by
        rw [split, List.append_assoc, List.singleton_append]
      rw [← List.cons_append, regroup] at held
      obtain ⟨-, n, there, -⟩ := chain_middle.1 held
      have kept : (s.heap.insert a ⟨⟨loc, size⟩, n⟩).lookup d = some ⟨w, n⟩ := by
        rw [Finmap.lookup_insert_of_ne _ fun eq => fresh ?_, there]
        exact eq ▸ Finmap.mem_of_lookup_eq_some there
      refine ⟨⟨(s.heap.insert a ⟨⟨loc, size⟩, n⟩).insert d ⟨w, some a⟩, s.vars⟩,
        (p, v) :: b ++ (a, ⟨loc, size⟩) :: r, ?_, ?_, ?_⟩
      · rw [addHole, get_bind, start]
        change (load p >>= _) s = _
        rw [load_bind here, if_neg front, bind_of_ok walk]
        change (load d >>= _) s = _
        rw [load_bind there, alloc_bind, store_bind kept, start]
        rfl
      · rw [Holds, regroup, start]
        exact held.link there fresh _
      · rw [← List.cons_append]
        exact (addHole_passed before behind a).symm

end

inductive Call where
  | add (loc size : UInt32)
  | first (size : UInt32)
  | best (size : UInt32)

def Call.run (a : ℕ) : Call → Exec Memory ℤ
  | .add loc size => addHole (some a) loc size
  | .first size => getFirstHole size
  | .best size => getBestHole size

def Call.apply (holes : List Hole) : Call → ℤ × List Hole
  | .add loc size => (0, HoleList.addHole loc size holes)
  | .first size => HoleList.getFirstHole size holes
  | .best size => HoleList.getBestHole size holes

theorem Call.refines {s : Memory} {l : List (ℕ × Hole)} {a : ℕ} (held : Holds s l)
    (fresh : a ∉ s.heap) (c : Call) : Refines (c.run a) s (c.apply (contents l)) := by
  cases c with
  | add loc size => exact addHole_refines held fresh
  | first size => exact getFirstHole_refines held
  | best size => exact getBestHole_refines held

inductive Reached : List Call → Memory → Prop
  | start (h : Heap Hole) : Reached [] ⟨h, none⟩
  | next {cs : List Call} {s u : Memory} {a : ℕ} {r : ℤ} (before : Reached cs s) (c : Call)
      (fresh : a ∉ s.heap) (run : c.run a s = .ok (r, u)) : Reached (cs ++ [c]) u

/-- After any calls the cells hold the list that the functions on lists lead to. -/
theorem reached_holds {cs : List Call} {s : Memory} (reached : Reached cs s) :
    ∃ l, Holds s l ∧ contents l = cs.foldl (fun holes c => (c.apply holes).2) [] := by
  induction reached with
  | start h => exact ⟨[], .nil none, rfl⟩
  | next before c fresh run ih =>
    obtain ⟨l, held, same⟩ := ih
    obtain ⟨v, t, run', held', same'⟩ := c.refines held fresh
    obtain ⟨-, rfl⟩ := Prod.mk.inj (Except.ok.inj (run'.symm.trans run))
    refine ⟨t, held', ?_⟩
    rw [same', same, List.foldl_append]
    rfl

/-- The request is served at the address of `k`, and the holes around it stay as they are. -/
structure Takes (size : UInt32) (l b : List (ℕ × Hole)) (k : ℕ × Hole) (t : List (ℕ × Hole))
    (r : ℤ) (u : Memory) : Prop where
  split : l = b ++ k :: t
  fits : size ≤ k.2.size
  addr : r = k.2.addr.toNat
  rest : Holds u (b ++ (left size k ++ t))

theorem toInt_low {a : UInt32} (low : a < 2147483648) : a.toBitVec.toInt = a.toNat := by
  have lt : a.toNat < 2147483648 := UInt32.lt_iff_toNat_lt.1 low
  have val : a.toBitVec.toNat = a.toNat := rfl
  rw [BitVec.toInt_eq_toNat_cond, if_pos (by omega), val]

theorem served_address {a : UInt32} (low : a < 2147483648) : a.toBitVec.toInt ≠ -1 := by
  rw [toInt_low low]
  omega

/-- First fit and best fit refuse the same requests, those that no hole is large enough for,
and leave the list alone then. Otherwise first fit takes the first hole that is large enough
and best fit the smallest one, of several the first. -/
theorem first_and_best_fit (size : UInt32) (s : Memory) (l : List (ℕ × Hole)) (held : Holds s l)
    (low : ∀ x ∈ l, x.2.addr < 2147483648) :
    ∃ f u g v, getFirstHole size s = .ok (f, u) ∧ getBestHole size s = .ok (g, v) ∧
      (f = -1 ↔ g = -1) ∧ (f = -1 ↔ ∀ x ∈ l, x.2.size < size) ∧ (f = -1 → u = s ∧ v = s) ∧
      (f ≠ -1 →
        (∃ b k t, Takes size l b k t f u ∧ ∀ x ∈ b, x.2.size < size) ∧
        ∃ b k t, Takes size l b k t g v ∧
          (∀ x ∈ b, x.2.size < size ∨ k.2.size < x.2.size) ∧
          ∀ x ∈ t, x.2.size < size ∨ k.2.size ≤ x.2.size) := by
  rcases getFirstHole_run size held with ⟨all, run⟩ | ⟨b, k, t, split, before, serves⟩
  · rcases getBestHole_run size held with ⟨-, run'⟩ | ⟨b, k, t, rfl, -, -, -, serves⟩
    · exact ⟨-1, s, -1, s, run, run', Iff.rfl, iff_of_true rfl all, fun _ => ⟨rfl, rfl⟩,
        fun served => absurd rfl served⟩
    · exact absurd serves.fits (UInt32.not_le.2 (all k (by simp)))
  · have mem : k ∈ l := by simp [split]
    have fits : ¬∀ x ∈ l, x.2.size < size := fun all => UInt32.not_le.2 (all k mem) serves.fits
    rcases getBestHole_run size held with
      ⟨none, -⟩ | ⟨b', k', t', split', -, smaller, least, serves'⟩
    · exact absurd (minHole_none none) fits
    · have mem' : k' ∈ l := by simp [split']
      have served := served_address (low k mem)
      have served' := served_address (low k' mem')
      obtain ⟨u, run, rest⟩ := serves.runs
      obtain ⟨v, run', rest'⟩ := serves'.runs
      refine ⟨_, u, _, v, run, run', iff_of_false served served', iff_of_false served fits,
        fun refused => absurd refused served, fun _ => ⟨⟨b, k, t, ?_, before⟩,
          b', k', t', ?_, smaller, least⟩⟩
      · exact ⟨split, serves.fits, toInt_low (low k mem), rest⟩
      · exact ⟨split', serves'.fits, toInt_low (low k' mem'), rest'⟩

/-- Four words from holes of three, nine and five words. -/
theorem first_and_best_fit_three :
    ∃ s f u g v, getFirstHole 4 s = .ok (f, u) ∧ getBestHole 4 s = .ok (g, v) ∧
      f ≠ -1 ∧ g ≠ -1 := by
  let h : Heap Hole := ((∅ : Heap Hole).insert 2 ⟨⟨20, 5⟩, none⟩).insert 1 ⟨⟨10, 9⟩, some 2⟩
  let s : Memory := ⟨h.insert 0 ⟨⟨0, 3⟩, some 1⟩, some 0⟩
  have held : Holds s [(0, ⟨0, 3⟩), (1, ⟨10, 9⟩), (2, ⟨20, 5⟩)] :=
    .cons (by decide) (.cons (by decide) (.cons (by decide) (.nil none)))
  obtain ⟨f, u, g, v, run, run', same, refused, -⟩ :=
    first_and_best_fit 4 s _ held (by decide)
  have served : f ≠ -1 := fun h => absurd (refused.1 h) (by decide)
  exact ⟨s, f, u, g, v, run, run', served, mt same.2 served⟩

end BrainMachine.BlockChoice
