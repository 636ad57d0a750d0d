import Mathlib.Data.List.Nodup
import Mathlib.Data.Nat.Log
import Mathlib.Tactic.Ring

set_option autoImplicit false

namespace BrainMachine.ColoredTrees

inductive Side where
  | left
  | right
  deriving DecidableEq, Repr

def Side.other : Side → Side
  | .left => .right
  | .right => .left

def Side.pick {β : Type} : Side → β → β → β
  | .left, x, _ => x
  | .right, _, y => y

inductive ColorTree (α : Type) where
  | leaf
  | node (l : ColorTree α) (a : α) (red : Bool) (r : ColorTree α)
  deriving DecidableEq, Repr

structure Frame (α : Type) where
  side : Side
  label : α
  red : Bool
  sibling : ColorTree α
  deriving DecidableEq, Repr

abbrev Path (α : Type) := List (Frame α)

section
variable {α β : Type}

def Side.node (d : Side) (t : ColorTree α) (a : α) (red : Bool) (s : ColorTree α) : ColorTree α :=
  match d with
  | .left => .node t a red s
  | .right => .node s a red t

namespace ColorTree

def toList : ColorTree α → List α
  | leaf => []
  | node l a _ r => l.toList ++ a :: r.toList

def isRed : ColorTree α → Bool
  | leaf => false
  | node _ _ red _ => red

def paint (red : Bool) : ColorTree α → ColorTree α
  | leaf => leaf
  | node l a _ r => node l a red r

def map (f : α → β) : ColorTree α → ColorTree β
  | leaf => leaf
  | node l a red r => node (l.map f) (f a) red (r.map f)

def height : ColorTree α → ℕ
  | leaf => 0
  | node l _ _ r => max l.height r.height + 1

end ColorTree
open ColorTree

def fill : Path α → ColorTree α → ColorTree α
  | [], t => t
  | f :: k, t => fill k (f.side.node t f.label f.red f.sibling)

def before : Path α → List α
  | [] => []
  | ⟨.left, _, _, _⟩ :: k => before k
  | ⟨.right, a, _, s⟩ :: k => before k ++ (s.toList ++ [a])

def after : Path α → List α
  | [] => []
  | ⟨.left, a, _, s⟩ :: k => a :: s.toList ++ after k
  | ⟨.right, _, _, _⟩ :: k => after k

variable {t s x : ColorTree α} {a p : α} {c e : Bool} {k : Path α} {d : Side} {n m : ℕ}

@[simp] theorem toList_leaf : (leaf : ColorTree α).toList = [] := rfl

@[simp] theorem toList_node (l r : ColorTree α) :
    (node l a c r).toList = l.toList ++ a :: r.toList := rfl

@[simp] theorem paint_toList : (t.paint c).toList = t.toList := by cases t <;> rfl

@[simp] theorem paint_isRed_false : (t.paint false).isRed = false := by cases t <;> rfl

theorem paint_self (black : t.isRed = false) : t.paint false = t := by
  cases t with
  | leaf => rfl
  | node l a c r => rw [show c = false from black]; rfl

@[simp] theorem map_toList (f : α → β) : (t.map f).toList = t.toList.map f := by
  induction t with
  | leaf => rfl
  | node l a c r ihl ihr => simp [ColorTree.map, ihl, ihr]

theorem fill_toList : (fill k t).toList = before k ++ t.toList ++ after k := by
  induction k generalizing t with
  | nil => simp [fill, before, after]
  | cons f k ih =>
    obtain ⟨side, a, c, s⟩ := f
    cases side <;> simp [fill, before, after, Side.node, ih]

theorem side_cases (d : Side) (l r : ColorTree α) :
    node l a c r = d.node (d.pick l r) a c (d.pick r l) := by
  cases d <;> rfl

theorem other_node (d : Side) : d.other.node t a c s = d.node s a c t := by
  cases d <;> rfl

@[simp] theorem side_isRed : (d.node t a c s).isRed = c := by cases d <;> rfl

@[simp] theorem side_paint : (d.node t a c s).paint e = d.node t a e s := by cases d <;> rfl

theorem rotate_toList {q : α} {b u v : Bool} {y : ColorTree α} :
    (d.node (d.node x p b y) q u t).toList = (d.node x p c (d.node y q v t)).toList := by
  cases d <;> simp [Side.node]

end

section
variable {α β : Type} {t s l r x w : ColorTree α} {a p : α} {c e : Bool} {k : Path α} {d : Side}
  {n m : ℕ}
open ColorTree

/-- The colour of the root and the number of black nodes on every way down. No child of a red
node is red. -/
inductive Balanced : ColorTree α → Bool → ℕ → Prop
  | leaf : Balanced leaf false 0
  | red {l r : ColorTree α} {a : α} {n : ℕ} : Balanced l false n → Balanced r false n →
      Balanced (node l a true r) true n
  | black {l r : ColorTree α} {a : α} {c e : Bool} {n : ℕ} : Balanced l c n → Balanced r e n →
      Balanced (node l a false r) false (n + 1)

/-- A balanced tree results from a subtree of height `n` that is black, or of any colour when
the flag says so. -/
inductive Fits : Path α → Bool → ℕ → Prop
  | top (n : ℕ) : Fits [] false n
  | red {d : Side} {a : α} {s : ColorTree α} {k : Path α} {n : ℕ} : Balanced s false n →
      Fits k true n → Fits (⟨d, a, true, s⟩ :: k) false n
  | black {d : Side} {a : α} {s : ColorTree α} {k : Path α} {c e : Bool} {n : ℕ} : Balanced s e n →
      Fits k false (n + 1) → Fits (⟨d, a, false, s⟩ :: k) c n

theorem Balanced.isRed (h : Balanced t c n) : t.isRed = c := by cases h <;> rfl

theorem Balanced.ne_leaf (h : Balanced t c (n + 1)) : t ≠ ColorTree.leaf := by
  rintro rfl
  cases h

theorem Balanced.of_black (h : Balanced t c n) (black : t.isRed = false) : Balanced t false n :=
  h.isRed.symm.trans black ▸ h

theorem Balanced.redSide (h : Balanced t false n) (k : Balanced s false n) :
    Balanced (d.node t a true s) true n := by
  cases d
  · exact .red h k
  · exact .red k h

theorem Balanced.blackSide (h : Balanced t c n) (k : Balanced s e n) :
    Balanced (d.node t a false s) false (n + 1) := by
  cases d
  · exact .black h k
  · exact .black k h

theorem Balanced.side (h : Balanced t false n) (k : Balanced s false n) :
    Balanced (d.node t a c s) c (n + (!c).toNat) := by
  cases c with
  | false => exact h.blackSide k
  | true => exact h.redSide k

theorem Balanced.of_redSide (h : Balanced (d.node t a true s) c n) :
    c = true ∧ Balanced t false n ∧ Balanced s false n := by
  cases d
  · cases h with | red h k => exact ⟨rfl, h, k⟩
  · cases h with | red h k => exact ⟨rfl, k, h⟩

theorem Balanced.of_blackSide (h : Balanced (d.node t a false s) c n) :
    c = false ∧ ∃ m u v, n = m + 1 ∧ Balanced t u m ∧ Balanced s v m := by
  cases d
  · cases h with | black h k => exact ⟨rfl, _, _, _, rfl, h, k⟩
  · cases h with | black h k => exact ⟨rfl, _, _, _, rfl, k, h⟩

theorem Balanced.blacken (h : Balanced t true n) : Balanced (t.paint false) false (n + 1) := by
  cases h with | red h k => exact .black h k

theorem Balanced.paint (h : Balanced t c n) : ∃ m, Balanced (t.paint false) false m := by
  cases c with
  | false => exact ⟨n, (paint_self h.isRed).symm ▸ h⟩
  | true => exact ⟨n + 1, h.blacken⟩

theorem Balanced.map (f : α → β) (h : Balanced t c n) : Balanced (t.map f) c n := by
  induction h with
  | leaf => exact .leaf
  | red _ _ ihl ihr => exact .red ihl ihr
  | black _ _ ihl ihr => exact .black ihl ihr

theorem Fits.mono (h : Fits k c n) : Fits k false n := by
  cases h with
  | top => exact .top n
  | red hs h => exact .red hs h
  | black hs h => exact .black hs h

theorem Fits.fill (h : Fits k c n) (ht : Balanced t c n) :
    ∃ m, Balanced (fill k t) false m := by
  induction h generalizing t with
  | top n => exact ⟨n, ht⟩
  | red hs _ ih => exact ih (ht.redSide hs)
  | black hs _ ih => exact ih (ht.blackSide hs)

theorem Fits.of_fill (h : Balanced (ColoredTrees.fill k t) false m) :
    ∃ c n, Balanced t c n ∧ Fits k c n := by
  induction k generalizing t with
  | nil => exact ⟨false, m, h, .top m⟩
  | cons f k ih =>
    obtain ⟨d, a, b, s⟩ := f
    obtain ⟨c, n, bal, fits⟩ := ih h
    cases b with
    | true =>
      obtain ⟨rfl, ht, hs⟩ := bal.of_redSide
      exact ⟨false, n, ht, .red hs fits⟩
    | false =>
      obtain ⟨rfl, m, u, v, rfl, ht, hs⟩ := bal.of_blackSide
      exact ⟨u, m, ht, .black hs fits⟩

theorem Fits.last {f : Frame α} (h : Fits (k ++ [f]) c n) : f.red = false := by
  induction k generalizing c n with
  | nil =>
    cases h with
    | red _ h => cases h
    | black _ _ => rfl
  | cons g k ih =>
    cases h with
    | red _ h => exact ih h
    | black _ h => exact ih h

/-- A tree with `n` black nodes on every way down has at least `2 ^ n - 1` labels, and no way
down has more than `2 * n` nodes. -/
theorem Balanced.size (h : Balanced t c n) : 2 ^ n ≤ t.toList.length + 1 := by
  induction h with
  | leaf => exact Nat.le_refl 1
  | red _ _ ihl ihr =>
    simp
    omega
  | black _ _ ihl ihr =>
    rw [Nat.pow_succ]
    simp
    omega

theorem Balanced.height (h : Balanced t c n) : t.height ≤ 2 * n + c.toNat := by
  induction h with
  | leaf => exact Nat.le_refl 0
  | red _ _ ihl ihr =>
    simp only [ColorTree.height, Bool.toNat_false, Bool.toNat_true] at *
    omega
  | @black _ _ _ c e _ _ _ ihl ihr =>
    have hc := Bool.toNat_le c
    have he := Bool.toNat_le e
    simp only [ColorTree.height, Bool.toNat_false] at *
    omega

theorem Balanced.height_le_log (h : Balanced t false n) :
    t.height ≤ 2 * Nat.log 2 (t.toList.length + 1) := by
  have low : n ≤ Nat.log 2 (t.toList.length + 1) := Nat.le_log_of_pow_le (by omega) h.size
  have high := h.height
  rw [Bool.toNat_false] at high
  omega

end
end BrainMachine.ColoredTrees
