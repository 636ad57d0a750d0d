import BrainMachine.TreeNodeSteps
import BrainMachine.TreeMaps

set_option autoImplicit false

namespace BrainMachine.TreeDeletion
open Computations ColoredTrees ColorTree TreeRepairs TreeMaps TreeNodes TreeNodeSteps

section
variable {ι β : Type} {s w : Memory ι} {c e v : Bool} {d : Side} {a b p : ℕ × ι} {root : ℕ}
  {l r t u x y z : ColorTree (ℕ × ι)} {k : Path (ℕ × ι)} {n m : ℕ}

structure At (s : Memory ι) (k : Path (ℕ × ι)) (x : ColorTree (ℕ × ι)) : Prop
    extends Shows s k x where
  up : ∃ cell, s.heap.lookup (ptr s.nil x) = some cell ∧ cell.parent = top s.root k

theorem At.of_node (h : Shows s k (d.node l a c r)) : At s k (d.node l a c r) :=
  ⟨h, _, ptr_side.symm ▸ h.here, rfl⟩

theorem At.parent_bind (h : At s (⟨d, p, c, z⟩ :: k) x) (f : ℕ → Exec (Memory ι) β) :
    (parent (ptr s.nil x) >>= f) s = f p.1 s := by
  obtain ⟨cell, here, eq⟩ := h.up
  rw [TreeNodeSteps.parent_bind here, eq, top]

theorem At.parent_ok (h : At s (⟨d, p, c, z⟩ :: k) x) :
    parent (ptr s.nil x) s = .ok (p.1, s) := by
  rw [← bind_pure (parent (ptr s.nil x))]
  exact h.parent_bind pure

theorem At.step {d' : Side} {c' : Bool} {k' : Path (ℕ × ι)} {z' : ColorTree (ℕ × ι)}
    (h : At s (⟨d, p, c, z⟩ :: k) x) (keeps : Keeps (fill (⟨d, p, c, z⟩ :: k) x).toList s w)
    (shows : Shows w (⟨d', p, c', z'⟩ :: k') x) : At w (⟨d', p, c', z'⟩ :: k') x := by
  refine ⟨shows, ?_⟩
  cases x with
  | leaf =>
    obtain ⟨cell, here, eq⟩ := h.up
    refine ⟨cell, ?_, eq⟩
    rw [ptr_leaf, keeps.nil]
    exact (keeps.rest _ h.apart.distinct fun b hb => (h.apart.inside b hb).1).trans here
  | node l b e y => exact ⟨_, shows.here (d := .left), rfl⟩

/-- The parent gets the sibling above it, which has a red child on the far side. -/
theorem deleteFinish_run (root : ℕ) (h : At s (⟨d, p, c, d.node l b e r⟩ :: k) x)
    (node : r ≠ leaf) : ∃ w, deleteFinish root d (ptr s.nil x) b.1 s = .ok (root, w) ∧
      Shows w k (d.node (d.node x p false l) b c (r.paint false)) ∧
      Keeps (fill (⟨d, p, c, d.node l b e r⟩ :: k) x).toList s w := by
  obtain ⟨w₁, run₁, h₁, keeps₁⟩ := setRed_run (shows_other.1 h.toShows) c
  have a₁ : At w₁ (⟨d, p, c, _⟩ :: k) x := h.step (keeps₁.mono fun q => by
    simp only [mem_fill, mem_around, mem_side]; tauto) (shows_other.2 h₁)
  obtain ⟨w₂, run₂, h₂, keeps₂⟩ := setRed_run (shows_up.1 a₁.toShows) false
  have a₂ : At w₂ (⟨d, p, false, _⟩ :: k) x := a₁.step keeps₂ (shows_up.2 h₂)
  have side₂ := shows_other.1 a₂.toShows
  obtain ⟨w₃, run₃, h₃, keeps₃⟩ := paint_run (shows_other.1 (shows_up.2 side₂)) node false
  have h₃ : Shows w₃ (⟨d, p, false, d.node l b c (r.paint false)⟩ :: k) x :=
    shows_other.2 (shows_up.1 (shows_other.2 h₃))
  have a₃ := a₂.step (keeps₃.mono fun q => by
    simp only [mem_fill, mem_around, mem_side]; tauto) h₃
  obtain ⟨w₄, run₄, h₄, keeps₄⟩ := rotate_run (shows_up.1 a₃.toShows)
  refine ⟨w₄, ?_, h₄, (((keeps₁.mono ?_).trans (keeps₂.mono ?_)).trans (keeps₃.mono ?_)).trans
    (keeps₄.mono ?_)⟩
  · have none₁ := keeps₁.nil
    have none₂ := keeps₂.nil.trans none₁
    have none₃ := keeps₃.nil.trans none₂
    have up₁ := a₁.parent_bind (β := ℕ)
    have up₃ := a₃.parent_bind (β := ℕ)
    rw [none₁] at up₁
    rw [none₃] at up₃
    rw [deleteFinish, h.parent_bind, (shows_up.1 h.toShows).colour_bind, bind_of_ok run₁, up₁,
      bind_of_ok run₂, side₂.other_bind, bind_of_ok run₃, up₃, bind_of_ok run₄]
    rfl
  all_goals
    intro q
    simp only [mem_fill, mem_around, mem_side, paint_toList]
    tauto

theorem black_bind (h : Shows s k (d.node l a c r)) (f g : Exec (Memory ι) β) :
    (do if !(← red (← right a.1)) && !(← red (← left a.1)) then f else g : Exec (Memory ι) β) s =
      (if !l.isRed && !r.isRed then f else g) s := by
  have hl := (shows_up.2 h).red_bind (β := β)
  have hr := (shows_other.1 (shows_up.2 h)).red_bind (β := β)
  cases d with
  | left => rw [Shows.right_bind h, hr, Shows.left_bind h, hl, Bool.and_comm]
  | right => rw [Shows.right_bind h, hl, Shows.left_bind h, hr]

/-- The sibling is black: its colours, or those below it, are changed. -/
theorem deleteSettle_run (root : ℕ) (h : At s (⟨d, p, c, z⟩ :: k) x) (node : z ≠ leaf) :
    ∃ w, deleteSettle root d (ptr s.nil x) (ptr s.nil z) s =
        .ok (if (settle d x p c z).2 then p.1 else root, w) ∧
      Shows w k (settle d x p c z).1 ∧ Keeps (fill (⟨d, p, c, z⟩ :: k) x).toList s w ∧
      ((settle d x p c z).2 = false →
        ∃ cell, w.heap.lookup p.1 = some cell ∧ cell.red = false) := by
  cases z with
  | leaf => exact absurd rfl node
  | node l b e r =>
    rw [side_cases d l r] at h ⊢
    generalize d.pick l r = l', d.pick r l = r' at h ⊢
    have hw := shows_other.1 h.toShows
    have hr := shows_other.1 (shows_up.2 hw)
    rw [ptr_side, deleteSettle, black_bind hw]
    cases far : r'.isRed with
    | true =>
      have node : r' ≠ leaf := fun eq => by simp [eq, isRed] at far
      obtain ⟨w, run, shows, keeps⟩ := deleteFinish_run root h node
      rw [settle_far far]
      refine ⟨w, ?_, shows, keeps, fun _ => ⟨_, (shows_up.2 shows).here, rfl⟩⟩
      simp only [Bool.not_true, Bool.and_false, Bool.false_eq_true, if_false]
      rw [hw.other_bind, hr.red_bind, far]
      exact run
    | false =>
      cases near : l'.isRed with
      | true =>
        obtain ⟨u, v, y, rfl⟩ := red_cases d near
        rw [settle_near far]
        obtain ⟨w₁, run₁, h₁, keeps₁⟩ := setRed_run (shows_up.2 hw) false
        obtain ⟨w₂, run₂, h₂, keeps₂⟩ := setRed_run (shows_up.1 h₁) true
        have turn : Shows w₂ (⟨d.other, p, c, x⟩ :: k)
            (d.other.node r' b true (d.other.node y v false u)) := by
          rwa [other_node, other_node]
        obtain ⟨w₃, run₃, h₃, keeps₃⟩ := rotate_run turn
        rw [other_node, other_node] at h₃
        have keeps : Keeps
            (fill (⟨d, p, c, d.node (d.node u v true y) b e r'⟩ :: k) x).toList s w₃ :=
          ((keeps₁.mono ?_).trans (keeps₂.mono ?_)).trans (keeps₃.mono ?_)
        · have a₃ := h.step keeps (shows_other.2 h₃)
          obtain ⟨w₄, run₄, h₄, keeps₄⟩ := deleteFinish_run root a₃
            (by cases d <;> simp [Side.node])
          rw [side_paint] at h₄
          refine ⟨w₄, ?_, h₄, keeps.trans (keeps₄.mono ?_), fun _ => ⟨_, (shows_up.2 h₄).here, rfl⟩⟩
          · have up₃ := a₃.parent_bind (β := ℕ)
            rw [keeps.nil] at up₃ run₄
            simp only [Bool.not_true, Bool.false_and, Bool.false_eq_true, if_false]
            rw [hw.other_bind, hr.red_bind, far]
            simp only [Bool.not_false, if_true]
            rw [hw.child_bind, ptr_side, bind_of_ok run₁, bind_of_ok run₂, bind_of_ok run₃, up₃,
              (shows_up.1 a₃.toShows).other_bind, ptr_side]
            exact run₄
          · intro q
            simp only [mem_fill, mem_around, mem_side]
            tauto
        all_goals
          intro q
          simp only [mem_fill, mem_around, mem_side]
          tauto
      | false =>
        rw [settle_black near far]
        obtain ⟨w, run, shows, keeps⟩ := setRed_run hw true
        have keeps : Keeps (fill (⟨d, p, c, d.node l' b e r'⟩ :: k) x).toList s w := keeps.mono ?_
        · have a := h.step keeps (shows_other.2 shows)
          refine ⟨w, ?_, shows_up.1 a.toShows, keeps, fun short => Bool.noConfusion short⟩
          have up := a.parent_ok
          rw [keeps.nil] at up
          simp only [Bool.not_false, Bool.and_true, if_true]
          rw [bind_of_ok run, up]
        · intro q
          simp only [mem_fill, mem_around, mem_side]
          tauto

theorem deleteTurn_black (root : ℕ) (h : At s (⟨d, p, c, z⟩ :: k) x) (black : z.isRed = false) :
    deleteTurn root d (ptr s.nil x) s = deleteSettle root d (ptr s.nil x) (ptr s.nil z) s := by
  rw [deleteTurn, h.parent_bind, (shows_up.1 h.toShows).other_bind,
    (shows_other.1 h.toShows).red_bind, black]
  rfl

/-- A red sibling goes above the parent first, so that the place has a black sibling. -/
theorem deleteTurn_red (root : ℕ) (h : At s (⟨d, p, c, d.node l a true r⟩ :: k) x)
    (node : l ≠ leaf) : ∃ w, deleteTurn root d (ptr s.nil x) s =
        .ok (if (settle d x p true l).2 then p.1 else root, w) ∧
      Shows w (⟨d, a, false, r⟩ :: k) (settle d x p true l).1 ∧
      Keeps (fill (⟨d, p, c, d.node l a true r⟩ :: k) x).toList s w ∧
      ((settle d x p true l).2 = false →
        ∃ cell, w.heap.lookup p.1 = some cell ∧ cell.red = false) := by
  have hw := shows_other.1 h.toShows
  obtain ⟨w₁, run₁, h₁, keeps₁⟩ := setRed_run hw false
  have a₁ : At w₁ (⟨d, p, c, _⟩ :: k) x := h.step (keeps₁.mono fun q => by
    simp only [mem_fill, mem_around, mem_side]; tauto) (shows_other.2 h₁)
  obtain ⟨w₂, run₂, h₂, keeps₂⟩ := setRed_run (shows_up.1 a₁.toShows) true
  have a₂ : At w₂ (⟨d, p, true, _⟩ :: k) x := a₁.step keeps₂ (shows_up.2 h₂)
  obtain ⟨w₃, run₃, h₃, keeps₃⟩ := rotate_run h₂
  have a₃ : At w₃ (⟨d, p, true, l⟩ :: ⟨d, a, false, r⟩ :: k) x :=
    a₂.step keeps₃ (shows_up.2 (shows_up.2 h₃))
  obtain ⟨w₄, run₄, h₄, keeps₄, black⟩ := deleteSettle_run root a₃ node
  refine ⟨w₄, ?_, h₄, (((keeps₁.mono ?_).trans (keeps₂.mono ?_)).trans (keeps₃.mono ?_)).trans
    (keeps₄.mono ?_), black⟩
  · have none₁ := keeps₁.nil
    have none₂ := keeps₂.nil.trans none₁
    have none₃ := keeps₃.nil.trans none₂
    have up₁ := a₁.parent_bind (β := ℕ)
    have up₂ := a₂.parent_bind (β := ℕ)
    have up₃ := a₃.parent_bind (β := ℕ)
    rw [none₁] at up₁
    rw [none₂] at up₂
    rw [none₃] at up₃ run₄
    have color := hw.red_bind (β := ℕ)
    rw [ptr_side, side_isRed] at color
    rw [deleteTurn, h.parent_bind, (shows_up.1 h.toShows).other_bind, ptr_side, color, if_pos rfl,
      bind_of_ok run₁, up₁, bind_of_ok run₂, up₂, bind_of_ok run₃, up₃,
      (shows_up.1 a₃.toShows).other_bind, none₃, run₄]
  all_goals
    intro q
    simp only [mem_fill, mem_around, mem_side]
    tauto

theorem fill_concat (k : Path (ℕ × ι)) (f : Frame (ℕ × ι)) (t : ColorTree (ℕ × ι)) :
    fill (k ++ [f]) t = f.side.node (fill k t) f.label f.red f.sibling := by
  induction k generalizing t with
  | nil => rfl
  | cons g k ih => exact ih _

theorem ptr_fill {nil : ℕ} (eq : ptr nil t = ptr nil x) :
    ptr nil (fill k t) = ptr nil (fill k x) := by
  rcases List.eq_nil_or_concat' k with rfl | ⟨k, f, rfl⟩
  · exact eq
  · rw [fill_concat, fill_concat, ptr_side, ptr_side]

theorem root_black (nil : ℕ) (h : Shows w k t) (fits : Fits k c n)
    (black : ∃ cell, w.heap.lookup (ptr nil x) = some cell ∧ cell.red = false) :
    ∃ cell, w.heap.lookup (ptr nil (fill k x)) = some cell ∧ cell.red = false := by
  rcases List.eq_nil_or_concat' k with rfl | ⟨k, f, rfl⟩
  · exact black
  · have here := shows_fill.1 h
    rw [fill_concat] at here ⊢
    rw [ptr_side]
    exact ⟨_, here.here, fits.last⟩

theorem around_ne (h : Shows s k x) : ∀ b ∈ around k, b.1 ≠ ptr s.nil x := by
  intro b hb
  cases x with
  | leaf => exact (h.apart.inside b (mem_fill.2 (.inr hb))).1
  | node l a c r => exact (Apart.side (d := .left) h.apart).2.2.1 b hb

theorem root_ne (h : Shows s k x) (inside : k ≠ []) : ptr s.nil (fill k x) ≠ ptr s.nil x := by
  have out := around_ne h
  rcases List.eq_nil_or_concat' k with rfl | ⟨k, f, rfl⟩
  · exact absurd rfl inside
  · rw [fill_concat, ptr_side]
    have mem : f.label ∈ around (k ++ [f]) := by
      have all : f.label ∈ (fill (k ++ [f]) (leaf : ColorTree (ℕ × ι))).toList := by
        rw [fill_concat]
        exact mem_side.2 (.inl rfl)
      simpa [mem_fill] using all
    exact out _ mem

theorem paint_black_run (h : Shows s k x) : ∃ w, setRed (ptr s.nil x) false s = .ok (⟨⟩, w) ∧
    Shows w k (x.paint false) ∧ Keeps (fill k x).toList s w := by
  cases x with
  | leaf =>
    obtain ⟨cell, here, black⟩ := h.black
    exact ⟨s, setRed_same here black, h, .refl _ _⟩
  | node l a c r => exact paint_run h (by simp) false

/-- The loop ends at a red node, and at the node that was the root. -/
theorem deleteLoop_stop {q : ℕ} {cell : Cell ι} (here : s.heap.lookup q = some cell)
    (stop : cell.red = true ∨ root = q) (m : ℕ) : deleteLoop root (m + 1) q s = .ok (q, s) := by
  rw [deleteLoop, TreeNodeSteps.red_bind here]
  rcases stop with red | rfl <;> simp [*] <;> rfl

theorem deleteLoop_turn (h : At s (⟨d, p, c, z⟩ :: k) x) (black : x.isRed = false)
    (ne : root ≠ ptr s.nil x) (node : z ≠ leaf) (m : ℕ) :
    deleteLoop root (m + 1) (ptr s.nil x) s =
      (deleteTurn root d (ptr s.nil x) >>= deleteLoop root m) s := by
  have apart : ptr s.nil x ≠ ptr s.nil z := by
    have side := shows_up.1 (shows_other.1 h.toShows)
    exact (Apart.ptr_ne side.apart node).symm
  obtain ⟨q, read, test⟩ := h.toShows.left_test apart fun q =>
    if ptr s.nil x = q then deleteTurn root .left (ptr s.nil x) >>= deleteLoop root m
    else deleteTurn root .right (ptr s.nil x) >>= deleteLoop root m
  rw [deleteLoop, h.toShows.red_bind, black, if_pos (by simpa using ne), h.parent_bind]
  refine read.trans ?_
  cases d with
  | left => rw [if_pos (test.2 rfl)]
  | right => rw [if_neg fun eq => Side.noConfusion (test.1 eq)]

theorem settle_short (short : (settle d x p c z).2 = true) (node : z ≠ leaf) :
    ∃ z', (settle d x p c z).1 = d.node x p c z' := by
  cases z with
  | leaf => exact absurd rfl node
  | node l b e r =>
    rw [side_cases d l r] at short ⊢
    cases far : (d.pick r l).isRed with
    | true =>
      rw [settle_far far] at short
      cases short
    | false =>
      cases near : (d.pick l r).isRed with
      | true =>
        obtain ⟨u, v, y, eq⟩ := red_cases d near
        rw [eq, settle_near far] at short
        cases short
      | false =>
        rw [settle_black near far]
        exact ⟨_, rfl⟩

/-- The loop stops at the node that was the root, which is black. -/
theorem deleteLoop_root {q : ℕ} {x' : ColorTree (ℕ × ι)} (h : Shows s k x')
    (black : ∃ cell, s.heap.lookup q = some cell ∧ cell.red = false) (m : ℕ) : ∃ r u w,
      deleteLoop q (m + 1) q s = .ok (r, u) ∧ setRed r false u = .ok (⟨⟩, w) ∧
      Shows w [] (fill k x') ∧ Keeps (fill k x').toList s w := by
  obtain ⟨cell, here, black⟩ := black
  exact ⟨q, s, s, deleteLoop_stop here (.inr rfl) m, setRed_same here black, shows_fill.1 h,
    .refl _ _⟩

theorem deleteLoop_red (h : Shows s k x) (red : x.isRed = true) (root m : ℕ) : ∃ q u w,
      deleteLoop root (m + 1) (ptr s.nil x) s = .ok (q, u) ∧ setRed q false u = .ok (⟨⟩, w) ∧
      Shows w [] (fill k (x.paint false)) ∧ Keeps (fill k x).toList s w := by
  obtain ⟨cell, here, color⟩ := h.color
  obtain ⟨w, run, shows, keeps⟩ := paint_black_run h
  exact ⟨_, s, w, deleteLoop_stop here (.inl (color.trans red)) m, run, shows_fill.1 shows, keeps⟩

theorem settle_labels {v : Bool} :
    (fill (⟨d, a, v, r⟩ :: k) (settle d x p e l).1).toList =
      (fill (⟨d, p, c, d.node l a true r⟩ :: k) x).toList := by
  rw [fill, fill, fill_toList, fill_toList]
  cases d <;> simp [Side.node, settle_toList]

theorem deleteLoop_redSide (h : At s (⟨d, p, false, d.node l a true r⟩ :: k) x)
    (hx : Balanced x false n) (hl : Balanced l false (n + 1)) (fits : Fits k e m) (i : ℕ) :
    ∃ q u w, deleteLoop (ptr s.nil (fill (⟨d, p, false, d.node l a true r⟩ :: k) x)) (i + 2)
        (ptr s.nil x) s = .ok (q, u) ∧ setRed q false u = .ok (⟨⟩, w) ∧
      Shows w [] (deleteFix (⟨d, p, false, d.node l a true r⟩ :: k) x) ∧
      Keeps (fill (⟨d, p, false, d.node l a true r⟩ :: k) x).toList s w := by
  have node := hl.ne_leaf
  have ne := root_ne h.toShows (by simp)
  generalize eq : ptr s.nil (fill (⟨d, p, false, d.node l a true r⟩ :: k) x) = root at ne
  obtain ⟨w, run, shows, keeps, black⟩ := deleteTurn_red root h node
  have settled := (settle_balanced (d := d) (p := p) (c := true) hx hl).2
  rw [deleteFix_redSide hx.isRed, deleteLoop_turn h hx.isRed ne (by cases d <;> simp [Side.node])]
  cases more : (settle d x p true l).2 with
  | true =>
    rw [more, if_pos rfl] at run
    obtain ⟨q, u, v, run₁, run₂, shows₁, keeps₁⟩ := deleteLoop_red shows (settled more).1 root i
    obtain ⟨z', eq'⟩ := settle_short more node
    rw [settle_labels (c := false)] at keeps₁
    refine ⟨q, u, v, ?_, run₂, by rwa [if_pos rfl], keeps.trans keeps₁⟩
    rw [bind_of_ok run, ← run₁, eq', ptr_side]
  | false =>
    rw [more, if_neg Bool.false_ne_true] at run
    have top : ∃ cell, w.heap.lookup root = some cell ∧ cell.red = false := by
      rw [← eq]
      exact root_black (x := d.node x p false (d.node l a true r)) _ (shows_up.1 shows) fits
        (by rw [ptr_side]; exact black more)
    obtain ⟨q, u, v, run₁, run₂, shows₁, keeps₁⟩ := deleteLoop_root shows top i
    rw [settle_labels (c := false)] at keeps₁
    refine ⟨q, u, v, ?_, run₂, by rwa [if_neg Bool.false_ne_true], keeps.trans keeps₁⟩
    rw [bind_of_ok run, run₁]

theorem deleteLoop_run (short : Short x n) (fits : Fits k c (n + 1)) (h : At s k x)
    (turns : k.length < m) : ∃ q u w,
      deleteLoop (ptr s.nil (fill k x)) m (ptr s.nil x) s = .ok (q, u) ∧
      setRed q false u = .ok (⟨⟩, w) ∧ Shows w [] (deleteFix k x) ∧
      Keeps (fill k x).toList s w := by
  obtain ⟨m, rfl⟩ : ∃ i, m = i + 1 := ⟨m - 1, by omega⟩
  induction k generalizing s x c n m with
  | nil =>
    obtain ⟨cell, here, -⟩ := h.color
    obtain ⟨w, run, shows, keeps⟩ := paint_black_run h.toShows
    exact ⟨_, s, w, deleteLoop_stop here (.inr rfl) m, run, shows, keeps⟩
  | cons f k ih =>
    obtain ⟨d, p, b, z⟩ := f
    cases red : x.isRed with
    | true =>
      rw [deleteFix_red red]
      exact deleteLoop_red h.toShows red _ m
    | false =>
      obtain ⟨m, rfl⟩ : ∃ i, m = i + 1 := ⟨m - 1, by simp at turns; omega⟩
      have hx := short.2 red
      cases side : z.isRed with
      | true =>
        obtain ⟨l, a, r, rfl⟩ := red_cases d side
        cases fits with
        | red hs hk => cases hs.isRed.symm.trans side
        | black hs hk => exact deleteLoop_redSide h hx hs.of_redSide.2.1 hk m
      | false =>
        obtain ⟨c', n', node, hk, settled⟩ : ∃ c' n', z ≠ leaf ∧ Fits k c' (n' + 1) ∧
            ((settle d x p b z).2 = true → Short (settle d x p b z).1 n') := by
          cases fits with
          | red hs hk =>
            exact ⟨true, n, hs.ne_leaf, hk,
              fun more => ((settle_balanced hx hs).2 more).2⟩
          | black hs hk =>
            exact ⟨false, n + 1, hs.ne_leaf, hk,
              fun more => ((settle_balanced hx (hs.of_black side)).2 more).2⟩
        have ne := root_ne h.toShows (by simp)
        obtain ⟨w, run, shows, keeps, black⟩ :=
          deleteSettle_run (ptr s.nil (fill (⟨d, p, b, z⟩ :: k) x)) h node
        have labels : (fill k (settle d x p b z).1).toList =
            (fill (⟨d, p, b, z⟩ :: k) x).toList := by
          rw [fill, fill_toList, fill_toList, settle_toList]
        rw [← deleteTurn_black _ h side] at run
        rw [deleteFix_blackSide red side, deleteLoop_turn h red ne node]
        cases more : (settle d x p b z).2 with
        | true =>
          rw [more, if_pos rfl] at run
          obtain ⟨z', eq⟩ := settle_short more node
          have a : At w k (settle d x p b z).1 := by
            rw [eq] at shows ⊢
            exact .of_node shows
          obtain ⟨q, u, v, run₁, run₂, shows₁, keeps₁⟩ := ih (settled more) hk a m
            (by simp at turns; omega)
          rw [labels] at keeps₁
          refine ⟨q, u, v, ?_, run₂, by rwa [if_pos rfl], keeps.trans keeps₁⟩
          have first : ptr w.nil (fill k (settle d x p b z).1) =
              ptr s.nil (fill (⟨d, p, b, z⟩ :: k) x) := by
            rw [keeps.nil, fill]
            exact ptr_fill (by rw [eq, ptr_side, ptr_side])
          rw [bind_of_ok run, ← run₁, first, eq, ptr_side]
        | false =>
          rw [more, if_neg Bool.false_ne_true] at run
          obtain ⟨q, u, v, run₁, run₂, shows₁, keeps₁⟩ := deleteLoop_root shows
            (root_black (x := d.node x p b z) s.nil shows hk (by rw [ptr_side]; exact black more)) m
          rw [labels] at keeps₁
          refine ⟨q, u, v, ?_, run₂, by rwa [if_neg Bool.false_ne_true], keeps.trans keeps₁⟩
          exact (bind_of_ok run).trans run₁

theorem RBDeleteFixUp_run (short : Short x n) (fits : Fits k c (n + 1)) (h : At s k x) : ∃ w,
    RBDeleteFixUp (ptr s.nil x) s = .ok (⟨⟩, w) ∧ Shows w [] (deleteFix k x) ∧
      Keeps (fill k x).toList s w := by
  have whole := shows_fill.1 h.toShows
  obtain ⟨q, u, w, run, run', shows, keeps⟩ := deleteLoop_run short fits h
    ((length_le k x).trans_lt h.toShows.card)
  refine ⟨w, ?_, shows, keeps⟩
  rw [RBDeleteFixUp, get_bind]
  refine (TreeNodeSteps.left_bind whole.path _).trans ?_
  refine (bind_of_ok run).trans ?_
  rw [bind_of_ok run']
  exact assertNil_ok shows.black

structure Touches (l : List (ℕ × ι)) (s u : Memory ι) : Prop where
  root : u.root = s.root
  nil : u.nil = s.nil
  rest : ∀ q, q ≠ s.root → q ≠ s.nil → (∀ b ∈ l, b.1 ≠ q) → u.heap.lookup q = s.heap.lookup q

theorem Keeps.touches {l : List (ℕ × ι)} (h : Keeps l s w) : Touches l s w :=
  ⟨h.root, h.nil, fun q hq _ out => h.rest q hq out⟩

theorem Touches.trans {l : List (ℕ × ι)} {v : Memory ι} (h : Touches l s w) (k : Touches l w v) :
    Touches l s v :=
  ⟨k.root.trans h.root, k.nil.trans h.nil, fun q hq hn out =>
    (k.rest q (h.root ▸ hq) (h.nil ▸ hn) out).trans (h.rest q hq hn out)⟩

theorem Touches.mono {l l' : List (ℕ × ι)} (sub : ∀ b ∈ l, b ∈ l') (h : Touches l s w) :
    Touches l' s w :=
  ⟨h.root, h.nil, fun q hq hn out => h.rest q hq hn fun b hb => out b (sub b hb)⟩

/-- The parent pointer of a node, or of the sentinel for no node. -/
theorem setParent_run {q nil root : ℕ} {h : Heap ι} (rep : Rep h nil q x)
    (none : ∃ cell, h.lookup nil = some cell ∧ cell.red = false)
    (apart : Apart nil root (fill k x).toList) (r : ℕ) : ∃ g : Heap ι,
      setParent (ptr nil x) r ⟨h, root, nil⟩ = .ok (⟨⟩, ⟨g, root, nil⟩) ∧ Rep g nil r x ∧
      (∃ cell, g.lookup (ptr nil x) = some cell ∧ cell.parent = r) ∧
      (∃ cell, g.lookup nil = some cell ∧ cell.red = false) ∧
      ∀ q, q ≠ nil → (∀ b ∈ x.toList, b.1 ≠ q) → g.lookup q = h.lookup q := by
  cases x with
  | leaf =>
    obtain ⟨cell, here, black⟩ := none
    exact ⟨_, change_ok here _, trivial, ⟨_, Finmap.lookup_insert _, rfl⟩,
      ⟨_, Finmap.lookup_insert _, black⟩, fun q hq _ => Finmap.lookup_insert_of_ne _ hq⟩
  | node l b e y =>
    obtain ⟨here, hl, hy⟩ := rep
    obtain ⟨out, out', -⟩ := Apart.side (d := .left) apart
    have inside := (apart.inside b (mem_fill.2 (.inl (by simp)))).1
    obtain ⟨cell, none, black⟩ := none
    exact ⟨_, change_ok here _, ⟨Finmap.lookup_insert _, hl.insert out, hy.insert out'⟩,
      ⟨_, Finmap.lookup_insert _, rfl⟩,
      ⟨cell, (Finmap.lookup_insert_of_ne _ inside.symm).trans none, black⟩,
      fun q _ hq => Finmap.lookup_insert_of_ne _ fun eq => hq b (by simp) eq.symm⟩

theorem unlink_run (h : Shows s k (d.node x a c leaf)) : ∃ w,
    unlink a.1 (ptr s.nil x) s = .ok (⟨⟩, w) ∧ At w k x ∧
      w.heap.lookup a.1 = s.heap.lookup a.1 ∧
      Touches (fill k (d.node x a c leaf)).toList s w := by
  obtain ⟨here, rx, -⟩ := rep_side.1 h.tree
  obtain ⟨xa, -, ka, -, xk, -⟩ := h.apart.side
  have inside := h.apart.inside
  have mem : a ∈ (fill k (d.node x a c leaf)).toList := mem_fill.2 (.inl (mem_side.2 (.inl rfl)))
  have memx : ∀ b ∈ x.toList, b ∈ (fill k (d.node x a c leaf)).toList := fun b hb =>
    mem_fill.2 (.inl (mem_side.2 (.inr (.inl hb))))
  have memk : ∀ b ∈ around k, b ∈ (fill k (d.node x a c leaf)).toList := fun b hb =>
    mem_fill.2 (.inr hb)
  have tops := h.apart.top
  obtain ⟨g, run, rx', ⟨cell, up, eq⟩, ⟨cell', none, black⟩, same⟩ := setParent_run
    (k := ⟨d, a, c, leaf⟩ :: k) rx h.black h.apart (top s.root k)
  have path : RepPath g s.nil s.root (ptr s.nil (d.node x a c leaf)) k :=
    h.path.congr (fun b hb => same _ (inside b (memk b hb)).1 fun q hq => xk q hq b hb)
      (same _ h.apart.distinct.symm fun q hq => (inside q (memx q hq)).2)
  have here' : g.lookup a.1 = _ := (same _ (inside a mem).1 xa).trans here
  obtain ⟨g', run', path', same'⟩ : ∃ g', (do
      if s.root = (← parent (ptr s.nil x)) then setLeft s.root (ptr s.nil x)
      else replaceChild a.1 (ptr s.nil x) : Exec (Memory ι) PUnit) { s with heap := g } =
        .ok (⟨⟩, { s with heap := g' }) ∧ RepPath g' s.nil s.root (ptr s.nil x) k ∧
      ∀ q, q ≠ top s.root k → g'.lookup q = g.lookup q := by
    rw [TreeNodeSteps.parent_bind (s := { s with heap := g }) up, eq]
    cases k with
    | nil =>
      rw [top, if_pos rfl]
      exact ⟨_, change_ok (s := { s with heap := g }) path _, Finmap.lookup_insert _,
        fun q hq => Finmap.lookup_insert_of_ne _ hq⟩
    | cons f k =>
      rw [top, if_neg (inside _ (memk _ (mem_around.2 (.inl rfl)))).2.symm]
      have moved := replaceChild_run (s := { s with heap := g }) (t := d.node x a c leaf)
        (by rw [ptr_side]; exact here') rfl path (by cases d <;> simp [Side.node]) h.apart
        (ptr s.nil x)
      rwa [ptr_side] at moved
  have notNil : s.nil ≠ top s.root k := h.apart.nil_ne_top
  have notTop : ptr s.nil x ≠ top s.root k := by
    cases x with
    | leaf => exact notNil
    | node l b e y => exact tops b (mem_side.2 (.inr (.inl (by simp))))
  refine ⟨{ s with heap := g' }, ?_, ⟨⟨path', rx'.congr fun b hb => same' _ (tops b (mem_side.2
    (.inr (.inl hb)))), ⟨cell', (same' _ notNil).trans none, black⟩, h.apart.sublist ?_⟩, cell,
    (same' _ notTop).trans up, eq⟩, ?_, rfl, rfl, fun q hq hn out => ?_⟩
  · rw [unlink, get_bind, TreeNodeSteps.parent_bind here]
    exact (bind_of_ok run).trans run'
  · rw [fill_toList, fill_toList]
    refine List.Sublist.append_right (List.Sublist.append_left ?_ _) _
    cases d <;> simp [Side.node]
  · exact (same' _ (tops a (mem_side.2 (.inl rfl)))).trans (same _ (inside a mem).1 xa)
  · exact (same' q (top_ne hq out)).trans (same q hn fun b hb => out b (memx b hb))

theorem leftLoop_run (h : Shows s k (node t a c r)) (turns : t.height < m) :
    leftLoop m a.1 s = .ok ((least t a c r k).2.1.1, s) := by
  induction t generalizing a c r k m with
  | leaf =>
    obtain ⟨m, rfl⟩ : ∃ i, m = i + 1 := ⟨m - 1, by omega⟩
    rw [leftLoop, get_bind, h.left_bind, ptr_leaf, if_neg (not_not.2 rfl)]
    rfl
  | node l b e y ihl _ =>
    obtain ⟨m, rfl⟩ : ∃ i, m = i + 1 := ⟨m - 1, by omega⟩
    have inside := (h.apart.inside b (mem_fill.2 (.inl (by simp)))).1
    rw [leftLoop, get_bind, h.left_bind, ptr_node, if_pos inside, h.left_bind]
    have down : Shows s (⟨.left, a, c, r⟩ :: k) (node l b e y) := shows_up.2 h
    exact ihl down (by simp only [height] at turns; omega)

theorem height_le (t : ColorTree (ℕ × ι)) : t.height ≤ t.toList.length := by
  induction t with
  | leaf => exact Nat.le_refl 0
  | node l a c r ihl ihr =>
    simp only [height, toList_node, List.length_append, List.length_cons]
    omega

theorem successor_run (h : Shows s k (node l a c (node t b e r))) :
    TreeSuccessor a.1 s = .ok ((least t b e r (⟨.right, a, c, l⟩ :: k)).2.1.1, s) := by
  have place : Shows s (⟨.right, a, c, l⟩ :: k) (node t b e r) := shows_up.2 h
  have inside := (place.apart.inside b (mem_fill.2 (.inl (by simp)))).1
  have turns := h.card
  have low := height_le t
  rw [TreeSuccessor, get_bind, h.right_bind, ptr_node, if_pos inside.symm]
  refine leftLoop_run place ?_
  rw [fill_toList] at turns
  simp only [toList_node, List.length_append, List.length_cons] at turns
  omega

theorem exists_place (mem : a ∈ t.toList) : ∃ k l c r, t = fill k (node l a c r) := by
  suffices all : ∀ k' : Path (ℕ × ι), ∃ k l c r, fill k' t = fill k (node l a c r) from all []
  induction t with
  | leaf => simp at mem
  | node l b c r ihl ihr =>
    intro k'
    simp only [toList_node, List.mem_append, List.mem_cons] at mem
    rcases mem with mem | rfl | mem
    · exact ihl mem (⟨.left, b, c, r⟩ :: k')
    · exact ⟨k', l, c, r, rfl⟩
    · exact ihr mem (⟨.right, b, c, l⟩ :: k')

/-- The fields of a node outside the tree are set to those of a node in it. -/
theorem copyFields_run {q : ℕ} {cell : Cell ι} (h : Shows s k (node l a c r))
    (here : s.heap.lookup q = some cell) (out : ∀ b ∈ (fill k (node l a c r)).toList, b.1 ≠ q)
    (nil : q ≠ s.nil) (root : q ≠ s.root) : ∃ g : Heap ι,
      takePlace q a.1 s = (do
        setParent (← right a.1) q
        setParent (← left a.1) q
        replaceChild a.1 q : Exec (Memory ι) PUnit) { s with heap := g } ∧
      Shows { s with heap := g } k (node l a c r) ∧
      g.lookup q = some ⟨cell.item, c, ptr s.nil l, ptr s.nil r, top s.root k⟩ ∧
      ∀ q', q' ≠ q → g.lookup q' = s.heap.lookup q' := by
  have mem : a ∈ (fill k (node l a c r)).toList := mem_fill.2 (.inl (by simp))
  have up : s.heap.lookup a.1 = _ := h.here (d := .left)
  let g₁ := s.heap.insert q { cell with left := ptr s.nil l }
  let g₂ := g₁.insert q { cell with left := ptr s.nil l, right := ptr s.nil r }
  let g₃ := g₂.insert q ⟨cell.item, cell.red, ptr s.nil l, ptr s.nil r, top s.root k⟩
  let g₄ := g₃.insert q ⟨cell.item, c, ptr s.nil l, ptr s.nil r, top s.root k⟩
  have kept₁ (q' : ℕ) (ne : q' ≠ q) : g₁.lookup q' = s.heap.lookup q' :=
    Finmap.lookup_insert_of_ne _ ne
  have kept₂ (q' : ℕ) (ne : q' ≠ q) : g₂.lookup q' = s.heap.lookup q' :=
    (Finmap.lookup_insert_of_ne _ ne).trans (kept₁ q' ne)
  have kept₃ (q' : ℕ) (ne : q' ≠ q) : g₃.lookup q' = s.heap.lookup q' :=
    (Finmap.lookup_insert_of_ne _ ne).trans (kept₂ q' ne)
  have kept₄ (q' : ℕ) (ne : q' ≠ q) : g₄.lookup q' = s.heap.lookup q' :=
    (Finmap.lookup_insert_of_ne _ ne).trans (kept₃ q' ne)
  refine ⟨g₄, ?_, h.congr rfl rfl (fun b hb => kept₄ _ (out b hb)) (kept₄ _ root.symm)
    (kept₄ _ nil.symm), Finmap.lookup_insert _, kept₄⟩
  rw [takePlace, TreeNodeSteps.left_bind up, setLeft, change_bind here]
  refine (TreeNodeSteps.right_bind (s := { s with heap := g₁ }) ((kept₁ _ (out a mem)).trans up)
    _).trans ?_
  refine (change_bind (s := { s with heap := g₁ }) (Finmap.lookup_insert _) _ _).trans ?_
  refine (TreeNodeSteps.parent_bind (s := { s with heap := g₂ }) ((kept₂ _ (out a mem)).trans up)
    _).trans ?_
  refine (change_bind (s := { s with heap := g₂ }) (Finmap.lookup_insert _) _ _).trans ?_
  refine (TreeNodeSteps.red_bind (s := { s with heap := g₃ }) ((kept₃ _ (out a mem)).trans up)
    _).trans ?_
  exact change_bind (s := { s with heap := g₃ }) (Finmap.lookup_insert _) _ _

theorem apart_relabel {nil root : ℕ} {q : ℕ × ι}
    (h : Apart nil root (fill k (node l a c r)).toList)
    (out : ∀ b ∈ (fill k (node l a c r)).toList, b.1 ≠ q.1) (ne : q.1 ≠ nil) (ne' : q.1 ≠ root) :
    Apart nil root (fill k (node l q c r)).toList := by
  have nodup := h.nodup
  have inside := h.inside
  simp only [fill_toList, toList_node, List.append_assoc, List.cons_append] at nodup inside out ⊢
  rw [← List.append_assoc] at nodup inside out ⊢
  refine ⟨?_, fun b hb => ?_, h.distinct⟩
  · rw [List.map_append, List.map_cons] at nodup ⊢
    refine List.nodup_middle.2 (List.nodup_cons.2
      ⟨fun mem => ?_, (List.nodup_cons.1 (List.nodup_middle.1 nodup)).2⟩)
    rw [← List.map_append] at mem
    obtain ⟨b, hb, eq⟩ := List.mem_map.1 mem
    refine out b ?_ eq
    rw [List.mem_append, List.mem_cons]
    exact (List.mem_append.1 hb).imp id .inr
  · rw [List.mem_append, List.mem_cons] at hb
    rcases hb with hb | rfl | hb
    · exact inside b (List.mem_append.2 (.inl hb))
    · exact ⟨ne, ne'⟩
    · exact inside b (List.mem_append.2 (.inr (List.mem_cons_of_mem _ hb)))

theorem takePlace_run {q : ℕ} {i : ι} {cell : Cell ι} (h : Shows s k (node l a c r))
    (here : s.heap.lookup q = some cell) (item : cell.item = some i)
    (out : ∀ b ∈ (fill k (node l a c r)).toList, b.1 ≠ q) (nil : q ≠ s.nil) (root : q ≠ s.root) :
    ∃ w, takePlace q a.1 s = .ok (⟨⟩, w) ∧ Shows w k (node l (q, i) c r) ∧
      w.heap.lookup a.1 = s.heap.lookup a.1 ∧
      Touches ((q, i) :: (fill k (node l a c r)).toList) s w := by
  obtain ⟨g, run, h₁, own, kept⟩ := copyFields_run h here out nil root
  obtain ⟨up, rl, rr⟩ := h₁.tree
  obtain ⟨la, ra, ka, lr, lk, rk⟩ := Apart.side (d := .left) h.apart
  have inside := h.apart.inside
  have tops := h.apart.top
  have meml : ∀ b ∈ l.toList, b ∈ (fill k (node l a c r)).toList := fun b hb =>
    mem_fill.2 (.inl (by simp [hb]))
  have memr : ∀ b ∈ r.toList, b ∈ (fill k (node l a c r)).toList := fun b hb =>
    mem_fill.2 (.inl (by simp [hb]))
  have memk : ∀ b ∈ around k, b ∈ (fill k (node l a c r)).toList := fun b hb =>
    mem_fill.2 (.inr hb)
  have mema : a ∈ (fill k (node l a c r)).toList := mem_fill.2 (.inl (by simp))
  obtain ⟨g₁, run₁, rr₁, -, black₁, same₁⟩ := setParent_run
    (k := ⟨.right, a, c, l⟩ :: k) rr h₁.black h₁.apart q
  have rl₁ : Rep g₁ s.nil a.1 l := rl.congr fun b hb => same₁ _ (inside b (meml b hb)).1
    fun e he => (lr b hb e he).symm
  obtain ⟨g₂, run₂, rl₂, -, black₂, same₂⟩ := setParent_run
    (k := ⟨.left, a, c, r⟩ :: k) rl₁ black₁ h₁.apart q
  have same (q' : ℕ) (ne : q' ≠ s.nil) (hl : ∀ b ∈ l.toList, b.1 ≠ q')
      (hr : ∀ b ∈ r.toList, b.1 ≠ q') : g₂.lookup q' = g.lookup q' :=
    (same₂ q' ne hl).trans (same₁ q' ne hr)
  have path₂ : RepPath g₂ s.nil s.root (ptr s.nil (node l a c r)) k :=
    h₁.path.congr (fun b hb => same _ (inside b (memk b hb)).1 (fun e he => lk e he b hb)
      fun e he => rk e he b hb) (same _ h.apart.distinct.symm (fun e he => (inside e (meml e he)).2)
        fun e he => (inside e (memr e he)).2)
  have up₂ : g₂.lookup a.1 = _ := (same a.1 (inside a mema).1 la ra).trans up
  obtain ⟨g₃, run₃, path₃, same₃⟩ := replaceChild_run (s := { s with heap := g₂ })
    (t := node l a c r) up₂ rfl path₂ (by simp) h.apart q
  have notTop : q ≠ top s.root k := top_ne root out
  obtain ⟨cell', none, black⟩ := black₂
  refine ⟨{ s with heap := g₃ }, ?_, ⟨path₃, ⟨?_, ?_, ?_⟩, ⟨cell', ?_, black⟩, ?_⟩, ?_, rfl, rfl,
    ?_⟩
  · rw [run]
    refine (TreeNodeSteps.right_bind (s := { s with heap := g }) up _).trans ?_
    refine (bind_of_ok run₁).trans ?_
    refine (TreeNodeSteps.left_bind (s := { s with heap := g₁ })
      ((same₁ a.1 (inside a mema).1 ra).trans up) _).trans ?_
    exact (bind_of_ok run₂).trans run₃
  · rw [item] at own
    exact (same₃ q notTop).trans ((same q nil (fun b hb => out b (meml b hb))
      fun b hb => out b (memr b hb)).trans own)
  · exact rl₂.congr fun b hb => same₃ _ (tops b (by simp [hb]))
  · exact rr₁.congr fun b hb => (same₃ _ (tops b (by simp [hb]))).trans
      (same₂ _ (inside b (memr b hb)).1 fun e he => lr e he b hb)
  · exact (same₃ _ h.apart.nil_ne_top).trans none
  · exact apart_relabel h.apart out nil root
  · exact (same₃ a.1 (tops a (by simp))).trans
      ((same a.1 (inside a mema).1 la ra).trans (kept a.1 (out a mema)))
  · intro q' hq hn out'
    have free (b : ℕ × ι) (hb : b ∈ (fill k (node l a c r)).toList) : b.1 ≠ q' :=
      out' b (List.mem_cons_of_mem _ hb)
    exact (same₃ q' (top_ne hq free)).trans ((same q' hn (fun b hb => free b (meml b hb))
      fun b hb => free b (memr b hb)).trans (kept q' (out' (q, i) List.mem_cons_self).symm))

/-- A node with at most one child is taken out, and the colours are repaired. -/
theorem splice_run (h : Shows s k (d.node x a c leaf))
    (bal : Balanced (fill k (d.node x a c leaf)) false m) : ∃ u w,
    unlink a.1 (ptr s.nil x) s = .ok (⟨⟩, u) ∧ repair a.1 (ptr s.nil x) u = .ok (⟨⟩, w) ∧
      Shows w [] (splice k c x) ∧ w.heap.lookup a.1 = s.heap.lookup a.1 ∧
      Touches (fill k (d.node x a c leaf)).toList s w := by
  obtain ⟨xa, -, ka, -⟩ := h.apart.side
  have mem : a ∈ (fill k (d.node x a c leaf)).toList := mem_fill.2 (.inl (mem_side.2 (.inl rfl)))
  have inside := h.apart.inside a mem
  obtain ⟨u, run, up, own, touches⟩ := unlink_run h
  have sub : ∀ b ∈ (fill k x).toList, b ∈ (fill k (d.node x a c leaf)).toList := by
    intro b
    simp only [mem_fill, mem_side]
    tauto
  rw [splice]
  cases c with
  | true =>
    refine ⟨u, u, run, ?_, shows_fill.1 up.toShows, own, touches⟩
    rw [repair, TreeNodeSteps.red_bind (own.trans h.here)]
    rfl
  | false =>
    obtain ⟨e, n, node, fits⟩ := Fits.of_fill bal
    obtain ⟨rfl, n, v, v', rfl, hx, -⟩ := node.of_blackSide
    obtain ⟨w, run', shows, keeps⟩ := RBDeleteFixUp_run (.of_balanced hx) fits up
    refine ⟨u, w, run, ?_, shows, ?_, touches.trans ((Keeps.touches keeps).mono sub)⟩
    · rw [touches.nil] at run'
      rw [repair, TreeNodeSteps.red_bind (own.trans h.here)]
      exact run'
    · refine (keeps.rest a.1 (touches.root ▸ inside.2) fun b hb => ?_).trans own
      exact (mem_fill.1 hb).elim (xa b) (ka b)

theorem free_run {q : ℕ} (h : Shows s k t) (used : q ∈ s.heap)
    (out : ∀ b ∈ (fill k t).toList, b.1 ≠ q) (nil : q ≠ s.nil) (root : q ≠ s.root) :
    (do free q; assertNil : Exec (Memory ι) PUnit) s =
        .ok (⟨⟩, { s with heap := s.heap.erase q }) ∧
      Shows { s with heap := s.heap.erase q } k t := by
  have shows : Shows { s with heap := s.heap.erase q } k t := h.congr rfl rfl
    (fun b hb => Finmap.lookup_erase_ne (out b hb)) (Finmap.lookup_erase_ne root.symm)
    (Finmap.lookup_erase_ne nil.symm)
  exact ⟨(bind_of_ok (free_ok used)).trans (assertNil_ok shows.black), shows⟩

structure Frees (q : ℕ) (l : List (ℕ × ι)) (s u : Memory ι) : Prop extends Touches l s u where
  free : q ∉ u.heap

theorem Touches.frees {L : List (ℕ × ι)} (h : Touches L s w) (mem : a ∈ L) :
    Frees a.1 L s { w with heap := w.heap.erase a.1 } :=
  ⟨⟨h.root, h.nil, fun q' hq hn out => (Finmap.lookup_erase_ne (out a mem).symm).trans
    (h.rest q' hq hn out)⟩, Finmap.notMem_erase_self⟩

theorem spliced_one (h : Shows s k (d.node x a c leaf)) : spliced a.1 s = .ok (a.1, s) := by
  rw [spliced, get_bind]
  cases d with
  | left => rw [Shows.left_bind h, Shows.right_bind h, if_pos (.inr rfl)]; rfl
  | right => rw [Shows.left_bind h, Shows.right_bind h, if_pos (.inl rfl)]; rfl

theorem onlyChild_run (h : Shows s k (d.node x a c leaf)) :
    onlyChild a.1 s = .ok (ptr s.nil x, s) := by
  rw [onlyChild, get_bind]
  cases d with
  | left =>
    have here := h.here (d := .left)
    rw [Shows.left_bind h]
    split
    · rename_i none
      rw [← bind_pure (right a.1), Shows.right_bind h, none]
      rfl
    · rw [← bind_pure (left a.1), Shows.left_bind h]
      rfl
  | right =>
    rw [Shows.left_bind h, ptr_leaf, if_pos rfl, ← bind_pure (right a.1), Shows.right_bind h]
    rfl

theorem deleteOne_run (h : Shows s k (d.node x a c leaf))
    (bal : Balanced (fill k (d.node x a c leaf)) false m) : ∃ w,
    RBDelete a.1 s = .ok (⟨⟩, w) ∧ Shows w [] (splice k c x) ∧
      Frees a.1 (fill k (d.node x a c leaf)).toList s w := by
  obtain ⟨xa, -, ka, -⟩ := h.apart.side
  have mem : a ∈ (fill k (d.node x a c leaf)).toList := mem_fill.2 (.inl (mem_side.2 (.inl rfl)))
  have inside := h.apart.inside a mem
  obtain ⟨u, w, run, run', shows, own, touches⟩ := splice_run h bal
  have labels : ∀ b ∈ (fill [] (splice k c x)).toList, b.1 ≠ a.1 := by
    intro b hb
    rw [fill, splice_toList] at hb
    exact (mem_fill.1 hb).elim (xa b) (ka b)
  have used : a.1 ∈ w.heap := Finmap.mem_of_lookup_eq_some (own.trans h.here)
  obtain ⟨free, shows⟩ := free_run shows used labels (touches.nil ▸ inside.1)
    (touches.root ▸ inside.2)
  refine ⟨_, ?_, shows, touches.frees mem⟩
  rw [RBDelete, get_bind, bind_of_ok (spliced_one h), bind_of_ok (onlyChild_run h),
    bind_of_ok run, if_neg (not_not.2 rfl)]
  exact (bind_of_ok run').trans free

theorem deleteTwo_run [DecidableEq ι] (h : Shows s k (node l a c (node t b e r)))
    (left : l ≠ leaf) (bal : Balanced (fill k (node l a c (node t b e r))) false m) : ∃ w,
    RBDelete a.1 s = .ok (⟨⟩, w) ∧ Shows w [] (delete k l a c (node t b e r)) ∧
      Frees a.1 (fill k (node l a c (node t b e r))).toList s w := by
  have next := successor_run h
  have back := least_fill (t := t) (a := b) (c := e) (r := r) (k := ⟨.right, a, c, l⟩ :: k)
  have front := least_before (t := t) (a := b) (c := e) (r := r) (k := ⟨.right, a, c, l⟩ :: k)
  rw [delete_two left]
  generalize least t b e r (⟨.right, a, c, l⟩ :: k) = place at next back front ⊢
  obtain ⟨k', y, cy, x⟩ := place
  have whole : fill k' (node leaf y cy x) = fill k (node l a c (node t b e r)) := back
  have h' : Shows s k' (Side.right.node x y cy leaf) := by
    refine shows_fill.2 ?_
    rw [Side.node, whole]
    exact shows_fill.1 h
  have bal' : Balanced (fill k' (Side.right.node x y cy leaf)) false m := by rwa [Side.node, whole]
  obtain ⟨xy, -, ky, -⟩ := h'.apart.side
  have upper : a ∈ around k' := List.mem_append.2 (.inl (by simp [front, before]))
  have ne := ky a upper
  have mem : a ∈ (fill k (node l a c (node t b e r))).toList := mem_fill.2 (.inl (by simp))
  have inside := h.apart.inside
  have memy : y ∈ (fill k (node l a c (node t b e r))).toList := by
    rw [← whole]
    exact mem_fill.2 (.inl (by simp))
  obtain ⟨u, w, run, run', shows, own, touches⟩ := splice_run h' bal'
  have sub : ∀ q ∈ (splice k' cy x).toList, q.1 ≠ y.1 ∧
      q ∈ (fill k (node l a c (node t b e r))).toList := by
    intro q hq
    rw [splice_toList] at hq
    refine ⟨(mem_fill.1 hq).elim (xy q) (ky q), ?_⟩
    rw [← whole]
    simp only [mem_fill, toList_node, List.mem_append, List.mem_cons] at hq ⊢
    tauto
  have kept : a ∈ (splice k' cy x).toList := by
    rw [splice_toList]
    exact mem_fill.2 (.inr upper)
  obtain ⟨K, L, C, R, eq⟩ := exists_place kept
  dsimp only
  rw [eq] at shows sub ⊢
  have shows : Shows w K (node L a C R) := shows_fill.2 shows
  obtain ⟨La, Ra, Ka, -⟩ := Apart.side (d := .left) shows.apart
  obtain ⟨v, run₁, shows₁, own₁, touches₁⟩ := takePlace_run shows (own.trans h'.here) rfl
    (fun q hq => (sub q hq).1) (touches.nil ▸ (inside y memy).1)
    (touches.root ▸ (inside y memy).2)
  have labels : ∀ q ∈ (fill K (node L (y.1, y.2) C R)).toList, q.1 ≠ a.1 := by
    intro q hq
    simp only [mem_fill, toList_node, List.mem_append, List.mem_cons] at hq
    rcases hq with (hq | rfl | hq) | hq
    · exact La q hq
    · exact ne.symm
    · exact Ra q hq
    · exact Ka q hq
  have all := touches.trans ((touches₁.mono fun q hq => (List.mem_cons.1 hq).elim
    (fun eq => eq ▸ memy) fun hq => (sub q hq).2).mono fun q hq => whole.symm ▸ hq)
  have used : a.1 ∈ v.heap := Finmap.mem_of_lookup_eq_some
    (own₁.trans (Shows.here (d := .left) shows))
  obtain ⟨free, shows₂⟩ := free_run shows₁ used labels (all.nil ▸ (inside a mem).1)
    (all.root ▸ (inside a mem).2)
  refine ⟨_, ?_, ?_, Touches.frees (all.mono fun q hq => whole ▸ hq) mem⟩
  · have first : spliced a.1 s = .ok (y.1, s) := by
      cases l with
      | leaf => exact absurd rfl left
      | node l p e' r' =>
        have low := inside p (mem_fill.2 (.inl (by simp)))
        have low' := inside b (mem_fill.2 (.inl (by simp)))
        rw [spliced, get_bind, Shows.left_bind h, Shows.right_bind h, ptr_node, ptr_node,
          if_neg (not_or.2 ⟨low.1, low'.1⟩)]
        exact next
    rw [RBDelete, get_bind, bind_of_ok first, bind_of_ok (onlyChild_run h'), bind_of_ok run,
      if_pos ne.symm, if_neg (inside y memy).1, bind_of_ok run', bind_of_ok run₁]
    exact free
  · have same : (fill K (node L a C R)).map (fun q => if q = a then y else q) =
        fill K (node L y C R) := by
      rw [fill_map, relabel_self fun q hq => if_neg fun eq => Ka q hq (congrArg Prod.fst eq),
        ColorTree.map, if_pos rfl,
        map_self fun q hq => if_neg fun eq => La q hq (congrArg Prod.fst eq),
        map_self fun q hq => if_neg fun eq => Ra q hq (congrArg Prod.fst eq)]
    rw [same]
    exact shows_fill.1 shows₂

/-- Deletion on the nodes is deletion from the tree. The node is freed, and all others stay
where they are. -/
theorem RBDelete_run [DecidableEq ι] (h : Shows s k (node l a c r))
    (bal : Balanced (fill k (node l a c r)) false m) : ∃ w, RBDelete a.1 s = .ok (⟨⟩, w) ∧
      Shows w [] (delete k l a c r) ∧ Frees a.1 (fill k (node l a c r)).toList s w := by
  cases l with
  | leaf =>
    rw [delete]
    exact deleteOne_run (d := .right) h bal
  | node l p v l' =>
    cases r with
    | leaf =>
      rw [delete]
      · exact deleteOne_run (d := .left) h bal
      · simp
    | node t b e r => exact deleteTwo_run h (by simp) bal

end
end BrainMachine.TreeDeletion
