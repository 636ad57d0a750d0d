import BrainMachine.TreeNodeSteps
import BrainMachine.TreeRepairs

set_option autoImplicit false

namespace BrainMachine.TreeInsertion
open Computations ColoredTrees ColorTree TreeRepairs TreeNodes TreeNodeSteps

section
variable {ι : Type} {s w : Memory ι} {c b : Bool} {d e f : Side} {a p g : ℕ × ι}
  {l r t u x y z : ColorTree (ℕ × ι)} {k : Path (ℕ × ι)} {n m : ℕ}

theorem insertTurn_recolor (h : Shows s (⟨d, p, true, z⟩ :: ⟨e, g, b, u⟩ :: k) (node l a c r))
    (red : u.isRed = true) : ∃ w, insertTurn e a.1 s = .ok (g.1, w) ∧
      Shows w k (e.node (d.node (node l a c r) p false z) g true (u.paint false)) ∧
      Keeps (fill (⟨d, p, true, z⟩ :: ⟨e, g, b, u⟩ :: k) (node l a c r)).toList s w := by
  have hp := shows_up.1 h
  have hg := shows_up.1 hp
  have node : u ≠ leaf := fun eq => by simp [eq, isRed] at red
  obtain ⟨v, run, h₁, keeps₁⟩ := setRed_run hp false
  obtain ⟨v₁, run₁, h₂, keeps₂⟩ := paint_run (shows_other.1 h₁) node false
  have h₂ := shows_up.1 (shows_other.2 h₂)
  obtain ⟨v₂, run₂, h₃, keeps₃⟩ := setRed_run h₂ true
  have hx₁ : Shows v₁ (⟨d, p, false, z⟩ :: _) (ColorTree.node l a c r) := shows_up.2 (shows_up.2 h₂)
  have hx₂ : Shows v₂ (⟨d, p, false, z⟩ :: _) (ColorTree.node l a c r) := shows_up.2 (shows_up.2 h₃)
  rw [keeps₁.nil] at run₁
  refine ⟨v₂, ?_, h₃, ?_⟩
  · rw [insertTurn, Shows.parent_bind (d := .left) h, top, hp.parent_bind, top, hg.other_bind,
      (shows_other.1 hp).red_bind]
    simp only [red, if_true]
    rw [Shows.parent_bind (d := .left) h, top, bind_of_ok run, bind_of_ok run₁,
      Shows.parent_bind (d := .left) hx₁, top, (shows_up.1 hx₁).parent_bind, top, bind_of_ok run₂,
      Shows.parent_bind (d := .left) hx₂, top]
    exact (shows_up.1 hx₂).parent_ok
  · refine (keeps₁.trans (keeps₂.mono ?_)).trans (keeps₃.mono ?_)
    · intro q
      simp only [mem_fill, mem_around, mem_side]
      tauto
    · intro q
      simp only [mem_fill, mem_around, mem_side, paint_toList]
      tauto

/-- The sibling of the parent is black, and the node on the same side as its parent. -/
theorem insertTurn_outer (h : Shows s (⟨d, p, true, z⟩ :: ⟨d, g, b, u⟩ :: k) (node l a c r))
    (black : u.isRed = false) : ∃ w, insertTurn d a.1 s = .ok (a.1, w) ∧
      Shows w k (d.node (node l a c r) p false (d.node z g true u)) ∧
      Keeps (fill (⟨d, p, true, z⟩ :: ⟨d, g, b, u⟩ :: k) (node l a c r)).toList s w := by
  have hp := shows_up.1 h
  have hg := shows_up.1 hp
  have apart : a.1 ≠ ptr s.nil z := Apart.ptr_ne (t := node l a c r) hp.apart (by simp)
  obtain ⟨v, run, h₁, keeps₁⟩ := setRed_run hp false
  have hx₁ : Shows v (⟨d, p, false, z⟩ :: _) (ColorTree.node l a c r) := shows_up.2 h₁
  obtain ⟨v₁, run₁, h₂, keeps₂⟩ := setRed_run (shows_up.1 h₁) true
  have hx₂ : Shows v₁ (⟨d, p, false, z⟩ :: _) (ColorTree.node l a c r) := shows_up.2 (shows_up.2 h₂)
  have turned : Shows v₁ k (d.other.node u g true (d.other.node z p false (node l a c r))) := by
    rwa [other_node, other_node]
  obtain ⟨v₂, run₂, h₃, keeps₃⟩ := rotate_run turned
  rw [other_node, other_node] at h₃
  refine ⟨v₂, ?_, h₃, ?_⟩
  · rw [insertTurn, Shows.parent_bind (d := .left) h, top, hp.parent_bind, top, hg.other_bind,
      (shows_other.1 hp).red_bind]
    simp only [black, Bool.false_eq_true, if_false]
    rw [Shows.parent_bind (d := .left) h, top, hp.other_bind, if_neg apart, pure_bind,
      Shows.parent_bind (d := .left) h, top, bind_of_ok run, Shows.parent_bind (d := .left) hx₁,
      top, h₁.parent_bind, top, bind_of_ok run₁, Shows.parent_bind (d := .left) hx₂, top,
      (shows_up.1 hx₂).parent_bind, top, bind_of_ok run₂]
    rfl
  · refine (keeps₁.trans (keeps₂.mono ?_)).trans (keeps₃.mono ?_)
    · intro q
      simp only [mem_fill, mem_around, mem_side]
      tauto
    · intro q
      simp only [mem_fill, mem_around, mem_side]
      tauto

/-- The sibling of the parent is black, and the node on the other side than its parent. -/
theorem insertTurn_inner (h : Shows s (⟨e.other, p, true, z⟩ :: ⟨e, g, b, u⟩ :: k) (e.node x a c y))
    (black : u.isRed = false) : ∃ w, insertTurn e a.1 s = .ok (p.1, w) ∧
      Shows w k (e.node (e.node z p true x) a false (e.node y g true u)) ∧
      Keeps (fill (⟨e.other, p, true, z⟩ :: ⟨e, g, b, u⟩ :: k) (e.node x a c y)).toList s w := by
  have hp := shows_up.1 h
  have hg := shows_up.1 hp
  have flip : Shows s (⟨e, g, b, u⟩ :: k) (e.node z p true (e.node x a c y)) := by
    rwa [other_node] at hp
  obtain ⟨v, run, h₁, keeps₁⟩ := rotate_run flip
  have hp₁ : Shows v (⟨e, a, c, y⟩ :: _) (e.node z p true x) := shows_up.2 h₁
  obtain ⟨v₁, run₁, h₂, keeps₂⟩ := setRed_run h₁ false
  have hp₂ : Shows v₁ (⟨e, a, false, y⟩ :: _) (e.node z p true x) := shows_up.2 h₂
  obtain ⟨v₂, run₂, h₃, keeps₃⟩ := setRed_run (shows_up.1 h₂) true
  have hp₃ : Shows v₂ (⟨e, a, false, y⟩ :: _) (e.node z p true x) := shows_up.2 (shows_up.2 h₃)
  have turned : Shows v₂ k
      (e.other.node u g true (e.other.node y a false (e.node z p true x))) := by
    rwa [other_node, other_node]
  obtain ⟨v₃, run₃, h₄, keeps₄⟩ := rotate_run turned
  rw [other_node, other_node] at h₄
  refine ⟨v₃, ?_, h₄, ?_⟩
  · rw [insertTurn, h.parent_bind, top, hp.parent_bind, top, hg.other_bind,
      (shows_other.1 hp).red_bind]
    simp only [black, Bool.false_eq_true, if_false]
    rw [h.parent_bind, top, flip.other_bind, ptr_side, if_pos rfl, h.parent_bind, top,
      bind_of_ok run, pure_bind, hp₁.parent_bind, top, bind_of_ok run₁, hp₂.parent_bind, top,
      h₂.parent_bind, top, bind_of_ok run₂, hp₃.parent_bind, top, (shows_up.1 hp₃).parent_bind, top,
      bind_of_ok run₃]
    rfl
  · refine (((keeps₁.mono ?_).trans (keeps₂.mono ?_)).trans (keeps₃.mono ?_)).trans
      (keeps₄.mono ?_) <;> intro q <;> simp only [mem_fill, mem_around, mem_side] <;> tauto

theorem insertLoop_turn (h : Shows s (⟨d, p, true, z⟩ :: ⟨e, g, b, u⟩ :: k) (f.node l a c r))
    (m : ℕ) : insertLoop (m + 1) a.1 s = (insertTurn e a.1 >>= insertLoop m) s := by
  have hp := shows_up.1 h
  have ne := Apart.ptr_ne (shows_up.1 hp).apart (by cases d <;> simp [Side.node])
  obtain ⟨q, read, test⟩ := hp.left_test ne fun q =>
    if p.1 = q then insertTurn .left a.1 >>= insertLoop m
    else insertTurn .right a.1 >>= insertLoop m
  rw [ptr_side] at test
  rw [insertLoop, h.parent_bind, top, hp.colour_bind, if_pos rfl, h.parent_bind, top,
    h.parent_bind, top, hp.parent_bind, top]
  refine read.trans ?_
  cases e with
  | left => rw [if_pos (test.2 rfl)]
  | right => rw [if_neg fun eq => Side.noConfusion (test.1 eq)]

theorem insertLoop_end (h : Shows s k (f.node l a c r)) (m : ℕ)
    (black : ∀ d p z k', k ≠ ⟨d, p, true, z⟩ :: k') : insertLoop (m + 1) a.1 s = .ok (⟨⟩, s) := by
  rw [insertLoop, h.parent_bind]
  cases k with
  | nil =>
    rw [top, TreeNodeSteps.red_bind h.path]
    rfl
  | cons i k =>
    obtain ⟨d, p, v, z⟩ := i
    cases v with
    | true => exact absurd rfl (black d p z k)
    | false =>
      rw [top, (shows_up.1 h).colour_bind]
      rfl

/-- The loop of the insertion, from a red node whose parent may be red. -/
theorem insertLoop_run (bal : Balanced x true n) (fits : Fits k false n) (h : Shows s k x)
    (turns : k.length < m) : ∃ w, insertLoop m (ptr s.nil x) s = .ok (⟨⟩, w) ∧
      Shows w [] (insertFix k x) ∧ Keeps (fill k x).toList s w := by
  obtain ⟨m, rfl⟩ : ∃ i, m = i + 1 := ⟨m - 1, by omega⟩
  induction k, x using insertFix.induct generalizing s n m with
  | case1 d p z e g b u k x red ih =>
    cases fits with | red hz fits =>
    cases fits with | black hu fits =>
    cases x with
    | leaf => cases bal
    | node l a c r =>
      obtain rfl := hu.isRed.symm.trans red
      obtain ⟨v, run, h₁, keeps₁⟩ := insertTurn_recolor h red
      obtain ⟨i, rfl⟩ : ∃ i, m = i + 1 := ⟨m - 1, by simp at turns; omega⟩
      obtain ⟨w, run₁, h₂, keeps₂⟩ := ih ((bal.blackSide hz).redSide hu.blacken) fits h₁ i
        (by simp at turns; omega)
      rw [ptr_side] at run₁
      refine ⟨w, ?_, ?_, keeps₁.trans (keeps₂.mono fun q => ?_)⟩
      · rw [ptr_node, insertLoop_turn (f := .left) h, bind_of_ok run, run₁]
      · rwa [insertFix_recolor red]
      · simp only [fill, mem_fill, mem_side, paint_toList]
        tauto
  | case2 p z e g b u k x black =>
    have black : u.isRed = false := by simpa using black
    cases x with
    | leaf => cases bal
    | node l a c r =>
      obtain ⟨v, run, h₁, keeps₁⟩ := insertTurn_outer h black
      obtain ⟨i, rfl⟩ : ∃ i, m = i + 1 := ⟨m - 1, by simp at turns; omega⟩
      have stop := insertLoop_end (f := .left) (shows_up.2 h₁) i (by simp)
      refine ⟨v, ?_, ?_, keeps₁⟩
      · rw [ptr_node, insertLoop_turn (f := .left) h, bind_of_ok run, stop]
      · rw [insertFix_outer black]
        exact shows_fill.1 h₁
  | case3 d p z e g b u k black inner l a c r =>
    have black : u.isRed = false := by simpa using black
    obtain rfl : d = e.other := by cases d <;> cases e <;> simp_all [Side.other]
    obtain ⟨i, rfl⟩ : ∃ i, m = i + 1 := ⟨m - 1, by simp at turns; omega⟩
    rw [side_cases e l r] at h ⊢
    obtain ⟨v, run, h₁, keeps₁⟩ := insertTurn_inner h black
    have stop := insertLoop_end (shows_up.2 h₁) i (by simp)
    refine ⟨v, ?_, ?_, keeps₁⟩
    · rw [ptr_side, insertLoop_turn h, bind_of_ok run, stop]
    · rw [insertFix_inner black]
      exact shows_fill.1 h₁
  | case4 => cases bal
  | case5 k x other =>
    cases x with
    | leaf => cases bal
    | node l a c r =>
      refine ⟨s, insertLoop_end (f := .left) h m fun d p z k' eq => ?_, ?_, .refl _ _⟩
      · subst eq
        cases fits with | red hz fits => cases fits with | black hu fits =>
        exact (other _ _ _ _ _ _ _ _ rfl).elim
      · rw [insertFix]
        · exact shows_fill.1 h
        · exact other

theorem descendLoop_run (cmp : ι → ι → ℤ) (i : ι) (h : Shows s k t) (turns : t.toList.length < m) :
    descendLoop cmp i m (ptr s.nil t) (top s.root k) s =
      .ok (top s.root (descend (fun b => cmp b.2 i = 1) t k), s) := by
  induction t generalizing k m with
  | leaf =>
    obtain ⟨m, rfl⟩ : ∃ i, m = i + 1 := ⟨m - 1, by omega⟩
    rw [descendLoop, get_bind, ptr_leaf, if_pos rfl]
    rfl
  | node l a c r ihl ihr =>
    obtain ⟨m, rfl⟩ : ∃ i, m = i + 1 := ⟨m - 1, by omega⟩
    rw [toList_node, List.length_append, List.length_cons] at turns
    have inside := (h.apart.inside a (mem_fill.2 (.inl (by simp)))).1
    rw [descendLoop, get_bind, ptr_node, if_neg inside, key_bind (h.here (d := .left)) rfl, descend]
    by_cases gt : cmp a.2 i = 1
    · rw [if_pos gt, h.left_bind, if_pos (by simpa using gt)]
      exact ihl (k := ⟨.left, a, c, r⟩ :: k) (shows_up.2 h) (by omega)
    · rw [if_neg gt, h.right_bind, if_neg (by simpa using gt)]
      exact ihr (k := ⟨.right, a, c, l⟩ :: k) (shows_up.2 h) (by omega)

theorem descend_head (gt : ℕ × ι → Bool) (t : ColorTree (ℕ × ι))
    (k : Path (ℕ × ι)) (head : ∀ i ∈ k.head?, (i.side = .left ↔ gt i.label)) :
    ∀ i ∈ (descend gt t k).head?, (i.side = .left ↔ gt i.label) := by
  induction t generalizing k with
  | leaf => exact head
  | node l a c r ihl ihr =>
    rw [descend]
    split
    · exact ihl _ (by simpa)
    · rename_i less
      exact ihr _ (by simpa using less)

theorem link_path {q : ℕ} (h : Shows s k leaf) (side : ∀ f ∈ k.head?, f.side = d)
    (first : k = [] → d = .left) : ∃ cell, s.heap.lookup (top s.root k) = some cell ∧
      RepPath (s.heap.insert (top s.root k) (cell.setChild d q)) s.nil s.root q k := by
  cases k with
  | nil =>
    obtain rfl := first rfl
    exact ⟨_, h.path, Finmap.lookup_insert _⟩
  | cons f k =>
    obtain ⟨e, p, b, x⟩ := f
    obtain rfl : e = d := side ⟨e, p, b, x⟩ (by simp)
    obtain ⟨here, hx, rest⟩ := h.path
    obtain ⟨-, hxp, hkp, -⟩ := (shows_up.1 h).apart.side
    have last := ((shows_up.1 h).apart.inside p (mem_fill.2 (.inl (mem_side.2 (.inl rfl))))).2
    exact ⟨_, here, (Finmap.lookup_insert _).trans (congrArg some (cellOf_setChild _ _ _)),
      hx.insert hxp, rest.insert hkp last.symm⟩

/-- A node with no children is put at a place where there is none. -/
theorem attach_run {q : ℕ} {i : ι} (h : Shows s k leaf)
    (here : s.heap.lookup q = some ⟨some i, c, s.nil, s.nil, top s.root k⟩)
    (out : ∀ b ∈ around k, b.1 ≠ q) (nil : q ≠ s.nil) (root : q ≠ s.root)
    (side : ∀ f ∈ k.head?, f.side = d) (first : k = [] → d = .left) : ∃ w,
    setChild d (top s.root k) q s = .ok (⟨⟩, w) ∧ Shows w k (node leaf (q, i) c leaf) ∧
      Keeps (around k) s w := by
  obtain ⟨cell, last, path⟩ := link_path (q := q) h side first
  have labels : (fill k (leaf : ColorTree (ℕ × ι))).toList = around k := by
    simp [fill_toList, around]
  have other (p : ℕ) (hp : p ≠ s.root) (hq : ∀ b ∈ around k, b.1 ≠ p) : p ≠ top s.root k :=
    top_ne (t := leaf) hp (labels.symm ▸ hq)
  have keeps : Keeps (around k) s
      { s with heap := s.heap.insert (top s.root k) (cell.setChild d q) } :=
    ⟨rfl, rfl, fun p hp hq => Finmap.lookup_insert_of_ne _ (other p hp hq)⟩
  have inside := h.apart.inside
  rw [labels] at inside
  obtain ⟨cell', none, black⟩ := h.black
  refine ⟨_, change_ok last _, ⟨path, ⟨?_, trivial, trivial⟩, ⟨cell', ?_, black⟩, ?_⟩, keeps⟩
  · exact (keeps.rest q root out).trans here
  · exact (keeps.rest s.nil h.apart.distinct fun b hb => (inside b hb).1).trans none
  · have nodup := h.apart.nodup
    refine ⟨?_, fun b hb => ?_, h.apart.distinct⟩
    · simp only [fill_toList, around, toList_node, toList_leaf, List.map_append, List.mem_append,
        List.nil_append, List.map_cons, List.append_nil, List.append_assoc,
        List.cons_append] at nodup out ⊢
      refine List.nodup_middle.2 (List.nodup_cons.2 ⟨fun mem => ?_, nodup⟩)
      rw [← List.map_append] at mem
      obtain ⟨b, hb, eq⟩ := List.mem_map.1 mem
      exact out b (List.mem_append.1 hb) eq
    · rcases mem_fill.1 hb with hb | hb
      · obtain rfl : b = (q, i) := by simpa using hb
        exact ⟨nil, root⟩
      · exact inside b hb

theorem TreeInsertHelp_run (cmp : ι → ι → ℤ) {q : ℕ} {i : ι} {cell : Cell ι} (h : Shows s [] t)
    (here : s.heap.lookup q = some cell) (item : cell.item = some i)
    (out : ∀ b ∈ t.toList, b.1 ≠ q) (nil : q ≠ s.nil) (root : q ≠ s.root) : ∃ w,
    TreeInsertHelp cmp q s = .ok (⟨⟩, w) ∧
      Shows w (descend (fun b => cmp b.2 i = 1) t []) (node leaf (q, i) cell.red leaf) ∧
      Keeps ((q, i) :: t.toList) s w := by
  obtain ⟨it, red, l, r, p⟩ := cell
  obtain rfl : it = some i := item
  let g₁ := s.heap.insert q ⟨some i, red, l, s.nil, p⟩
  let g₂ := g₁.insert q ⟨some i, red, s.nil, s.nil, p⟩
  have here₁ : g₁.lookup q = _ := Finmap.lookup_insert _
  have here₂ : g₂.lookup q = _ := Finmap.lookup_insert _
  have same (q' : ℕ) (ne : q' ≠ q) : g₂.lookup q' = s.heap.lookup q' :=
    (Finmap.lookup_insert_of_ne _ ne).trans (Finmap.lookup_insert_of_ne _ ne)
  have h₂ : Shows { s with heap := g₂ } [] t := h.congr rfl rfl (fun b hb => same _ (out b hb))
    (same _ root.symm) (same _ nil.symm)
  have down := descendLoop_run cmp i h₂ h.card
  have head := descend_head (fun b : ℕ × ι => cmp b.2 i = 1) t [] (by simp)
  generalize place : descend (fun b => cmp b.2 i = 1) t [] = k at down head
  have filled : fill k leaf = t := place ▸ descend_fill _
  let g₃ := g₂.insert q ⟨some i, red, s.nil, s.nil, top s.root k⟩
  have same₃ (q' : ℕ) (ne : q' ≠ q) : g₃.lookup q' = s.heap.lookup q' :=
    (Finmap.lookup_insert_of_ne _ ne).trans (same q' ne)
  have h₃ : Shows { s with heap := g₃ } k leaf := by
    refine shows_fill.2 (filled.symm ▸ h.congr rfl rfl (fun b hb => same₃ _ (out b hb))
      (same₃ _ root.symm) (same₃ _ nil.symm))
  have here₃ : g₃.lookup q = _ := Finmap.lookup_insert _
  have labels : t.toList = around k := by simp [← filled, fill_toList, around]
  rw [labels] at out ⊢
  have attached (d : Side) (side : ∀ f ∈ k.head?, f.side = d) (first : k = [] → d = .left) :
      ∃ w, setChild d (top s.root k) q { s with heap := g₃ } = .ok (⟨⟩, w) ∧
        Shows w k (node leaf (q, i) red leaf) ∧ Keeps ((q, i) :: around k) s w := by
    obtain ⟨w, run, shows, keeps⟩ := attach_run h₃ here₃ out nil root side first
    have first : Keeps ((q, i) :: around k) s { s with heap := g₃ } :=
      ⟨rfl, rfl, fun q' _ hq => same₃ q' (hq _ List.mem_cons_self).symm⟩
    exact ⟨w, run, shows, first.trans (keeps.mono fun b hb => List.mem_cons_of_mem _ hb)⟩
  have start : TreeInsertHelp cmp q s = (do
      let y := top s.root k
      if y = s.root then setLeft y q
      else if cmp (← key y) i = 1 then setLeft y q
      else setRight y q
      assertNil : Exec (Memory ι) PUnit) { s with heap := g₃ } := by
    rw [TreeInsertHelp, get_bind, setRight, change_bind here, setLeft]
    refine (change_bind (s := { s with heap := g₁ }) here₁ _ _).trans ?_
    refine (key_bind (s := { s with heap := g₂ }) here₂ rfl _).trans ?_
    refine (TreeNodeSteps.left_bind h₂.path _).trans ?_
    refine (bind_of_ok down).trans ?_
    exact change_bind (s := { s with heap := g₂ }) here₂ _ _
  rw [start]
  cases k with
  | nil =>
    obtain ⟨w, run, shows, keeps⟩ := attached .left (by simp) fun _ => rfl
    refine ⟨w, ?_, shows, keeps⟩
    dsimp only
    rw [top, if_pos rfl]
    exact (bind_of_ok run).trans (assertNil_ok shows.black)
  | cons f k =>
    obtain ⟨d, p, b, x⟩ := f
    have up := shows_up.1 h₃
    have inside := (up.apart.inside p (mem_fill.2 (.inl (mem_side.2 (.inl rfl))))).2
    obtain ⟨w, run, shows, keeps⟩ := attached d (by simp) (by simp)
    refine ⟨w, ?_, shows, keeps⟩
    have head : d = .left ↔ cmp p.2 i = 1 := by simpa using head
    dsimp only
    rw [top, if_neg inside, key_bind up.here rfl]
    cases d with
    | left =>
      rw [if_pos (head.1 rfl)]
      exact (bind_of_ok run).trans (assertNil_ok shows.black)
    | right =>
      rw [if_neg fun gt => Side.noConfusion (head.2 gt)]
      exact (bind_of_ok run).trans (assertNil_ok shows.black)

/-- Insertion on the nodes is insertion into the tree. The new node is the one that was
allocated, and all others stay where they are. -/
theorem RBTreeInsert_run (cmp : ι → ι → ℤ) {q : ℕ} {i : ι} (h : Shows s [] t)
    (bal : Balanced t false n) (fresh : q ∉ s.heap) : ∃ w, RBTreeInsert cmp q i s = .ok (q, w) ∧
      Shows w [] (insert (fun b => cmp b.2 i = 1) (q, i) t) ∧ Keeps ((q, i) :: t.toList) s w := by
  have root : s.root ∈ s.heap := Finmap.mem_of_lookup_eq_some h.path
  obtain ⟨cell, none, -⟩ := h.black
  have nil : s.nil ∈ s.heap := Finmap.mem_of_lookup_eq_some none
  have out (b : ℕ × ι) (hb : b ∈ t.toList) : b.1 ≠ q := fun eq => fresh (eq ▸ h.tree.mem b hb)
  have outRoot : q ≠ s.root := fun eq => fresh (eq ▸ root)
  have outNil : q ≠ s.nil := fun eq => fresh (eq ▸ nil)
  let u := { s with heap := s.heap.insert q ⟨some i, false, 0, 0, 0⟩ }
  have same (q' : ℕ) (ne : q' ≠ q) : u.heap.lookup q' = s.heap.lookup q' :=
    Finmap.lookup_insert_of_ne _ ne
  have keeps₀ : Keeps ((q, i) :: t.toList) s u :=
    ⟨rfl, rfl, fun q' _ hq => same q' (hq _ List.mem_cons_self).symm⟩
  have h₀ : Shows u [] t := h.congr rfl rfl (fun b hb => same _ (out b hb))
    (same _ outRoot.symm) (same _ outNil.symm)
  obtain ⟨w₁, run₁, h₁, keeps₁⟩ := TreeInsertHelp_run cmp h₀ (Finmap.lookup_insert _) rfl out
    outNil outRoot
  have filled : fill (descend (fun b : ℕ × ι => cmp b.2 i = 1) t []) leaf = t := descend_fill _
  have fits := Fits.of_fill (t := leaf) (k := descend (fun b : ℕ × ι => cmp b.2 i = 1) t [])
    (m := n) (by rwa [filled])
  unfold TreeRepairs.insert
  generalize descend (fun b : ℕ × ι => cmp b.2 i = 1) t [] = k at h₁ filled fits ⊢
  have labels (c : Bool) : ∀ b ∈ (fill k (node leaf (q, i) c leaf)).toList,
      b ∈ (q, i) :: t.toList := by
    intro b hb
    have all : b ∈ (fill k leaf).toList ↔ b ∈ t.toList := by rw [filled]
    simp only [mem_fill, toList_leaf, List.not_mem_nil, false_or] at all
    simpa [mem_fill, all] using hb
  obtain ⟨w₂, run₂, h₂, keeps₂⟩ := setRed_run (d := .left) h₁ true
  obtain ⟨c, m, none, fits⟩ := fits
  cases none with
  | leaf =>
    obtain ⟨w₃, run₃, h₃, keeps₃⟩ := insertLoop_run (.red .leaf .leaf) fits h₂
      ((length_le _ _).trans_lt h₂.card)
    have node : insertFix k (.node leaf (q, i) true leaf) ≠ leaf := fun eq => by
      have all := congrArg toList eq
      simp [insertFix_toList, fill_toList] at all
    obtain ⟨w₄, run₄, h₄, keeps₄⟩ := paint_run h₃ node false
    refine ⟨w₄, ?_, h₄, (((keeps₀.trans keeps₁).trans (keeps₂.mono (labels _))).trans
      (keeps₃.mono (labels _))).trans (keeps₄.mono fun b hb => labels true b ?_)⟩
    · rw [RBTreeInsert, alloc, modify_bind, bind_of_ok run₁]
      refine (bind_of_ok run₂).trans ?_
      rw [get_bind]
      refine (bind_of_ok run₃).trans ?_
      rw [← keeps₃.root]
      refine (TreeNodeSteps.left_bind h₃.path _).trans ?_
      rw [bind_of_ok run₄]
      rfl
    · rwa [fill, insertFix_toList] at hb

end
end BrainMachine.TreeInsertion
