import BrainMachine.TreeNodes

set_option autoImplicit false

namespace BrainMachine.TreeNodeSteps
open Computations ColoredTrees ColorTree TreeNodes

section
variable {ι β : Type} {s u : Memory ι} {a x y p q n m : ℕ} {c : Cell ι} {h : Heap ι}

theorem load_bind (here : s.heap.lookup a = some c) (f : Cell ι → Exec (Memory ι) β) :
    (load a >>= f) s = f c s := by
  apply bind_of_ok
  rw [load, get_bind, here]
  rfl

theorem change_ok (here : s.heap.lookup a = some c) (g : Cell ι → Cell ι) :
    change a g s = .ok (⟨⟩, { s with heap := s.heap.insert a (g c) }) := by
  rw [change, load_bind here]
  rfl

theorem change_bind (here : s.heap.lookup a = some c) (g : Cell ι → Cell ι)
    (f : PUnit → Exec (Memory ι) β) :
    (change a g >>= f) s = f ⟨⟩ { s with heap := s.heap.insert a (g c) } :=
  bind_of_ok (change_ok here g)

theorem field_bind {γ : Type} {g : Cell ι → γ} (here : s.heap.lookup a = some c)
    (f : γ → Exec (Memory ι) β) : ((g <$> load a) >>= f) s = f (g c) s := by
  rw [map_eq_pure_bind, bind_assoc]
  exact load_bind here _

theorem left_bind (here : s.heap.lookup a = some c) (f : ℕ → Exec (Memory ι) β) :
    (left a >>= f) s = f c.left s := field_bind here f

theorem right_bind (here : s.heap.lookup a = some c) (f : ℕ → Exec (Memory ι) β) :
    (right a >>= f) s = f c.right s := field_bind here f

theorem parent_bind (here : s.heap.lookup a = some c) (f : ℕ → Exec (Memory ι) β) :
    (parent a >>= f) s = f c.parent s := field_bind here f

theorem red_bind (here : s.heap.lookup a = some c) (f : Bool → Exec (Memory ι) β) :
    (red a >>= f) s = f c.red s := field_bind here f

theorem child_bind (here : s.heap.lookup a = some c) (d : Side) (f : ℕ → Exec (Memory ι) β) :
    (child d a >>= f) s = f (c.child d) s := field_bind here f

theorem key_bind {i : ι} (here : s.heap.lookup a = some c) (item : c.item = some i)
    (f : ι → Exec (Memory ι) β) : (key a >>= f) s = f i s := by
  apply bind_of_ok
  rw [key, load_bind here, item]
  rfl

theorem free_ok (here : a ∈ s.heap) :
    free a s = .ok (⟨⟩, { s with heap := s.heap.erase a }) := by
  rw [free, get_bind, if_pos here]
  rfl

end

section
variable {ι β : Type} {s u w : Memory ι} {h g : Heap ι} {nil root p q r : ℕ} {c e v : Bool}
  {d : Side} {a b : ℕ × ι} {t t' x y : ColorTree (ℕ × ι)} {k : Path (ℕ × ι)} {cell : Cell ι}

def ptr (nil : ℕ) : ColorTree (ℕ × ι) → ℕ
  | leaf => nil
  | node _ a _ _ => a.1

def top (root : ℕ) : Path (ℕ × ι) → ℕ
  | [] => root
  | f :: _ => f.label.1

def cellOf (d : Side) (a : ℕ × ι) (red : Bool) (x y p : ℕ) : Cell ι :=
  ⟨some a.2, red, d.pick x y, d.pick y x, p⟩

def Rep (h : Heap ι) (nil : ℕ) : ℕ → ColorTree (ℕ × ι) → Prop
  | _, leaf => True
  | p, node l a c r => h.lookup a.1 = some (cellOf .left a c (ptr nil l) (ptr nil r) p) ∧
      Rep h nil a.1 l ∧ Rep h nil a.1 r

def RepPath (h : Heap ι) (nil root : ℕ) : ℕ → Path (ℕ × ι) → Prop
  | q, [] => h.lookup root = some ⟨none, false, q, nil, nil⟩
  | q, f :: k =>
    h.lookup f.label.1 =
        some (cellOf f.side f.label f.red q (ptr nil f.sibling) (top root k)) ∧
      Rep h nil f.label.1 f.sibling ∧ RepPath h nil root f.label.1 k

def around (k : Path (ℕ × ι)) : List (ℕ × ι) := before k ++ after k

structure Apart (nil root : ℕ) (l : List (ℕ × ι)) : Prop where
  nodup : (l.map Prod.fst).Nodup
  inside : ∀ b ∈ l, b.1 ≠ nil ∧ b.1 ≠ root
  distinct : nil ≠ root

structure Shows (s : Memory ι) (k : Path (ℕ × ι)) (t : ColorTree (ℕ × ι)) : Prop where
  path : RepPath s.heap s.nil s.root (ptr s.nil t) k
  tree : Rep s.heap s.nil (top s.root k) t
  black : ∃ c, s.heap.lookup s.nil = some c ∧ c.red = false
  apart : Apart s.nil s.root (fill k t).toList

structure Keeps (l : List (ℕ × ι)) (s u : Memory ι) : Prop where
  root : u.root = s.root
  nil : u.nil = s.nil
  rest : ∀ q, q ≠ s.root → (∀ b ∈ l, b.1 ≠ q) → u.heap.lookup q = s.heap.lookup q

@[simp] theorem ptr_leaf : ptr nil (leaf : ColorTree (ℕ × ι)) = nil := rfl

@[simp] theorem ptr_node : ptr nil (node x a c y) = a.1 := rfl

@[simp] theorem cellOf_child (d : Side) (a : ℕ × ι) : (cellOf d a c p q r).child d = p := by
  cases d <;> rfl

@[simp] theorem cellOf_child_other (d : Side) (a : ℕ × ι) :
    (cellOf d a c p q r).child d.other = q := by
  cases d <;> rfl

@[simp] theorem cellOf_setChild (d : Side) (a : ℕ × ι) (y : ℕ) :
    (cellOf d a c p q r).setChild d y = cellOf d a c y q r := by
  cases d <;> rfl

@[simp] theorem cellOf_setChild_other (d : Side) (a : ℕ × ι) (y : ℕ) :
    (cellOf d a c p q r).setChild d.other y = cellOf d a c p y r := by
  cases d <;> rfl

theorem rep_side : Rep h nil p (d.node t a c x) ↔
    h.lookup a.1 = some (cellOf d a c (ptr nil t) (ptr nil x) p) ∧ Rep h nil a.1 t ∧
      Rep h nil a.1 x := by
  cases d
  · rfl
  · exact and_congr Iff.rfl and_comm

@[simp] theorem ptr_side : ptr nil (d.node t a c x) = a.1 := by cases d <;> rfl

theorem mem_side : b ∈ (d.node t a c x).toList ↔ b = a ∨ b ∈ t.toList ∨ b ∈ x.toList := by
  cases d <;> simp [Side.node] <;> tauto

theorem mem_fill : b ∈ (fill k t).toList ↔ b ∈ t.toList ∨ b ∈ around k := by
  rw [fill_toList]
  simp only [around, List.mem_append]
  tauto

theorem mem_around {f : Frame (ℕ × ι)} :
    b ∈ around (f :: k) ↔ b = f.label ∨ b ∈ f.sibling.toList ∨ b ∈ around k := by
  obtain ⟨d, a, c, x⟩ := f
  cases d <;> simp [around, before, after] <;> tauto

theorem shows_up : Shows s (⟨d, a, c, x⟩ :: k) t ↔ Shows s k (d.node t a c x) := by
  constructor
  · intro h
    obtain ⟨cell, side, path⟩ := h.path
    exact ⟨by rwa [ptr_side], rep_side.2 ⟨cell, h.tree, side⟩, h.black, h.apart⟩
  · intro h
    obtain ⟨cell, tree, side⟩ := rep_side.1 h.tree
    exact ⟨⟨cell, side, by simpa using h.path⟩, tree, h.black, h.apart⟩

theorem Rep.congr (same : ∀ b ∈ t.toList, g.lookup b.1 = h.lookup b.1) (rep : Rep h nil p t) :
    Rep g nil p t := by
  induction t generalizing p with
  | leaf => trivial
  | node l a c r ihl ihr =>
    obtain ⟨here, hl, hr⟩ := rep
    exact ⟨(same a (by simp)).trans here, ihl (fun b hb => same b (by simp [hb])) hl,
      ihr (fun b hb => same b (by simp [hb])) hr⟩

theorem RepPath.congr (same : ∀ b ∈ around k, g.lookup b.1 = h.lookup b.1)
    (last : g.lookup root = h.lookup root) (rep : RepPath h nil root q k) :
    RepPath g nil root q k := by
  induction k generalizing q with
  | nil => exact last.trans rep
  | cons f k ih =>
    obtain ⟨here, side, rest⟩ := rep
    exact ⟨(same _ (mem_around.2 (.inl rfl))).trans here,
      side.congr fun b hb => same b (mem_around.2 (.inr (.inl hb))),
      ih (fun b hb => same b (mem_around.2 (.inr (.inr hb)))) rest⟩

theorem Rep.insert (out : ∀ b ∈ t.toList, b.1 ≠ q) (rep : Rep h nil p t) :
    Rep (h.insert q cell) nil p t :=
  rep.congr fun b hb => Finmap.lookup_insert_of_ne _ (out b hb)

theorem RepPath.insert (out : ∀ b ∈ around k, b.1 ≠ r) (last : root ≠ r)
    (rep : RepPath h nil root q k) : RepPath (h.insert r cell) nil root q k :=
  rep.congr (fun b hb => Finmap.lookup_insert_of_ne _ (out b hb))
    (Finmap.lookup_insert_of_ne _ last)

theorem Apart.side (h : Apart nil root (fill k (d.node t a c x)).toList) :
    (∀ b ∈ t.toList, b.1 ≠ a.1) ∧ (∀ b ∈ x.toList, b.1 ≠ a.1) ∧ (∀ b ∈ around k, b.1 ≠ a.1) ∧
      (∀ b ∈ t.toList, ∀ e ∈ x.toList, b.1 ≠ e.1) ∧
      (∀ b ∈ t.toList, ∀ e ∈ around k, b.1 ≠ e.1) ∧
      ∀ b ∈ x.toList, ∀ e ∈ around k, b.1 ≠ e.1 := by
  have nodup := h.nodup
  cases d <;>
    simp [fill_toList, Side.node, List.nodup_append, around] at nodup ⊢ <;> grind

theorem Apart.ptr_ne (h : Apart nil root (fill k (d.node t a c x)).toList) (node : t ≠ leaf) :
    ptr nil t ≠ ptr nil x := by
  obtain ⟨-, -, -, out, -⟩ := h.side
  cases t with
  | leaf => exact absurd rfl node
  | node l b e y =>
    cases x with
    | leaf => exact (h.inside b (mem_fill.2 (.inl (mem_side.2 (.inr (.inl (by simp))))))).1
    | node l' b' e' y' => exact out b (by simp) b' (by simp)

theorem Shows.here (h : Shows s k (d.node t a c x)) : s.heap.lookup a.1 =
    some (cellOf d a c (ptr s.nil t) (ptr s.nil x) (top s.root k)) := (rep_side.1 h.tree).1

theorem insert_self (here : h.lookup q = some cell) : h.insert q cell = h := by
  apply Finmap.ext_lookup
  intro r
  by_cases eq : r = q
  · rw [eq, Finmap.lookup_insert, here]
  · rw [Finmap.lookup_insert_of_ne _ eq]

theorem setRed_same (here : s.heap.lookup q = some cell) (eq : cell.red = v) :
    setRed q v s = .ok (⟨⟩, s) := by
  rw [setRed, change_ok here]
  subst eq
  rw [insert_self here]

theorem Keeps.refl (l : List (ℕ × ι)) (s : Memory ι) : Keeps l s s :=
  ⟨rfl, rfl, fun _ _ _ => rfl⟩

theorem Keeps.trans {l : List (ℕ × ι)} (h : Keeps l s u) (k : Keeps l u w) : Keeps l s w :=
  ⟨k.root.trans h.root, k.nil.trans h.nil,
    fun q hq out => (k.rest q (h.root ▸ hq) out).trans (h.rest q hq out)⟩

theorem Keeps.mono {l l' : List (ℕ × ι)} (sub : ∀ b ∈ l, b ∈ l') (h : Keeps l s u) :
    Keeps l' s u :=
  ⟨h.root, h.nil, fun q hq out => h.rest q hq fun b hb => out b (sub b hb)⟩

theorem setRed_run (h : Shows s k (d.node t a c x)) (v : Bool) : ∃ u,
    setRed a.1 v s = .ok (⟨⟩, u) ∧ Shows u k (d.node t a v x) ∧
      Keeps (fill k (d.node t a c x)).toList s u := by
  have cell := h.here
  obtain ⟨ht, hx, hk, -⟩ := h.apart.side
  obtain ⟨-, rt, rx⟩ := rep_side.1 h.tree
  have mem : a ∈ (fill k (d.node t a c x)).toList := mem_fill.2 (.inl (mem_side.2 (.inl rfl)))
  obtain ⟨anil, aroot⟩ := h.apart.inside a mem
  have path := h.path
  rw [ptr_side] at path
  refine ⟨_, change_ok cell _, ⟨?_, rep_side.2 ⟨Finmap.lookup_insert _, rt.insert ht, rx.insert hx⟩,
    ?_, ?_⟩, rfl, rfl, fun q _ out => Finmap.lookup_insert_of_ne _ fun eq => out a mem eq.symm⟩
  · rw [ptr_side]
    exact path.insert hk aroot.symm
  · obtain ⟨n, here, black⟩ := h.black
    exact ⟨n, (Finmap.lookup_insert_of_ne _ anil.symm).trans here, black⟩
  · have eq : (fill k (d.node t a v x)).toList = (fill k (d.node t a c x)).toList := by
      cases d <;> simp [fill_toList, Side.node]
    exact eq ▸ h.apart

theorem RepPath.relink (rep : RepPath h nil root (ptr nil t) k) (node : t ≠ leaf)
    (apart : Apart nil root (fill k t).toList) (r : ℕ) : ∃ c, h.lookup (top root k) = some c ∧
      RepPath (h.insert (top root k) (if ptr nil t = c.left then { c with left := r }
        else { c with right := r })) nil root r k := by
  cases k with
  | nil =>
    refine ⟨_, rep, ?_⟩
    rw [if_pos rfl]
    exact Finmap.lookup_insert _
  | cons f k =>
    obtain ⟨d, a, c, x⟩ := f
    obtain ⟨cell, side, rest⟩ := rep
    obtain ⟨-, hx, hk, hs, -⟩ := Apart.side (k := k) apart
    have last := (apart.inside a (mem_fill (k := k).2 (.inl (mem_side.2 (.inl rfl))))).2
    refine ⟨_, cell, ?_, side.insert hx, rest.insert hk last.symm⟩
    refine (Finmap.lookup_insert _).trans (congrArg some ?_)
    cases d with
    | left => exact if_pos rfl
    | right => exact if_neg (Apart.ptr_ne (k := k) (d := .right) apart node)

/-- What is below a place is taken off its parent, and `r` put there. -/
theorem replaceChild_run {cell' : Cell ι} (here : s.heap.lookup (ptr s.nil t) = some cell')
    (up : cell'.parent = top s.root k) (rep : RepPath s.heap s.nil s.root (ptr s.nil t) k)
    (node : t ≠ leaf) (apart : Apart s.nil s.root (fill k t).toList) (r : ℕ) : ∃ g,
      replaceChild (ptr s.nil t) r s = .ok (⟨⟩, { s with heap := g }) ∧
      RepPath g s.nil s.root r k ∧ ∀ q, q ≠ top s.root k → g.lookup q = s.heap.lookup q := by
  obtain ⟨c, last, rep'⟩ := rep.relink node apart r
  refine ⟨_, ?_, rep', fun q hq => Finmap.lookup_insert_of_ne _ hq⟩
  rw [replaceChild, parent_bind here, up, left_bind last]
  split
  · rw [parent_bind here, up, setLeft, change_ok last]
  · rw [parent_bind here, up, setRight, change_ok last]

theorem assertNil_ok (black : ∃ c, s.heap.lookup s.nil = some c ∧ c.red = false) :
    assertNil s = .ok (⟨⟩, s) := by
  obtain ⟨c, here, black⟩ := black
  rw [assertNil, get_bind, red_bind here, black]
  rfl

theorem Apart.top (h : Apart nil root (fill k t).toList) : ∀ b ∈ t.toList, b.1 ≠ top root k := by
  intro b hb
  cases k with
  | nil => exact (h.inside b (mem_fill.2 (.inl hb))).2
  | cons f k =>
    obtain ⟨d, a, c, x⟩ := f
    exact (Apart.side (k := k) h).1 b hb

theorem top_cases (root : ℕ) (k : Path (ℕ × ι)) :
    top root k = root ∨ ∃ b ∈ around k, b.1 = top root k := by
  cases k with
  | nil => exact .inl rfl
  | cons f k => exact .inr ⟨_, mem_around.2 (.inl rfl), rfl⟩

/-- A place outside a tree that is not the root is not the parent of a place in it. -/
theorem top_ne (last : q ≠ root) (out : ∀ b ∈ (fill k t).toList, b.1 ≠ q) : q ≠ top root k := by
  rcases top_cases root k with eq | ⟨b, hb, eq⟩
  · rwa [eq]
  · rw [← eq]
    exact (out b (mem_fill.2 (.inr hb))).symm

theorem Apart.nil_ne_top (h : Apart nil root (fill k t).toList) : nil ≠ TreeNodeSteps.top root k :=
  top_ne h.distinct fun b hb => (h.inside b hb).1

theorem Apart.sublist {l l' : List (ℕ × ι)} (sub : l.Sublist l') (h : Apart nil root l') :
    Apart nil root l :=
  ⟨h.nodup.sublist (sub.map Prod.fst), fun b hb => h.inside b (sub.subset hb), h.distinct⟩

/-- The root of a tree gets another parent, unless there is none. -/
theorem adopt_run (here : s.heap.lookup p = some cell) (eq : cell.child d = ptr s.nil x)
    (rep : Rep s.heap s.nil q x) (apart : Apart s.nil s.root (fill k x).toList) (r : ℕ) : ∃ g,
      adopt d p r s = .ok (⟨⟩, { s with heap := g }) ∧ Rep g s.nil r x ∧
      ∀ q, (∀ b ∈ x.toList, b.1 ≠ q) → g.lookup q = s.heap.lookup q := by
  rw [adopt, get_bind, child_bind here, eq]
  cases x with
  | leaf => exact ⟨s.heap, by simp; rfl, trivial, fun _ _ => rfl⟩
  | node l b e y =>
    obtain ⟨root, hl, hy⟩ := rep
    obtain ⟨out, out', -⟩ := Apart.side (d := .left) apart
    have apart := (apart.inside b (mem_fill.2 (.inl (by simp)))).1
    refine ⟨s.heap.insert b.1 (cellOf .left b e (ptr s.nil l) (ptr s.nil y) r), ?_,
      ⟨Finmap.lookup_insert _, hl.insert out, hy.insert out'⟩,
      fun q hq => Finmap.lookup_insert_of_ne _ fun eq => hq b (by simp) eq.symm⟩
    rw [ptr_node, if_pos apart, child_bind here, eq]
    exact change_ok root _

/-- A rotation. Only nodes of the tree and the root are written, so that the sentinel for no
node keeps its parent. -/
theorem rotate_run (h : Shows s k (d.node t a c (d.node x b e y))) : ∃ u,
    rotate d a.1 s = .ok (⟨⟩, u) ∧ Shows u k (d.node (d.node t a c x) b e y) ∧
      Keeps (fill k (d.node t a c (d.node x b e y))).toList s u := by
  obtain ⟨upper, rt, rest⟩ := rep_side.1 h.tree
  obtain ⟨lower, rx, ry⟩ := rep_side.1 rest
  have inner : Apart s.nil s.root (fill (⟨d.other, a, c, t⟩ :: k) (d.node x b e y)).toList := by
    rw [fill, other_node]
    exact h.apart
  have tops := h.apart.top
  obtain ⟨ta, ra, ka, ty, tk, yk⟩ := h.apart.side
  obtain ⟨xb, yb, kb, xy, xk, yk'⟩ := inner.side
  rw [ptr_side] at upper
  have ab : a.1 ≠ b.1 := kb a (mem_around.2 (.inl rfl))
  have xa (q : ℕ × ι) (hq : q ∈ x.toList) := ra q (mem_side.2 (.inr (.inl hq)))
  have mem : a ∈ (fill k (d.node t a c (d.node x b e y))).toList :=
    mem_fill.2 (.inl (mem_side.2 (.inl rfl)))
  have inside := h.apart.inside
  have memy : ∀ r ∈ (d.node x b e y).toList, r ∈ (fill k (d.node t a c (d.node x b e y))).toList :=
    fun r hr => mem_fill.2 (.inl (mem_side.2 (.inr (.inr hr))))
  have memb := memy b (mem_side.2 (.inl rfl))
  have memx (r : ℕ × ι) (hr : r ∈ x.toList) := memy r (mem_side.2 (.inr (.inl hr)))
  obtain ⟨cell, nil, black⟩ := h.black
  -- the new child of `a`, and the new parent of it
  let g₁ := s.heap.insert a.1 (cellOf d a c (ptr s.nil t) (ptr s.nil x) (top s.root k))
  have lower₁ : g₁.lookup b.1 = _ := (Finmap.lookup_insert_of_ne _ ab.symm).trans lower
  obtain ⟨g₂, run₂, rx₂, same₂⟩ := adopt_run (s := { s with heap := g₁ }) lower₁
    (cellOf_child d b) (rx.insert xa) (k := ⟨d, b, e, y⟩ :: ⟨d.other, a, c, t⟩ :: k) inner a.1
  have upper₂ : g₂.lookup a.1 = _ := (same₂ _ xa).trans (Finmap.lookup_insert _)
  have lower₂ : g₂.lookup b.1 = _ := (same₂ _ xb).trans lower₁
  -- `b` below the parent of `a`
  let g₃ := g₂.insert b.1 (cellOf d b e (ptr s.nil x) (ptr s.nil y) (top s.root k))
  have upper₃ : g₃.lookup a.1 = _ := (Finmap.lookup_insert_of_ne _ ab).trans upper₂
  have path₃ : RepPath g₃ s.nil s.root (ptr s.nil (d.node t a c (d.node x b e y))) k :=
    (((h.path.insert ka (inside a mem).2.symm).congr
      (fun q hq => same₂ _ fun r hr => yk r (mem_side.2 (.inr (.inl hr))) q hq)
      (same₂ _ fun r hr => (inside r (memx r hr)).2)).insert
      (fun q hq => kb q (mem_around.2 (.inr (.inr hq)))) (inside b memb).2.symm)
  have here₃ : g₃.lookup (ptr s.nil (d.node t a c (d.node x b e y))) =
      some (cellOf d a c (ptr s.nil t) (ptr s.nil x) (top s.root k)) := by
    rwa [ptr_side]
  obtain ⟨g₄, run₄, path₄, same₄⟩ := replaceChild_run (s := { s with heap := g₃ }) here₃ rfl
    path₃ (by cases d <;> simp [Side.node]) h.apart b.1
  rw [ptr_side] at run₄
  have upper₄ : g₄.lookup a.1 = _ :=
    (same₄ _ (tops a (mem_side.2 (.inl rfl)))).trans upper₃
  have lower₄ : g₄.lookup b.1 = some (cellOf d b e (ptr s.nil x) (ptr s.nil y) (top s.root k)) :=
    (same₄ _ (tops b (by simp [mem_side]))).trans (Finmap.lookup_insert _)
  let g₅ := g₄.insert b.1 (cellOf d b e a.1 (ptr s.nil y) (top s.root k))
  have upper₅ : g₅.lookup a.1 = _ := (Finmap.lookup_insert_of_ne _ ab).trans upper₄
  let g₆ := g₅.insert a.1 (cellOf d a c (ptr s.nil t) (ptr s.nil x) b.1)
  have same (q : ℕ) (hq : q ≠ a.1) (hq' : q ≠ b.1) (last : q ≠ top s.root k) :
      g₆.lookup q = g₂.lookup q := by
    rw [Finmap.lookup_insert_of_ne _ hq, Finmap.lookup_insert_of_ne _ hq', same₄ _ last]
    exact Finmap.lookup_insert_of_ne _ hq'
  have kept (q : ℕ) (hq : q ≠ a.1) (hq' : q ≠ b.1) (last : q ≠ top s.root k)
      (out : ∀ r ∈ x.toList, r.1 ≠ q) : g₆.lookup q = s.heap.lookup q :=
    (same q hq hq' last).trans ((same₂ q out).trans (Finmap.lookup_insert_of_ne _ hq))
  have outside (q : ℕ) (last : q ≠ s.root)
      (out : ∀ r ∈ (fill k (d.node t a c (d.node x b e y))).toList, r.1 ≠ q) :
      g₆.lookup q = s.heap.lookup q :=
    kept q (out a mem).symm (out b memb).symm (top_ne last out) fun r hr => out r (memx r hr)
  have black₆ : g₆.lookup s.nil = some cell :=
    (outside _ h.apart.distinct fun r hr => (inside r hr).1).trans nil
  refine ⟨{ s with heap := g₆ }, ?_, ⟨?_, rep_side.2 ⟨?_, rep_side.2 ⟨?_, ?_, ?_⟩, ?_⟩,
    ⟨cell, black₆, black⟩, ?_⟩, rfl, rfl, outside⟩
  · rw [rotate, child_bind upper, cellOf_child_other, child_bind lower, cellOf_child, setChild,
      change_bind upper, cellOf_setChild_other, bind_of_ok run₂,
      parent_bind (s := { s with heap := g₂ }) upper₂]
    refine (change_bind (s := { s with heap := g₂ }) lower₂ _ _).trans ?_
    refine (bind_of_ok run₄).trans ?_
    rw [setChild, change_bind (s := { s with heap := g₄ }) lower₄, cellOf_setChild]
    refine (change_bind (s := { s with heap := g₅ }) upper₅ _ _).trans ?_
    exact assertNil_ok (s := { s with heap := g₆ }) ⟨cell, black₆, black⟩
  · rw [ptr_side]
    exact (path₄.insert (fun q hq => kb q (mem_around.2 (.inr (.inr hq))))
      (inside b memb).2.symm).insert ka (inside a mem).2.symm
  · rw [ptr_side]
    exact (Finmap.lookup_insert_of_ne _ ab.symm).trans (Finmap.lookup_insert _)
  · exact Finmap.lookup_insert _
  · refine rt.congr fun q hq => kept q.1 (ta q hq) (ty q hq b (mem_side.2 (.inl rfl)))
      (tops q (mem_side.2 (.inr (.inl hq)))) fun r hr =>
        (ty q hq r (mem_side.2 (.inr (.inl hr)))).symm
  · exact rx₂.congr fun q hq => same q.1 (xa q hq) (xb q hq)
      (tops q (mem_side.2 (.inr (.inr (mem_side.2 (.inr (.inl hq)))))))
  · exact ry.congr fun q hq => kept q.1 (ra q (mem_side.2 (.inr (.inr hq)))) (yb q hq)
      (tops q (mem_side.2 (.inr (.inr (mem_side.2 (.inr (.inr hq))))))) fun r hr => xy r hr q hq
  · have eq : (fill k (d.node (d.node t a c x) b e y)).toList =
        (fill k (d.node t a c (d.node x b e y))).toList := by
      rw [fill_toList, fill_toList, rotate_toList]
    exact eq ▸ h.apart

theorem paint_run (h : Shows s k t) (node : t ≠ leaf) (v : Bool) : ∃ u,
    setRed (ptr s.nil t) v s = .ok (⟨⟩, u) ∧ Shows u k (t.paint v) ∧
      Keeps (fill k t).toList s u := by
  cases t with
  | leaf => exact absurd rfl node
  | node l a c r => exact setRed_run (d := .left) h v

theorem Shows.color (h : Shows s k t) :
    ∃ c, s.heap.lookup (ptr s.nil t) = some c ∧ c.red = t.isRed := by
  cases t with
  | leaf => exact h.black
  | node l a c r => exact ⟨_, h.here (d := .left), rfl⟩

theorem shows_other :
    Shows s (⟨d, a, c, x⟩ :: k) t ↔ Shows s (⟨d.other, a, c, t⟩ :: k) x := by
  rw [shows_up, shows_up, other_node]

theorem shows_fill : Shows s k t ↔ Shows s [] (fill k t) := by
  induction k generalizing t with
  | nil => rfl
  | cons f k ih => exact shows_up.trans ih

theorem child_test (ne : p ≠ q) : p = (cellOf d a c p q r).left ↔ d = .left := by
  cases d
  · exact iff_of_true rfl rfl
  · exact iff_of_false ne (by simp)

theorem Shows.parent_bind (h : Shows s k (d.node t a c x)) (f : ℕ → Exec (Memory ι) β) :
    (parent a.1 >>= f) s = f (top s.root k) s := TreeNodeSteps.parent_bind h.here f

theorem Shows.parent_ok (h : Shows s k (d.node t a c x)) :
    parent a.1 s = .ok (top s.root k, s) := by
  rw [← bind_pure (parent a.1)]
  exact h.parent_bind pure

theorem Shows.child_bind (h : Shows s k (d.node t a c x)) (f : ℕ → Exec (Memory ι) β) :
    (child d a.1 >>= f) s = f (ptr s.nil t) s := by
  rw [TreeNodeSteps.child_bind h.here, cellOf_child]

theorem Shows.other_bind (h : Shows s k (d.node t a c x)) (f : ℕ → Exec (Memory ι) β) :
    (child d.other a.1 >>= f) s = f (ptr s.nil x) s := by
  rw [TreeNodeSteps.child_bind h.here, cellOf_child_other]

theorem Shows.left_bind (h : Shows s k (node t a c x)) (f : ℕ → Exec (Memory ι) β) :
    (left a.1 >>= f) s = f (ptr s.nil t) s := TreeNodeSteps.left_bind (h.here (d := .left)) f

theorem Shows.right_bind (h : Shows s k (node t a c x)) (f : ℕ → Exec (Memory ι) β) :
    (right a.1 >>= f) s = f (ptr s.nil x) s := TreeNodeSteps.right_bind (h.here (d := .left)) f

theorem Shows.red_bind (h : Shows s k t) (f : Bool → Exec (Memory ι) β) :
    (red (ptr s.nil t) >>= f) s = f t.isRed s := by
  obtain ⟨c, here, color⟩ := h.color
  rw [TreeNodeSteps.red_bind here, color]

theorem Shows.colour_bind (h : Shows s k (d.node t a c x)) (f : Bool → Exec (Memory ι) β) :
    (TreeNodes.red a.1 >>= f) s = f c s := TreeNodeSteps.red_bind h.here f

/-- The test for the left child, at a node whose parent is known. -/
theorem Shows.left_test (h : Shows s (⟨d, a, c, x⟩ :: k) t) (ne : ptr s.nil t ≠ ptr s.nil x)
    (f : ℕ → Exec (Memory ι) β) : ∃ q, (TreeNodes.left a.1 >>= f) s = f q s ∧
      (ptr s.nil t = q ↔ d = .left) :=
  ⟨_, TreeNodeSteps.left_bind (shows_up.1 h).here f, child_test ne⟩

theorem Rep.mem (rep : Rep h nil p t) : ∀ b ∈ t.toList, b.1 ∈ h := by
  induction t generalizing p with
  | leaf => simp
  | node l a c r ihl ihr =>
    obtain ⟨here, hl, hr⟩ := rep
    intro b hb
    simp only [toList_node, List.mem_append, List.mem_cons] at hb
    rcases hb with hb | rfl | hb
    · exact ihl hl b hb
    · exact Finmap.mem_of_lookup_eq_some here
    · exact ihr hr b hb

theorem Shows.card (h : Shows s k t) : (fill k t).toList.length < s.heap.keys.card := by
  have whole := shows_fill.1 h
  have sub : ((fill k t).toList.map Prod.fst).toFinset ⊂ s.heap.keys := by
    obtain ⟨c, here, -⟩ := h.black
    refine Finset.ssubset_iff_of_subset (fun q hq => ?_) |>.2
      ⟨s.nil, Finmap.mem_keys.2 (Finmap.mem_of_lookup_eq_some here), fun inside => ?_⟩
    · obtain ⟨b, hb, rfl⟩ := List.mem_map.1 (List.mem_toFinset.1 hq)
      exact Finmap.mem_keys.2 (whole.tree.mem b hb)
    · obtain ⟨b, hb, eq⟩ := List.mem_map.1 (List.mem_toFinset.1 inside)
      exact (h.apart.inside b hb).1 eq
  have less := Finset.card_lt_card sub
  rwa [List.toFinset_card_of_nodup h.apart.nodup, List.length_map] at less

theorem Shows.congr (h : Shows s k t) (root : u.root = s.root) (nil : u.nil = s.nil)
    (same : ∀ b ∈ (fill k t).toList, u.heap.lookup b.1 = s.heap.lookup b.1)
    (last : u.heap.lookup s.root = s.heap.lookup s.root)
    (none : u.heap.lookup s.nil = s.heap.lookup s.nil) : Shows u k t := by
  obtain ⟨heap, uroot, unil⟩ := u
  subst root nil
  obtain ⟨c, here, black⟩ := h.black
  exact ⟨h.path.congr (fun b hb => same b (mem_fill.2 (.inr hb))) last,
    h.tree.congr fun b hb => same b (mem_fill.2 (.inl hb)), ⟨c, none.trans here, black⟩, h.apart⟩

theorem length_le (k : Path (ℕ × ι)) (t : ColorTree (ℕ × ι)) :
    k.length ≤ (fill k t).toList.length := by
  induction k generalizing t with
  | nil => exact Nat.zero_le _
  | cons f k ih =>
    have grow := ih (f.side.node t f.label f.red f.sibling)
    obtain ⟨d, a, c, x⟩ := f
    have some : k.length + 1 ≤ (before k).length + (after k).length + 1 := by
      have all := ih leaf
      simp [fill_toList] at all
      omega
    cases d <;> simp [fill, Side.node, fill_toList] <;> omega

end
end BrainMachine.TreeNodeSteps
