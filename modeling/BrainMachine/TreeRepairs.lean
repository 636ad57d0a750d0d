import BrainMachine.ColoredTrees

set_option autoImplicit false

namespace BrainMachine.TreeRepairs
open ColoredTrees ColorTree

section
variable {α : Type}

def insertFix : Path α → ColorTree α → ColorTree α
  | ⟨d, p, true, s⟩ :: ⟨e, g, b, u⟩ :: k, x =>
    if u.isRed then insertFix k (e.node (d.node x p false s) g true (u.paint false))
    else if d = e then fill k (e.node x p false (e.node s g true u))
    else match x with
      | node l a _ r =>
        fill k (e.node (e.node s p true (e.pick l r)) a false (e.node (e.pick r l) g true u))
      | leaf => fill (⟨d, p, true, s⟩ :: ⟨e, g, b, u⟩ :: k) leaf
  | k, x => fill k x

def descend (gt : α → Bool) : ColorTree α → Path α → Path α
  | leaf, k => k
  | node l a c r, k =>
    if gt a then descend gt l (⟨.left, a, c, r⟩ :: k) else descend gt r (⟨.right, a, c, l⟩ :: k)

def insert (gt : α → Bool) (z : α) (t : ColorTree α) : ColorTree α :=
  (insertFix (descend gt t []) (node leaf z true leaf)).paint false

/-- The subtree `x` of `p` is short of a black node and has the black sibling given last. The
flag says whether the result still is short. -/
def settle (d : Side) (x : ColorTree α) (p : α) (c : Bool) : ColorTree α → ColorTree α × Bool
  | leaf => (d.node x p c leaf, true)
  | node l w _ r =>
    if (d.pick r l).isRed then
      (d.node (d.node x p false (d.pick l r)) w c ((d.pick r l).paint false), false)
    else match d.pick l r with
      | node u v true y =>
        (d.node (d.node x p false (d.pick u y)) v c (d.node (d.pick y u) w false (d.pick r l)),
          false)
      | _ => (d.node x p c (node l w true r), true)

def deleteFix : Path α → ColorTree α → ColorTree α
  | [], x => x.paint false
  | ⟨d, p, c, s⟩ :: k, x =>
    if x.isRed then fill (⟨d, p, c, s⟩ :: k) (x.paint false)
    else match s with
      | node l w true r =>
        let (t, short) := settle d x p true (d.pick l r)
        fill (⟨d, w, false, d.pick r l⟩ :: k) (if short then t.paint false else t)
      | s =>
        let (t, short) := settle d x p c s
        if short then deleteFix k t else fill k t

/-- The first node of a tree, given by its root and the path to it: the path, the label, the
colour and the right subtree. -/
def least : ColorTree α → α → Bool → ColorTree α → Path α → Path α × α × Bool × ColorTree α
  | leaf, a, c, r, k => (k, a, c, r)
  | node l b e s, a, c, r, k => least l b e s (⟨.left, a, c, r⟩ :: k)

def splice (k : Path α) (c : Bool) (x : ColorTree α) : ColorTree α :=
  if c then fill k x else deleteFix k x

/-- The node `a` at the end of the path is deleted. With two subtrees it is its successor that
is taken out, and that is put in the place of `a` then. -/
def delete [DecidableEq α] (k : Path α) (l : ColorTree α) (a : α) (c : Bool)
    (r : ColorTree α) : ColorTree α :=
  match l, r with
  | leaf, r => splice k c r
  | l, leaf => splice k c l
  | l, node rl b e rr =>
    let (k', y, cy, s) := least rl b e rr (⟨.right, a, c, l⟩ :: k)
    (splice k' cy s).map fun b => if b = a then y else b

variable {t s x w l r : ColorTree α} {a p z : α} {c e : Bool} {k : Path α} {d : Side} {n m : ℕ}

theorem insertFix_recolor {u : ColorTree α} {g : α} {b : Bool} {e : Side} (red : u.isRed = true) :
    insertFix (⟨d, p, true, s⟩ :: ⟨e, g, b, u⟩ :: k) x =
      insertFix k (e.node (d.node x p false s) g true (u.paint false)) := by
  simp [insertFix, red]

theorem insertFix_outer {u : ColorTree α} {g : α} {b : Bool} (black : u.isRed = false) :
    insertFix (⟨d, p, true, s⟩ :: ⟨d, g, b, u⟩ :: k) x =
      fill k (d.node x p false (d.node s g true u)) := by
  simp [insertFix, black]

theorem insertFix_inner {u y : ColorTree α} {g : α} {b : Bool} (black : u.isRed = false) :
    insertFix (⟨d.other, p, true, s⟩ :: ⟨d, g, b, u⟩ :: k) (d.node x a c y) =
      fill k (d.node (d.node s p true x) a false (d.node y g true u)) := by
  cases d <;> simp [insertFix, black, Side.node, Side.other, Side.pick]

theorem insertFix_black : insertFix (⟨d, p, false, s⟩ :: k) x = fill (⟨d, p, false, s⟩ :: k) x := by
  simp [insertFix]

theorem insertFix_top (x : ColorTree α) : insertFix [] x = x := by
  simp [insertFix, fill]

theorem settle_far (red : r.isRed = true) : settle d x p c (d.node l a e r) =
    (d.node (d.node x p false l) a c (r.paint false), false) := by
  cases d <;> simp [settle, Side.node, Side.pick, red]

theorem settle_near {u y : ColorTree α} {v : α} (black : r.isRed = false) :
    settle d x p c (d.node (d.node u v true y) a e r) =
      (d.node (d.node x p false u) v c (d.node y a false r), false) := by
  cases d <;> simp [settle, Side.node, Side.pick, black]

theorem settle_black (near : l.isRed = false) (far : r.isRed = false) :
    settle d x p c (d.node l a e r) = (d.node x p c (d.node l a true r), true) := by
  cases d <;> cases l <;> simp_all [settle, Side.node, Side.pick, isRed]

theorem deleteFix_red (red : x.isRed = true) : deleteFix k x = fill k (x.paint false) := by
  cases k <;> simp [deleteFix, fill, red]

theorem deleteFix_redSide (black : x.isRed = false) :
    deleteFix (⟨d, p, c, d.node l a true r⟩ :: k) x =
      fill (⟨d, a, false, r⟩ :: k)
        (if (settle d x p true l).2 then (settle d x p true l).1.paint false
          else (settle d x p true l).1) := by
  cases d <;> exact if_neg (by simp [black])

theorem deleteFix_blackSide (black : x.isRed = false) (side : s.isRed = false) :
    deleteFix (⟨d, p, c, s⟩ :: k) x = if (settle d x p c s).2
      then deleteFix k (settle d x p c s).1 else fill k (settle d x p c s).1 := by
  cases s <;> simp_all [deleteFix, isRed]

theorem red_cases (d : Side) (red : t.isRed = true) : ∃ l a r, t = d.node l a true r := by
  cases t with
  | leaf => cases red
  | node l a c r =>
    obtain rfl : c = true := red
    exact ⟨_, _, _, side_cases d l r⟩

theorem settle_toList : (settle d x p c w).1.toList = (d.node x p c w).toList := by
  cases w with
  | leaf => rfl
  | node l a e r =>
    rw [side_cases d l r]
    cases far : (d.pick r l).isRed with
    | true =>
      rw [settle_far far]
      cases d <;> simp [Side.node]
    | false =>
      cases near : (d.pick l r).isRed with
      | false =>
        rw [settle_black near far]
        cases d <;> simp [Side.node]
      | true =>
        obtain ⟨u, v, y, eq⟩ := red_cases d near
        rw [eq, settle_near far]
        cases d <;> simp [Side.node]

theorem insertFix_toList : (insertFix k x).toList = (fill k x).toList := by
  induction k, x using insertFix.induct with
  | case1 d p s e g c u k x red ih =>
    rw [insertFix_recolor red, ih]
    cases e <;> cases d <;> simp [fill, fill_toList, Side.node]
  | case2 p s e g c u k x black =>
    rw [insertFix_outer (by simpa using black)]
    cases e <;> simp [fill, fill_toList, Side.node]
  | case3 d p s e g c u k black inner l a b r =>
    obtain rfl : d = e.other := by cases d <;> cases e <;> simp_all [Side.other]
    rw [side_cases e l r, insertFix_inner (by simpa using black)]
    cases e <;> simp [fill, fill_toList, Side.node, Side.other]
  | case4 d p s e g c u k black inner =>
    simp [insertFix, black, inner]
  | case5 k x other =>
    simp [insertFix]

theorem deleteFix_toList : (deleteFix k x).toList = (fill k x).toList := by
  induction k generalizing x with
  | nil => simp [deleteFix, fill]
  | cons f k ih =>
    obtain ⟨d, p, c, s⟩ := f
    cases red : x.isRed with
    | true => simp [deleteFix_red red, fill_toList]
    | false =>
      cases side : s.isRed with
      | true =>
        obtain ⟨l, a, r, rfl⟩ := red_cases d side
        rw [deleteFix_redSide red, fill, fill, fill_toList, fill_toList]
        have eq := settle_toList (d := d) (x := x) (p := p) (c := true) (w := l)
        split <;> cases d <;> simp_all [Side.node]
      | false =>
        rw [deleteFix_blackSide red side, fill, fill_toList]
        split
        · rw [ih, fill_toList, settle_toList]
        · rw [fill_toList, settle_toList]

theorem insertFix_balanced (hx : Balanced x true n) (hk : Fits k false n) :
    ∃ c m, Balanced (insertFix k x) c m := by
  induction k, x using insertFix.induct generalizing n with
  | case1 d p s e g b u k x red ih =>
    cases hk with | red hs hk =>
    cases hk with | black hu hk =>
    obtain rfl := hu.isRed.symm.trans red
    rw [insertFix_recolor red]
    exact ih ((hx.blackSide hs).redSide hu.blacken) hk
  | case2 p s e g b u k x black =>
    have black : u.isRed = false := by simpa using black
    cases hk with | red hs hk =>
    cases hk with | black hu hk =>
    rw [insertFix_outer black]
    exact ⟨false, hk.fill (hx.blackSide (hs.redSide (hu.of_black black)))⟩
  | case3 d p s e g b u k black inner l a c r =>
    have black : u.isRed = false := by simpa using black
    obtain rfl : d = e.other := by cases d <;> cases e <;> simp_all [Side.other]
    cases hk with | red hs hk =>
    cases hk with | black hu hk =>
    obtain rfl := hx.isRed
    rw [side_cases e l r] at hx ⊢
    obtain ⟨-, hl, hr⟩ := hx.of_redSide
    rw [insertFix_inner black]
    exact ⟨false, hk.fill ((hs.redSide hl).blackSide (hr.redSide (hu.of_black black)))⟩
  | case4 => cases hx
  | case5 k x other =>
    rw [insertFix]
    · cases hk with
      | top => exact ⟨true, n, hx⟩
      | black hs hk => exact ⟨false, (Fits.black hs hk).fill hx⟩
      | red hs hk => cases hk with | black hu hk => exact (other _ _ _ _ _ _ _ _ rfl).elim
    · exact other

/-- The subtree is short of one black node, or is red and has one black node too few when it is
painted black. -/
def Short (x : ColorTree α) (n : ℕ) : Prop :=
  (x.isRed = true → Balanced (x.paint false) false (n + 1)) ∧
    (x.isRed = false → Balanced x false n)

theorem Short.of_balanced (h : Balanced x c n) : Short x n := by
  cases c with
  | false => exact ⟨fun red => by simp [h.isRed] at red, fun _ => h⟩
  | true => exact ⟨fun _ => h.blacken, fun black => by simp [h.isRed] at black⟩

/-- The parent gets back its colour and the height it had, or stays short. -/
theorem settle_balanced (hx : Balanced x false n) (hw : Balanced w false (n + 1)) :
    ((settle d x p c w).2 = false → Balanced (settle d x p c w).1 c (n + 1 + (!c).toNat)) ∧
    ((settle d x p c w).2 = true → (settle d x p c w).1.isRed = c ∧
      Short (settle d x p c w).1 (n + (!c).toNat)) := by
  cases w with
  | leaf => cases hw
  | node l a e r =>
    obtain rfl : e = false := hw.isRed
    rw [side_cases d l r] at hw ⊢
    obtain ⟨-, m, u, v, eq, hl, hr⟩ := hw.of_blackSide
    obtain rfl := Nat.succ.inj eq
    cases far : (d.pick r l).isRed with
    | true =>
      obtain rfl := hr.isRed.symm.trans far
      rw [settle_far far]
      exact ⟨fun _ => (hx.blackSide hl).side hr.blacken, fun short => Bool.noConfusion short⟩
    | false =>
      cases near : (d.pick l r).isRed with
      | true =>
        obtain ⟨l', b, r', red⟩ := red_cases d near
        rw [red] at hl ⊢
        obtain ⟨-, hl', hr'⟩ := hl.of_redSide
        rw [settle_near far]
        exact ⟨fun _ => (hx.blackSide hl').side (hr'.blackSide hr),
          fun short => Bool.noConfusion short⟩
      | false =>
        have red := (hl.of_black near).redSide (d := d) (a := a) (hr.of_black far)
        rw [settle_black near far]
        refine ⟨fun short => Bool.noConfusion short, fun _ => ⟨side_isRed, ?_⟩⟩
        cases c with
        | false => exact .of_balanced (hx.blackSide red)
        | true =>
          refine ⟨fun _ => ?_, fun black => ?_⟩
          · rw [side_paint]
            exact hx.blackSide red
          · simp at black

theorem deleteFix_balanced (hx : Short x n) (hk : Fits k c (n + 1)) :
    ∃ m, Balanced (deleteFix k x) false m := by
  induction k generalizing x c n with
  | nil =>
    rw [deleteFix]
    cases red : x.isRed with
    | true => exact ⟨_, hx.1 red⟩
    | false => exact ⟨_, (paint_self red).symm ▸ hx.2 red⟩
  | cons f k ih =>
    obtain ⟨d, p, b, s⟩ := f
    cases red : x.isRed with
    | true =>
      rw [deleteFix_red red]
      exact hk.mono.fill (hx.1 red)
    | false =>
      have hx := hx.2 red
      cases side : s.isRed with
      | true =>
        obtain ⟨l, a, r, rfl⟩ := red_cases d side
        cases hk with
        | red hs hk => cases hs.isRed.symm.trans side
        | black hs hk =>
          obtain ⟨rfl, hl, hr⟩ := hs.of_redSide
          obtain ⟨done, short⟩ := settle_balanced (d := d) (p := p) (c := true) hx hl
          rw [deleteFix_redSide red]
          split
          · rename_i h
            exact (Fits.black hr hk).fill ((short h).2.1 (short h).1)
          · rename_i h
            exact (Fits.black hr hk).fill (done (by simpa using h))
      | false =>
        rw [deleteFix_blackSide red side]
        cases hk with
        | red hs hk =>
          obtain ⟨done, short⟩ := settle_balanced (d := d) (p := p) (c := true) hx hs
          split
          · rename_i h
            exact ih (short h).2 hk
          · rename_i h
            exact hk.fill (done (by simpa using h))
        | black hs hk =>
          obtain ⟨done, short⟩ := settle_balanced (d := d) (p := p) (c := false) hx
            (hs.of_black side)
          split
          · rename_i h
            exact ih (short h).2 hk
          · rename_i h
            exact hk.fill (done (by simpa using h))

theorem descend_fill (gt : α → Bool) : fill (descend gt t k) leaf = fill k t := by
  induction t generalizing k with
  | leaf => rfl
  | node l a c r ihl ihr =>
    rw [descend]
    split
    · exact ihl
    · exact ihr

theorem insert_toList (gt : α → Bool) (z : α) (t : ColorTree α) :
    t.toList = before (descend gt t []) ++ after (descend gt t []) ∧
      (insert gt z t).toList = before (descend gt t []) ++ z :: after (descend gt t []) := by
  constructor
  · have same : fill (descend gt t []) leaf = t := descend_fill gt
    rw [← congrArg toList same, fill_toList]
    simp
  · simp [insert, insertFix_toList, fill_toList]

theorem insert_mem {gt : α → Bool} : a ∈ (insert gt z t).toList ↔ a = z ∨ a ∈ t.toList := by
  obtain ⟨front, back⟩ := insert_toList gt z t
  rw [front, back]
  simp only [List.mem_append, List.mem_cons]
  tauto

theorem insert_balanced (gt : α → Bool) (z : α) (h : Balanced t false n) :
    ∃ m, Balanced (insert gt z t) false m := by
  have same : fill (descend gt t []) leaf = t := descend_fill gt
  rw [← same] at h
  obtain ⟨c, m, none, fits⟩ := Fits.of_fill h
  cases none with
  | leaf =>
    obtain ⟨c, m, fixed⟩ := insertFix_balanced (.red (a := z) .leaf .leaf) fits
    exact fixed.paint

/-- In an ordered tree everything in front of the place is at most the new label, and
everything behind it at least. -/
theorem descend_ordered {le : α → α → Prop} {gt : α → Bool}
    (trans : ∀ a b c, le a b → le b c → le a c) (low : ∀ a, gt a = false → le a z)
    (high : ∀ a, gt a = true → le z a) (ordered : (fill k t).toList.Pairwise le)
    (front : ∀ a ∈ before k, le a z) (back : ∀ a ∈ after k, le z a) :
    (∀ a ∈ before (descend gt t k), le a z) ∧ ∀ a ∈ after (descend gt t k), le z a := by
  induction t generalizing k with
  | leaf => exact ⟨front, back⟩
  | node l a c r ihl ihr =>
    have parts := ordered
    simp only [fill_toList, toList_node, List.pairwise_append, List.pairwise_cons,
      List.mem_append] at parts
    rw [descend]
    split
    · rename_i greater
      refine ihl ordered front fun b hb => ?_
      simp only [after, List.cons_append, List.mem_cons, List.mem_append] at hb
      rcases hb with rfl | hb | hb
      · exact high b greater
      · exact trans z a b (high a greater) (parts.1.2.1.2.1.1 b hb)
      · exact back b hb
    · rename_i greater
      have less := low a (by simpa using greater)
      refine ihr ordered (fun b hb => ?_) back
      simp only [before, List.mem_append, List.mem_singleton] at hb
      rcases hb with hb | hb | rfl
      · exact front b hb
      · exact trans b a z (parts.1.2.1.2.2 b hb a (by simp)) less
      · exact less

theorem insert_ordered {le : α → α → Prop} {gt : α → Bool}
    (trans : ∀ a b c, le a b → le b c → le a c) (low : ∀ a, gt a = false → le a z)
    (high : ∀ a, gt a = true → le z a) (ordered : t.toList.Pairwise le) :
    (insert gt z t).toList.Pairwise le := by
  obtain ⟨split, place⟩ := insert_toList gt z t
  obtain ⟨front, back⟩ := descend_ordered (k := []) trans low high ordered
    (fun a ha => by cases ha) (fun a ha => by cases ha)
  rw [split] at ordered
  rw [place]
  simp only [List.pairwise_append, List.pairwise_cons, List.mem_cons] at ordered ⊢
  exact ⟨ordered.1, ⟨back, ordered.2.1⟩,
    fun a ha b hb => hb.elim (fun eq => eq ▸ front a ha) (ordered.2.2 a ha b)⟩

theorem splice_toList : (splice k c x).toList = (fill k x).toList := by
  unfold splice
  split
  · rfl
  · exact deleteFix_toList

theorem splice_balanced (hk : Fits k e n) (h : Balanced (d.node x a c leaf) e n) :
    ∃ m, Balanced (splice k c x) false m := by
  cases c with
  | true =>
    obtain ⟨rfl, hx, -⟩ := h.of_redSide
    exact hk.mono.fill hx
  | false =>
    obtain ⟨rfl, m, u, v, rfl, hx, -⟩ := h.of_blackSide
    exact deleteFix_balanced (.of_balanced hx) hk

theorem least_fill :
    fill (least t a c r k).1 (node leaf (least t a c r k).2.1 (least t a c r k).2.2.1
      (least t a c r k).2.2.2) = fill k (node t a c r) := by
  induction t generalizing a c r k with
  | leaf => rfl
  | node l b e s ihl _ => exact ihl

theorem least_before : before (least t a c r k).1 = before k := by
  induction t generalizing a c r k with
  | leaf => rfl
  | node l b e s ihl _ => exact ihl

variable [DecidableEq α]

theorem map_replace {l : List α} {y : α} (h : a ∉ l) :
    l.map (fun b => if b = a then y else b) = l :=
  (List.map_congr_left fun b hb => if_neg fun eq : b = a => h (eq ▸ hb)).trans (List.map_id l)

theorem delete_two (left : l ≠ leaf) : delete k l a c (node t p e r) =
    (splice (least t p e r (⟨.right, a, c, l⟩ :: k)).1
      (least t p e r (⟨.right, a, c, l⟩ :: k)).2.2.1
      (least t p e r (⟨.right, a, c, l⟩ :: k)).2.2.2).map
        fun b => if b = a then (least t p e r (⟨.right, a, c, l⟩ :: k)).2.1 else b := by
  cases l with
  | leaf => exact absurd rfl left
  | node l q v r => rfl

theorem delete_toList (nodup : (fill k (node l a c r)).toList.Nodup) :
    (delete k l a c r).toList = before k ++ l.toList ++ (r.toList ++ after k) := by
  cases l with
  | leaf => simp [delete, splice_toList, fill_toList]
  | node ll b e lr =>
    cases r with
    | leaf => simp [delete, splice_toList, fill_toList]
    | node rl q v rr =>
      rw [delete]
      · generalize node ll b e lr = l at nodup ⊢
        have back := least_fill (t := rl) (a := q) (c := v) (r := rr)
          (k := ⟨.right, a, c, l⟩ :: k)
        have front := least_before (t := rl) (a := q) (c := v) (r := rr)
          (k := ⟨.right, a, c, l⟩ :: k)
        generalize least rl q v rr (⟨.right, a, c, l⟩ :: k) = place at back front ⊢
        obtain ⟨k', y, c', s⟩ := place
        have whole := congrArg toList back
        rw [fill_toList, front, before, fill, Side.node, fill_toList, toList_node,
          toList_node l (.node rl q v rr)] at whole
        rw [fill_toList, toList_node] at nodup
        simp only [toList_leaf, List.nil_append, List.append_assoc, List.cons_append] at whole nodup
        -- `a` stands before its successor, and the rest behind that stays
        have rest := (List.cons.inj (List.append_cancel_left (List.append_cancel_left whole))).2
        rw [← List.append_assoc] at nodup
        have apart := List.nodup_middle.1 nodup
        rw [List.nodup_cons, List.mem_append, not_or, ← rest, List.mem_cons, not_or] at apart
        obtain ⟨⟨out, -, out'⟩, -⟩ := apart
        rw [map_toList, splice_toList, fill_toList, front, before, ← List.append_assoc,
          List.append_assoc _ s.toList, List.append_assoc _ [a], List.map_append,
          map_replace out, List.map_append, map_replace out', ← rest]
        simp
      · simp

theorem delete_balanced (h : Balanced (fill k (node l a c r)) false m) :
    ∃ m, Balanced (delete k l a c r) false m := by
  obtain ⟨e, n, node, fits⟩ := Fits.of_fill h
  cases l with
  | leaf =>
    rw [delete]
    exact splice_balanced (d := .right) fits node
  | node ll b w lr =>
    cases r with
    | leaf =>
      rw [delete]
      · exact splice_balanced (d := .left) fits node
      · simp
    | node rl q v rr =>
      rw [delete]
      · have back := least_fill (t := rl) (a := q) (c := v) (r := rr)
          (k := ⟨.right, a, c, ColorTree.node ll b w lr⟩ :: k)
        rw [fill, Side.node] at back
        rw [← back] at h
        obtain ⟨e, n, least, fits⟩ := Fits.of_fill h
        obtain ⟨m, done⟩ := splice_balanced (d := .right) fits least
        exact ⟨m, done.map _⟩
      · simp

end
end BrainMachine.TreeRepairs
