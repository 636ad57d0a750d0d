import BrainMachine.TreeRepairs

set_option autoImplicit false

namespace BrainMachine.TreeMaps
open ColoredTrees ColorTree TreeRepairs

section
variable {α β : Type} {t s x w l r : ColorTree α} {a p z : α} {c e : Bool} {k : Path α} {d : Side}
  {n m : ℕ} (f : α → β)

def relabel (k : Path α) : Path β := k.map fun g => ⟨g.side, f g.label, g.red, g.sibling.map f⟩

@[simp] theorem relabel_nil : relabel f [] = [] := rfl

@[simp] theorem relabel_cons : relabel f (⟨d, a, c, s⟩ :: k) =
    ⟨d, f a, c, s.map f⟩ :: relabel f k := rfl

@[simp] theorem map_isRed : (t.map f).isRed = t.isRed := by cases t <;> rfl

@[simp] theorem map_paint : (t.map f).paint c = (t.paint c).map f := by cases t <;> rfl

theorem map_map {γ : Type} (g : β → γ) : (t.map f).map g = t.map fun b => g (f b) := by
  induction t with
  | leaf => rfl
  | node l a c r ihl ihr => simp only [ColorTree.map, ihl, ihr]

theorem map_congr {g h : α → β} (same : ∀ b ∈ t.toList, g b = h b) : t.map g = t.map h := by
  induction t with
  | leaf => rfl
  | node l a c r ihl ihr =>
    rw [ColorTree.map, ColorTree.map, ihl fun b hb => same b (by simp [hb]),
      ihr fun b hb => same b (by simp [hb]), same a (by simp)]

theorem map_self {g : α → α} (same : ∀ b ∈ t.toList, g b = b) : t.map g = t := by
  induction t with
  | leaf => rfl
  | node l a c r ihl ihr =>
    rw [ColorTree.map, ihl fun b hb => same b (by simp [hb]), ihr fun b hb => same b (by simp [hb]),
      same a (by simp)]

theorem relabel_self {g : α → α} (same : ∀ b ∈ before k ++ after k, g b = b) :
    relabel g k = k := by
  induction k with
  | nil => rfl
  | cons h k ih =>
    obtain ⟨d, a, c, s⟩ := h
    have sub (b : α) (hb : b = a ∨ b ∈ s.toList ∨ b ∈ before k ++ after k) : g b = b := by
      refine same b ?_
      rw [List.mem_append] at hb ⊢
      cases d <;> simp [before, after] <;> tauto
    rw [relabel_cons, ih fun b hb => sub b (.inr (.inr hb)),
      map_self fun b hb => sub b (.inr (.inl hb)), sub a (.inl rfl)]

theorem side_map : (d.node t a c s).map f = d.node (t.map f) (f a) c (s.map f) := by
  cases d <;> rfl

theorem fill_map : (fill k t).map f = fill (relabel f k) (t.map f) := by
  induction k generalizing t with
  | nil => rfl
  | cons g k ih =>
    rw [fill, ih, side_map]
    rfl

theorem insertFix_map : (insertFix k x).map f = insertFix (relabel f k) (x.map f) := by
  induction k, x using insertFix.induct with
  | case1 d p s e g b u k x red ih =>
    rw [insertFix_recolor red, ih]
    simp only [relabel_cons, side_map]
    rw [insertFix_recolor (by rwa [map_isRed]), map_paint]
  | case2 p s e g b u k x black =>
    have black : u.isRed = false := by simpa using black
    rw [insertFix_outer black, fill_map]
    simp only [relabel_cons, side_map]
    rw [insertFix_outer (by rwa [map_isRed])]
  | case3 d p s e g b u k black inner l a c r =>
    have black : u.isRed = false := by simpa using black
    obtain rfl : d = e.other := by cases d <;> cases e <;> simp_all [Side.other]
    rw [side_cases e l r, insertFix_inner black, fill_map]
    simp only [relabel_cons, side_map]
    rw [insertFix_inner (by rwa [map_isRed])]
  | case4 d p s e g b u k black inner => simp [insertFix, black, inner, fill_map, ColorTree.map]
  | case5 k x other =>
    rw [insertFix, fill_map]
    · rcases k with _ | ⟨⟨d, p, c, s⟩, k⟩
      · exact (insertFix_top _).symm
      · cases c with
        | false => exact insertFix_black.symm
        | true =>
          rcases k with _ | ⟨⟨e, g, b, u⟩, k⟩
          · simp [insertFix]
          · exact (other _ _ _ _ _ _ _ _ rfl).elim
    · exact other

variable {f} in
theorem descend_map {gt : α → Bool} {lt : β → Bool} (same : ∀ b ∈ t.toList, lt (f b) = gt b) :
    descend lt (t.map f) (relabel f k) = relabel f (descend gt t k) := by
  induction t generalizing k with
  | leaf => rfl
  | node l a c r ihl ihr =>
    rw [ColorTree.map, descend, descend, same a (by simp)]
    split
    · exact ihl (k := ⟨.left, a, c, r⟩ :: k) fun b hb => same b (by simp [hb])
    · exact ihr (k := ⟨.right, a, c, l⟩ :: k) fun b hb => same b (by simp [hb])

variable {f} in
theorem insert_map {gt : α → Bool} {lt : β → Bool} (same : ∀ b ∈ t.toList, lt (f b) = gt b)
    (z : α) : (insert gt z t).map f = insert lt (f z) (t.map f) := by
  have place := descend_map (k := []) same
  rw [relabel_nil] at place
  unfold TreeRepairs.insert
  rw [← map_paint, insertFix_map, ← place]
  rfl

theorem settle_map : settle d (x.map f) (f p) c (w.map f) =
    ((settle d x p c w).1.map f, (settle d x p c w).2) := by
  cases w with
  | leaf => simp [settle, ColorTree.map, side_map]
  | node l a e r =>
    rw [side_cases d l r, side_map]
    cases far : (d.pick r l).isRed with
    | true =>
      rw [settle_far far, settle_far (by rwa [map_isRed])]
      simp only [side_map, map_paint]
    | false =>
      cases near : (d.pick l r).isRed with
      | true =>
        obtain ⟨u, v, y, eq⟩ := red_cases d near
        rw [eq, settle_near far, side_map, settle_near (by rwa [map_isRed])]
        simp only [side_map]
      | false =>
        rw [settle_black near far, settle_black (by rwa [map_isRed]) (by rwa [map_isRed])]
        simp only [side_map]

theorem deleteFix_map : (deleteFix k x).map f = deleteFix (relabel f k) (x.map f) := by
  induction k generalizing x with
  | nil => rw [relabel_nil, deleteFix, deleteFix, map_paint]
  | cons g k ih =>
    obtain ⟨d, p, c, s⟩ := g
    rw [relabel_cons]
    cases red : x.isRed with
    | true =>
      rw [deleteFix_red red, deleteFix_red (by rwa [map_isRed]), fill_map, map_paint]
      rfl
    | false =>
      cases side : s.isRed with
      | true =>
        obtain ⟨l, a, r, rfl⟩ := red_cases d side
        rw [deleteFix_redSide red, side_map, deleteFix_redSide (by rwa [map_isRed]), fill_map,
          settle_map, relabel_cons]
        split <;> simp
      | false =>
        rw [deleteFix_blackSide red side, deleteFix_blackSide (by rwa [map_isRed])
          (by rwa [map_isRed]), settle_map]
        split
        · exact ih
        · exact fill_map f

theorem least_map : least (t.map f) (f a) c (r.map f) (relabel f k) =
    (relabel f (least t a c r k).1, f (least t a c r k).2.1, (least t a c r k).2.2.1,
      (least t a c r k).2.2.2.map f) := by
  induction t generalizing a c r k with
  | leaf => rfl
  | node l b e s ihl _ => exact ihl (k := ⟨.left, a, c, r⟩ :: k)

theorem splice_map : (splice k c x).map f = splice (relabel f k) c (x.map f) := by
  cases c with
  | true => exact fill_map f
  | false => exact deleteFix_map f

theorem least_mem : ∀ b ∈ (fill (least t a c r k).1 (least t a c r k).2.2.2).toList,
    b ∈ (fill k (node t a c r)).toList := by
  intro b hb
  rw [← least_fill]
  simp only [fill_toList, toList_node, toList_leaf, List.nil_append, List.mem_append,
    List.mem_cons] at hb ⊢
  tauto

variable {f} in
theorem delete_map [DecidableEq α] [DecidableEq β]
    (apart : ∀ b ∈ (fill k (node l a c r)).toList, f b = f a → b = a) :
    (delete k l a c r).map f = delete (relabel f k) (l.map f) (f a) c (r.map f) := by
  cases l with
  | leaf => exact splice_map f
  | node ll q v lr =>
    cases r with
    | leaf => exact splice_map f
    | node rl b e rr =>
      have down := least_map f (t := rl) (a := b) (c := e) (r := rr)
        (k := ⟨.right, a, c, node ll q v lr⟩ :: k)
      rw [relabel_cons] at down
      have sub := least_mem (t := rl) (a := b) (c := e) (r := rr)
        (k := ⟨.right, a, c, node ll q v lr⟩ :: k)
      rw [ColorTree.map.eq_2 f rl, delete_two (by simp), delete_two (by simp [ColorTree.map]), down]
      generalize least rl b e rr (⟨.right, a, c, node ll q v lr⟩ :: k) = place at sub ⊢
      obtain ⟨k', y, cy, s⟩ := place
      rw [← splice_map, map_map, map_map]
      refine map_congr fun b hb => ?_
      rw [splice_toList] at hb
      by_cases eq : b = a
      · rw [if_pos eq, eq, if_pos rfl]
      · rw [if_neg eq, if_neg fun eq' => eq (apart b (sub b hb) eq')]

end

section
variable {α : Type} [DecidableEq α] {t : ColorTree α} {k : Path α} {q : α → Bool} {n : ℕ}

def find (q : α → Bool) :
    ColorTree α → Path α → Option (Path α × ColorTree α × α × Bool × ColorTree α)
  | leaf, _ => none
  | node l a c r, k =>
    (find q l (⟨.left, a, c, r⟩ :: k)).or
      (if q a then some (k, l, a, c, r) else find q r (⟨.right, a, c, l⟩ :: k))

def erase (q : α → Bool) (t : ColorTree α) : ColorTree α :=
  match find q t [] with
  | some (k, l, a, c, r) => delete k l a c r
  | none => t

omit [DecidableEq α] in
theorem find_none (none : find q t k = none) : ∀ b ∈ t.toList, q b = false := by
  induction t generalizing k with
  | leaf => simp
  | node l a c r ihl ihr =>
    rw [find, Option.or_eq_none_iff] at none
    obtain ⟨hl, hr⟩ := none
    split at hr
    · cases hr
    · rename_i ha
      intro b hb
      simp only [toList_node, List.mem_append, List.mem_cons] at hb
      rcases hb with hb | rfl | hb
      · exact ihl hl b hb
      · simpa using ha
      · exact ihr hr b hb

omit [DecidableEq α] in
theorem find_some {p : Path α × ColorTree α × α × Bool × ColorTree α} (here : find q t k = some p) :
    q p.2.2.1 = true ∧ fill p.1 (node p.2.1 p.2.2.1 p.2.2.2.1 p.2.2.2.2) = fill k t ∧
      ∃ u, before p.1 ++ p.2.1.toList = before k ++ u ∧ ∀ b ∈ u, q b = false := by
  induction t generalizing k with
  | leaf => cases here
  | node l a c r ihl ihr =>
    rw [find] at here
    cases first : find q l (⟨.left, a, c, r⟩ :: k) with
    | some p' =>
      rw [first] at here
      obtain rfl : p' = p := Option.some.inj here
      exact ihl first
    | none =>
      have low := find_none first
      rw [first, Option.none_or] at here
      split at here
      · rename_i ha
        obtain rfl := Option.some.inj here
        exact ⟨ha, rfl, l.toList, rfl, low⟩
      · rename_i ha
        obtain ⟨found, same, u, eq, out⟩ := ihr here
        refine ⟨found, same, l.toList ++ a :: u, by simp [eq, before], fun b hb => ?_⟩
        rcases List.mem_append.1 hb with hb | hb
        · exact low b hb
        · rcases List.mem_cons.1 hb with rfl | hb
          · simpa using ha
          · exact out b hb

omit [DecidableEq α] in
theorem find_congr {q' : α → Bool} (same : ∀ b ∈ t.toList, q b = q' b) :
    find q t k = find q' t k := by
  induction t generalizing k with
  | leaf => rfl
  | node l a c r ihl ihr =>
    rw [find, find, ihl fun b hb => same b (by simp [hb]), ihr fun b hb => same b (by simp [hb]),
      same a (by simp)]

theorem erase_congr {q' : α → Bool} (same : ∀ b ∈ t.toList, q b = q' b) :
    erase q t = erase q' t := by
  rw [erase, erase, find_congr same]

omit [DecidableEq α] in
theorem find_map {β : Type} (f : α → β) (q : β → Bool) :
    find q (t.map f) (relabel f k) = (find (fun b => q (f b)) t k).map fun p =>
      (relabel f p.1, p.2.1.map f, f p.2.2.1, p.2.2.2.1, p.2.2.2.2.map f) := by
  induction t generalizing k with
  | leaf => rfl
  | node l a c r ihl ihr =>
    have left := ihl (k := ⟨.left, a, c, r⟩ :: k)
    have right := ihr (k := ⟨.right, a, c, l⟩ :: k)
    rw [relabel_cons] at left right
    rw [ColorTree.map, find, left, right, find]
    cases find (fun b => q (f b)) l (⟨.left, a, c, r⟩ :: k) with
    | some p => rfl
    | none =>
      rw [Option.none_or, Option.map_none, Option.none_or]
      split <;> rfl

theorem erase_map {β : Type} [DecidableEq β] {f : α → β} (q : β → Bool)
    (apart : ∀ b ∈ t.toList, ∀ b' ∈ t.toList, f b = f b' → b = b') :
    (erase (fun b => q (f b)) t).map f = erase q (t.map f) := by
  have found := find_map (t := t) (k := []) f q
  rw [relabel_nil] at found
  rw [erase, erase, found]
  cases here : find (fun b => q (f b)) t [] with
  | none => rfl
  | some p =>
    obtain ⟨-, same, -⟩ := find_some here
    rw [fill] at same
    obtain ⟨k, l, a, c, r⟩ := p
    refine delete_map fun b hb eq => ?_
    have mem : a ∈ (fill k (node l a c r)).toList := by simp [fill_toList]
    exact apart b (same ▸ hb) a (same ▸ mem) eq

theorem erase_toList (nodup : t.toList.Nodup) : (erase q t).toList = t.toList.eraseP q := by
  rw [erase]
  cases here : find q t [] with
  | none =>
    exact (List.eraseP_of_forall_not fun b hb => by simp [find_none here b hb]).symm
  | some p =>
    obtain ⟨found, same, u, eq, out⟩ := find_some here
    rw [fill] at same
    obtain ⟨k, l, a, c, r⟩ := p
    dsimp only at found same eq ⊢
    rw [← same] at nodup ⊢
    have eq : before k ++ l.toList = u := eq
    have split : (fill k (node l a c r)).toList = u ++ a :: (r.toList ++ after k) := by
      simp [fill_toList, ← eq]
    rw [delete_toList nodup, eq, split, List.eraseP_append_right _ fun b hb => by simp [out b hb],
      List.eraseP_cons_of_pos found]

theorem erase_balanced (h : Balanced t false n) : ∃ m, Balanced (erase q t) false m := by
  rw [erase]
  cases here : find q t [] with
  | none => exact ⟨n, h⟩
  | some p =>
    obtain ⟨-, same, -⟩ := find_some here
    rw [fill] at same
    rw [← same] at h
    exact delete_balanced h

end
end BrainMachine.TreeMaps
