import BrainMachine.TreeInsertion
import BrainMachine.TreeDeletion

set_option autoImplicit false

namespace BrainMachine.TreeRequests
open Computations ColoredTrees ColorTree TreeMaps TreeNodes TreeNodeSteps
open TreeRepairs hiding insert

section
variable {ι : Type} {s u : Memory ι} {t l r : ColorTree (ℕ × ι)} {a b : ℕ × ι} {c : Bool}
  {k : Path (ℕ × ι)} {q nil root m : ℕ} {i : ι}

/-- The memory holds the nodes of a red-black tree and the sentinels, and nothing else. -/
structure RedBlack (s : Memory ι) (t : ColorTree (ℕ × ι)) : Prop where
  shows : Shows s [] t
  balanced : ∃ n, Balanced t false n
  used : ∀ q ∈ s.heap, q = s.root ∨ q = s.nil ∨ ∃ b ∈ t.toList, b.1 = q

theorem RedBlack.root_mem (h : RedBlack s t) : s.root ∈ s.heap :=
  Finmap.mem_of_lookup_eq_some h.shows.path

theorem RedBlack.nil_mem (h : RedBlack s t) : s.nil ∈ s.heap := by
  obtain ⟨cell, here, -⟩ := h.shows.black
  exact Finmap.mem_of_lookup_eq_some here

theorem RedBlack.nodup (h : RedBlack s t) : (t.toList.map Prod.fst).Nodup := h.shows.apart.nodup

theorem RedBlack.unique (h : RedBlack s t) (ha : a ∈ t.toList) (hb : b ∈ t.toList)
    (eq : a.1 = b.1) : a = b := List.inj_on_of_nodup_map h.nodup ha hb eq

theorem rep_item {h : Heap ι} {p : ℕ} (rep : Rep h nil p t) (mem : b ∈ t.toList) :
    ∃ cell, h.lookup b.1 = some cell ∧ cell.item = some b.2 := by
  induction t generalizing p with
  | leaf => cases mem
  | node l a c r ihl ihr =>
    obtain ⟨here, hl, hr⟩ := rep
    simp only [toList_node, List.mem_append, List.mem_cons] at mem
    rcases mem with mem | rfl | mem
    · exact ihl hl mem
    · exact ⟨_, here, rfl⟩
    · exact ihr hr mem

theorem RedBlack.key_ok (h : RedBlack s t) (mem : b ∈ t.toList) : key b.1 s = .ok (b.2, s) := by
  obtain ⟨cell, here, item⟩ := rep_item h.shows.tree mem
  rw [← bind_pure (key b.1), TreeNodeSteps.key_bind here item]
  rfl

theorem RedBlack.height (h : RedBlack s t) : t.height ≤ 2 * Nat.log 2 (t.toList.length + 1) := by
  obtain ⟨n, bal⟩ := h.balanced
  exact bal.height_le_log

theorem RedBlack.card (h : RedBlack s t) : s.heap.keys.card = t.toList.length + 2 := by
  have all : s.heap.keys = insert s.root (insert s.nil (t.toList.map Prod.fst).toFinset) := by
    ext q
    rw [Finmap.mem_keys, Finset.mem_insert, Finset.mem_insert, List.mem_toFinset, List.mem_map]
    refine ⟨h.used q, fun mem => ?_⟩
    rcases mem with rfl | rfl | ⟨b, hb, rfl⟩
    · exact h.root_mem
    · exact h.nil_mem
    · exact h.shows.tree.mem b hb
  have root : s.root ∉ insert s.nil (t.toList.map Prod.fst).toFinset := by
    rw [Finset.mem_insert, List.mem_toFinset, List.mem_map, not_or]
    refine ⟨h.shows.apart.distinct.symm, fun ⟨b, hb, eq⟩ => ?_⟩
    exact (h.shows.apart.inside b hb).2 eq
  have nil : s.nil ∉ (t.toList.map Prod.fst).toFinset := by
    rw [List.mem_toFinset, List.mem_map]
    exact fun ⟨b, hb, eq⟩ => (h.shows.apart.inside b hb).1 eq
  rw [all, Finset.card_insert_of_notMem root, Finset.card_insert_of_notMem nil,
    List.toFinset_card_of_nodup h.nodup, List.length_map]

theorem mem_of_lookup {h g : Heap ι} (same : g.lookup q = h.lookup q) (mem : q ∈ g) : q ∈ h := by
  rw [← Finmap.lookup_isSome] at mem ⊢
  rwa [← same]

theorem create_redBlack (ne : nil ≠ root) : RedBlack (RBTreeCreate nil root : Memory ι) leaf := by
  have none : (RBTreeCreate nil root : Memory ι).heap.lookup nil =
      some ⟨none, false, nil, nil, nil⟩ :=
    (Finmap.lookup_insert_of_ne _ ne).trans (Finmap.lookup_insert _)
  refine ⟨⟨Finmap.lookup_insert _, trivial, ⟨_, none, rfl⟩, ⟨List.nodup_nil, ?_, ne⟩⟩,
    ⟨0, .leaf⟩, fun q hq => ?_⟩
  · exact fun b hb => by cases hb
  · rw [RBTreeCreate, Finmap.mem_insert, Finmap.mem_insert] at hq
    rcases hq with rfl | rfl | hq
    · exact .inl rfl
    · exact .inr (.inl rfl)
    · exact absurd hq Finmap.notMem_empty

theorem RedBlack.insert (cmp : ι → ι → ℤ) (h : RedBlack s t) (i : ι) (fresh : q ∉ s.heap) : ∃ w,
    RBTreeInsert cmp q i s = .ok (q, w) ∧ w.root = s.root ∧ w.nil = s.nil ∧
      RedBlack w (TreeRepairs.insert (fun b => cmp b.2 i = 1) (q, i) t) := by
  obtain ⟨n, bal⟩ := h.balanced
  obtain ⟨w, run, shows, keeps⟩ := TreeInsertion.RBTreeInsert_run cmp (i := i) h.shows bal fresh
  refine ⟨w, run, keeps.root, keeps.nil, shows, insert_balanced _ _ bal, fun q' hq => ?_⟩
  rw [keeps.root, keeps.nil]
  by_cases root : q' = s.root
  · exact .inl root
  by_cases label : ∃ b ∈ (q, i) :: t.toList, b.1 = q'
  · obtain ⟨b, hb, eq⟩ := label
    exact .inr (.inr ⟨b, insert_mem.2 (List.mem_cons.1 hb), eq⟩)
  · have same := keeps.rest q' root fun b hb eq => label ⟨b, hb, eq⟩
    rcases h.used q' (mem_of_lookup same hq) with eq | eq | ⟨b, hb, eq⟩
    · exact .inl eq
    · exact .inr (.inl eq)
    · exact absurd ⟨b, List.mem_cons_of_mem _ hb, eq⟩ label

theorem RedBlack.delete [DecidableEq ι] (h : RedBlack s t) (mem : b ∈ t.toList) : ∃ w,
    RBDelete b.1 s = .ok (⟨⟩, w) ∧ w.root = s.root ∧ w.nil = s.nil ∧
      RedBlack w (erase (fun a => a.1 = b.1) t) := by
  obtain ⟨n, bal⟩ := h.balanced
  have rest := erase_toList (q := fun a => a.1 = b.1) (h.nodup.of_map Prod.fst)
  have bal' := erase_balanced (q := fun a => a.1 = b.1) bal
  rw [erase] at rest bal' ⊢
  cases here : find (fun a => a.1 = b.1) t [] with
  | none => simpa using find_none here b mem
  | some p =>
    obtain ⟨found, same, -⟩ := find_some here
    obtain ⟨k, l, a, c, r⟩ := p
    rw [here] at rest bal'
    have eq : a.1 = b.1 := by simpa using found
    have same : fill k (node l a c r) = t := same
    have place : Shows s k (node l a c r) := by
      refine shows_fill.2 ?_
      rw [same]
      exact h.shows
    rw [← same] at bal
    obtain ⟨w, run, shows, frees⟩ := TreeDeletion.RBDelete_run place bal
    rw [eq] at run frees
    refine ⟨w, run, frees.root, frees.nil, shows, bal', fun q hq => ?_⟩
    dsimp only at rest ⊢
    rw [same] at frees
    rw [frees.root, frees.nil, rest]
    by_cases root : q = s.root
    · exact .inl root
    by_cases none : q = s.nil
    · exact .inr (.inl none)
    by_cases label : ∃ b ∈ t.toList, b.1 = q
    · obtain ⟨b', hb', rfl⟩ := label
      have ne : b'.1 ≠ b.1 := fun eq => frees.free (eq ▸ hq)
      exact .inr (.inr ⟨b', (List.mem_eraseP_of_neg (by simpa using ne)).2 hb', rfl⟩)
    · have same := frees.rest q root none fun b hb eq => label ⟨b, hb, eq⟩
      rcases h.used q (mem_of_lookup same hq) with eq | eq | found
      · exact absurd eq root
      · exact absurd eq none
      · exact absurd found label

/-- The memories that requests lead to, with the nodes in use. The allocator answers any
address that is not. -/
inductive Built (cmp : ι → ι → ℤ) [DecidableEq ι] : Memory ι → List (ℕ × ι) → Prop
  | create (nil root : ℕ) (ne : nil ≠ root) : Built cmp (RBTreeCreate nil root) []
  | insert (s u : Memory ι) (l : List (ℕ × ι)) (q r : ℕ) (i : ι) (h : Built cmp s l)
      (fresh : q ∉ s.heap) (run : RBTreeInsert cmp q i s = .ok (r, u)) : Built cmp u ((q, i) :: l)
  | delete (s u : Memory ι) (l : List (ℕ × ι)) (b : ℕ × ι) (h : Built cmp s l) (mem : b ∈ l)
      (run : RBDelete b.1 s = .ok (⟨⟩, u)) : Built cmp u (l.erase b)

structure Comparison (cmp : ι → ι → ℤ) : Prop where
  total : ∀ a b, cmp a b ≠ 1 ∨ cmp b a ≠ 1
  trans : ∀ a b c, cmp a b ≠ 1 → cmp b c ≠ 1 → cmp a c ≠ 1

def Sorted (cmp : ι → ι → ℤ) (t : ColorTree (ℕ × ι)) : Prop :=
  t.toList.Pairwise fun a b => cmp a.2 b.2 ≠ 1

theorem Sorted.insert {cmp : ι → ι → ℤ} (comparison : Comparison cmp) (sorted : Sorted cmp t)
    (q : ℕ) (i : ι) : Sorted cmp (TreeRepairs.insert (fun b => cmp b.2 i = 1) (q, i) t) := by
  refine insert_ordered (fun a b c => comparison.trans a.2 b.2 c.2) (fun b low => ?_)
    (fun b high => ?_) sorted
  · simpa using low
  · exact (comparison.total b.2 i).resolve_left (not_not.2 (by simpa using high))

theorem eraseP_unique [DecidableEq ι] {l : List (ℕ × ι)} (nodup : (l.map Prod.fst).Nodup)
    (mem : b ∈ l) : l.eraseP (fun a => a.1 = b.1) = l.erase b := by
  induction l with
  | nil => rfl
  | cons a l ih =>
    obtain ⟨out, nodup⟩ := List.nodup_cons.1 nodup
    by_cases eq : a = b
    · rw [eq, List.eraseP_cons_of_pos (by simp), List.erase_cons_head]
    · have mem : b ∈ l := (List.mem_cons.1 mem).resolve_left (Ne.symm eq)
      have ne : a.1 ≠ b.1 := fun eq => out (eq ▸ List.mem_map_of_mem mem)
      rw [List.eraseP_cons_of_neg (by simpa using ne), ih nodup mem,
        List.erase_cons_tail (by simpa using eq)]

theorem RedBlack.erase_toList [DecidableEq ι] (h : RedBlack s t) (mem : b ∈ t.toList) :
    (erase (fun a => a.1 = b.1) t).toList = t.toList.erase b := by
  rw [TreeMaps.erase_toList (h.nodup.of_map Prod.fst), eraseP_unique h.nodup mem]

theorem Built.redBlack {cmp : ι → ι → ℤ} [DecidableEq ι] {L : List (ℕ × ι)} (h : Built cmp s L) :
    ∃ t, RedBlack s t ∧ t.toList.Perm L ∧ (Comparison cmp → Sorted cmp t) := by
  induction h with
  | create nil root ne => exact ⟨leaf, create_redBlack ne, .refl _, fun _ => List.Pairwise.nil⟩
  | insert s u l q r i h fresh run ih =>
    obtain ⟨t, tree, perm, sorted⟩ := ih
    obtain ⟨w, run', -, -, tree'⟩ := tree.insert cmp i fresh
    obtain ⟨-, rfl⟩ := Prod.mk.inj (Except.ok.inj (run'.symm.trans run))
    obtain ⟨before, after⟩ := insert_toList (fun b => cmp b.2 i = 1) (q, i) t
    refine ⟨_, tree', ?_, fun comparison => (sorted comparison).insert comparison q i⟩
    rw [before] at perm
    rw [after]
    exact List.perm_middle.trans (perm.cons _)
  | delete s u l b h mem run ih =>
    obtain ⟨t, tree, perm, sorted⟩ := ih
    obtain ⟨w, run', -, -, tree'⟩ := tree.delete (perm.mem_iff.2 mem)
    obtain ⟨-, rfl⟩ := Prod.mk.inj (Except.ok.inj (run'.symm.trans run))
    have rest := tree.erase_toList (perm.mem_iff.2 mem)
    refine ⟨_, tree', ?_, fun comparison => ?_⟩
    · rw [rest]
      exact perm.erase b
    · rw [Sorted, rest]
      exact (sorted comparison).sublist List.erase_sublist

/-- After every sequence of requests the memory holds a red-black tree of the nodes in use,
sorted and at most twice as high as a complete one, and the next request succeeds. -/
theorem requests_succeed (cmp : ι → ι → ℤ) [DecidableEq ι] (s : Memory ι) (L : List (ℕ × ι))
    (h : Built cmp s L) :
    (∃ t, RedBlack s t ∧ t.toList.Perm L ∧ t.height ≤ 2 * Nat.log 2 (L.length + 1) ∧
      (Comparison cmp → Sorted cmp t)) ∧
    (∀ q i, q ∉ s.heap → ∃ u, RBTreeInsert cmp q i s = .ok (q, u)) ∧
    ∀ b ∈ L, ∃ u, RBDelete b.1 s = .ok (⟨⟩, u) := by
  obtain ⟨t, tree, perm, sorted⟩ := h.redBlack
  refine ⟨⟨t, tree, perm, perm.length_eq ▸ tree.height, sorted⟩, fun q i fresh => ?_,
    fun b mem => ?_⟩
  · obtain ⟨u, run, -⟩ := tree.insert cmp i fresh
    exact ⟨u, run⟩
  · obtain ⟨u, run, -⟩ := tree.delete (perm.mem_iff.2 mem)
    exact ⟨u, run⟩

def byValue (a b : ℤ) : ℤ := if a > b then 1 else if a < b then -1 else 0

def inserted (cmp : ι → ι → ℤ) (q : ℕ) (i : ι) (s : Memory ι) : Memory ι :=
  (RBTreeInsert cmp q i s).toOption.elim s Prod.snd

def deleted (q : ℕ) (s : Memory ι) : Memory ι := (RBDelete q s).toOption.elim s Prod.snd

theorem Built.inserted {cmp : ι → ι → ℤ} [DecidableEq ι] {L : List (ℕ × ι)} (h : Built cmp s L)
    (q : ℕ) (i : ι) (fresh : q ∉ s.heap) :
    Built cmp (TreeRequests.inserted cmp q i s) ((q, i) :: L) := by
  obtain ⟨t, tree, -⟩ := h.redBlack
  obtain ⟨u, run, -⟩ := tree.insert cmp i fresh
  refine .insert s _ L q q i h fresh ?_
  rw [TreeRequests.inserted, run]
  rfl

theorem Built.deleted {cmp : ι → ι → ℤ} [DecidableEq ι] {L : List (ℕ × ι)} (h : Built cmp s L)
    (b : ℕ × ι) (mem : b ∈ L) : Built cmp (TreeRequests.deleted b.1 s) (L.erase b) := by
  obtain ⟨t, tree, perm, -⟩ := h.redBlack
  obtain ⟨u, run, -⟩ := tree.delete (perm.mem_iff.2 mem)
  refine .delete s _ L b h mem ?_
  rw [TreeRequests.deleted, run]
  rfl

def fourLeft : Memory ℤ :=
  deleted 3 (inserted byValue 7 7 (inserted byValue 6 4 (inserted byValue 5 9
    (inserted byValue 4 5 (inserted byValue 3 6 (RBTreeCreate 1 2))))))

theorem fourLeft_built : Built byValue fourLeft [(7, 7), (6, 4), (5, 9), (4, 5)] := by
  have three : Built byValue _ [(5, 9), (4, 5), (3, 6)] :=
    (((Built.create 1 2 (by decide)).inserted 3 6 (by decide)).inserted 4 5
      (by decide +kernel)).inserted 5 9 (by decide +kernel)
  exact ((three.inserted 6 4 (by decide +kernel)).inserted 7 7 (by decide +kernel)).deleted (3, 6)
    (by decide)

/-- The address of the deleted node may be used again. -/
theorem fourLeft_succeeds : ∃ u, RBTreeInsert byValue 3 6 fourLeft = .ok (3, u) :=
  (requests_succeed byValue fourLeft _ fourLeft_built).2.1 3 6 (by decide +kernel)

theorem upLoop_run (h : Shows s k t) (node : t ≠ leaf) (turns : k.length < m) :
    upLoop m (ptr s.nil t) (top s.root k) s =
      .ok ((after k).head?.elim s.root Prod.fst, s) := by
  obtain ⟨m, rfl⟩ : ∃ i, m = i + 1 := ⟨m - 1, by omega⟩
  induction k generalizing t m with
  | nil =>
    have inside : ptr s.nil t ≠ s.nil := by
      cases t with
      | leaf => exact absurd rfl node
      | node l b c r => exact (h.apart.inside b (mem_fill.2 (.inl (by simp)))).1
    rw [upLoop, top, TreeNodeSteps.right_bind h.path, if_neg inside]
    rfl
  | cons f k ih =>
    obtain ⟨d, a, c, x⟩ := f
    have up := shows_up.1 h
    cases d with
    | left =>
      rw [upLoop, top, Shows.right_bind up, if_neg (Apart.ptr_ne (d := .left) up.apart node)]
      rfl
    | right =>
      obtain ⟨m, rfl⟩ : ∃ i, m = i + 1 := ⟨m - 1, by simp at turns; omega⟩
      have rest := ih up (by simp [Side.node]) m (by simp at turns; omega)
      rw [upLoop, top, Shows.right_bind up, if_pos rfl, up.parent_bind]
      rwa [ptr_side] at rest

theorem least_head : (node t a c r).toList.head? = some (least t a c r k).2.1 := by
  induction t generalizing a c r k with
  | leaf => rfl
  | node l b e s ihl _ =>
    rw [toList_node, List.head?_append, ihl (k := ⟨.left, a, c, r⟩ :: k)]
    rfl

theorem TreeSuccessor_run (h : Shows s k (node l a c r)) : TreeSuccessor a.1 s =
    .ok ((r.toList ++ after k).head?.elim s.nil Prod.fst, s) := by
  cases r with
  | leaf =>
    have steps := (length_le k (node l a c leaf)).trans_lt h.card
    have up := upLoop_run h (by simp) steps
    rw [ptr_node] at up
    rw [TreeSuccessor, get_bind, h.right_bind, ptr_leaf, if_neg (not_not.2 rfl),
      Shows.parent_bind (d := .left) h, bind_of_ok up, toList_leaf, List.nil_append]
    cases first : (after k).head? with
    | none => rw [Option.elim_none, if_pos rfl]; rfl
    | some b =>
      have mem : b ∈ (fill k (node l a c leaf)).toList := by
        rw [fill_toList]
        exact List.mem_append_right _ (List.mem_of_head? first)
      rw [Option.elim_some, if_neg (h.apart.inside b mem).2]
      rfl
  | node t b e r =>
    rw [TreeDeletion.successor_run h, List.head?_append,
      least_head (k := ⟨.right, a, c, l⟩ :: k)]
    rfl

theorem leftmost_run (h : Shows s [] t) : leftLoop s.heap.keys.card s.root s =
    .ok (t.toList.head?.elim s.root Prod.fst, s) := by
  have card := h.card
  obtain ⟨m, eq⟩ : ∃ m, s.heap.keys.card = m + 1 := ⟨s.heap.keys.card - 1, by omega⟩
  rw [eq] at card ⊢
  rw [leftLoop, get_bind, TreeNodeSteps.left_bind h.path]
  cases t with
  | leaf =>
    rw [ptr_leaf, if_neg (not_not.2 rfl)]
    rfl
  | node l a c r =>
    have inside := (h.apart.inside a (mem_fill.2 (.inl (by simp)))).1
    have low := TreeDeletion.height_le l
    rw [ptr_node, if_pos inside, TreeNodeSteps.left_bind h.path, least_head (k := [])]
    refine TreeDeletion.leftLoop_run h ?_
    simp only [fill, toList_node, List.length_append, List.length_cons] at card
    omega

theorem RedBlack.successor (h : RedBlack s t) {front back : List (ℕ × ι)}
    (split : t.toList = front ++ b :: back) :
    TreeSuccessor b.1 s = .ok (back.head?.elim s.nil Prod.fst, s) := by
  obtain ⟨k, l, c, r, rfl⟩ := TreeDeletion.exists_place (a := b) (t := t) (by rw [split]; simp)
  have nodup := h.nodup.of_map Prod.fst
  have place : Shows s k (node l b c r) := shows_fill.2 h.shows
  have here : (fill k (node l b c r)).toList =
      (before k ++ l.toList) ++ b :: (r.toList ++ after k) := by
    simp [fill_toList]
  rw [here] at nodup split
  have out := (List.nodup_cons.1 (List.nodup_middle.1 nodup)).1
  rw [List.mem_append, not_or] at out
  obtain ⟨-, -, rest⟩ := (List.append_cons_inj_of_notMem out.1 out.2).1 split
  rw [TreeSuccessor_run place, rest]

/-- The leftmost node and then successor after successor are the nodes in use in the order of
their keys. -/
theorem walk_in_order (cmp : ι → ι → ℤ) [DecidableEq ι] (s : Memory ι) (L : List (ℕ × ι))
    (h : Built cmp s L) : ∃ order : List (ℕ × ι), order.Perm L ∧
      (Comparison cmp → order.Pairwise fun a b => cmp a.2 b.2 ≠ 1) ∧
      leftLoop s.heap.keys.card s.root s = .ok (order.head?.elim s.root Prod.fst, s) ∧
      ∀ front b back, order = front ++ b :: back →
        TreeSuccessor b.1 s = .ok (back.head?.elim s.nil Prod.fst, s) := by
  obtain ⟨t, tree, perm, sorted⟩ := h.redBlack
  exact ⟨t.toList, perm, sorted, leftmost_run tree.shows,
    fun front b back split => tree.successor split⟩

theorem byValue_le (a b : ℤ) : byValue a b ≠ 1 ↔ a ≤ b := by
  rw [byValue]
  split
  · omega
  · split <;> omega

theorem byValue_comparison : Comparison byValue := by
  refine ⟨fun a b => ?_, fun a b c hab hbc => ?_⟩
  · rw [byValue_le, byValue_le]
    omega
  · rw [byValue_le] at hab hbc ⊢
    omega

def inOrder : List (ℕ × ℤ) := [(6, 4), (4, 5), (7, 7), (5, 9)]

theorem fourLeft_walk : leftLoop fourLeft.heap.keys.card fourLeft.root fourLeft =
      .ok (inOrder.head?.elim fourLeft.root Prod.fst, fourLeft) ∧
    ∀ front b back, inOrder = front ++ b :: back →
      TreeSuccessor b.1 fourLeft = .ok (back.head?.elim fourLeft.nil Prod.fst, fourLeft) := by
  obtain ⟨order, perm, sorted, first, next⟩ := walk_in_order byValue fourLeft _ fourLeft_built
  have perm' : order.Perm inOrder := perm.trans (by decide)
  have keys : ∀ a ∈ inOrder, ∀ b ∈ inOrder, a.2 = b.2 → a = b := by decide
  have ascending : inOrder.Pairwise fun a b => byValue a.2 b.2 ≠ 1 := by decide
  obtain rfl : order = inOrder := by
    refine perm'.eq_of_pairwise (fun a b ha hb hab hba => ?_) (sorted byValue_comparison) ascending
    rw [byValue_le] at hab hba
    exact keys a (perm'.mem_iff.1 ha) b hb (le_antisymm hab hba)
  exact ⟨first, next⟩

end
end BrainMachine.TreeRequests
