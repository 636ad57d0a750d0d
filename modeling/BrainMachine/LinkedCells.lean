import Mathlib.Data.Finmap
import Mathlib.Data.Fintype.EquivFin
import BrainMachine.Computations

set_option autoImplicit false

/-!
# Linked lists in memory

A cell lies at an address and holds a value and a pointer to the next cell. `Chain` relates
the cells between two pointers to a list. The lemmas say what storing, allocating and freeing
one cell does to a chain.
-/
namespace BrainMachine.LinkedCells
open Computations

structure Cell (α : Type) where
  val : α
  next : Option ℕ
  deriving DecidableEq, Repr

abbrev Heap (α : Type) := Finmap fun _ : ℕ => Cell α

structure Store (α ρ : Type) where
  heap : Heap α
  vars : ρ

section
variable {α ρ β : Type}

def load (a : ℕ) : Exec (Store α ρ) (Cell α) := do
  let s ← get
  match s.heap.lookup a with
  | some c => pure c
  | none => fault .undefined

def store (a : ℕ) (c : Cell α) : Exec (Store α ρ) PUnit := do
  let s ← get
  if a ∈ s.heap then set { s with heap := s.heap.insert a c } else fault .undefined

/-- A new cell; the address is the one that the allocator answered. -/
def alloc (a : ℕ) (c : Cell α) : Exec (Store α ρ) PUnit :=
  modify fun s => { s with heap := s.heap.insert a c }

def free (a : ℕ) : Exec (Store α ρ) PUnit := do
  let s ← get
  if a ∈ s.heap then set { s with heap := s.heap.erase a } else fault .undefined

def deref (p : Option ℕ) : Exec (Store α ρ) ℕ :=
  match p with
  | some a => pure a
  | none => fault .undefined

def assign (f : ρ → ρ) : Exec (Store α ρ) PUnit := modify fun s => { s with vars := f s.vars }

/-- `for (; p->next != NULL && !stop(p->next); p = p->next);` where a walk of more turns than
there are cells never ends. -/
def seek (stop : α → Bool) : ℕ → ℕ → Exec (Store α ρ) ℕ
  | 0, _ => fault .diverges
  | n + 1, p => do
    let c ← load p
    match c.next with
    | none => pure p
    | some q => do
      let d ← load q
      if stop d.val then pure p else seek stop n q

variable {s : Store α ρ} {a : ℕ} {c : Cell α}

theorem load_bind (here : s.heap.lookup a = some c) (f : Cell α → Exec (Store α ρ) β) :
    (load a >>= f) s = f c s := by
  apply bind_of_ok
  rw [load, get_bind, here]
  rfl

theorem store_bind (here : s.heap.lookup a = some c) (d : Cell α)
    (f : PUnit → Exec (Store α ρ) β) :
    (store a d >>= f) s = f ⟨⟩ { s with heap := s.heap.insert a d } := by
  apply bind_of_ok
  rw [store, get_bind, if_pos (Finmap.mem_of_lookup_eq_some here)]
  rfl

theorem free_bind (here : s.heap.lookup a = some c) (f : PUnit → Exec (Store α ρ) β) :
    (free a >>= f) s = f ⟨⟩ { s with heap := s.heap.erase a } := by
  apply bind_of_ok
  rw [free, get_bind, if_pos (Finmap.mem_of_lookup_eq_some here)]
  rfl

theorem deref_bind (a : ℕ) (f : ℕ → Exec (Store α ρ) β) :
    (deref (some a) >>= f) s = f a s := rfl

theorem alloc_bind (a : ℕ) (d : Cell α) (f : PUnit → Exec (Store α ρ) β) :
    (alloc a d >>= f) s = f ⟨⟩ { s with heap := s.heap.insert a d } := rfl

theorem assign_bind (g : ρ → ρ) (f : PUnit → Exec (Store α ρ) β) :
    (assign g >>= f) s = f ⟨⟩ { s with vars := g s.vars } := rfl

end

section
variable {α : Type} {h g : Heap α} {p q n : Option ℕ} {a d : ℕ} {v w : α} {l c t : List (ℕ × α)}

/-- The cells from `p` up to `q`, with their addresses. -/
inductive Chain (h : Heap α) : Option ℕ → List (ℕ × α) → Option ℕ → Prop
  | nil (p : Option ℕ) : Chain h p [] p
  | cons {a : ℕ} {v : α} {n q : Option ℕ} {l : List (ℕ × α)} (here : h.lookup a = some ⟨v, n⟩)
      (rest : Chain h n l q) : Chain h (some a) ((a, v) :: l) q

def addresses (l : List (ℕ × α)) : List ℕ := l.map Prod.fst

@[simp] theorem addresses_nil : addresses ([] : List (ℕ × α)) = [] := rfl

@[simp] theorem addresses_cons (x : ℕ × α) (l : List (ℕ × α)) :
    addresses (x :: l) = x.1 :: addresses l := rfl

@[simp] theorem addresses_append (l t : List (ℕ × α)) :
    addresses (l ++ t) = addresses l ++ addresses t := List.map_append

@[simp] theorem chain_nil : Chain h p [] q ↔ p = q := by
  constructor
  · intro chain
    cases chain
    rfl
  · rintro rfl
    exact .nil p

theorem chain_cons : Chain h p ((a, v) :: l) q ↔
    p = some a ∧ ∃ n, h.lookup a = some ⟨v, n⟩ ∧ Chain h n l q := by
  constructor
  · intro chain
    cases chain with
    | cons here rest => exact ⟨rfl, _, here, rest⟩
  · rintro ⟨rfl, n, here, rest⟩
    exact .cons here rest

theorem chain_append : Chain h p (l ++ t) q ↔ ∃ m, Chain h p l m ∧ Chain h m t q := by
  induction l generalizing p with
  | nil => simp
  | cons x l ih =>
    obtain ⟨a, v⟩ := x
    rw [List.cons_append, chain_cons]
    simp only [chain_cons, ih]
    constructor
    · rintro ⟨rfl, n, here, m, front, back⟩
      exact ⟨m, ⟨rfl, n, here, front⟩, back⟩
    · rintro ⟨m, ⟨rfl, n, here, front⟩, back⟩
      exact ⟨rfl, n, here, m, front, back⟩

theorem chain_middle : Chain h p (l ++ (a, v) :: t) q ↔
    Chain h p l (some a) ∧ ∃ n, h.lookup a = some ⟨v, n⟩ ∧ Chain h n t q := by
  rw [chain_append]
  simp only [chain_cons]
  constructor
  · rintro ⟨m, front, rfl, rest⟩
    exact ⟨front, rest⟩
  · rintro ⟨front, rest⟩
    exact ⟨some a, front, rfl, rest⟩

theorem Chain.split (chain : Chain h p (l ++ (a, v) :: t) q)
    (here : h.lookup a = some ⟨v, n⟩) : Chain h p l (some a) ∧ Chain h n t q := by
  obtain ⟨front, m, there, back⟩ := chain_middle.1 chain
  obtain ⟨-, rfl⟩ := Cell.mk.inj (Option.some.inj (here.symm.trans there))
  exact ⟨front, back⟩

theorem Chain.congr (chain : Chain h p l q) (same : ∀ a ∈ addresses l, g.lookup a = h.lookup a) :
    Chain g p l q := by
  induction chain with
  | nil p => exact .nil p
  | cons here rest ih =>
    refine .cons ((same _ List.mem_cons_self).trans here) (ih fun a ha => ?_)
    exact same a (List.mem_cons_of_mem _ ha)

theorem Chain.insert (chain : Chain h p l q) (out : a ∉ addresses l) (x : Cell α) :
    Chain (h.insert a x) p l q := by
  refine chain.congr fun b hb => Finmap.lookup_insert_of_ne h ?_
  rintro rfl
  exact out hb

theorem Chain.erase (chain : Chain h p l q) (out : a ∉ addresses l) :
    Chain (h.erase a) p l q := by
  refine chain.congr fun b hb => Finmap.lookup_erase_ne ?_
  rintro rfl
  exact out hb

theorem Chain.mem (chain : Chain h p l q) (ha : a ∈ addresses l) : a ∈ h := by
  induction chain with
  | nil p => cases ha
  | cons here rest ih =>
    rcases List.mem_cons.1 ha with rfl | ha
    · exact Finmap.mem_of_lookup_eq_some here
    · exact ih ha

theorem Chain.unique (chain : Chain h p l none) (other : Chain h p t none) : l = t := by
  induction l generalizing p t with
  | nil =>
    obtain rfl := chain_nil.1 chain
    cases other
    rfl
  | cons x l ih =>
    obtain ⟨a, v⟩ := x
    obtain ⟨rfl, n, here, rest⟩ := chain_cons.1 chain
    cases other with
    | cons there rest' =>
      obtain ⟨rfl, rfl⟩ := Cell.mk.inj (Option.some.inj (here.symm.trans there))
      rw [ih rest rest']

theorem Chain.nodup (chain : Chain h p l none) : (addresses l).Nodup := by
  induction l generalizing p with
  | nil => exact List.nodup_nil
  | cons x l ih =>
    obtain ⟨a, v⟩ := x
    obtain ⟨rfl, n, here, rest⟩ := chain_cons.1 chain
    refine List.nodup_cons.2 ⟨fun again => ?_, ih rest⟩
    obtain ⟨⟨b, w⟩, hb, rfl⟩ := List.mem_map.1 again
    obtain ⟨c, t, rfl⟩ := List.append_of_mem hb
    have back := (chain_append.1 rest).choose_spec.2
    obtain ⟨same, -⟩ := chain_cons.1 back
    rw [same] at back
    have length := congrArg List.length (chain.unique back)
    simp only [List.length_cons, List.length_append] at length
    omega

theorem Chain.length_le (chain : Chain h p l none) : l.length ≤ h.keys.card := by
  have sub : (addresses l).toFinset ⊆ h.keys := by
    intro a ha
    exact Finmap.mem_keys.2 (chain.mem (List.mem_toFinset.1 ha))
  have card := Finset.card_le_card sub
  rw [List.toFinset_card_of_nodup chain.nodup] at card
  exact (List.length_map Prod.fst).symm.trans_le card

theorem exists_fresh (h : Heap α) : ∃ a, a ∉ h := by
  obtain ⟨a, out⟩ := Infinite.exists_notMem_finset h.keys
  exact ⟨a, mt Finmap.mem_keys.2 out⟩

theorem erase_insert (fresh : a ∉ h) (x : Cell α) : (h.insert a x).erase a = h := by
  apply Finmap.ext_lookup
  intro b
  by_cases same : b = a
  · rw [same, Finmap.lookup_erase, Finmap.lookup_eq_none.2 fresh]
  · rw [Finmap.lookup_erase_ne same, Finmap.lookup_insert_of_ne _ same]

theorem Chain.apart (chain : Chain h p (c ++ (a, v) :: t) none) :
    a ∉ addresses c ∧ a ∉ addresses t ∧ ∀ b ∈ addresses c, b ∉ addresses t := by
  have nodup := chain.nodup
  rw [addresses_append, addresses_cons] at nodup
  obtain ⟨-, back, apart⟩ := List.nodup_append'.1 nodup
  refine ⟨fun ha => apart ha List.mem_cons_self, (List.nodup_cons.1 back).1, fun b hb ht => ?_⟩
  exact apart hb (List.mem_cons_of_mem _ ht)

theorem Chain.update (chain : Chain h p (c ++ (a, v) :: t) none)
    (here : h.lookup a = some ⟨v, n⟩) (w : α) :
    Chain (h.insert a ⟨w, n⟩) p (c ++ (a, w) :: t) none := by
  obtain ⟨before, behind, -⟩ := chain.apart
  obtain ⟨front, back⟩ := chain.split here
  exact chain_middle.2
    ⟨front.insert before _, n, Finmap.lookup_insert h, back.insert behind _⟩

theorem Chain.pop (chain : Chain h (some a) ((a, v) :: t) none)
    (here : h.lookup a = some ⟨v, n⟩) : Chain (h.erase a) n t none := by
  have out := (List.nodup_cons.1 chain.nodup).1
  exact (Chain.split (l := []) chain here).2.erase out

theorem Chain.push (chain : Chain h p l none) (fresh : a ∉ h) (v : α) :
    Chain (h.insert a ⟨v, p⟩) (some a) ((a, v) :: l) none :=
  .cons (Finmap.lookup_insert h) (chain.insert (mt chain.mem fresh) _)

theorem Chain.unlink (chain : Chain h p (c ++ (d, w) :: (a, v) :: t) none)
    (here : h.lookup a = some ⟨v, n⟩) :
    Chain ((h.insert d ⟨w, n⟩).erase a) p (c ++ (d, w) :: t) none := by
  obtain ⟨before, behind, apart⟩ := chain.apart
  obtain ⟨front, m, there, rest⟩ := chain_middle.1 chain
  have tail := (List.nodup_cons.1 rest.nodup).1
  have back := (Chain.split (l := []) rest here).2
  have other : d ≠ a := fun eq => behind (eq ▸ List.mem_cons_self)
  refine chain_middle.2 ⟨(front.insert before _).erase fun ha => ?_, n, ?_, ?_⟩
  · exact apart a ha List.mem_cons_self
  · rw [Finmap.lookup_erase_ne other, Finmap.lookup_insert]
  · exact (back.insert (fun ht => behind (List.mem_cons_of_mem _ ht)) _).erase tail

theorem Chain.link (chain : Chain h p (c ++ (d, w) :: t) none)
    (here : h.lookup d = some ⟨w, n⟩) (fresh : a ∉ h) (v : α) :
    Chain ((h.insert a ⟨v, n⟩).insert d ⟨w, some a⟩) p (c ++ (d, w) :: (a, v) :: t) none := by
  obtain ⟨before, behind, -⟩ := chain.apart
  obtain ⟨front, back⟩ := chain.split here
  have other : d ≠ a := fun eq => fresh (eq ▸ Finmap.mem_of_lookup_eq_some here)
  have out (l : List (ℕ × α)) (sub : ∀ x ∈ addresses l, x ∈ h) : a ∉ addresses l :=
    fun ha => fresh (sub a ha)
  refine chain_middle.2 ⟨(front.insert (out c fun x => front.mem) _).insert before _, some a,
    Finmap.lookup_insert _, .cons ?_ ((back.insert (out t fun x => back.mem) _).insert behind _)⟩
  rw [Finmap.lookup_insert_of_ne _ other.symm, Finmap.lookup_insert]

end

section
variable {α ρ : Type}

/-- The walk passes the cells without `stop` and leaves the memory alone. -/
theorem seek_run (stop : α → Bool) {s : Store α ρ} {p n : ℕ} {v : α} {l : List (ℕ × α)}
    (chain : Chain s.heap (some p) ((p, v) :: l) none) (turns : l.length < n) :
    ∃ b t c d w, l = b ++ t ∧ (p, v) :: b = c ++ [(d, w)] ∧ seek stop n p s = .ok (d, s) ∧
      (∀ x ∈ b, stop x.2 = false) ∧ ∀ x ∈ t.head?, stop x.2 = true := by
  induction l generalizing p v n with
  | nil =>
    obtain ⟨n, rfl⟩ := Nat.exists_eq_add_one_of_ne_zero (Nat.ne_zero_of_lt turns)
    obtain ⟨-, m, here, last⟩ := chain_cons.1 chain
    obtain rfl := chain_nil.1 last
    refine ⟨[], [], [], p, v, rfl, rfl, ?_, by simp, by simp⟩
    rw [seek, load_bind here]
    rfl
  | cons x l ih =>
    obtain ⟨q, w⟩ := x
    obtain ⟨n, rfl⟩ := Nat.exists_eq_add_one_of_ne_zero (Nat.ne_zero_of_lt turns)
    obtain ⟨-, m, here, rest⟩ := chain_cons.1 chain
    obtain ⟨rfl, m', next, -⟩ := chain_cons.1 rest
    have step : seek stop (n + 1) p s =
        (if stop w then pure p else seek stop n q : Exec (Store α ρ) ℕ) s := by
      rw [seek, load_bind here]
      change (load q >>= _) s = _
      rw [load_bind next]
    by_cases found : stop w = true
    · refine ⟨[], (q, w) :: l, [], p, v, rfl, rfl, ?_, by simp, by simpa using found⟩
      rw [step, if_pos found]
      rfl
    · obtain ⟨b, t, c, d, y, rfl, split, run, passed, stopped⟩ :=
        ih rest (Nat.lt_of_succ_lt_succ turns)
      refine ⟨(q, w) :: b, t, (p, v) :: c, d, y, rfl, ?_, ?_, fun x hx => ?_, stopped⟩
      · rw [split]
        rfl
      · rw [step, if_neg found]
        exact run
      · rcases List.mem_cons.1 hx with rfl | hx
        · exact Bool.eq_false_iff.2 found
        · exact passed x hx

end
end BrainMachine.LinkedCells
