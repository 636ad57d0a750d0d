import BrainMachine.LinkedCells
import BrainMachine.Machine

set_option autoImplicit false

/-!
# Wait queues as linked lists

The functions of `wait_queue.c` on the nodes in memory. A removal starts at a node on the
stack, `root`, in front of the queue. That node is gone when the call returns, and `tail`
may be left pointing to it.
-/
namespace BrainMachine.WaitLists
open Computations LinkedCells

/-- `struct plist_head` -/
structure Head where
  head : Option ℕ
  tail : Option ℕ
  deriving DecidableEq, Repr

/-- The nodes with their processes, and the queue that they belong to. -/
abbrev Queue := Store (Option ℕ) Head

/-- `malloc` is what the allocator answers. -/
def insertProc (malloc p : Option ℕ) : Exec Queue ℤ :=
  if p = none then pure 1
  else
    match malloc with
    | none => pure 1
    | some newp => do
      alloc newp ⟨p, none⟩
      let s ← get
      if s.vars.head = none then do
        assign fun _ => ⟨some newp, some newp⟩
        pure 0
      else do
        let tail ← deref s.vars.tail
        let t ← load tail
        store tail { t with next := some newp }
        assign fun l => { l with tail := some newp }
        pure 0

/-- What `remove_proc` does behind its loop; `root` is where the node on the stack lies. -/
def removeBehind (root listp : ℕ) : Exec Queue ℤ := do
  let c ← load listp
  match c.next with
  | none => do
    free root
    pure 0
  | some elp => do
    let e ← load elp
    store listp { c with next := e.next }
    assign fun l => { l with tail := if e.next = none then some listp else l.tail }
    assign fun l => { l with head := if listp = root then e.next else l.head }
    free elp
    free root
    pure 0

def removeProc (root : ℕ) (p : Option ℕ) : Exec Queue ℤ :=
  if p = none then pure 1
  else do
    let s ← get
    alloc root ⟨none, s.vars.head⟩
    let s ← get
    let listp ← seek (fun q => decide (q = p)) s.heap.keys.card root
    removeBehind root listp

def freeLoop : ℕ → Option ℕ → Exec Queue PUnit
  | _, none => pure ⟨⟩
  | 0, some _ => fault .undefined
  | n + 1, some curp => do
    let c ← load curp
    free curp
    freeLoop n c.next

/-- As each turn frees a node, a walk of more turns than there are nodes meets a freed one. -/
def freeList : Exec Queue PUnit := do
  let s ← get
  freeLoop s.heap.keys.card s.vars.head

/-- The queue is the list `l` of nodes, with the processes `ps`. The other memory is as in
`h₀`, so that neither a freed node nor a node on the stack is left. -/
structure Keeps (h₀ : Heap (Option ℕ)) (q : Queue) (l : List (ℕ × Option ℕ)) (ps : List ℕ) :
    Prop where
  chain : Chain q.heap q.vars.head l none
  procs : l.map Prod.snd = ps.map some
  tail : l ≠ [] → q.vars.tail = (addresses l).getLast?
  own : ∀ a ∈ addresses l, a ∉ h₀
  others : ∀ a, a ∉ addresses l → q.heap.lookup a = h₀.lookup a

section
variable {h₀ : Heap (Option ℕ)} {q : Queue} {l : List (ℕ × Option ℕ)} {ps : List ℕ} {a d p : ℕ}

/-- Calls without a process, or without memory for a node, do nothing. -/
theorem insertProc_refused (malloc : Option ℕ) : insertProc malloc none q = .ok (1, q) := rfl

theorem insertProc_failed (p : Option ℕ) : insertProc none p q = .ok (1, q) := by
  rw [insertProc]
  split <;> rfl

theorem removeProc_refused (root : ℕ) : removeProc root none q = .ok (1, q) := rfl

theorem insertProc_first (empty : q.vars.head = none) :
    insertProc (some a) (some p) q =
      .ok (0, ⟨q.heap.insert a ⟨some p, none⟩, ⟨some a, some a⟩⟩) := by
  rw [insertProc, if_neg (Option.some_ne_none p)]
  change (if q.vars.head = none then _ else _ : Exec Queue ℤ) _ = _
  rw [if_pos empty]
  rfl

theorem insertProc_behind {w : Option ℕ} (inhabited : q.vars.head ≠ none)
    (last : q.vars.tail = some d) (there : q.heap.lookup d = some ⟨w, none⟩) (fresh : a ∉ q.heap) :
    insertProc (some a) (some p) q =
      .ok (0, ⟨(q.heap.insert a ⟨some p, none⟩).insert d ⟨w, some a⟩, ⟨q.vars.head, some a⟩⟩) := by
  have kept : (q.heap.insert a ⟨some p, none⟩).lookup d = some ⟨w, none⟩ := by
    rw [Finmap.lookup_insert_of_ne _ fun eq => fresh ?_, there]
    exact eq ▸ Finmap.mem_of_lookup_eq_some there
  rw [insertProc, if_neg (Option.some_ne_none p)]
  change (if q.vars.head = none then _ else deref q.vars.tail >>= _ : Exec Queue ℤ) _ = _
  rw [if_neg inhabited, last, deref_bind, load_bind kept, store_bind kept]
  rfl

theorem Keeps.insertProc (kept : Keeps h₀ q l ps) (fresh : a ∉ q.heap) (p : ℕ) :
    ∃ u, insertProc (some a) (some p) q = .ok ((Machine.insertProc ps p).1, u) ∧
      Keeps h₀ u (l ++ [(a, some p)]) (Machine.insertProc ps p).2 := by
  have new : a ∉ addresses l := mt kept.chain.mem fresh
  have procs : (l ++ [(a, some p)]).map Prod.snd = (Machine.insertProc ps p).2.map some := by
    have appended : (ps ++ [p]).map some = ps.map some ++ [some p] := List.map_append
    rw [List.map_append, kept.procs, Machine.insertProc, appended]
    rfl
  have own : ∀ x ∈ addresses (l ++ [(a, some p)]), x ∉ h₀ := by
    intro x hx
    rw [addresses_append] at hx
    rcases List.mem_append.1 hx with hx | hx
    · exact kept.own x hx
    · rw [List.mem_singleton.1 hx, ← Finmap.lookup_eq_none, ← kept.others a new]
      exact Finmap.lookup_eq_none.2 fresh
  have out (x : ℕ) (hx : x ∉ addresses (l ++ [(a, some p)])) : x ≠ a ∧ x ∉ addresses l := by
    rw [addresses_append, List.mem_append] at hx
    exact ⟨fun eq => hx (.inr (List.mem_singleton.2 eq)), fun h => hx (.inl h)⟩
  rcases List.eq_nil_or_concat' l with rfl | ⟨c, ⟨d, w⟩, rfl⟩
  · have empty := chain_nil.1 kept.chain
    refine ⟨_, insertProc_first empty, .cons (Finmap.lookup_insert _) (.nil none), procs,
      fun _ => rfl, own, fun x hx => ?_⟩
    rw [Finmap.lookup_insert_of_ne _ (out x hx).1]
    exact kept.others x (out x hx).2
  · obtain ⟨front, n, there, last⟩ := chain_middle.1 kept.chain
    obtain rfl := chain_nil.1 last
    have tail : q.vars.tail = some d := (kept.tail (by simp)).trans (by simp)
    have inhabited : q.vars.head ≠ none := by
      intro empty
      have chain := kept.chain
      rw [empty] at chain
      have nothing := chain.unique (.nil none)
      simp at nothing
    refine ⟨_, insertProc_behind inhabited tail there fresh, ?_, procs, fun _ => ?_, own,
      fun x hx => ?_⟩
    · rw [List.append_assoc]
      exact kept.chain.link there fresh _
    · simp
    · obtain ⟨other, before⟩ := out x hx
      have apart : x ≠ d := fun eq => before (by simp [eq])
      rw [Finmap.lookup_insert_of_ne _ apart, Finmap.lookup_insert_of_ne _ other]
      exact kept.others x before

def rooted (q : Queue) (root : ℕ) : Queue :=
  ⟨q.heap.insert root ⟨none, q.vars.head⟩, q.vars⟩

/-- The queue after the node at `a` went, whose successor is `n`; `d` is what stood in front. -/
def bypassed (q : Queue) (root d a : ℕ) (w n : Option ℕ) : Queue :=
  ⟨(((rooted q root).heap.insert d ⟨w, n⟩).erase a).erase root,
    ⟨if d = root then n else q.vars.head, if n = none then some d else q.vars.tail⟩⟩

section
variable {root : ℕ} {w n : Option ℕ}

theorem removeBehind_last (fresh : root ∉ q.heap)
    (there : (rooted q root).heap.lookup d = some ⟨w, none⟩) :
    removeBehind root d (rooted q root) = .ok (0, q) := by
  have start : (rooted q root).heap.lookup root = some ⟨none, q.vars.head⟩ :=
    Finmap.lookup_insert _
  rw [removeBehind, load_bind there]
  change (free root >>= _ : Exec Queue ℤ) _ = _
  rw [free_bind start]
  change Except.ok (0, (⟨(q.heap.insert root _).erase root, q.vars⟩ : Queue)) = _
  rw [erase_insert fresh]

theorem removeBehind_next (there : (rooted q root).heap.lookup d = some ⟨w, some a⟩)
    (next : q.heap.lookup a = some ⟨some p, n⟩) (apart : d ≠ a) (other : root ≠ a) :
    removeBehind root d (rooted q root) = .ok (0, bypassed q root d a w n) := by
  have start : (rooted q root).heap.lookup root = some ⟨none, q.vars.head⟩ :=
    Finmap.lookup_insert _
  have here : (rooted q root).heap.lookup a = some ⟨some p, n⟩ :=
    (Finmap.lookup_insert_of_ne _ other.symm).trans next
  have after : ((rooted q root).heap.insert d ⟨w, n⟩).lookup a = some ⟨some p, n⟩ :=
    (Finmap.lookup_insert_of_ne _ apart.symm).trans here
  have left : root ∈ ((rooted q root).heap.insert d ⟨w, n⟩).erase a :=
    Finmap.mem_erase.2 ⟨other, Finmap.mem_insert.2 (.inr (Finmap.mem_of_lookup_eq_some start))⟩
  obtain ⟨x, root_here⟩ := Finmap.mem_iff.1 left
  rw [removeBehind, load_bind there]
  change (load a >>= _ : Exec Queue ℤ) _ = _
  rw [load_bind here, store_bind there, assign_bind, assign_bind, free_bind after,
    free_bind root_here]
  rfl

/-- A removal takes the first node with the process, or changes nothing. -/
theorem removeProc_run (chain : Chain q.heap q.vars.head l none) (fresh : root ∉ q.heap)
    (p : ℕ) : ((∀ x ∈ l, x.2 ≠ some p) ∧ removeProc root (some p) q = .ok (0, q)) ∨
      ∃ b a t c d w n, l = b ++ (a, some p) :: t ∧ (∀ x ∈ b, x.2 ≠ some p) ∧
        (root, none) :: b = c ++ [(d, w)] ∧ q.heap.lookup a = some ⟨some p, n⟩ ∧
        removeProc root (some p) q = .ok (0, bypassed q root d a w n) := by
  have pushed : Chain (rooted q root).heap (some root) ((root, none) :: l) none :=
    chain.push fresh none
  obtain ⟨b, t, c, d, w, rfl, split, walk, passed, stopped⟩ :=
    seek_run (fun v => decide (v = some p)) pushed pushed.length_le
  have before : ∀ x ∈ b, x.2 ≠ some p := fun x hx => of_decide_eq_false (passed x hx)
  have call : removeProc root (some p) q = removeBehind root d (rooted q root) := by
    rw [removeProc, if_neg (Option.some_ne_none p)]
    exact bind_of_ok walk
  rw [← List.cons_append, split, List.append_assoc, List.singleton_append] at pushed
  obtain ⟨-, n, there, rest⟩ := chain_middle.1 pushed
  cases t with
  | nil =>
    obtain rfl := chain_nil.1 rest
    refine .inl ⟨?_, call.trans (removeBehind_last fresh there)⟩
    rwa [List.append_nil]
  | cons x t =>
    obtain ⟨a, v⟩ := x
    obtain rfl : v = some p := of_decide_eq_true (stopped _ rfl)
    obtain ⟨rfl, -⟩ := chain_cons.1 rest
    obtain ⟨-, m, next, -⟩ := chain_middle.1 chain
    have apart : d ≠ a := fun eq => pushed.apart.2.1 (by simp [eq])
    have other : root ≠ a := fun eq => fresh (eq ▸ Finmap.mem_of_lookup_eq_some next)
    exact .inr ⟨b, a, t, c, d, w, m, rfl, before, split, next,
      call.trans (removeBehind_next there next apart other)⟩

section
variable {b c t : List (ℕ × Option ℕ)}

/-- What stands in front of the node: the one on the stack, or the last of those before. -/
theorem front_cases (split : (root, none) :: b = c ++ [(d, w)]) (out : root ∉ addresses b) :
    (b = [] ∧ d = root ∧ w = none) ∨ (d ≠ root ∧ ∃ c, b = c ++ [(d, w)]) := by
  cases c with
  | nil =>
    obtain ⟨same, rfl⟩ := List.cons.inj split
    obtain ⟨rfl, rfl⟩ := Prod.mk.inj same
    exact .inl ⟨rfl, rfl, rfl⟩
  | cons x c =>
    obtain ⟨-, rfl⟩ := List.cons.inj split
    refine .inr ⟨?_, c, rfl⟩
    rintro rfl
    exact out (by simp)

variable (chain : Chain q.heap q.vars.head (b ++ (a, some p) :: t) none) (fresh : root ∉ q.heap)
  (split : (root, none) :: b = c ++ [(d, w)]) (next : q.heap.lookup a = some ⟨some p, n⟩)
include chain fresh

theorem root_outside : root ∉ addresses b := by
  intro inside
  refine fresh (chain.mem ?_)
  rw [addresses_append]
  exact List.mem_append_left _ inside

include split

theorem front_inside : d = root ∨ d ∈ addresses b := by
  rcases front_cases split (root_outside chain fresh) with ⟨-, first, -⟩ | ⟨-, c, rfl⟩
  · exact .inl first
  · exact .inr (by simp)

include next

/-- The nodes that are left make up the queue, with nothing of the node on the stack. -/
theorem bypassed_chain :
    Chain (bypassed q root d a w n).heap (bypassed q root d a w n).vars.head (b ++ t) none := by
  have other : root ≠ a := fun eq => fresh (eq ▸ Finmap.mem_of_lookup_eq_some next)
  have pushed : Chain (rooted q root).heap (some root)
      ((root, none) :: (b ++ (a, some p) :: t)) none := chain.push fresh none
  have here : (rooted q root).heap.lookup a = some ⟨some p, n⟩ :=
    (Finmap.lookup_insert_of_ne _ other.symm).trans next
  rw [← List.cons_append, split, List.append_assoc, List.singleton_append] at pushed
  have linked := pushed.unlink here
  rw [← List.singleton_append, ← List.append_assoc, ← split, List.cons_append] at linked
  refine linked.pop ?_
  rw [Finmap.lookup_erase_ne other]
  change _ = some (Cell.mk none (if d = root then n else q.vars.head))
  rcases front_cases split (root_outside chain fresh) with ⟨-, rfl, rfl⟩ | ⟨inner, -⟩
  · rw [if_pos rfl]
    exact Finmap.lookup_insert _
  · rw [if_neg inner, Finmap.lookup_insert_of_ne _ inner.symm]
    exact Finmap.lookup_insert _

/-- `tail` is left at the node on the stack only if no node is left. -/
theorem bypassed_tail (last : q.vars.tail = (addresses (b ++ (a, some p) :: t)).getLast?)
    (inhabited : b ++ t ≠ []) :
    (bypassed q root d a w n).vars.tail = (addresses (b ++ t)).getLast? := by
  have rest := (chain.split next).2
  change (if n = none then some d else q.vars.tail) = _
  cases t with
  | nil =>
    obtain rfl := chain_nil.1 rest
    rw [if_pos rfl]
    rcases front_cases split (root_outside chain fresh) with ⟨rfl, -⟩ | ⟨-, c, rfl⟩
    · exact absurd rfl inhabited
    · simp
  | cons x t =>
    obtain ⟨rfl, -⟩ := chain_cons.1 rest
    rw [if_neg (Option.some_ne_none _), last]
    simp [List.getLast?_cons]

theorem bypassed_others {x : ℕ} (hx : x ∉ addresses (b ++ t)) :
    (bypassed q root d a w n).heap.lookup x = if x = a then none else q.heap.lookup x := by
  rw [addresses_append, List.mem_append, not_or] at hx
  change (Finmap.erase root _).lookup x = _
  by_cases stack : x = root
  · have apart : x ≠ a := by
      rintro rfl
      exact fresh (stack ▸ Finmap.mem_of_lookup_eq_some next)
    rw [stack, Finmap.lookup_erase, if_neg (stack ▸ apart), Finmap.lookup_eq_none.2 fresh]
  · rw [Finmap.lookup_erase_ne stack]
    by_cases same : x = a
    · rw [if_pos same, same, Finmap.lookup_erase]
    · have apart : x ≠ d := by
        rintro rfl
        rcases front_inside chain fresh split with first | inner
        · exact stack first
        · exact hx.1 inner
      rw [if_neg same, Finmap.lookup_erase_ne same, Finmap.lookup_insert_of_ne _ apart]
      exact Finmap.lookup_insert_of_ne _ stack

end

theorem Keeps.removeProc (kept : Keeps h₀ q l ps) (fresh : root ∉ q.heap) (p : ℕ) :
    ∃ u t, removeProc root (some p) q = .ok ((Machine.removeProc ps p).1, u) ∧
      Keeps h₀ u t (Machine.removeProc ps p).2 := by
  rcases removeProc_run kept.chain fresh p with
    ⟨absent, run⟩ | ⟨b, a, t, c, d, w, n, rfl, before, split, next, run⟩
  · have none : p ∉ ps := by
      intro hp
      have mem : some p ∈ l.map Prod.snd := kept.procs ▸ List.mem_map_of_mem hp
      obtain ⟨x, hx, same⟩ := List.mem_map.1 mem
      exact absent x hx same
    refine ⟨q, l, run, ?_⟩
    rw [Machine.removeProc, List.erase_of_not_mem none]
    exact kept
  · have inside (x : ℕ) (hx : x ∈ addresses (b ++ t)) :
        x ∈ addresses (b ++ (a, some p) :: t) := by
      rw [addresses_append, List.mem_append] at hx ⊢
      exact hx.imp_right (List.mem_cons_of_mem _)
    refine ⟨_, b ++ t, run, bypassed_chain kept.chain fresh split next, ?_, fun inhabited => ?_,
      fun x hx => kept.own x (inside x hx), fun x hx => ?_⟩
    · have absent : some p ∉ b.map Prod.snd := by
        intro hp
        obtain ⟨x, hx, same⟩ := List.mem_map.1 hp
        exact before x hx same
      have procs := congrArg (fun l => l.erase (some p)) kept.procs
      rw [List.map_append, List.map_cons, List.erase_append_right _ absent,
        List.erase_cons_head, ← List.map_append] at procs
      rw [procs, ← List.map_erase (Option.some_injective ℕ)]
      rfl
    · exact bypassed_tail kept.chain fresh split next (kept.tail (by simp)) inhabited
    · rw [bypassed_others kept.chain fresh split next hx]
      by_cases same : x = a
      · rw [if_pos same, same]
        exact (Finmap.lookup_eq_none.2 (kept.own a (by simp))).symm
      · rw [if_neg same]
        refine kept.others x fun hx' => hx ?_
        rw [addresses_append, List.mem_append] at hx' ⊢
        exact hx'.imp_right fun h => (List.mem_cons.1 h).resolve_left same

end
end
section
variable {h₀ : Heap (Option ℕ)} {q : Queue} {l : List (ℕ × Option ℕ)}

theorem freeLoop_run {p : Option ℕ} {n : ℕ} (chain : Chain q.heap p l none)
    (turns : l.length ≤ n) :
    ∃ g : Heap (Option ℕ), freeLoop n p q = .ok (⟨⟩, ⟨g, q.vars⟩) ∧
      (∀ a ∈ addresses l, a ∉ g) ∧ ∀ a, a ∉ addresses l → g.lookup a = q.heap.lookup a := by
  induction l generalizing q p n with
  | nil =>
    obtain rfl := chain_nil.1 chain
    refine ⟨q.heap, ?_, by simp, fun _ _ => rfl⟩
    cases n <;> rfl
  | cons x l ih =>
    obtain ⟨a, v⟩ := x
    obtain ⟨n, rfl⟩ := Nat.exists_eq_add_one_of_ne_zero (Nat.ne_zero_of_lt turns)
    obtain ⟨rfl, m, here, -⟩ := chain_cons.1 chain
    have out := (List.nodup_cons.1 chain.nodup).1
    obtain ⟨g, run, gone, rest⟩ :=
      ih (q := ⟨q.heap.erase a, q.vars⟩) (chain.pop here) (Nat.le_of_succ_le_succ turns)
    refine ⟨g, ?_, fun b hb => ?_, fun b hb => ?_⟩
    · rw [freeLoop, load_bind here, free_bind here]
      exact run
    · rcases List.mem_cons.1 hb with rfl | hb
      · rw [← Finmap.lookup_eq_none, rest _ out]
        exact Finmap.lookup_erase _ _
      · exact gone b hb
    · rw [addresses_cons, List.mem_cons, not_or] at hb
      rw [rest b hb.2]
      exact Finmap.lookup_erase_ne hb.1

theorem Keeps.freeList {ps : List ℕ} (kept : Keeps h₀ q l ps) :
    freeList q = .ok (⟨⟩, ⟨h₀, q.vars⟩) := by
  obtain ⟨g, run, gone, rest⟩ := freeLoop_run kept.chain kept.chain.length_le
  have whole : g = h₀ := by
    apply Finmap.ext_lookup
    intro a
    by_cases inside : a ∈ addresses l
    · rw [Finmap.lookup_eq_none.2 (gone a inside), Finmap.lookup_eq_none.2 (kept.own a inside)]
    · rw [rest a inside, kept.others a inside]
  rw [← whole]
  exact run

end

inductive Op where
  | insert (p : ℕ)
  | remove (p : ℕ)

/-- `a` is where the new node, or the one on the stack, lies. -/
def Op.run (a : ℕ) : Op → Exec Queue ℤ
  | .insert p => insertProc (some a) (some p)
  | .remove p => removeProc a (some p)

def Op.apply (ps : List ℕ) : Op → List ℕ
  | .insert p => ps ++ [p]
  | .remove p => ps.erase p

def waiting (os : List Op) : List ℕ := os.foldl Op.apply []

/-- What calls lead to from an empty queue on, which may have any `tail`. -/
inductive Reached (h₀ : Heap (Option ℕ)) (t₀ : Option ℕ) : List Op → Queue → Prop
  | empty : Reached h₀ t₀ [] ⟨h₀, ⟨none, t₀⟩⟩
  | next {os : List Op} {q u : Queue} {a : ℕ} {r : ℤ} (before : Reached h₀ t₀ os q) (o : Op)
      (fresh : a ∉ q.heap) (run : o.run a q = .ok (r, u)) : Reached h₀ t₀ (os ++ [o]) u

section
variable {h₀ : Heap (Option ℕ)} {t₀ : Option ℕ} {os : List Op} {q : Queue}

theorem Keeps.next {l : List (ℕ × Option ℕ)} {ps : List ℕ} {a : ℕ} (kept : Keeps h₀ q l ps)
    (fresh : a ∉ q.heap) (o : Op) :
    ∃ u t, o.run a q = .ok (0, u) ∧ Keeps h₀ u t (o.apply ps) := by
  cases o with
  | insert p =>
    obtain ⟨u, run, kept'⟩ := kept.insertProc fresh p
    exact ⟨u, _, run, kept'⟩
  | remove p => exact kept.removeProc fresh p

theorem reached_keeps (reached : Reached h₀ t₀ os q) : ∃ l, Keeps h₀ q l (waiting os) := by
  induction reached with
  | empty => exact ⟨[], .nil none, rfl, fun h => absurd rfl h, by simp, fun _ _ => rfl⟩
  | next before o fresh run ih =>
    obtain ⟨l, kept⟩ := ih
    obtain ⟨u, t, run', kept'⟩ := kept.next fresh o
    obtain ⟨-, rfl⟩ := Prod.mk.inj (Except.ok.inj (run'.symm.trans run))
    refine ⟨t, ?_⟩
    rw [waiting, List.foldl_append]
    exact kept'

theorem exists_reached (h₀ : Heap (Option ℕ)) (t₀ : Option ℕ) (os : List Op) :
    ∃ q, Reached h₀ t₀ os q := by
  induction os using List.reverseRecOn with
  | nil => exact ⟨_, .empty⟩
  | append_singleton os o ih =>
    obtain ⟨q, before⟩ := ih
    obtain ⟨l, kept⟩ := reached_keeps before
    obtain ⟨a, fresh⟩ := exists_fresh q.heap
    obtain ⟨u, t, run, -⟩ := kept.next fresh o
    exact ⟨u, before.next o fresh run⟩

/-- The nodes from `head` on are the processes that wait, in their order. `tail` is the last of
them when there is one, the rest of the memory is what it was before the first call, so that
no freed node and no node of the stack is in use, and every further call returns 0. -/
theorem wait_queue_refines (reached : Reached h₀ t₀ os q) :
    ∃ l, Chain q.heap q.vars.head l none ∧ l.map Prod.snd = (waiting os).map some ∧
      (q.vars.head = none ↔ waiting os = []) ∧
      (waiting os ≠ [] → ∃ a ∈ q.heap, q.vars.tail = some a ∧ (addresses l).getLast? = some a) ∧
      (∀ a, a ∉ addresses l → q.heap.lookup a = h₀.lookup a) ∧ (∀ a ∈ addresses l, a ∉ h₀) ∧
      ∀ a, a ∉ q.heap → ∀ o : Op, ∃ u, o.run a q = .ok (0, u) := by
  obtain ⟨l, kept⟩ := reached_keeps reached
  have empty : l = [] ↔ waiting os = [] := by
    rw [← List.map_eq_nil_iff (f := Prod.snd), kept.procs, List.map_eq_nil_iff]
  refine ⟨l, kept.chain, kept.procs, ?_, fun inhabited => ?_, kept.others, kept.own,
    fun a fresh o => ?_⟩
  · rw [← empty]
    constructor
    · intro head
      have chain := kept.chain
      rw [head] at chain
      exact chain.unique (.nil none)
    · rintro rfl
      exact chain_nil.1 kept.chain
  · rcases List.eq_nil_or_concat' l with nil | ⟨c, ⟨a, v⟩, rfl⟩
    · exact absurd (empty.1 nil) inhabited
    · refine ⟨a, kept.chain.mem (by simp), (kept.tail (by simp)).trans ?_, ?_⟩
      · simp
      · simp
  · obtain ⟨u, t, run, -⟩ := kept.next fresh o
    exact ⟨u, run⟩

/-- The first of two entries goes, from the front, and one is inserted behind the other. -/
theorem wait_queue_refines_twice : ∃ (q : Queue) (l : _), Chain q.heap q.vars.head l none ∧
    l.map Prod.snd = [some 8, some 7, some 9] := by
  obtain ⟨q, reached⟩ := exists_reached ∅ none
    [.insert 7, .insert 8, .insert 7, .remove 7, .insert 9]
  obtain ⟨l, chain, procs, -⟩ := wait_queue_refines reached
  exact ⟨q, l, chain, procs⟩

end
end BrainMachine.WaitLists
