import Mathlib.Order.Lattice.Nat
import BrainMachine.ColoredQueue
import BrainMachine.RunQueueNodes
import BrainMachine.TreeRequests

set_option autoImplicit false

namespace BrainMachine.RunQueueRefinement
open Computations ColoredTrees ColorTree TreeRepairs TreeMaps TreeNodes TreeNodeSteps TreeRequests
  ColoredQueue RunQueueNodes

section
variable {c : Table} {s : RunQueue.Sched NodeTree} {t : ColorTree (ℕ × RunQueue.Node)} {α : Type}
  {b e : ℕ × RunQueue.Node} {pid q : ℕ} {n : RunQueue.Node} {malloc : Allocator}

def address (b : ℕ × RunQueue.Node) : ℕ × ℕ := (b.1, b.2.pid)

def numbered (b : ℕ × RunQueue.Node) : ℕ × RunQueue.Node := (b.2.id, b.2)

theorem label_mem (mem : b ∈ t.toList) : address b ∈ (t.map address).toList := by
  rw [map_toList]
  exact List.mem_map_of_mem mem

structure Mirrors (c : Table) (s : RunQueue.Sched NodeTree) (t : ColorTree (ℕ × RunQueue.Node)) :
    Prop where
  memory : RedBlack c.t (t.map address)
  tree : s.t.tree = t.map numbered
  serial : s.t.serial = s.fresh
  vruntime : ∀ pid, c.vruntime pid = s.vruntime pid
  link : ∀ pid i, (s.taskTable pid).n = some i → ((c.taskTable pid).n, ⟨i, pid⟩) ∈ t.toList
  unlinked : ∀ pid, (s.taskTable pid).n = none → (c.taskTable pid).n = 0
  min : c.minVruntime = s.minVruntime
  current : c.current = s.current
  running : c.nrRunning.toNat = s.nrRunning
  null : 0 ∉ c.t.heap

theorem Mirrors.address_unique (h : Mirrors c s t) (hb : b ∈ t.toList) (he : e ∈ t.toList)
    (eq : b.1 = e.1) : b = e := by
  have nodup := h.memory.nodup
  rw [map_toList, List.map_map] at nodup
  exact List.inj_on_of_nodup_map nodup hb he eq

theorem Mirrors.number_unique (h : Mirrors c s t) (hb : b ∈ t.toList) (he : e ∈ t.toList)
    (eq : b.2.id = e.2.id) : b = e := by
  have nodup := s.t.nodup
  rw [h.tree, map_toList, List.map_map] at nodup
  exact List.inj_on_of_nodup_map nodup hb he eq

theorem Mirrors.nodes (h : Mirrors c s t) : s.nodes = t.toList.map Prod.snd := by
  change s.t.tree.toList.map Prod.snd = _
  rw [h.tree, map_toList, List.map_map]
  rfl

theorem Mirrors.compare (h : Mirrors c s t) (a b : RunQueue.Node) :
    c.compare a.pid b.pid = s.compare a b := by
  rw [Table.compare, h.min, h.vruntime, h.vruntime]
  rfl

theorem onTree_ok {x : Exec (Memory ℕ) α} {a : α} {w : Memory ℕ} (run : x c.t = .ok (a, w)) :
    onTree x c = .ok (a, { c with t := w }) := by
  rw [onTree, zoom, run]

theorem set_vruntime (pid x : ℕ) :
    (Table.set pid (fun e => { e with n := x }) c).vruntime = c.vruntime := by
  funext p
  by_cases eq : p = pid <;> simp [Table.set, Table.vruntime, eq]

theorem set_n (pid p x : ℕ) : ((Table.set pid (fun e => { e with n := x }) c).taskTable p).n =
    if p = pid then x else (c.taskTable p).n := by
  by_cases eq : p = pid <;> simp [Table.set, eq]

theorem Mirrors.leftmost (h : Mirrors c s t) {l : List RunQueue.Node} (first : s.nodes = n :: l) :
    ∃ q, (q, n) ∈ t.toList ∧ RunQueueNodes.leftmost c = .ok (q, c) ∧
      onTree (key q) c = .ok (n.pid, c) := by
  rw [h.nodes] at first
  obtain ⟨⟨q, n'⟩, L, eq, rfl, -⟩ := List.map_eq_cons_iff.1 first
  have mem : (q, n') ∈ t.toList := eq ▸ List.mem_cons_self
  have walk := leftmost_run h.memory.shows
  have head : (t.map address).toList.head? = some (q, n'.pid) := by
    rw [map_toList, eq]
    rfl
  rw [head] at walk
  have run : (do let s ← get; leftLoop s.heap.keys.card s.root : Exec (Memory ℕ) ℕ) c.t =
      .ok (q, c.t) := walk
  exact ⟨q, mem, onTree_ok run, onTree_ok (h.memory.key_ok (label_mem mem))⟩

theorem Mirrors.enqueue (h : Mirrors c s t) (lawful : ∀ i g, malloc i g ∉ g ∧ malloc i g ≠ 0)
    (pid : ℕ) : ∃ u t', RunQueueNodes.enqueue malloc pid c = .ok ((), u) ∧
      Mirrors u (RunQueue.enqueue pid s) t' := by
  obtain ⟨fresh, notNull⟩ := lawful c.calls c.t.heap
  generalize answer : malloc c.calls c.t.heap = q at fresh notNull
  obtain ⟨w, run, root, nil, tree⟩ := h.memory.insert c.compare pid fresh
  let z : RunQueue.Node := ⟨s.fresh, pid⟩
  let gt (b : ℕ × RunQueue.Node) : Bool := s.compare b.2 z = 1
  have upper : (TreeRepairs.insert gt (q, z) t).map address =
      TreeRepairs.insert (fun b => c.compare b.2 pid = 1) (q, pid) (t.map address) :=
    insert_map (f := address) (fun b _ => by rw [address, h.compare b.2 z]) _
  have lower : (TreeRepairs.insert gt (q, z) t).map numbered =
      TreeRepairs.insert (fun b => s.compare b.2 z = 1) (s.t.serial, z) s.t.tree := by
    rw [h.tree, h.serial]
    have same : ∀ b ∈ t.toList, gt (numbered b) = gt b := fun _ _ => rfl
    exact insert_map same (q, z)
  have enqueued : RunQueueNodes.enqueue malloc pid c = .ok ((),
      Table.set pid (fun e => { e with n := q }) { c with t := w, calls := c.calls + 1 }) := by
    rw [RunQueueNodes.enqueue, get_bind, answer, bind_of_ok (onTree_ok run)]
    rfl
  rw [← upper] at tree
  refine ⟨_, TreeRepairs.insert gt (q, z) t, enqueued, tree, lower.symm,
    congrArg (· + 1) h.serial, fun p => ?_, fun p i here => ?_, fun p none => ?_, h.min,
    h.current, h.running, fun used => ?_⟩
  · rw [set_vruntime, RunQueue.enqueue_vruntime]
    exact h.vruntime p
  · rw [RunQueue.enqueue_n] at here
    rw [set_n, insert_mem]
    by_cases eq : p = pid
    · rw [if_pos eq] at here ⊢
      exact .inl (by rw [eq, ← Option.some.inj here])
    · rw [if_neg eq] at here ⊢
      exact .inr (h.link p i here)
  · rw [RunQueue.enqueue_n] at none
    rw [set_n]
    by_cases eq : p = pid
    · rw [if_pos eq] at none
      cases none
    · rw [if_neg eq] at none ⊢
      exact h.unlinked p none
  · rcases tree.used 0 used with eq | eq | ⟨b, hb, eq⟩
    · exact h.null (eq.trans root ▸ h.memory.root_mem)
    · exact h.null (eq.trans nil ▸ h.memory.nil_mem)
    · rw [upper, insert_mem] at hb
      rcases hb with rfl | hb
      · exact notNull eq
      · exact h.null (eq ▸ h.memory.shows.tree.mem b hb)

/-- A node is deleted by its address, and from the tree by its number. -/
theorem Mirrors.dequeue (h : Mirrors c s t) (mem : (q, n) ∈ t.toList) : ∃ w t',
    RBDelete q c.t = .ok (⟨⟩, w) ∧
      Mirrors (Table.set n.pid (fun e => { e with n := 0 }) { c with t := w })
        (RunQueue.dequeue n s) t' := by
  have nodup : t.toList.Nodup := by
    have nodup := h.memory.nodup
    rw [map_toList, List.map_map] at nodup
    exact nodup.of_map _
  obtain ⟨w, run, root, nil, tree⟩ := h.memory.delete (label_mem mem)
  have same : erase (fun b => (address b).1 = q) t = erase (fun b => b.2 = n) t := by
    refine erase_congr fun b hb => decide_eq_decide.2 ⟨fun eq => ?_, fun eq => ?_⟩
    · exact congrArg Prod.snd (h.address_unique hb mem eq)
    · exact congrArg Prod.fst (h.number_unique hb mem (congrArg RunQueue.Node.id eq))
  have upper : (erase (fun b => b.2 = n) t).map address =
      erase (fun a => a.1 = q) (t.map address) := by
    rw [← same]
    refine erase_map (f := address) (fun a => a.1 = q) fun b hb e he eq => ?_
    exact h.address_unique hb he (Prod.ext_iff.1 eq).1
  have lower : (erase (fun b => b.2 = n) t).map numbered =
      erase (fun b => b.2 = n) s.t.tree := by
    rw [h.tree]
    refine erase_map (f := numbered) (fun b => b.2 = n) fun b hb e he eq => ?_
    exact h.number_unique hb he (Prod.ext_iff.1 eq).1
  have sub : ∀ b ∈ (erase (fun b => b.2 = n) t).toList, b ∈ t.toList := fun b hb => by
    rw [erase_toList nodup] at hb
    exact List.mem_of_mem_eraseP hb
  change RedBlack w (erase (fun a => a.1 = q) (t.map address)) at tree
  rw [← upper] at tree
  refine ⟨w, erase (fun b => b.2 = n) t, run, tree, lower.symm, h.serial, fun p => ?_,
    fun p i here => ?_, fun p none => ?_, h.min, h.current, h.running, fun used => ?_⟩
  · rw [set_vruntime, RunQueue.dequeue_vruntime]
    exact h.vruntime p
  · rw [RunQueue.dequeue_n] at here
    rw [set_n, erase_toList nodup]
    by_cases eq : p = n.pid
    · rw [if_pos eq] at here
      cases here
    · rw [if_neg eq] at here ⊢
      refine (List.mem_eraseP_of_neg ?_).2 (h.link p i here)
      exact fun hn => eq (congrArg RunQueue.Node.pid (of_decide_eq_true hn))
  · rw [RunQueue.dequeue_n] at none
    rw [set_n]
    by_cases eq : p = n.pid
    · rw [if_pos eq]
    · rw [if_neg eq] at none ⊢
      exact h.unlinked p none
  · rcases tree.used 0 used with eq | eq | ⟨b, hb, eq⟩
    · exact h.null (eq.trans root ▸ h.memory.root_mem)
    · exact h.null (eq.trans nil ▸ h.memory.nil_mem)
    · rw [map_toList] at hb
      obtain ⟨b', hb', rfl⟩ := List.mem_map.1 hb
      exact h.null (eq ▸ h.memory.shows.tree.mem _ (label_mem (sub b' hb')))

theorem Mirrors.charge (h : Mirrors c s t) (pid : ℕ) (f : UInt32 → UInt32) :
    Mirrors (Table.set pid (fun e => { e with vruntime := f e.vruntime }) c)
      (RunQueue.setTask pid (fun e => { e with vruntime := f e.vruntime }) s) t := by
  have upper (p : ℕ) : ((Table.set pid (fun e => { e with vruntime := f e.vruntime }) c).taskTable
      p).n = (c.taskTable p).n := by
    by_cases eq : p = pid <;> simp [Table.set, eq]
  have lower (p : ℕ) : ((RunQueue.setTask pid (fun e => { e with vruntime := f e.vruntime })
      s).taskTable p).n = (s.taskTable p).n := by
    by_cases eq : p = pid <;> simp [RunQueue.setTask, eq]
  refine ⟨h.memory, h.tree, h.serial, fun p => ?_, fun p i here => ?_, fun p none => ?_, h.min,
    h.current, h.running, h.null⟩
  · have same := h.vruntime p
    by_cases eq : p = pid
    · subst eq
      simp only [Table.vruntime, RunQueue.Sched.vruntime] at same
      simp [Table.set, RunQueue.setTask, Table.vruntime, RunQueue.Sched.vruntime, same]
    · simpa [Table.set, RunQueue.setTask, Table.vruntime, RunQueue.Sched.vruntime, eq] using same
  · rw [lower] at here
    rw [upper]
    exact h.link p i here
  · rw [lower] at none
    rw [upper]
    exact h.unlinked p none

theorem Mirrors.ctxtSwitch {v : RunQueue.Sched NodeTree} (h : Mirrors c s t)
    (ok : RunQueue.ctxtSwitch s = .ok ((), v)) : ∃ u t',
      RunQueueNodes.ctxtSwitch c = .ok ((), u) ∧ Mirrors u v t' := by
  obtain ⟨n, l, first, rfl, -⟩ := RunQueue.ctxtSwitch_ok ok
  obtain ⟨q, mem, walk, key⟩ := h.leftmost first
  have moved : Mirrors { c with current := n.pid } { s with current := n.pid } t :=
    ⟨h.memory, h.tree, h.serial, h.vruntime, h.link, h.unlinked, h.min, rfl, h.running, h.null⟩
  obtain ⟨w, t', run, mirrors⟩ := moved.dequeue mem
  refine ⟨_, t', ?_, mirrors⟩
  rw [RunQueueNodes.ctxtSwitch, bind_of_ok walk, bind_of_ok key, modify_bind]
  exact onTree_ok run

theorem Mirrors.preempt {v : RunQueue.Sched NodeTree} (h : Mirrors c s t)
    (lawful : ∀ i g, malloc i g ∉ g ∧ malloc i g ≠ 0) {follow : Bool}
    (ok : RunQueue.preempt follow s = .ok ((), v)) : ∃ u t',
      RunQueueNodes.preempt malloc follow c = .ok ((), u) ∧ Mirrors u v t' := by
  have inside := ok
  rw [RunQueue.preempt, bind_ok] at inside
  obtain ⟨n, _, first, -⟩ := inside
  obtain ⟨l, first, -⟩ := RunQueue.leftmost_ok first
  obtain ⟨q, mem, walk, key⟩ := h.leftmost first
  rw [RunQueue.preempt_eq follow first] at ok
  rw [RunQueueNodes.preempt, bind_of_ok walk, bind_of_ok key, get_bind, h.min, h.current,
    h.vruntime, h.vruntime]
  by_cases owed : RunQueue.keyComp s.minVruntime (s.vruntime s.current) (s.vruntime n.pid) > 0
  · rw [if_pos owed] at ok ⊢
    have followed : Mirrors
        { c with minVruntime := if follow then c.vruntime n.pid else c.minVruntime }
        { s with minVruntime := if follow then s.vruntime n.pid else s.minVruntime } t :=
      ⟨h.memory, h.tree, h.serial, h.vruntime, h.link, h.unlinked, by rw [h.vruntime, h.min],
        h.current, h.running, h.null⟩
    obtain ⟨u, t', run, mirrors⟩ := followed.enqueue lawful s.current
    obtain ⟨u', t'', run', mirrors⟩ := mirrors.ctxtSwitch ok
    refine ⟨u', t'', ?_, mirrors⟩
    rw [modify_bind]
    exact (bind_of_ok run).trans run'
  · rw [if_neg owed] at ok ⊢
    obtain ⟨-, rfl⟩ := Prod.mk.inj (Except.ok.inj ok)
    exact ⟨c, t, rfl, h⟩

theorem Mirrors.unqueue {v : RunQueue.Sched NodeTree} (h : Mirrors c s t)
    (ok : RunQueue.unqueue pid s = .ok ((), v)) : v.nrRunning = s.nrRunning ∧ ∃ u t',
      RunQueueNodes.unqueue pid c = .ok ((), u) ∧ Mirrors u v t' := by
  rw [RunQueue.unqueue, get_bind] at ok
  rw [RunQueueNodes.unqueue, get_bind, h.current]
  by_cases cur : s.current = pid
  · rw [if_pos cur] at ok ⊢
    have more : c.nrRunning > 1 ↔ s.nrRunning > 1 := by
      rw [gt_iff_lt, UInt32.lt_iff_toNat_lt, h.running]
      rfl
    by_cases one : s.nrRunning > 1
    · rw [if_pos one] at ok
      rw [if_pos (more.2 one)]
      exact ⟨(RunQueue.ctxtSwitch_waiting ok).2, h.ctxtSwitch ok⟩
    · rw [if_neg one] at ok
      rw [if_neg fun m => one (more.1 m)]
      obtain ⟨-, rfl⟩ := Prod.mk.inj (pure_ok.1 ok)
      exact ⟨rfl, c, t, rfl, h⟩
  · rw [if_neg cur] at ok ⊢
    cases linked : (s.taskTable pid).n with
    | none =>
      rw [linked] at ok
      exact (fault_ok.1 ok).elim
    | some i =>
      rw [linked] at ok
      obtain ⟨-, rfl⟩ := Prod.mk.inj (modify_ok.1 ok)
      obtain ⟨w, t', run, mirrors⟩ := h.dequeue (h.link pid i linked)
      refine ⟨rfl, _, t', ?_, mirrors⟩
      rw [bind_of_ok (onTree_ok run)]
      rfl

theorem Mirrors.suspend {v : RunQueue.Sched NodeTree} {r : ℤ} (h : Mirrors c s t)
    (pos : 0 < s.nrRunning) (ok : RunQueue.schedSuspend pid s = .ok (r, v)) : ∃ u t',
      RunQueueNodes.schedSuspend pid c = .ok (r, u) ∧ Mirrors u v t' := by
  unfold RunQueue.schedSuspend at ok
  unfold RunQueueNodes.schedSuspend
  by_cases large : pid > 99
  · rw [if_pos large] at ok ⊢
    obtain ⟨rfl, rfl⟩ := Prod.mk.inj (pure_ok.1 ok)
    exact ⟨c, t, rfl, h⟩
  · rw [if_neg large] at ok ⊢
    obtain ⟨⟨⟩, w, ok, last⟩ := bind_ok.1 ok
    obtain ⟨count, u, t', run, m⟩ := h.unqueue ok
    rw [modify_bind] at last
    obtain ⟨rfl, rfl⟩ := Prod.mk.inj (pure_ok.1 last)
    have some : (1 : UInt32) ≤ u.nrRunning := by
      rw [UInt32.le_iff_toNat_le, m.running, count]
      exact pos
    refine ⟨_, t', bind_of_ok run, m.memory, m.tree, m.serial, m.vruntime, m.link, m.unlinked,
      m.min, m.current, ?_, m.null⟩
    rw [UInt32.toNat_sub_of_le _ _ some, m.running]
    rfl

theorem Mirrors.counted (h : Mirrors c s t) (room : s.nrRunning ≤ 100) :
    Mirrors { c with nrRunning := c.nrRunning + 1 } { s with nrRunning := s.nrRunning + 1 } t := by
  refine ⟨h.memory, h.tree, h.serial, h.vruntime, h.link, h.unlinked, h.min, h.current, ?_, h.null⟩
  have sum := UInt32.toNat_add c.nrRunning 1
  rw [h.running] at sum
  rw [sum]
  exact Nat.mod_eq_of_lt (by simp; omega)

theorem Mirrors.resume {v : RunQueue.Sched NodeTree} {r : ℤ} (h : Mirrors c s t)
    (lawful : ∀ i g, malloc i g ∉ g ∧ malloc i g ≠ 0) (room : s.nrRunning ≤ 100)
    (ok : RunQueue.schedResume pid s = .ok (r, v)) : ∃ u t',
      RunQueueNodes.schedResume malloc pid c = .ok (r, u) ∧ Mirrors u v t' := by
  unfold RunQueue.schedResume at ok
  unfold RunQueueNodes.schedResume
  by_cases large : pid > 99
  · rw [if_pos large] at ok ⊢
    obtain ⟨rfl, rfl⟩ := Prod.mk.inj (pure_ok.1 ok)
    exact ⟨c, t, rfl, h⟩
  rw [if_neg large] at ok ⊢
  rw [modify_bind, get_bind] at ok ⊢
  have placed : Mirrors (RunQueueNodes.place pid c) (RunQueue.place pid s) t := by
    have charged := h.charge pid fun x => if x > RunQueue.wakeFloor s.minVruntime then x
      else RunQueue.wakeFloor s.minVruntime
    rw [← h.min] at charged
    rw [RunQueue.place, ← h.min]
    exact charged
  have room : (RunQueue.place pid s).nrRunning ≤ 100 := room
  generalize RunQueueNodes.place pid c = c at placed ⊢
  generalize RunQueue.place pid s = s at placed room ok
  have none : c.nrRunning = 0 ↔ s.nrRunning = 0 := by
    rw [← UInt32.toNat_inj, placed.running]
    rfl
  by_cases empty : s.nrRunning = 0
  · rw [if_pos empty] at ok
    rw [if_pos (none.2 empty)]
    obtain ⟨rfl, rfl⟩ := Prod.mk.inj (pure_ok.1 ok)
    have first : Mirrors { c with minVruntime := c.vruntime pid, current := pid }
        { s with minVruntime := s.vruntime pid, current := pid } t :=
      ⟨placed.memory, placed.tree, placed.serial, placed.vruntime, placed.link, placed.unlinked,
        placed.vruntime pid, rfl, placed.running, placed.null⟩
    exact ⟨_, t, rfl, first.counted room⟩
  · rw [if_neg empty] at ok
    rw [if_neg fun m => empty (none.1 m), placed.current]
    by_cases cur : pid = s.current
    · rw [if_pos cur] at ok ⊢
      obtain ⟨rfl, rfl⟩ := Prod.mk.inj (pure_ok.1 ok)
      exact ⟨c, t, rfl, placed⟩
    · rw [if_neg cur] at ok ⊢
      rw [modify_bind] at ok
      obtain ⟨⟨⟩, w, switch, last⟩ := bind_ok.1 ok
      obtain ⟨u, t', run, m⟩ := placed.enqueue lawful pid
      obtain ⟨u', t'', run', m⟩ := m.preempt lawful switch
      rw [modify_bind] at last
      obtain ⟨rfl, rfl⟩ := Prod.mk.inj (pure_ok.1 last)
      have count : w.nrRunning ≤ 100 := by
        rw [(RunQueue.preempt_waiting switch).2]
        exact room
      exact ⟨_, t'', (bind_of_ok run).trans (bind_of_ok run'), m.counted count⟩

theorem Mirrors.check {v : RunQueue.Sched NodeTree} (h : Mirrors c s t)
    (lawful : ∀ i g, malloc i g ∉ g ∧ malloc i g ≠ 0)
    (ok : RunQueue.endSlice s = .ok ((), v)) : ∃ u t',
      RunQueueNodes.endSlice malloc c = .ok ((), u) ∧ Mirrors u v t' := by
  rw [RunQueue.endSlice, get_bind] at ok
  have less : c.nrRunning < 2 ↔ s.nrRunning < 2 := by
    rw [UInt32.lt_iff_toNat_lt, h.running]
    rfl
  rw [RunQueueNodes.endSlice, get_bind]
  by_cases few : s.nrRunning < 2
  · rw [if_pos few] at ok
    rw [if_pos (less.2 few)]
    obtain ⟨-, rfl⟩ := Prod.mk.inj (pure_ok.1 ok)
    exact ⟨c, t, rfl, h⟩
  · rw [if_neg few] at ok
    rw [if_neg fun m => few (less.1 m)]
    exact h.preempt lawful ok

/-- Whatever an operation does to the trees, it does to the nodes. -/
theorem Mirrors.run {v : RunQueue.Sched NodeTree} (h : Mirrors c s t)
    (lawful : ∀ i g, malloc i g ∉ g ∧ malloc i g ≠ 0) (room : s.nrRunning ≤ 100)
    (op : RunQueue.SchedOp) (pos : ∀ pid, op = .suspend pid → 0 < s.nrRunning)
    (ok : op.run s = .ok ((), v)) : ∃ u t', run malloc op c = .ok ((), u) ∧ Mirrors u v t' := by
  cases op with
  | resume pid =>
    obtain ⟨r, w, ok, last⟩ := bind_ok.1 ok
    obtain ⟨-, rfl⟩ := Prod.mk.inj (pure_ok.1 last)
    obtain ⟨u, t', run, m⟩ := h.resume lawful room ok
    exact ⟨u, t', bind_of_ok run, m⟩
  | suspend pid =>
    obtain ⟨r, w, ok, last⟩ := bind_ok.1 ok
    obtain ⟨-, rfl⟩ := Prod.mk.inj (pure_ok.1 last)
    obtain ⟨u, t', run, m⟩ := h.suspend (pos pid rfl) ok
    exact ⟨u, t', bind_of_ok run, m⟩
  | reset pid =>
    obtain ⟨r, w, ok, last⟩ := bind_ok.1 ok
    obtain ⟨-, rfl⟩ := Prod.mk.inj (pure_ok.1 last)
    rw [RunQueue.schedReset] at ok
    by_cases large : pid > 99
    · rw [if_pos large] at ok
      obtain ⟨-, rfl⟩ := Prod.mk.inj (pure_ok.1 ok)
      refine ⟨c, t, ?_, h⟩
      rw [RunQueueNodes.run, schedReset, if_pos large]
      rfl
    · rw [if_neg large] at ok
      rw [modify_bind] at ok
      obtain ⟨-, rfl⟩ := Prod.mk.inj (pure_ok.1 ok)
      refine ⟨_, t, ?_, h.charge pid fun _ => 0⟩
      rw [RunQueueNodes.run, schedReset, if_neg large]
      rfl
  | tick =>
    obtain ⟨-, rfl⟩ := Prod.mk.inj (modify_ok.1 ok)
    refine ⟨_, t, rfl, ?_⟩
    rw [account, RunQueue.account, h.current]
    exact h.charge s.current (· + 1)
  | check => exact h.check lawful ok

theorem init_mirrors {nil root : ℕ} (ne : nil ≠ root) (nil_ne : nil ≠ 0) (root_ne : root ≠ 0) :
    Mirrors (schedInit nil root) RunQueue.schedInit leaf := by
  refine ⟨create_redBlack ne, rfl, rfl, fun _ => rfl, fun pid i here => ?_, fun _ _ => rfl,
    rfl, rfl, rfl, fun used => ?_⟩
  · cases here
  rcases (create_redBlack (ι := ℕ) ne).used 0 used with eq | eq | ⟨b, hb, -⟩
  · exact root_ne eq.symm
  · exact nil_ne eq.symm
  · cases hb

theorem Mirrors.absent (h : Mirrors c s t) (linked : RunQueue.Linked s)
    (none : (c.taskTable pid).n = 0) : pid ∉ s.waiting := by
  intro wait
  obtain ⟨i, hi⟩ := RunQueue.mem_waiting.1 wait
  have here := h.link pid i ((linked.node pid i).2 hi)
  exact h.null (none ▸ h.memory.shows.tree.mem _ (label_mem here))

theorem Mirrors.admissible {R : Finset ℕ} (h : Mirrors c s t) (linked : RunQueue.Linked s)
    {op : RunQueue.SchedOp} (adm : RunQueueNodes.admissible c R op) : op.admissible s R := by
  cases op with
  | resume pid => exact fun mem => (adm mem).trans h.current
  | suspend pid => exact adm
  | reset pid => exact h.absent linked adm
  | tick =>
    have pos : 0 < c.nrRunning.toNat := adm
    rwa [h.running] at pos
  | check => trivial

theorem room {R : Finset ℕ} (h : RunQueue.Tracked s R) : s.nrRunning ≤ 100 := by
  have sub : R ⊆ Finset.range 100 := fun pid hp => by
    have small := h.small pid hp
    rw [Finset.mem_range]
    omega
  have card := Finset.card_le_card sub
  rw [Finset.card_range] at card
  rw [h.accounted.count]
  exact card

/-- An admissible operation succeeds on the nodes and on the trees. -/
theorem Mirrors.step {R : Finset ℕ} (h : Mirrors c s t) (tracked : RunQueue.Tracked s R)
    (lawful : ∀ i g, malloc i g ∉ g ∧ malloc i g ≠ 0) (op : RunQueue.SchedOp)
    (adm : RunQueueNodes.admissible c R op) : ∃ u v t',
      RunQueueNodes.run malloc op c = .ok ((), u) ∧ op.run s = .ok ((), v) ∧
        op.admissible s R ∧ Mirrors u v t' := by
  have adm' := h.admissible tracked.linked adm
  obtain ⟨v, ok, -, -⟩ := tracked.run op adm'
  have pos (pid : ℕ) (eq : op = .suspend pid) : 0 < s.nrRunning := by
    subst eq
    exact tracked.pos adm
  obtain ⟨u, t', run, mirrors⟩ := h.run lawful (room tracked) op pos ok
  exact ⟨u, v, t', run, ok, adm', mirrors⟩

theorem Reaches.mirrors {R : Finset ℕ} (lawful : ∀ i g, malloc i g ∉ g ∧ malloc i g ≠ 0)
    (h : Reaches malloc c R) : ∃ s t, RunQueue.Reachable s R ∧ Mirrors c s t := by
  induction h with
  | init nil root ne nil_ne root_ne => exact ⟨_, leaf, .init, init_mirrors ne nil_ne root_ne⟩
  | step c u R op h adm ok ih =>
    obtain ⟨s, t, reach, mirrors⟩ := ih
    obtain ⟨u', v, t', run, ok', adm', mirrors'⟩ := mirrors.step reach.tracked lawful op adm
    obtain ⟨-, rfl⟩ := Prod.mk.inj (Except.ok.inj (run.symm.trans ok))
    exact ⟨v, t', .step s v R op reach adm' ok', mirrors'⟩

structure Sound (c : Table) (R : Finset ℕ) : Prop where
  count : c.nrRunning.toNat = R.card
  current : R.Nonempty → c.current ∈ R
  queued : ∀ pid, (c.taskTable pid).n ≠ 0 ↔ pid ∈ R.erase c.current
  tree : ∃ t : ColorTree (ℕ × ℕ), RedBlack c.t t ∧
    t.height ≤ 2 * Nat.log 2 ((R.erase c.current).card + 1) ∧
    ∀ q pid, (q, pid) ∈ t.toList ↔ pid ∈ R.erase c.current ∧ (c.taskTable pid).n = q
  heap : c.t.heap.keys.card = (R.erase c.current).card + 2

theorem Mirrors.waiting {R : Finset ℕ} (h : Mirrors c s t) (tracked : RunQueue.Tracked s R) :
    ∀ b ∈ t.toList, b.2.pid ∈ R.erase c.current ∧ (c.taskTable b.2.pid).n = b.1 := by
  intro b hb
  have node : b.2 ∈ s.nodes := by
    rw [h.nodes]
    exact List.mem_map_of_mem hb
  have pos : 0 < s.nrRunning := Nat.pos_of_ne_zero fun none => by
    rw [tracked.accounted.empty none] at node
    cases node
  have wait : b.2.pid ∈ s.waiting := List.mem_map_of_mem node
  refine ⟨Finset.mem_erase.2 ⟨fun eq => tracked.current pos ?_, tracked.accounted.runnable _ node⟩,
    ?_⟩
  · rw [← h.current, ← eq]
    exact wait
  · have here := h.link _ _ ((tracked.linked.node b.2.pid b.2.id).2 node)
    exact congrArg Prod.fst (h.number_unique here hb rfl)

theorem Mirrors.linked {R : Finset ℕ} (h : Mirrors c s t) (tracked : RunQueue.Tracked s R)
    (mem : pid ∈ R.erase c.current) : ∃ i, ((c.taskTable pid).n, ⟨i, pid⟩) ∈ t.toList := by
  obtain ⟨ne, mem⟩ := Finset.mem_erase.1 mem
  obtain ⟨i, here, -⟩ := tracked.accounted.queued (tracked.pos mem) pid mem (h.current ▸ ne)
  exact ⟨i, h.link pid i here⟩

theorem Mirrors.length {R : Finset ℕ} (h : Mirrors c s t) (tracked : RunQueue.Tracked s R) :
    t.toList.length = (R.erase c.current).card := by
  have wait : s.waiting = t.toList.map fun b => b.2.pid := by
    rw [RunQueue.Sched.waiting, h.nodes, List.map_map]
    rfl
  have nodup := tracked.linked.nodup
  have same : s.waiting.toFinset = R.erase c.current := by
    ext pid
    rw [List.mem_toFinset, wait, List.mem_map]
    constructor
    · rintro ⟨b, hb, rfl⟩
      exact (h.waiting tracked b hb).1
    · intro mem
      obtain ⟨i, here⟩ := h.linked tracked mem
      exact ⟨_, here, rfl⟩
  rw [← same, List.toFinset_card_of_nodup nodup, wait, List.length_map]

theorem Mirrors.sound {R : Finset ℕ} (h : Mirrors c s t) (tracked : RunQueue.Tracked s R) :
    Sound c R := by
  have length := h.length tracked
  have labels : (t.map address).toList.length = (R.erase c.current).card := by
    rw [map_toList, List.length_map, length]
  refine ⟨h.running.trans tracked.accounted.count, fun some => ?_, fun pid => ?_,
    ⟨t.map address, h.memory, labels ▸ h.memory.height, fun q pid => ?_⟩,
    labels ▸ h.memory.card⟩
  · obtain ⟨pid, mem⟩ := some
    rw [h.current]
    exact (tracked.accounted.current (tracked.pos mem)).1
  · constructor
    · intro some
      cases here : (s.taskTable pid).n with
      | none => exact absurd (h.unlinked pid here) some
      | some i => exact (h.waiting tracked _ (h.link pid i here)).1
    · intro mem none
      obtain ⟨i, here⟩ := h.linked tracked mem
      exact h.null (none ▸ h.memory.shows.tree.mem _ (label_mem here))
  · constructor
    · intro mem
      rw [map_toList] at mem
      obtain ⟨b, hb, eq⟩ := List.mem_map.1 mem
      obtain ⟨rfl, rfl⟩ := Prod.mk.inj eq
      exact h.waiting tracked b hb
    · rintro ⟨mem, rfl⟩
      obtain ⟨i, here⟩ := h.linked tracked mem
      exact label_mem here

/-- After every sequence of admissible calls, whatever unused addresses the allocator answers,
the pointers of the run queue are sound and the next call succeeds. -/
theorem pointers_sound (malloc : Allocator) (lawful : ∀ i g, malloc i g ∉ g ∧ malloc i g ≠ 0)
    (c : Table) (R : Finset ℕ) (h : Reaches malloc c R) :
    Sound c R ∧ ∀ op, admissible c R op → ∃ u, run malloc op c = .ok ((), u) := by
  obtain ⟨s, t, reach, mirrors⟩ := Reaches.mirrors lawful h
  refine ⟨mirrors.sound reach.tracked, fun op adm => ?_⟩
  obtain ⟨u, v, t', run, -⟩ := mirrors.step reach.tracked lawful op adm
  exact ⟨u, run⟩

def nextAddress : Allocator := fun _ g => g.keys.sup id + 1

theorem nextAddress_unused (i : ℕ) (g : Heap ℕ) : nextAddress i g ∉ g ∧ nextAddress i g ≠ 0 := by
  refine ⟨fun used => ?_, Nat.succ_ne_zero _⟩
  have below : nextAddress i g ≤ g.keys.sup id :=
    Finset.le_sup (f := id) (Finmap.mem_keys.2 used)
  exact absurd below (Nat.not_succ_le_self _)

def oneResumed : Table :=
  (run nextAddress (.resume 0) (schedInit 1 2)).toOption.elim (schedInit 1 2) Prod.snd

def twoResumed : Table :=
  (run nextAddress (.resume 1) oneResumed).toOption.elim oneResumed Prod.snd

theorem twoResumed_reached : Reaches nextAddress twoResumed {1, 0} := by
  have init : Reaches nextAddress (schedInit 1 2) ∅ :=
    .init 1 2 (by decide) (by decide) (by decide)
  have first : Reaches nextAddress oneResumed {0} :=
    .step _ _ ∅ (.resume 0) init (by simp [admissible]) rfl
  exact .step _ _ {0} (.resume 1) first (by simp [admissible]) rfl

/-- The first process can be suspended while the second waits in the tree. -/
theorem twoResumed_suspends : ∃ u, run nextAddress (.suspend 0) twoResumed = .ok ((), u) :=
  (pointers_sound nextAddress nextAddress_unused twoResumed _ twoResumed_reached).2 (.suspend 0)
    (by simp [admissible])

/-- The scheduler on the nodes refines the one on trees. -/
theorem nodes_refine_trees (malloc : Allocator)
    (lawful : ∀ i g, malloc i g ∉ g ∧ malloc i g ≠ 0) :
    ∃ M : Table → Finset ℕ → RunQueue.Sched NodeTree → Prop,
      (∀ nil root, nil ≠ root → nil ≠ 0 → root ≠ 0 →
        M (schedInit nil root) ∅ RunQueue.schedInit) ∧
      (∀ c R s op, M c R s → admissible c R op → ∃ u v, run malloc op c = .ok ((), u) ∧
        op.run s = .ok ((), v) ∧ M u (op.runnable R) v) ∧
      ∀ c R s, M c R s → RunQueue.Reachable s R ∧ c.current = s.current ∧
        c.nrRunning.toNat = s.nrRunning ∧ c.minVruntime = s.minVruntime ∧
        c.vruntime = s.vruntime ∧
        ∃ t, RedBlack c.t t ∧ t.toList.map Prod.snd = s.waiting := by
  refine ⟨fun c R s => RunQueue.Reachable s R ∧ ∃ t, Mirrors c s t, ?_, ?_, ?_⟩
  · exact fun nil root ne nil_ne root_ne => ⟨.init, leaf, init_mirrors ne nil_ne root_ne⟩
  · rintro c R s op ⟨reach, t, mirrors⟩ adm
    obtain ⟨u, v, t', run, ok, adm', mirrors'⟩ := mirrors.step reach.tracked lawful op adm
    exact ⟨u, v, run, ok, .step s v R op reach adm' ok, t', mirrors'⟩
  · rintro c R s ⟨reach, t, mirrors⟩
    refine ⟨reach, mirrors.current, mirrors.running, mirrors.min, funext mirrors.vruntime,
      t.map address, mirrors.memory, ?_⟩
    rw [RunQueue.Sched.waiting, mirrors.nodes, map_toList, List.map_map, List.map_map]
    rfl

theorem nextAddress_refines : ∃ M : Table → Finset ℕ → RunQueue.Sched NodeTree → Prop,
    M (schedInit 1 2) ∅ RunQueue.schedInit ∧
      ∀ c R s op, M c R s → admissible c R op → ∃ u v, run nextAddress op c = .ok ((), u) ∧
        op.run s = .ok ((), v) ∧ M u (op.runnable R) v := by
  obtain ⟨M, first, step, -⟩ := nodes_refine_trees nextAddress nextAddress_unused
  exact ⟨M, first 1 2 (by decide) (by decide) (by decide), step⟩

end
end BrainMachine.RunQueueRefinement
