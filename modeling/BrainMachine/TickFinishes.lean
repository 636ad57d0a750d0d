import BrainMachine.ExecSteps
import BrainMachine.HeldPages
import BrainMachine.LoaderTermination
import BrainMachine.MemoryRelations

set_option autoImplicit false

/-!
# Ticks that finish

The scheduler and the wait queues never stop a tick of the current process. What can stop it is
said of the state before the tick: pages that the instruction holds at once without frames for
them, a process that cannot be made, a file that is not loaded to its end, and a listing of words
that are not there.
-/
namespace BrainMachine.TickFinishes
open Codec Computations Paging Stdio AddressSpace Instructions HoleList RunQueue Machine Loader
open Dispatch Effects MachineRuns Transparency References FrameTable HeldPages MachineMemory
open ProcessImages TickSteps ExecSteps LoaderTermination LoaderFormat MemoryRelations
open Isolation (granted_seg)

section
variable {T : Type} [RedBlackTree T]

theorem schedReset_finishes (pid : ℕ) (s : Sched T) :
    Finishes (schedReset pid) (fun _ u => u.current = s.current ∧ (Counted s → Counted u)) s := by
  rw [schedReset]
  refine .ite (fun _ => .pure ⟨rfl, id⟩) fun _ => .modify_bind (.pure ⟨rfl, id⟩)

theorem ctxtSwitch_finishes {s : Sched T} (h : s.nodes ≠ []) :
    Finishes ctxtSwitch (fun _ _ => True) s := by
  obtain ⟨n, l, hn⟩ := List.exists_cons_of_ne_nil h
  exact ⟨_, _, ctxtSwitch_eq hn, trivial⟩

theorem schedSuspend_finishes {s : Sched T} {pid : ℕ} (counted : Counted s) (cur : s.current = pid) :
    Finishes (schedSuspend pid) (fun _ _ => True) s := by
  rw [schedSuspend]
  refine .ite (fun _ => .pure trivial) fun _ => ?_
  refine .bind (Q := fun _ _ => True) ?_ fun _ _ _ => .modify_bind (.pure trivial)
  refine .get_bind ?_
  rw [if_pos cur]
  refine .ite (fun others => ctxtSwitch_finishes fun none => ?_) fun _ => .pure trivial
  have length := counted.pos (by omega)
  rw [none, List.length_nil] at length
  omega

variable [LawfulTree T]

theorem enqueue_filled (pid : ℕ) (s : Sched T) : (enqueue pid s).nodes ≠ [] := by
  obtain ⟨l, r, -, h⟩ := enqueue_nodes pid s
  rw [h]
  simp

theorem preempt_finishes {s : Sched T} (b : Bool) (h : s.nodes ≠ []) :
    Finishes (preempt b) (fun _ _ => True) s := by
  obtain ⟨n, l, hn⟩ := List.exists_cons_of_ne_nil h
  by_cases switch : keyComp s.minVruntime (s.vruntime s.current) (s.vruntime n.pid) > 0
  · obtain ⟨a, u, run, -⟩ := ctxtSwitch_finishes (enqueue_filled s.current
      { s with minVruntime := if b then s.vruntime n.pid else s.minVruntime })
    refine ⟨a, u, ?_, trivial⟩
    rw [preempt_eq b hn, if_pos switch]
    exact run
  · refine ⟨⟨⟩, s, ?_, trivial⟩
    rw [preempt_eq b hn, if_neg switch]

/-- Any process can be resumed, though one that waits in the tree is put there twice. -/
theorem schedResume_finishes (pid : ℕ) (s : Sched T) :
    Finishes (schedResume pid) (fun _ _ => True) s := by
  rw [schedResume]
  refine .ite (fun _ => .pure trivial) fun _ => .modify_bind (.get_bind ?_)
  refine .ite (fun _ => .modify_bind (.pure trivial)) fun _ => ?_
  refine .ite (fun _ => .pure trivial) fun _ => .modify_bind ?_
  refine (preempt_finishes false (enqueue_filled pid _)).bind fun _ _ _ => ?_
  exact .modify_bind (.pure trivial)

omit [RedBlackTree T] [LawfulTree T] in
theorem onSched_finishes {α : Type} {x : Exec (Sched T) α} {m : VM T}
    (h : Finishes x (fun _ _ => True) m.sched) : Finishes (onSched x) (fun _ _ => True) m :=
  h.zoom fun _ _ _ => trivial

omit [RedBlackTree T] [LawfulTree T] in
/-- Setting the counter back leaves the run queue and the rest of the machine alone. -/
theorem retry_finishes (p : ℕ) (m : VM T) :
    Finishes (onCore p retryOp) (fun _ u => u.sched = m.sched) m := by
  refine Finishes.zoom (P := fun _ _ => True) ?_ fun _ _ _ => rfl
  exact .get_bind (.ite (fun _ => .pure trivial) fun _ => .modify_bind (.pure trivial))

theorem send_finishes {p : ℕ} {m : VM T} (a : ℤ) (counted : Counted m.sched)
    (cur : m.sched.current = p) : Finishes (send p a) (fun _ _ => True) m := by
  rw [send]
  refine .ite (fun _ => .pure trivial) fun _ => ?_
  refine (onSched_finishes (schedSuspend_finishes counted cur)).bind fun _ u _ => ?_
  refine .bind (Q := fun _ _ => True) ⟨_, _, rfl, trivial⟩ fun r u _ => ?_
  refine .ite (fun _ => .pure trivial) fun _ => .get_bind (.ite (fun _ => ?_) fun _ => .pure trivial)
  refine .bind (Q := fun _ _ => True) ?_ fun r u _ => ?_
  · refine .bind (Q := fun _ _ => True) ⟨_, _, rfl, trivial⟩ fun r u _ => ?_
    exact .ite (fun _ => ⟨_, _, rfl, trivial⟩) fun _ => .pure trivial
  · refine .ite (fun _ => .pure trivial) fun _ => ?_
    exact (onSched_finishes (schedResume_finishes _ _)).bind fun _ _ _ => .pure trivial

theorem recv_finishes {n : ℕ} {S : Finset ℕ} {held : List ℕ} {p : ℕ} {m : VM T} {a : ℤ}
    (counted : Counted m.sched) (cur : m.sched.current = p) (h : Grip n S held m.store.pager)
    (fits : ∀ sender, m.waitingSender p a = some sender → AffordsMessage n S held (m.seg sender)
      (m.seg p) (word2int (m.regs sender).r) (word2int (m.regs p).r)) :
    Finishes (recv p a) (fun _ _ => True) m := by
  rw [recv]
  refine .ite (fun _ => .pure trivial) fun _ => .get_bind ?_
  cases waits : m.waitingSender p a with
  | none =>
    apply (retry_finishes p m).bind
    rintro r u same
    refine .ite (fun _ => .pure trivial) fun _ => ?_
    refine .bind (Q := fun _ v => v.sched = m.sched) ⟨_, _, rfl, same⟩ fun r v same => ?_
    refine .ite (fun _ => .pure trivial) fun _ => ?_
    rw [← same] at counted cur
    exact (onSched_finishes (schedSuspend_finishes counted cur)).bind fun _ _ _ => .pure trivial
  | some sender =>
    refine .bind (Q := fun _ _ => True) (.get_bind ?_) fun r u _ => ?_
    · exact (xferWords_finishes h (fits sender waits)).zoom fun _ _ _ => trivial
    · refine .ite (fun _ => .pure trivial) fun _ => ?_
      refine .bind (Q := fun _ _ => True) ⟨_, _, rfl, trivial⟩ fun r u _ => ?_
      refine .ite (fun _ => .pure trivial) fun _ => ?_
      exact (onSched_finishes (schedResume_finishes _ _)).bind fun _ _ _ => .pure trivial

omit [LawfulTree T] in
theorem semDown_finishes {p : ℕ} {m : VM T} (a : ℤ) (counted : Counted m.sched)
    (cur : m.sched.current = p) : Finishes (semDown p a) (fun _ _ => True) m := by
  rw [semDown]
  refine .ite (fun _ => .pure trivial) fun _ => ?_
  refine .bind (Q := fun _ u => u.sched = m.sched) ?_ fun r u same => ?_
  · refine Finishes.zoom (P := fun _ _ => True) ?_ fun _ _ _ => rfl
    refine .get_bind (.ite (fun _ => .pure trivial) fun _ => .ite (fun _ => .pure trivial) fun _ => ?_)
    exact .modify_bind (.pure trivial)
  refine .ite (fun _ => .pure trivial) fun _ => .ite (fun _ => ?_) fun _ => .pure trivial
  apply (retry_finishes p u).bind
  rintro r v same'
  refine .ite (fun _ => .pure trivial) fun _ => ?_
  rw [← same, ← same'] at counted cur
  refine (onSched_finishes (schedSuspend_finishes counted cur)).bind fun _ w _ => ?_
  refine .bind (Q := fun _ _ => True) ⟨_, _, rfl, trivial⟩ fun r u _ => ?_
  exact .ite (fun _ => .pure trivial) fun _ => .pure trivial

theorem semUp_finishes (p : ℕ) (m : VM T) (a : ℤ) : Finishes (semUp p a) (fun _ _ => True) m := by
  rw [semUp]
  refine .ite (fun _ => .pure trivial) fun _ => ?_
  refine .bind (Q := fun _ _ => True) ?_ fun r u _ => ?_
  · refine Finishes.zoom (P := fun _ _ => True) ?_ fun _ _ _ => trivial
    exact .ite (fun _ => .pure trivial) fun _ => .modify_bind (.pure trivial)
  refine .ite (fun _ => .pure trivial) fun _ => .get_bind ?_
  cases u.semWq a.toNat with
  | nil => exact .pure trivial
  | cons w l =>
    refine (onSched_finishes (schedResume_finishes _ _)).bind fun _ v _ => ?_
    refine .bind (Q := fun _ _ => True) ⟨_, _, rfl, trivial⟩ fun r u _ => ?_
    exact .ite (fun _ => .pure trivial) fun _ => .pure trivial

omit [RedBlackTree T] [LawfulTree T] in
theorem freeSpace_sched (m : VM T) (q : Seg) : (m.freeSpace q).sched = m.sched := by
  unfold VM.freeSpace
  split <;> rfl

omit [LawfulTree T] in
theorem halt_finishes {p : ℕ} {m : VM T} (a : ℤ) (counted : Counted m.sched)
    (cur : m.sched.current = p) : Finishes (halt p a) (fun _ _ => True) m := by
  refine .modify_bind (.bind (Q := fun _ u => u.sched.current = p ∧ Counted u.sched) ?_ ?_)
  · refine (schedReset_finishes p _).zoom fun _ t post => ?_
    obtain ⟨same, kept⟩ := post
    rw [freeSpace_sched] at same kept
    exact ⟨same.trans cur, kept counted⟩
  · rintro _ u ⟨cur, counted⟩
    exact (onSched_finishes (schedSuspend_finishes counted cur)).bind fun _ _ _ => .pure trivial

omit [RedBlackTree T] [LawfulTree T] in
theorem setProc_seg {p q : ℕ} {f : Proc → Proc} (keeps : ∀ e, (f e).toSeg = e.toSeg) (m : VM T) :
    (m.setProc p f).seg q = m.seg q := by
  by_cases h : q = p <;> simp [VM.seg, VM.setProc, h, keeps]

/-- A process can be forked when there is a pid and a block for the new one, and the copy
finishes. -/
theorem forkProc_finishes {n : ℕ} {S : Finset ℕ} {held : List ℕ} {p : ℕ} {m : VM T} (a : ℤ)
    (lt : p < m.nextPid) (h : Grip n S held m.store.pager)
    (room : 0 ≤ word2int (m.seg p).lr → m.nextPid ≤ 99 ∧
      0 ≤ (memalloc (word2int (m.seg p).lr + 1) m.holes).1 ∧
      AffordsCopy n S held (m.seg p)
        ((granted (word2int (m.seg p).lr + 1) m).seg m.nextPid)) :
    Finishes (forkProc p a) (fun _ _ => True) m := by
  rw [forkProc]
  refine .get_bind (.ite (fun _ => .pure trivial) fun numeric => ?_)
  obtain ⟨pid, block, fits⟩ := room (not_lt.1 numeric)
  refine .bind (Q := fun q u => q = some m.nextPid ∧ u = granted (word2int (m.seg p).lr + 1) m)
    ⟨_, _, procalloc_granted pid block, rfl, rfl⟩ ?_
  rintro _ _ ⟨rfl, rfl⟩
  refine .modify_bind (.modify_bind (.get_bind ?_))
  refine .bind (Q := fun _ _ => True) ?_ fun r u _ => ?_
  · refine Finishes.zoom (P := fun _ _ => True) ?_ fun _ _ _ => trivial
    have parent : (granted (word2int (m.seg p).lr + 1) m).seg p = m.seg p := by
      rw [granted_seg, if_neg (by omega)]
    rw [setProc_seg, setProc_seg, setProc_seg, setProc_seg, parent]
    · exact dupMem_finishes h fits
    all_goals exact fun _ => rfl
  · refine .ite (fun _ => .pure trivial) fun _ => ?_
    refine .bind (Q := fun _ _ => True) ?_ fun r v _ => ?_
    · exact (schedReset_finishes _ _).zoom fun _ _ _ => trivial
    · exact (onSched_finishes (schedResume_finishes _ _)).bind fun _ _ _ => .pure trivial

def FileSound (m : VM T) (p : ℕ) (text : List UInt8) : Prop :=
  ∀ s, scanToken 7 ⟨text, false⟩ = (some brain10, s) → 0 ≤ (loadHeader s).1 →
    0 ≤ (memalloc (loadHeader s).1 m.holes).1 →
      CodeSound ((resized p (loadHeader s).1 m).seg p) (loadHeader s).2

omit [RedBlackTree T] [LawfulTree T] in
theorem resizeProc_finishes (p : ℕ) (n : ℤ) (m : VM T) :
    Finishes (resizeProc p n) (fun r u => r = 0 → 0 ≤ (memalloc n m.holes).1 ∧ u = resized p n m) m := by
  rw [resizeProc]
  refine .get_bind (.modify_bind ?_)
  refine .ite (fun _ => .pure fun zero => absurd zero (by decide)) fun block => ?_
  exact .modify_bind (.modify_bind (.pure fun _ => ⟨not_lt.1 block, rfl⟩))

omit [RedBlackTree T] [LawfulTree T] in
theorem execFile_finishes {p : ℕ} {m : VM T} {text : List UInt8} (sound : FileSound m p text) :
    Finishes (execFile p ⟨text, false⟩) (fun _ _ => True) m := by
  rw [execFile]
  rcases hs : scanToken 7 ⟨text, false⟩ with ⟨_ | tok, s⟩
  · exact .modify_bind (.pure trivial)
  · dsimp only
    refine .ite (fun _ => .modify_bind (.pure trivial)) fun mark => ?_
    obtain rfl := not_not.1 mark
    refine .ite (fun _ => .modify_bind (.pure trivial)) fun size => ?_
    apply (resizeProc_finishes p (loadHeader s).1 m).bind
    intro r u resize
    refine .ite (fun _ => ?_) fun zero => ?_
    · exact .bind (Q := fun _ _ => True) ⟨_, _, rfl, trivial⟩ fun _ _ _ => .pure trivial
    · obtain ⟨block, rfl⟩ := resize (not_not.1 zero)
      have code := sound s hs (not_lt.1 size) block
      obtain ⟨⟨c, v⟩, run⟩ := (loadCodeLoop_ends p 0 (resized p (loadHeader s).1 m).host.buffer
        (entered (resized p (loadHeader s).1 m)) (Nat.lt_succ_self _)).1.2 code
      have load := (loadCode_eq (loadHeader s).2 p (resized p (loadHeader s).1 m)).trans run
      refine .bind (Q := fun _ _ => True) ⟨c, v, load, trivial⟩ fun c v _ => ?_
      refine .ite (fun _ => .modify_bind (.pure trivial)) fun _ => ?_
      refine .bind (Q := fun _ _ => True) ⟨_, _, rfl, trivial⟩ fun _ _ _ => ?_
      exact .modify_bind (.pure trivial)

omit [RedBlackTree T] [LawfulTree T] in
theorem affords_congr {n : ℕ} {S : Finset ℕ} {held : List ℕ} {p : Seg} {a : ℤ} {c d : Core} {op : Op}
    (h : Affords n S held p a c op) (sp : d.regs.sp = c.regs.sp)
    (base : d.regs.stackBase = c.regs.stackBase) (stdin : d.store.stdin = c.store.stdin) :
    Affords n S held p a d op := by
  cases op <;> simp only [Affords, sp, base, stdin] at h ⊢ <;> exact h

def Serves (n : ℕ) (S : Finset ℕ) (held : List ℕ) (m : VM T) (p : ℕ) (a : ℤ) : Op → Prop
  | .RC => ∀ sender, m.waitingSender p a = some sender → AffordsMessage n S held (m.seg sender)
      (m.seg p) (word2int (m.regs sender).r) (word2int (m.regs p).r)
  | .FK => 0 ≤ word2int (m.seg p).lr → m.nextPid ≤ 99 ∧
      0 ≤ (memalloc (word2int (m.seg p).lr + 1) m.holes).1 ∧
      AffordsCopy n S held (m.seg p) ((granted (word2int (m.seg p).lr + 1) m).seg m.nextPid)
  | .EX => counter m p ≠ 99 → m.host.opened < m.host.limit → ∀ text,
      m.host.files (lowHalf (word m p (counter m p))) = some text → FileSound m p text
  | op => Affords n S held (m.seg p) a (m.core p) op

omit [RedBlackTree T] [LawfulTree T] in
theorem execProc_finishes {m : VM T} {p x : ℕ} {s : Store} (a : ℤ) (frames : Frames m.store.pager)
    (fetch : getWordref (m.seg p) (counter m p) m.store = .ok (some x, s))
    (sound : counter m p ≠ 99 → m.host.opened < m.host.limit → ∀ text,
      m.host.files (lowHalf (word m p (counter m p))) = some text → FileSound m p text) :
    Finishes (execProc p a) (fun _ _ => True) (fetched p s.pager m) := by
  rw [execProc]
  by_cases last : counter m p = 99
  · exact .bind (Q := fun f _ => f = none) ⟨_, _, getExecFh_last last _, rfl⟩ fun f _ none => by
      rw [none]
      exact .pure trivial
  · obtain ⟨g, -, run⟩ := getExecFh_inner frames fetch last
    refine .bind (Q := fun f u => f = (m.host.fopen (lowHalf (word m p (counter m p)))).1 ∧
      u = { fetched p g m with host := (m.host.fopen (lowHalf (word m p (counter m p)))).2 })
      ⟨_, _, run, rfl, rfl⟩ ?_
    rintro _ _ ⟨rfl, rfl⟩
    cases file : m.host.fopen (lowHalf (word m p (counter m p))) with
    | mk f host =>
    cases f with
    | none => exact .pure trivial
    | some fh =>
      obtain ⟨text, here, room, rfl⟩ := fopen_some file
      refine execFile_finishes (m := { fetched p g m with host := host }) fun t mark size block => ?_
      have code := sound last room text here t mark size block
      have seg : VM.seg { fetched p g m with host := host } p = m.seg p := fetched_seg p p g m
      rw [resized_seg, if_pos rfl] at code ⊢
      rw [seg]
      exact code

theorem run_finishes {n : ℕ} {S : Finset ℕ} {held : List ℕ} {m : VM T} {p x : ℕ} {s : Store}
    {op : Op} {a : ℤ} (frames : Frames m.store.pager)
    (fetch : getWordref (m.seg p) (counter m p) m.store = .ok (some x, s))
    (counted : Counted m.sched) (cur : m.sched.current = p) (lt : p < m.nextPid)
    (h : Grip n S held s.pager) (serves : Serves n S held m p a op) :
    Finishes (op.run p a) (fun _ _ => True) (fetched p s.pager m) := by
  have counted' : Counted (fetched p s.pager m).sched := counted
  cases is : op.instruction with
  | some i =>
    have fits : Affords n S held (m.seg p) a (m.core p) op := by
      cases op <;> first | exact serves | cases is
    rw [run_instr is]
    refine .get_bind (.zoom (P := fun _ _ => True) (instruction_finishes is h ?_) fun _ _ _ => trivial)
    rw [fetched_seg]
    apply affords_congr fits
    · rw [VM.core, fetched_regs]
      rfl
    · rw [VM.core, fetched_regs]
      rfl
    · rfl
  | none =>
    cases op <;> simp only [Op.instruction, reduceCtorEq] at is
    case SD => exact send_finishes a counted' cur
    case RC =>
      refine recv_finishes counted' cur h fun sender waits => ?_
      have message := serves sender waits
      have r (q : ℕ) : ((fetched p s.pager m).regs q).r = (m.regs q).r := by
        by_cases hq : q = p
        · rw [hq, fetched_regs]
          rfl
        · rw [fetched_regs_other hq]
      rw [fetched_seg, fetched_seg, r, r]
      exact message
    case PE => exact semDown_finishes a counted' cur
    case VE => exact semUp_finishes p _ a
    case FK =>
      refine forkProc_finishes a lt h fun numeric => ?_
      rw [fetched_seg] at numeric ⊢
      obtain ⟨room, block, copy⟩ := serves numeric
      refine ⟨room, block, ?_⟩
      rw [granted_seg, if_pos rfl] at copy ⊢
      exact copy
    case EX => exact execProc_finishes a frames fetch serves
    case HA => exact halt_finishes a counted' cur

def pinnedPages (s : Pager) : Finset ℕ := (Finset.range s.pgCount).filter fun q => s.refs q ≠ 0

def Room (m : VM T) (held : List ℕ) : Prop :=
  Fits m.store.pager.pgSize (pinnedPages m.store.pager) held

def fetchPlace (m : VM T) (p : ℕ) : List ℕ := place m.store.pager.pgSize (m.seg p) (counter m p)

def instructionAt (m : VM T) (p : ℕ) : Option Op :=
  decode (opcode (word m p (counter m p)).b0 (word m p (counter m p)).b1)

structure Served (m : VM T) (p : ℕ) : Prop where
  fetch : Room m (fetchPlace m p)
  legal : InStore (m.seg p) (counter m p) → ∀ op, instructionAt m p = some op →
    Serves m.store.pager.pgSize (pinnedPages m.store.pager) (fetchPlace m p) m p
      (operand (word m p (counter m p))) op
  illegal : InStore (m.seg p) (counter m p) → instructionAt m p = none →
    ∀ i : ℕ, i < 100 → InStore (m.seg p) i ∧
      Room m (place m.store.pager.pgSize (m.seg p) i ++ fetchPlace m p)

omit [RedBlackTree T] [LawfulTree T] in
theorem grip_start {s : Pager} (h : Tabled s) : Grip s.pgSize (pinnedPages s) [] s := by
  refine ⟨h, rfl, fun q hq => ?_⟩
  have zero : s.refs q = 0 := by
    by_contra pinned
    refine hq (Finset.mem_filter.2 ⟨Finset.mem_range.2 ?_, pinned⟩)
    exact (h.frames.frame q (h.pinned q pinned)).1
  rw [zero]
  exact Nat.zero_le _

omit [RedBlackTree T] [LawfulTree T] in
theorem fetch_finishes {m : VM T} {p : ℕ} (tabled : Tabled m.store.pager)
    (room : Room m (fetchPlace m p)) :
    Finishes (fetch p) (fun f _ => InStore (m.seg p) (counter m p) → f.isSome)
      { m with sched := account m.sched } := by
  rw [Room, ← List.append_nil (fetchPlace m p)] at room
  refine .get_bind (.ite (fun invalid => .pure fun here => ?_) fun _ => ?_)
  · have neg : counter m p < 0 := by
      rw [counter]
      exact invalid ▸ (by decide : (-1 : ℤ) < 0)
    rw [InStore, getGlobalAddress, if_pos neg] at here
    exact absurd here.1 (by decide)
  · refine .bind (Q := fun r _ => InStore (m.seg p) (counter m p) → r.isSome) ?_ fun r u some => ?_
    · refine Finishes.zoom (P := fun r _ => InStore (m.seg p) (counter m p) → r.isSome) ?_
        fun _ _ some => some
      exact (getWordref_finishes (grip_start tabled) room).mono fun _ _ post => post.1.2
    · cases r with
      | none => exact .pure some
      | some x => exact ⟨_, _, rfl, fun _ => rfl⟩

omit [RedBlackTree T] [LawfulTree T] in
/-- What is known when an instruction starts, or the listing in place of one. -/
theorem fetch_grip {m : VM T} {p x : ℕ} {s : Store} (tabled : Tabled m.store.pager)
    (room : Room m (fetchPlace m p))
    (fetch : getWordref (m.seg p) (counter m p) m.store = .ok (some x, s)) :
    InStore (m.seg p) (counter m p) ∧
      Grip m.store.pager.pgSize (pinnedPages m.store.pager) (fetchPlace m p) s.pager := by
  rw [Room, ← List.append_nil (fetchPlace m p)] at room
  obtain ⟨r, u, run, some, t, rfl, grip⟩ := getWordref_finishes (grip_start tabled) room
  obtain ⟨rfl, rfl⟩ := Prod.mk.inj (Except.ok.inj (run.symm.trans fetch))
  rw [List.append_nil] at grip
  exact ⟨some.1 rfl, grip⟩

theorem execute_finishes {m : VM T} {p x : ℕ} {s : Store} (tabled : Tabled m.store.pager)
    (fetch : getWordref (m.seg p) (counter m p) m.store = .ok (some x, s))
    (counted : Counted m.sched) (cur : m.sched.current = p) (lt : p < m.nextPid)
    (served : Served m p) :
    Finishes (execute p ⟨counter m p, opcode (word m p (counter m p)).b0 (word m p (counter m p)).b1,
      operand (word m p (counter m p))⟩) (fun _ _ => True) (fetched p s.pager m) := by
  obtain ⟨here, grip⟩ := fetch_grip tabled served.fetch fetch
  rw [execute]
  dsimp only
  rw [← instructionAt]
  cases legal : instructionAt m p with
  | some op =>
    have serves := served.legal here op legal
    refine (run_finishes tabled.frames fetch counted cur lt grip serves).bind fun r u _ => ?_
    refine .get_bind (.bind (Q := fun _ _ => True) ?_ fun _ _ _ => .pure trivial)
    exact (releaseWordref_returns _ _ _).zoom fun _ _ _ => trivial
  | none =>
    refine .get_bind (.bind (Q := fun _ _ => True) ?_ fun _ _ _ => .pure trivial)
    refine Finishes.zoom (P := fun _ _ => True) ?_ fun _ _ _ => trivial
    rw [fetched_seg]
    exact printMem_finishes grip (served.illegal here legal)

/-- The tick of the current process finishes when the process is served. -/
theorem tick_finishes {m : VM T} {p : ℕ} (tabled : Tabled m.store.pager)
    (counted : Counted m.sched) (cur : m.sched.current = p) (lt : p < m.nextPid)
    (served : Served m p) :
    Finishes (tick p) (fun _ _ => True) { m with sched := account m.sched } := by
  rw [tick]
  refine .get_bind (.ite (fun _ => .pure trivial) fun _ => .ite (fun _ => .pure trivial) fun _ => ?_)
  obtain ⟨f, u, run, -⟩ := fetch_finishes tabled served.fetch
  rw [Finishes, bind_of_ok run]
  cases f with
  | none => exact ⟨_, _, rfl, trivial⟩
  | some f =>
    obtain ⟨x, s, fetch, rfl, rfl⟩ := fetch_eq run
    have same : s.pager.mem x = word m p (counter m p) := getWordref_word tabled.frames fetch
    rw [same]
    exact execute_finishes tabled fetch counted cur lt served

end

theorem pagememInit_size {n : ℕ} {average : UInt32 → UInt32 → UInt32} {s : Pager}
    (h : pagememInit n average = some s) : s.pgSize = n := by
  unfold pagememInit at h
  split at h
  · cases h
  · split at h
    · cases h
    · rw [← Option.some.inj h]

/-- Stores of which the second one has pages and frames in agreement if the first one has, and
pages of the same size. -/
def TabledKept (s u : Store) : Prop :=
  Tabled s.pager → Tabled u.pager ∧ u.pager.pgSize = s.pager.pgSize

instance : IsPreorder Store TabledKept where
  refl s tabled := ⟨tabled, rfl⟩
  trans s t u first second tabled := by
    obtain ⟨tabled, size⟩ := first tabled
    obtain ⟨tabled, size'⟩ := second tabled
    exact ⟨tabled, size'.trans size⟩

theorem TabledKept.of_pager {s u : Store} (h : u.pager = s.pager) : TabledKept s u := by
  intro tabled
  rw [h]
  exact ⟨tabled, rfl⟩

theorem touchPage_kept (ops : UInt32) (v : ℕ) :
    Respects (fun s u => Tabled s → Tabled u ∧ u.pgSize = s.pgSize) (touchPage ops v) := by
  intro s u r h tabled
  refine ⟨touchPage_tabled tabled h, ?_⟩
  cases r with
  | none => exact (touchPageBy_missed getRemovalPage_victims tabled.frames h).size
  | some x => exact (touchPageBy_touched getRemovalPage_victims tabled.frames h).size

instance : MemoryRelation TabledKept where
  touches := respects_getWordref (fun _ tabled => ⟨tabled, rfl⟩) touchPage_kept
  releases := respects_releaseWordref (P := fun s u => Tabled s → Tabled u ∧ u.pgSize = s.pgSize)
    (fun _ tabled => ⟨tabled, rfl⟩) fun a s tabled =>
      ⟨pageReleaseRef_tabled tabled a, (pageReleaseRef_sameFrames a s).size⟩
  assigns x w s u r h tabled := by
    rw [assign_pager h]
    exact ⟨tabled.write _ _, rfl⟩
  codes s f tabled := ⟨tabled.write _ _, rfl⟩
  rest s u h _ := .of_pager h

section
variable {T : Type} [RedBlackTree T]

/-- Pages and frames agree at every boundary, and the pages keep their size. -/
theorem execution_tabled (e : Execution T) (n : ℕ) (hn : n ≤ e.len) :
    Tabled (e.vm n).store.pager ∧ (e.vm n).store.pager.pgSize = e.pgSize := by
  refine e.invariant (fun m => Tabled m.store.pager ∧ m.store.pager.pgSize = e.pgSize)
    (fun pager u fh hp hu => ?_) (fun m s _ kept _ => kept) (fun m u op a _ before k => ?_) n hn
  · change Tabled u.store.pager ∧ u.store.pager.pgSize = e.pgSize
    induction hu with
    | start => exact ⟨pagememInit_tabled hp, pagememInit_size hp⟩
    | turn w n a b f s t _ _ _ _ _ _ _ ih => exact ⟨ih.1.write _ _, ih.2⟩
  · have kept : TabledKept m.store u.store := respects_tick (fun _ _ => .of_pager) k
    obtain ⟨tabled, size⟩ := kept before.1
    exact ⟨tabled, size.trans before.2⟩

end
end BrainMachine.TickFinishes
