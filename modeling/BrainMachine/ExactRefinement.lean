import BrainMachine.PageSizes
import BrainMachine.Rejections
import BrainMachine.ThreeFrames

set_option autoImplicit false

namespace BrainMachine.ExactRefinement
open Codec Computations Paging Stdio AddressSpace Transparency Instructions HoleList RunQueue
open Machine Dispatch Effects Runs MachineRuns SortedTree References Footprints MachineMemory
open ReferenceBalance ProcessImages TickSteps FlatMachine FlatRefinement PageSizes Simulations
open HeldPages TickFinishes Rejections FailedReferences FrameTable
open ThreeFrames (Fertile served_three)
open WaitQueues (execution_sane)

def Refuses (p : Seg) (x : Exec Core ℤ) (f : Image → Option Image) : Prop :=
  ∀ (s₀ : Pager) (held : List (ℕ × ℕ)) (c u : Core) (r : ℤ), Slack 8 s₀ → held.length ≤ 4 →
    Footing (fun _ => True) s₀ held c.store.pager → x c = .ok (r, u) → r ≠ 0 →
    f (image p c) = none

section
variable {p : Seg}

theorem refuses_of {x : Exec Core ℤ} {f : Image → Option Image} {g : Image → Image}
    (h : Rejects p x f g) : Refuses p x f :=
  fun s₀ held c u r slack len foot k hr => (h s₀ held c u r slack len foot k hr).1

theorem refuses_never {x : Exec Core ℤ} (h : ∀ c u r, x c = .ok (r, u) → r = 0)
    (f : Image → Option Image) : Refuses p x f :=
  fun _ _ c u r _ _ _ k hr => absurd (h c u r k) hr

theorem set_null {d : Image} {a : ℤ} (h : d.get a = none) (w : Word) : d.set a w = none := by
  rw [Image.get] at h
  rw [Image.set]
  split at h
  · cases h
  · exact if_neg (by assumption)

theorem load_null {d : Image} {a : ℤ} (f : Word → Regs → Regs) (h : d.get a = none) :
    load f a d = none := by
  rw [load, h]
  rfl

theorem regs_returns {f : Regs → Regs} {c u : Core} {r : ℤ} (k : (do
    setRegs f
    pure (0 : ℤ)) c = .ok (r, u)) : r = 0 := by
  obtain ⟨_, d, -, k⟩ := bind_ok.1 k
  exact (Prod.mk.inj (pure_ok.1 k)).1

theorem loop_refuses {body : ℕ → Exec Core ℤ} {f : ℕ → Image → Option Image}
    (h : ∀ i, Refines p (body i) (f i)) (k : ∀ i, Refuses p (body i) (f i)) (n i : ℕ) :
    Refuses p (loopFrom body n i) (turns f n i) := by
  induction n generalizing i with
  | zero =>
    intro s₀ held c u r slack len foot run hr
    exact absurd (Prod.mk.inj (pure_ok.1 run)).1 hr
  | succ n ih =>
    intro s₀ held c u r slack len foot run hr
    obtain ⟨q, d, turn, run⟩ := bind_ok.1 run
    rw [turns]
    rcases ite_ok.1 run with ⟨rfl, run⟩ | ⟨hq, run⟩
    · obtain ⟨first, foot⟩ := h i s₀ held c d slack len foot turn
      rw [first]
      exact ih (i + 1) s₀ held d u r slack len foot run hr
    · rw [k i s₀ held c d q slack len foot turn hq]
      rfl

theorem print_refuses (hp : Placed p) (a : ℤ) :
    Refuses p (print p a) (turns (printTurn a) 10 0) := by
  refine loop_refuses (printTurn_refines a) (fun i => ?_) 10 0
  refine refuses_of (withWordref_rejects hp fun d hd => ?_)
  rw [printTurn, hd]
  rfl

theorem read_refuses (hp : Placed p) (a : ℤ) :
    Refuses p (read p a) (turns (readTurn a) 10 0) := by
  refine loop_refuses (readTurn_refines a) (fun i => ?_) 10 0
  intro s₀ held c u r slack len foot k hr
  obtain ⟨w, s, hs, k⟩ := onStore_bind k
  obtain ⟨rfl, rfl⟩ := nextWord_ok hs
  rw [get_bind] at k
  rw [readTurn]
  rcases ite_ok.1 k with ⟨last, -⟩ | ⟨more, k⟩
  · exact if_pos last
  · refine (if_neg more).trans ?_
    rcases ite_ok.1 k with ⟨full, -⟩ | ⟨left, k⟩
    · exact if_pos full
    · refine (if_neg left).trans ?_
      exact (withWordref_rejects hp (fun d hd => set_null hd _) s₀ held _ u r slack len
        (by exact foot) k hr).1

theorem setSem_refuses (a : ℤ) : Refuses p (setSem p a) (step .SI p.pid a) := by
  intro s₀ held c u r slack len foot k hr
  have outside : word2int c.regs.r < 0 ∨ a < 0 ∨ a > 99 := by
    by_contra inside
    rw [setSem, get_bind, if_neg (by omega), if_neg (by omega)] at k
    obtain ⟨b, s, hs, k⟩ := onStore_bind k
    rw [semSet, if_neg (by omega)] at hs
    obtain ⟨rfl, -⟩ := Prod.mk.inj (pure_ok.1 hs)
    exact hr (Prod.mk.inj (pure_ok.1 k)).1
  rw [step]
  exact if_pos outside

/-- An instruction on one process that does not return 0 means nothing on the image. -/
theorem instruction_refuses (hp : Placed p) {op : Op} {i : Instruction}
    (h : op.instruction = some i) (a : ℤ) : Refuses p (i p a) (step op p.pid a) := by
  cases op <;> simp only [Op.instruction, Option.some.injEq, reduceCtorEq] at h <;> subst h
  case LR | LL | LH | CE | CL =>
    exact refuses_of (withWordref_rejects hp fun d hd => load_null _ hd)
  case SR => exact refuses_of (withWordref_rejects hp fun d hd => set_null hd _)
  case SP | PS | BU | GP => exact refuses_never (fun c u r k => regs_returns k) _
  case PH => exact refuses_of (push_rejects hp a)
  case PP => exact refuses_of (pop_rejects hp a)
  case BT =>
    refine refuses_never (fun c u r k => ?_) _
    rw [jmpIf, get_bind] at k
    rcases ite_ok.1 k with ⟨-, k⟩ | ⟨-, k⟩
    · exact regs_returns k
    · exact (Prod.mk.inj (pure_ok.1 k)).1
  case GD => exact read_refuses hp a
  case PD => exact print_refuses hp a
  case AD | SU | MI | DI => exact refuses_of (registerOp_rejects hp _ a)
  case AS | SS | MS | DS => exact refuses_of (stack_rejects hp _ a)
  case NP => exact refuses_never (fun c u r k => (Prod.mk.inj (pure_ok.1 k)).1) _
  case SI => exact setSem_refuses a
  case LS =>
    intro s₀ held c u r slack len foot k hr
    rw [loadShared] at k
    rw [step]
    cases h : getShmp a with
    | none => rfl
    | some x =>
      rw [h] at k
      exact absurd (regs_returns (f := fun g => { g with r := c.store.shm x }) k) hr
  case ST =>
    intro s₀ held c u r slack len foot k hr
    rw [storeShared] at k
    rw [step]
    cases h : getShmp a with
    | none => rfl
    | some x =>
      simp only [h, get_bind] at k
      obtain ⟨_, s, hs, k⟩ := onStore_bind k
      exact absurd (Prod.mk.inj (pure_ok.1 k)).1 hr

end

section
variable {T : Type} {s₀ : Pager} {held : List (ℕ × ℕ)} {p : ℕ} {a : ℤ} {m u : VM T} {r : ℤ}

theorem missing_flat {q s : Seg} {l k : ℤ} {n : ℕ} (h : Missing q s l k n) (c : Flat T) :
    c.copyWords q s l k n = none := by
  obtain ⟨j, hj, missing⟩ := h
  exact if_neg fun all => missing (all j hj)

theorem retry_returns {c : ℤ} (numeric : 0 ≤ counter m p)
    (k : onCore p retryOp m = .ok (c, u)) : c = 0 := by
  obtain ⟨d, hd, -⟩ := zoom_ok.1 k
  rw [retryOp, get_bind] at hd
  rcases ite_ok.1 hd with ⟨invalid, -⟩ | ⟨-, hd⟩
  · exact absurd invalid (not_lt.2 numeric)
  · obtain ⟨_, e, -, hd⟩ := bind_ok.1 hd
    exact (Prod.mk.inj (pure_ok.1 hd)).1

variable [RedBlackTree T]

theorem send_refuses (k : send p a m = .ok (r, u)) (hr : r ≠ 0) : (flatten m).send p a = none := by
  rw [send] at k
  rcases ite_ok.1 k with ⟨range, -⟩ | ⟨-, k⟩
  · exact if_pos range
  · obtain ⟨c, s, -, k⟩ := onSched_bind k
    obtain ⟨d, x, hx, k⟩ := bind_ok.1 k
    obtain ⟨rfl, rfl⟩ := updateSendWq_ok hx
    rw [if_neg (by exact not_not.2 rfl), get_bind] at k
    rcases ite_ok.1 k with ⟨-, k⟩ | ⟨-, k⟩
    · obtain ⟨d, y, hy, k⟩ := bind_ok.1 k
      obtain ⟨rfl, rfl⟩ := removeReceiver_ok hy
      rw [if_neg (by exact not_not.2 rfl)] at k
      obtain ⟨d, t, -, k⟩ := onSched_bind k
      exact absurd (Prod.mk.inj (pure_ok.1 k)).1 hr
    · exact absurd (Prod.mk.inj (pure_ok.1 k)).1 hr

theorem recv_refuses (fresh : Fresh s₀ held m.store.pager) (numeric : 0 ≤ counter m p)
    (k : recv p a m = .ok (r, u)) (hr : r ≠ 0) : (flatten m).receive p a = none := by
  rw [recv] at k
  rw [Flat.receive]
  rcases ite_ok.1 k with ⟨range, -⟩ | ⟨ha, k⟩
  · exact if_pos range
  · refine (if_neg ha).trans ?_
    rw [get_bind] at k
    have sender : (flatten m).waitingSender p a = m.waitingSender p a := rfl
    rw [sender]
    cases hs : m.waitingSender p a with
    | none =>
      simp only [hs] at k
      obtain ⟨c, w, hw, k⟩ := bind_ok.1 k
      obtain rfl := retry_returns numeric hw
      rw [if_neg (by exact not_not.2 rfl)] at k
      obtain ⟨c, x, hx, k⟩ := bind_ok.1 k
      obtain ⟨rfl, rfl⟩ := updateRecvWq_ok hx
      rw [if_neg (by exact not_not.2 rfl)] at k
      obtain ⟨c, t, -, k⟩ := onSched_bind k
      exact absurd (Prod.mk.inj (pure_ok.1 k)).1 hr
    | some s =>
      simp only [hs] at k
      obtain ⟨c, w, hw, k⟩ := bind_ok.1 k
      rw [xferMsg, get_bind] at hw
      obtain ⟨t, ht, rfl⟩ := onMemory_ok hw
      rcases xferWords_copying fresh ht with ⟨rfl, -⟩ | ⟨-, missing⟩
      · rw [if_neg (by exact not_not.2 rfl)] at k
        obtain ⟨c, x, hx, k⟩ := bind_ok.1 k
        obtain ⟨rfl, rfl⟩ := updateSendWq_ok hx
        rw [if_neg (by exact not_not.2 rfl)] at k
        obtain ⟨c, t, -, k⟩ := onSched_bind k
        exact absurd (Prod.mk.inj (pure_ok.1 k)).1 hr
      · exact congrArg (fun o : Option (Flat T) => o.bind _) (missing_flat missing (flatten m))

theorem semDown_refuses (numeric : 0 ≤ counter m p) (k : semDown p a m = .ok (r, u))
    (hr : r ≠ 0) : (flatten m).down p a = none := by
  have outside : a < 0 ∨ a > 99 := by
    by_contra inside
    rw [semDown, if_neg (by omega)] at k
    obtain ⟨c, y, hy, k⟩ := onMemory_bind k
    rw [semP, get_bind, if_neg (by omega)] at hy
    rcases ite_ok.1 hy with ⟨-, hy⟩ | ⟨-, hy⟩
    · obtain ⟨rfl, rfl⟩ := Prod.mk.inj (pure_ok.1 hy)
      rw [if_neg (by decide), if_pos rfl] at k
      obtain ⟨c, w, hw, k⟩ := bind_ok.1 k
      obtain rfl := retry_returns numeric hw
      rw [if_neg (by exact not_not.2 rfl)] at k
      obtain ⟨c, t, -, k⟩ := onSched_bind k
      obtain ⟨c, x, hx, k⟩ := bind_ok.1 k
      obtain ⟨rfl, rfl⟩ := updateSemWq_ok hx
      exact hr (Prod.mk.inj (pure_ok.1 k)).1
    · obtain ⟨rfl, rfl⟩ := Prod.mk.inj (pure_ok.1 hy)
      exact hr (Prod.mk.inj (pure_ok.1 k)).1
  exact if_pos outside

theorem semUp_refuses (k : semUp p a m = .ok (r, u)) (hr : r ≠ 0) :
    (flatten m).up a = none := by
  have outside : a < 0 ∨ a > 99 := by
    by_contra inside
    rw [semUp, if_neg (by omega)] at k
    obtain ⟨c, y, hy, k⟩ := onMemory_bind k
    rw [semV, if_neg (by omega)] at hy
    obtain ⟨rfl, rfl⟩ := Prod.mk.inj (pure_ok.1 hy)
    rw [if_neg (by decide), get_bind] at k
    cases hq : m.semWq a.toNat with
    | nil =>
      simp only [hq] at k
      exact hr (Prod.mk.inj (pure_ok.1 k)).1
    | cons w l =>
      simp only [hq] at k
      obtain ⟨c, t, -, k⟩ := onSched_bind k
      obtain ⟨c, x, hx, k⟩ := bind_ok.1 k
      obtain ⟨rfl, rfl⟩ := updateSemWq_ok hx
      exact hr (Prod.mk.inj (pure_ok.1 k)).1
  exact if_pos outside

theorem fork_refuses (fresh : Fresh s₀ held m.store.pager) (hp : p < m.nextPid)
    (k : forkProc p a m = .ok (r, u)) (hr : r ≠ 0) : (flatten m).fork p = none := by
  rw [forkProc, get_bind] at k
  rw [Flat.fork]
  rcases ite_ok.1 k with ⟨none, -⟩ | ⟨size, k⟩
  · refine if_pos (.inl ?_)
    change word2int (m.seg p).lr + 1 ≤ 0
    omega
  · obtain ⟨q, w, hw, k⟩ := bind_ok.1 k
    rcases procalloc_ok hw with ⟨rfl, -⟩ | ⟨rfl, room, block, rfl⟩
    · simp only [modify_bind] at k
      exact (fault_ok.1 k).elim
    · simp only [modify_bind, get_bind] at k
      obtain ⟨c, t, ht, k⟩ := onMemory_bind k
      have hne : m.nextPid ≠ p := by omega
      have copy : dupMem (m.seg p) ⟨int2word (memalloc (word2int (m.seg p).lr + 1) m.holes).1,
          int2word (word2int (m.seg p).lr + 1 - 1), m.nextPid⟩ m.store = .ok (c, t) := by
        simpa [VM.seg, VM.setProc, hne, hne.symm] using ht
      rcases dupMem_copying fresh copy with ⟨rfl, -⟩ | ⟨-, missing⟩
      · rw [if_neg (by exact not_not.2 rfl)] at k
        obtain ⟨c, s, -, k⟩ := onSched_bind k
        obtain ⟨c, s, -, k⟩ := onSched_bind k
        exact absurd (Prod.mk.inj (pure_ok.1 k)).1 hr
      · have failed := missing_flat missing (flatten m)
        split
        · rfl
        · exact congrArg (fun o : Option (Flat T) => o.bind _) failed

theorem halt_returns (k : halt p a m = .ok (r, u)) : r = 0 := by
  rw [halt, modify_bind] at k
  obtain ⟨c, s, -, k⟩ := onSched_bind k
  obtain ⟨c, s, -, k⟩ := onSched_bind k
  exact (Prod.mk.inj (pure_ok.1 k)).1

/-- What does not return 0 is not carried out by the flat machine either. -/
theorem run_refuses {op : Op} (fresh : Fresh s₀ held m.store.pager) (hp : p < m.nextPid)
    (placed : Placed (m.seg p)) (numeric : 0 ≤ counter m p) (k : op.run p a m = .ok (r, u))
    (hr : r ≠ 0) : (flatten m).execute op p a = none := by
  cases h : op.instruction with
  | some i =>
    rw [run_instr h, instr, get_bind] at k
    rw [execute_instruction h]
    obtain ⟨c, hc, rfl⟩ := zoom_ok.1 k
    have none := instruction_refuses placed h a s₀ held (m.core p) c r fresh.1 fresh.2.1
      (fresh.foot _) hc hr
    exact congrArg (fun o : Option Image => o.map _) none
  | none =>
    cases op <;> cases h
    case none.SD.refl => exact send_refuses k hr
    case none.RC.refl => exact recv_refuses fresh numeric k hr
    case none.PE.refl => exact semDown_refuses numeric k hr
    case none.VE.refl => exact semUp_refuses (p := p) k hr
    case none.FK.refl => exact fork_refuses (a := a) fresh hp k hr
    case none.EX.refl => rfl
    case none.HA.refl => exact absurd (halt_returns (a := a) k) hr

theorem advance_numeric {g : Regs} (h : 0 ≤ word2int (icWord g.ic)) :
    0 ≤ word2int (icWord (advance g).ic) := by
  have all : ∀ c : Fin 100, 0 ≤ word2int (icWord (lowHalf (int2word (c.val + 1)))) := by
    decide +kernel
  obtain ⟨c, hc⟩ := Int.eq_ofNat_of_zero_le h
  have lt := icWord_lt g.ic
  have numeric := all ⟨c, by omega⟩
  rw [advance, hc]
  exact numeric

structure Fetches (m : VM T) (p : ℕ) (op : Op) (a : ℤ) (c : Flat T) : Prop where
  lt : p < m.nextPid
  own : (m.seg p).pid = p
  inStore : InStore (m.seg p) (counter m p)
  decoded : instructionAt m p = some op
  operand : operand (word m p (counter m p)) = a
  execute : ({ (flatten m).setRegs p advance with sched := account m.sched } : Flat T).execute op
    p a = some c

theorem fetches_of {l : Label} {c : Flat T} (placed : Placed (m.seg m.sched.current))
    (h : (flatten m).tick = some (l, c)) :
    ∃ op a, l = .instr m.sched.current op a ∧ Fetches m m.sched.current op a c := by
  rw [Flat.tick] at h
  dsimp only at h
  split at h
  · rename_i guard
    obtain ⟨w, hw, h⟩ := Option.bind_eq_some_iff.1 h
    obtain ⟨op, decoded, h⟩ := Option.bind_eq_some_iff.1 h
    obtain ⟨d, done, h⟩ := Option.map_eq_some_iff.1 h
    obtain ⟨rfl, rfl⟩ := Prod.mk.inj h
    have range : 0 ≤ counter m m.sched.current ∧
        counter m m.sched.current ≤ word2int (m.seg m.sched.current).lr := by
      by_contra outside
      have none : (picture m m.sched.current).get (counter m m.sched.current) = Option.none :=
        if_neg outside
      exact absurd (none.symm.trans hw) (by simp)
    have here : (picture m m.sched.current).get (counter m m.sched.current) = some w := hw
    have seen : (picture m m.sched.current).get (counter m m.sched.current) =
        some ((picture m m.sched.current).words (counter m m.sched.current).toNat) := if_pos range
    rw [seen, ← word_picture placed.base range.1 range.2] at here
    obtain rfl := Option.some.inj here
    refine ⟨op, _, rfl, guard.1, guard.2.1, ?_, decoded, rfl, done⟩
    rw [InStore, address_of_range placed.base range.1 range.2]
    have base := placed.base
    have inside := placed.inside
    omega
  · cases h

/-- A tick that returns has made the fetch, and gone on to execute. -/
theorem Fetches.fetch {p : ℕ} {op : Op} {c : Flat T} (h : Fetches m p op a c)
    (frames : Frames m.store.pager)
    (k : tick p { m with sched := account m.sched } = .ok (r, u)) : ∃ x s,
      getWordref (m.seg p) (counter m p) m.store = .ok (some x, s) ∧
      Dispatch.fetch p { m with sched := account m.sched } = .ok (some ⟨counter m p,
        opcode (word m p (counter m p)).b0 (word m p (counter m p)).b1, a⟩,
        fetched p s.pager m) ∧
      ∃ v, op.run p a (fetched p s.pager m) = .ok (r, v) := by
  rw [tick, get_bind, if_neg (by exact not_le.2 h.lt), if_neg (by exact not_not.2 h.own)] at k
  obtain ⟨f, w, hf, k⟩ := bind_ok.1 k
  obtain ⟨f, rfl⟩ := fetch_some (m := { m with sched := account m.sched }) frames h.inStore hf
  obtain ⟨x, s, fetch, rfl, rfl⟩ := fetch_eq hf
  have same : s.pager.mem x = word m p (counter m p) := getWordref_word frames fetch
  have decoded := h.decoded
  rw [instructionAt] at decoded
  simp only [Dispatch.execute, same, decoded, h.operand] at k
  rw [same, h.operand] at hf
  obtain ⟨q, v, run, k⟩ := bind_ok.1 k
  rw [get_bind] at k
  obtain ⟨_, t, -, k⟩ := bind_ok.1 k
  obtain ⟨rfl, -⟩ := Prod.mk.inj (pure_ok.1 k)
  exact ⟨x, s, fetch, hf, v, run⟩

theorem Fetches.returns_zero {p : ℕ} {op : Op} {c : Flat T} (h : Fetches m p op a c)
    (released : Released m) (placed : Placed (m.seg p))
    (k : tick p { m with sched := account m.sched } = .ok (r, u)) : r = 0 := by
  by_contra hr
  obtain ⟨x, s, fetch, -, v, run⟩ := h.fetch released.1 k
  have seen : s.pager.view = m.store.pager.view := funext
    (touchPageBy_touched getRemovalPage_victims released.1 (getWordref_touch fetch).2).view
  have fresh : Fresh m.store.pager _ (fetched p s.pager m).store.pager :=
    ⟨released.slack, by simp, (getWordref_footing (.start _ released.1) released.slack
      (Nat.zero_le _) fetch).2⟩
  have numeric : 0 ≤ counter (fetched p s.pager m) p := by
    rw [counter, fetched_regs]
    exact advance_numeric (address_range h.inStore.1).2.1
  have none := run_refuses fresh h.lt (by rw [fetched_seg]; exact placed) numeric run hr
  rw [flatten_fetched seen] at none
  exact Option.some_ne_none c (h.execute.symm.trans none)

theorem Fetches.step {op : Op} {c : Flat T} (h : Fetches m m.sched.current op a c)
    (released : Released m) (placed : Placed (m.seg m.sched.current))
    (k : tick m.sched.current { m with sched := account m.sched } = .ok (r, u)) :
    ∃ w, runTick m = .ok (0, w) ∧ pending m = some (op, a) := by
  obtain ⟨x, s, -, fetch, -⟩ := h.fetch released.1 k
  obtain rfl := h.returns_zero released placed k
  refine ⟨{ u with store := { u.store with ops := u.store.ops + 1 } }, ?_, ?_⟩
  · rw [runTick, modify_bind, get_bind]
    exact (bind_of_ok k).trans rfl
  · have decoded := h.decoded
    rw [instructionAt] at decoded
    rw [pending, fetch]
    simp only [decoded, Option.map_some]

/-- FK of the flat machine finds a pid and a block for the child. -/
theorem fork_fertile {c d : Flat T} (regs : c.nextPid = m.nextPid ∧ c.holes = m.holes ∧
    c.seg p = m.seg p) (h : c.fork p = some d) : Fertile m p := by
  obtain ⟨pids, holes, seg⟩ := regs
  rw [Flat.fork, pids, holes, seg] at h
  dsimp only at h
  split at h
  · cases h
  · intro _
    omega

omit [RedBlackTree T] in
theorem ok_of_moved {α : Type} {x : Exec (Sched T) α} {s t : Sched T} (h : moved x s = some t) :
    ∃ b, x s = .ok (b, t) := by
  rw [moved] at h
  cases hx : x s with
  | error e =>
    rw [hx] at h
    cases h
  | ok q =>
    obtain ⟨b, u⟩ := q
    rw [hx] at h
    obtain rfl := Option.some.inj h
    exact ⟨b, rfl⟩

def prolong (f : Execution T) (l : Label) (d : Config T)
    (h : Dispatch.next (f.st f.len) = some (l, d)) : Execution T where
  toRun := f.toRun.snoc l d h
  pgSize := f.pgSize
  average := f.average
  host := f.host
  input := f.input
  booted := by
    rw [f.toRun.snoc_st l d h (Nat.zero_le _)]
    exact f.booted
  slice := by
    rw [f.toRun.snoc_st l d h (Nat.zero_le _)]
    exact f.slice

structure Mirror (e f : Execution T) (n : ℕ) : Prop where
  len : f.len = n
  states : ∀ i ≤ n, flat (f.st i) = flat (e.st i)
  labels : ∀ i < n, f.lab i = e.lab i

theorem Mirror.prolong {e f : Execution T} {n : ℕ} (h : Mirror e f n) {d : Config T}
    (step : Dispatch.next (f.st f.len) = some (e.lab n, d)) (same : flat d = flat (e.st (n + 1))) :
    Mirror e (prolong f (e.lab n) d step) (n + 1) := by
  obtain ⟨rfl, states, labels⟩ := h
  refine ⟨rfl, fun i hi => ?_, fun i hi => ?_⟩
  · rcases Nat.le_succ_iff.1 hi with hi | rfl
    · exact (congrArg flat (f.toRun.snoc_st _ d step hi)).trans (states i hi)
    · exact (congrArg flat (f.toRun.snoc_last _ d step)).trans same
  · rcases Nat.lt_succ_iff_lt_or_eq.1 hi with hi | rfl
    · exact (if_pos hi).trans (labels i hi)
    · exact if_neg (lt_irrefl _)

theorem boots_too (e : Execution T) {k : ℕ} {average : UInt32 → UInt32 → UInt32}
    {host : Host} (buffers : e.host.buffers = host.buffers)
    (accepted : (pagememInit k average).isSome) :
    ∃ m, boot (T := T) k average host e.input = some m := by
  obtain ⟨t, ht⟩ := Option.isSome_iff_exists.1 accepted
  have h := e.booted
  rw [boot] at h ⊢
  cases hs : pagememInit e.pgSize e.average with
  | none => simp [hs] at h
  | some s =>
    simp only [hs] at h
    split at h
    · rename_i fh w hw
      obtain ⟨w', hw', -⟩ := (loadFile_agrees _).ok (start_alike hs ht buffers) hw
      rw [ht]
      dsimp only
      rw [hw']
      exact ⟨_, rfl⟩
    · cases h

variable [LawfulTree T]

/-- With three frames the machine takes every step of the flat machine. -/
theorem flat_steps_taken (e : Execution T) (closed : Closed e) (n : ℕ) (hn : n ≤ e.len)
    (frames : 3 ≤ memSize / e.pgSize)
    (placed : Placed ((e.vm n).seg (e.vm n).sched.current)) {l : Label} {c : Boundary T}
    (h : FlatMachine.next (flat (e.st n)) = some (l, c)) :
    ∃ d, Dispatch.next (e.st n) = some (l, d) ∧ executed l ≠ some .EX ∧ flat d = c := by
  have released := closed.released n hn
  have sane := execution_sane e n hn
  obtain ⟨tabled, size⟩ := execution_tabled e n hn
  rw [← size] at frames
  rw [FlatMachine.next] at h
  by_cases idle : (flat (e.st n)).machine.sched.nrRunning = 0
  · rw [if_pos idle] at h
    cases h
  · rw [if_neg idle] at h
    -- the machine takes a step of this label, which the flat machine mirrors
    suffices taken : ∃ d, Dispatch.next (e.st n) = some (l, d) ∧ executed l ≠ some .EX by
      obtain ⟨d, step, other⟩ := taken
      have mirrored := next_refines step released other
      rw [FlatMachine.next, if_neg idle, h] at mirrored
      exact ⟨d, step, other, (Prod.mk.inj (Option.some.inj mirrored)).2.symm⟩
    rw [Dispatch.next, if_neg (by exact idle)]
    by_cases early : (e.st n).i < schedGranularity
    · rw [if_pos early]
      obtain ⟨⟨l', c'⟩, ticked, same⟩ := Option.map_eq_some_iff.1 ((if_pos early).symm.trans h)
      obtain ⟨rfl, -⟩ := Prod.mk.inj same
      obtain ⟨op, a, rfl, fetches⟩ := fetches_of placed ticked
      have other : op ≠ .EX := by
        rintro rfl
        exact Option.some_ne_none c' fetches.execute.symm
      have served := served_three released.2 frames fetches.decoded other (by
        rintro - rfl
        exact fork_fertile ⟨rfl, rfl, setRegs_seg _ _ _ _⟩ fetches.execute)
      obtain ⟨⟨r, u⟩, run⟩ :=
        (tick_finishes tabled sane.served.1 rfl (sane.current (Nat.pos_of_ne_zero idle)) served).run
      obtain ⟨w, run, pending⟩ := fetches.step released placed run
      refine ⟨⟨w, (e.st n).i + 1⟩, ?_, fun same => other (Option.some.inj same)⟩
      have run : runTick (e.st n).vm = .ok (0, w) := run
      have pending : Dispatch.pending (e.st n).vm = some (op, a) := pending
      rw [run, pending]
      rfl
    · rw [if_neg early]
      obtain ⟨s, moves, same⟩ := Option.map_eq_some_iff.1 ((if_neg early).symm.trans h)
      obtain ⟨rfl, -⟩ := Prod.mk.inj same
      obtain ⟨b, run⟩ := ok_of_moved moves
      have run : onSched endSlice (e.st n).vm = .ok (b, { (e.st n).vm with sched := s }) :=
        zoom_ok.2 ⟨s, run, rfl⟩
      rw [run]
      exact ⟨_, rfl, Option.some_ne_none _ ∘ Eq.symm⟩

/-- At every boundary with three frames, the steps other than EX are those of the flat machine. -/
theorem flat_exact (e : Execution T) (closed : Closed e) (n : ℕ) (hn : n ≤ e.len)
    (frames : 3 ≤ memSize / e.pgSize)
    (placed : Placed ((e.vm n).seg (e.vm n).sched.current)) (l : Label) (c : Boundary T) :
    FlatMachine.next (flat (e.st n)) = some (l, c) ↔
      executed l ≠ some .EX ∧ ∃ d, Dispatch.next (e.st n) = some (l, d) ∧ flat d = c := by
  constructor
  · intro h
    obtain ⟨d, step, other, same⟩ := flat_steps_taken e closed n hn frames placed h
    exact ⟨other, d, step, same⟩
  · rintro ⟨other, d, step, rfl⟩
    exact next_refines step (closed.released n hn) other

/-- A run without EX, of processes whose blocks lie in secondary storage, can be had on every page
size that leaves three frames, when the loader finds the same in its buffer. -/
theorem same_run_on_other_pages (e : Execution T) (closed : Closed e) (k : ℕ)
    (average : UInt32 → UInt32 → UInt32) (host : Host) (buffers : e.host.buffers = host.buffers)
    (accepted : (pagememInit k average).isSome) (frames : 3 ≤ memSize / k)
    (placed : ∀ n < e.len, Placed ((e.vm n).seg (e.vm n).sched.current)) :
    ∃ f : Execution T, f.pgSize = k ∧ f.average = average ∧ f.host = host ∧
      f.input = e.input ∧ Mirror e f e.len := by
  have upTo (n : ℕ) (hn : n ≤ e.len) : ∃ f : Execution T, f.pgSize = k ∧ f.average = average ∧
      f.host = host ∧ f.input = e.input ∧ Mirror e f n := by
    induction n with
    | zero =>
      obtain ⟨m, hm⟩ := boots_too e buffers accepted
      refine ⟨{ toRun := .start ⟨m, 0⟩ .slice, pgSize := k, average := average, host := host
                input := e.input, booted := hm, slice := rfl }, rfl, rfl, rfl, rfl, rfl, ?_, ?_⟩
      · intro i hi
        obtain rfl := Nat.le_zero.1 hi
        have same := boot_flat buffers.symm hm e.booted
        exact congrArg₂ Boundary.mk same e.slice.symm
      · intro i hi
        exact absurd hi (Nat.not_lt_zero i)
    | succ n ih =>
      obtain ⟨f, size, rfl, rfl, input, mirror⟩ := ih (by omega)
      have here := mirror.states n le_rfl
      have flatStep := closed.refines n hn
      rw [← here] at flatStep
      have closed' : Closed f := fun i hi => by
        rw [mirror.len] at hi
        rw [mirror.labels i hi]
        exact closed i (by omega)
      have seg : (f.vm n).seg (f.vm n).sched.current = (e.vm n).seg (e.vm n).sched.current :=
        congrArg (fun b : Boundary T => b.machine.seg b.machine.sched.current) here
      obtain ⟨d, step, -, same⟩ := flat_steps_taken f closed' n mirror.len.ge
        (by rw [size]; exact frames) (by rw [seg]; exact placed n hn) flatStep
      have step' : Dispatch.next (f.st f.len) = some (e.lab n, d) := by
        rw [mirror.len]
        exact step
      exact ⟨prolong f _ d step', size, rfl, rfl, input, mirror.prolong step' same⟩
  exact upTo e.len le_rfl

theorem narrowPages_exact :
    FlatMachine.next (flat (narrowPages.st 1)) =
      some (.instr 1 .RC 0, flat (narrowPages.st 2)) ↔
    executed (.instr 1 .RC 0) ≠ some .EX ∧ ∃ d, Dispatch.next (narrowPages.st 1) =
      some (.instr 1 .RC 0, d) ∧ flat d = flat (narrowPages.st 2) :=
  flat_exact narrowPages (by decide +kernel) 1 (by decide) (by decide)
    ⟨by decide +kernel, by decide +kernel⟩ _ _

theorem widePages_elsewhere : ∃ f : Execution ListTree, f.pgSize = 5 ∧ f.average = halfWeight ∧
    f.host = bareHost ∧ f.input = widePages.input ∧ Mirror widePages f 2 := by
  refine same_run_on_other_pages widePages (by decide +kernel) 5 halfWeight bareHost rfl
    (by decide) (by decide) fun n hn => ?_
  have two : n = 0 ∨ n = 1 := by
    change n < 2 at hn
    omega
  rcases two with rfl | rfl
  · exact ⟨by decide +kernel, by decide +kernel⟩
  · exact ⟨by decide +kernel, by decide +kernel⟩

end
end BrainMachine.ExactRefinement
