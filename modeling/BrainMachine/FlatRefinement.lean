import BrainMachine.FailedReferences
import BrainMachine.FlatMachine
import BrainMachine.LocalRuns
import BrainMachine.Simulations

set_option autoImplicit false

namespace BrainMachine.FlatRefinement
open Codec Computations Paging Stdio AddressSpace Transparency Instructions HoleList RunQueue
open Machine Dispatch Effects Runs MachineRuns SortedTree References Footprints MachineMemory
open ReferenceBalance ProcessImages TickSteps FlatMachine Simulations
open HeldPages (InStore)
open FailedReferences (getWordref_inStore getWordref_some)

section
variable {T : Type}

def flatten (m : VM T) : Flat T where
  words := m.store.pager.view
  semTable := m.store.semTable
  shm := m.store.shm
  stdin := m.store.stdin
  stdout := m.store.stdout
  sched := m.sched
  proc := m.proc
  nextPid := m.nextPid
  holes := m.holes
  recvWq := m.recvWq
  sendWq := m.sendWq
  semWq := m.semWq

theorem flatten_settled {g : Pager} {m : VM T} (view : g.view = m.store.pager.view) :
    flatten (settled g m) = flatten m := by
  simp only [flatten, settled, view]

theorem flatten_fetched {p : ℕ} {g : Pager} {m : VM T} (view : g.view = m.store.pager.view) :
    flatten (fetched p g m) =
      { (flatten m).setRegs p advance with sched := account m.sched } := by
  simp only [flatten, fetched, VM.setCore, view]
  rfl

def Fresh (s₀ : Pager) (held : List (ℕ × ℕ)) (s : Pager) : Prop :=
  Slack 8 s₀ ∧ held.length ≤ 4 ∧ Footing (fun _ => False) s₀ held s

theorem Fresh.foot {s₀ s : Pager} {held : List (ℕ × ℕ)} (h : Fresh s₀ held s) (S : ℕ → Prop) :
    Footing S s₀ held s :=
  ⟨h.2.2.holding, h.2.2.size, h.2.2.counted, fun v _ => h.2.2.view v id⟩

theorem Fresh.view {s₀ s : Pager} {held : List (ℕ × ℕ)} (h : Fresh s₀ held s) :
    s.view = s₀.view := funext fun v => h.2.2.view v id

variable {s₀ : Pager} {held : List (ℕ × ℕ)} {p : ℕ} {a : ℤ} {m u : VM T}

theorem reach_inside {q : Seg} {v : ℕ} (h : Reach q v) : Inside q v := by
  obtain ⟨b, hb⟩ := h
  obtain ⟨base, low, high, eq⟩ := address_range (p := q) (a := b) (by omega)
  constructor <;> omega

/-- An instruction on one process steps the image of the process, and no other word. -/
theorem instr_refines {op : Op} {i : Instruction} (h : op.instruction = some i)
    (fresh : Fresh s₀ held m.store.pager) (k : instr i p a m = .ok (0, u)) :
    (step op ((flatten m).seg p).pid a ((flatten m).image p)).map ((flatten m).setImage p) =
      some (flatten u) := by
  rw [instr, get_bind] at k
  obtain ⟨c, hc, rfl⟩ := zoom_ok.1 k
  obtain ⟨done, -⟩ := instruction_refines h a s₀ held (m.core p) c fresh.1 fresh.2.1
    (fresh.foot _) hc
  have rest := (instruction_tame h (m.seg p) a (Reach (m.seg p)) s₀ held (m.core p) c
    (fun v hv => hv) fresh.1 fresh.2.1 (fresh.foot _) hc).view
  have image : step op ((flatten m).seg p).pid a ((flatten m).image p) =
      some (ProcessImages.image (m.seg p) c) := done
  rw [image, Option.map_some]
  have words : ((flatten m).setImage p (ProcessImages.image (m.seg p) c)).words =
      c.store.pager.view := by
    funext v
    by_cases inside : Inside (m.seg p) v
    · obtain ⟨low, high⟩ := inside
      have offset : ((v - (word2int (m.seg p).br).toNat : ℕ) : ℤ) ≤ word2int (m.seg p).lr := by
        omega
      refine (if_pos ⟨low, high⟩).trans ((if_pos offset).trans ?_)
      exact congrArg c.store.pager.view (Nat.add_sub_cancel' low)
    · refine (if_neg inside).trans ?_
      rw [rest v (fun reach => inside (reach_inside reach))]
      exact congrFun fresh.view v
  exact congrArg (fun f => some { flatten (m.setCore p c) with words := f }) words

def Repaged (s t : Store) : Prop := t = { s with pager := t.pager }

instance : IsPreorder Store Repaged where
  refl _ := rfl
  trans s t u h k := by
    rw [Repaged] at h k ⊢
    rw [k, h]

theorem repaged_copy (q r : Seg) (b c : ℤ) (x y : ℕ) : Respects Repaged (do
    let w ← deref x
    assign y w
    releaseWordref q b
    releaseWordref r c
    pure (0 : ℤ)) := by
  have read : Respects Repaged (deref x) := Respects.get.bind fun _ => .pure _
  have write (w : Word) : Respects Repaged (assign y w) := fun _ _ _ h => assign_rest h
  have release (q : Seg) (b : ℤ) : Respects Repaged (releaseWordref q b) :=
    fun _ _ _ h => releaseWordref_rest h
  exact read.bind fun w => (write w).bind fun _ => (release q b).bind fun _ =>
    (release r c).bind fun _ => .pure _

theorem copy_returns {q r : Seg} {b c : ℤ} {x y : ℕ} {s t : Store} {d : ℤ} (run : (do
    let w ← deref x
    assign y w
    releaseWordref q b
    releaseWordref r c
    pure (0 : ℤ)) s = .ok (d, t)) : d = 0 := by
  obtain ⟨_, _, -, run⟩ := bind_ok.1 run
  obtain ⟨_, _, -, run⟩ := bind_ok.1 run
  obtain ⟨_, _, -, run⟩ := bind_ok.1 run
  obtain ⟨_, _, -, run⟩ := bind_ok.1 run
  exact (Prod.mk.inj (pure_ok.1 run)).1

theorem repaged_reference (q : Seg) (b : ℤ) : Respects Repaged (getWordref q b) :=
  fun _ _ _ h => getWordref_rest h

structure Copying (s₀ : Pager) (held : List (ℕ × ℕ)) (q r : Seg) (l k : ℤ) (s : Store) (i : ℕ)
    (c : Store) : Prop where
  foot : Footing (fun _ => True) s₀ held c.pager
  rest : Repaged s c
  valid : ∀ j < i, InStore q (l + j) ∧ InStore r (k + j)
  view : c.pager.view = copyCells (fun j => (getGlobalAddress q (l + j)).toNat)
    (fun j => (getGlobalAddress r (k + j)).toNat) s.pager.view i

theorem Fresh.copying (fresh : Fresh s₀ held m.store.pager) (q r : Seg) (l k : ℤ) :
    Copying s₀ held q r l k m.store 0 m.store :=
  ⟨fresh.foot _, rfl, fun _ hj => absurd hj (Nat.not_lt_zero _), rfl⟩

/-- One turn of the loop: both references, the word, and the releases. -/
theorem Copying.turn {q r : Seg} {l k : ℤ} {s c d : Store} {i x y : ℕ}
    (h : Copying s₀ held q r l k s i c) (slack : Slack 8 s₀) (len : held.length ≤ 4)
    {t u : Store} (source : getWordref q (l + i) c = .ok (some x, t))
    (target : getWordref r (k + i) t = .ok (some y, u))
    (run : (do
      let w ← deref x
      assign y w
      releaseWordref q (l + i)
      releaseWordref r (k + i)
      pure (0 : ℤ)) u = .ok (0, d)) : Copying s₀ held q r l k s (i + 1) d := by
  have rest : Repaged u d := repaged_copy q r _ _ x y _ _ _ run
  obtain ⟨v, w, hv, run⟩ := bind_ok.1 run
  obtain ⟨rfl, rfl⟩ := deref_ok hv
  obtain ⟨_, w₁, h₁, run⟩ := bind_ok.1 run
  obtain ⟨_, w₂, h₂, run⟩ := bind_ok.1 run
  obtain ⟨_, w₃, h₃, run⟩ := bind_ok.1 run
  obtain ⟨-, rfl⟩ := Prod.mk.inj (pure_ok.1 run)
  obtain ⟨hq, hr, foot, view⟩ :=
    copy_footing h.foot slack len (fun _ _ => trivial) source target h₁ h₂ h₃
  have middle : Frames t.pager :=
    (getWordref_footing h.foot slack (by omega) source).2.holding.frames
  refine ⟨foot, ?_, fun j hj => ?_, ?_⟩
  · exact trans_of Repaged h.rest (trans_of Repaged (repaged_reference q _ _ _ _ source)
      (trans_of Repaged (repaged_reference r _ _ _ _ target) rest))
  · rcases Nat.lt_succ_iff_lt_or_eq.1 hj with hj | rfl
    · exact h.valid j hj
    · exact ⟨getWordref_inStore h.foot.holding.frames source, getWordref_inStore middle target⟩
  · rw [view, h.view]
    rfl

def Missing (q r : Seg) (l k : ℤ) (n : ℕ) : Prop :=
  ∃ j < n, ¬(InStore q (l + j) ∧ InStore r (k + j))

theorem inStore_none {q : Seg} {b : ℤ} {s t : Store} (frames : Frames s.pager)
    (run : getWordref q b s = .ok (none, t)) : ¬InStore q b := by
  intro here
  obtain ⟨y, hy⟩ := getWordref_some frames here run
  cases hy

/-- Loops whose turns keep an invariant when they return 0, and show a defect when not. -/
theorem loopFrom_cases {σ : Type} (I : ℕ → σ → Prop) (bad : ℕ → Prop) {body : ℕ → Exec σ ℤ}
    {n i : ℕ} {s u : σ} {c : ℤ}
    (step : ∀ j s u c, I j s → body j s = .ok (c, u) → c = 0 ∧ I (j + 1) u ∨ c ≠ 0 ∧ bad j)
    (start : I i s) (run : loopFrom body n i s = .ok (c, u)) :
    c = 0 ∧ I (i + n) u ∨ c ≠ 0 ∧ ∃ j < i + n, bad j := by
  induction n generalizing i s with
  | zero =>
    obtain ⟨rfl, rfl⟩ := Prod.mk.inj (pure_ok.1 run)
    exact .inl ⟨rfl, start⟩
  | succ n ih =>
    obtain ⟨r, t, turn, run⟩ := bind_ok.1 run
    rcases ite_ok.1 run with ⟨rfl, run⟩ | ⟨hr, run⟩
    · have next := (step i s t 0 start turn).resolve_right fun h => h.1 rfl
      have last := ih next.2 run
      rwa [Nat.add_assoc, Nat.add_comm 1 n] at last
    · obtain ⟨rfl, rfl⟩ := Prod.mk.inj (pure_ok.1 run)
      have here := (step i s _ _ start turn).resolve_left fun h => hr h.1
      exact .inr ⟨hr, i, by omega, here.2⟩

theorem xferWords_copying {q r : Seg} {l k c : ℤ} {t : Store}
    (fresh : Fresh s₀ held m.store.pager) (run : xferWords q r l k m.store = .ok (c, t)) :
    c = 0 ∧ Copying s₀ held q r l k m.store 10 t ∨ c ≠ 0 ∧ Missing q r l k 10 := by
  refine loopFrom_cases (Copying s₀ held q r l k m.store)
    (fun j => ¬(InStore q (l + j) ∧ InStore r (k + j))) (fun i s u c inv turn => ?_)
    (fresh.copying q r l k) run
  obtain ⟨x, t, source, turn⟩ := bind_ok.1 turn
  cases x with
  | none =>
    obtain ⟨rfl, -⟩ := Prod.mk.inj (pure_ok.1 turn)
    exact .inr ⟨by decide, fun h => inStore_none inv.foot.holding.frames source h.1⟩
  | some x =>
    have middle : Frames t.pager :=
      (getWordref_footing inv.foot fresh.1 (fresh.2.1.trans (by decide)) source).2.holding.frames
    obtain ⟨y, w, target, turn⟩ := bind_ok.1 turn
    cases y with
    | none =>
      obtain ⟨rfl, -⟩ := Prod.mk.inj (pure_ok.1 turn)
      exact .inr ⟨by decide, fun h => inStore_none middle target h.2⟩
    | some y =>
      obtain rfl := copy_returns turn
      exact .inl ⟨rfl, inv.turn fresh.1 fresh.2.1 source target turn⟩

/-- The words of a process too, up to the shorter of the two limits. -/
theorem dupMem_copying {q r : Seg} {c : ℤ} {t : Store} (fresh : Fresh s₀ held m.store.pager)
    (run : dupMem q r m.store = .ok (c, t)) :
    c = 0 ∧ Copying s₀ held q r 0 0 m.store
      (min (word2int q.lr + 1) (word2int r.lr + 1)).toNat t ∨
    c ≠ 0 ∧ Missing q r 0 0 (min (word2int q.lr + 1) (word2int r.lr + 1)).toNat := by
  have done := loopFrom_cases (Copying s₀ held q r 0 0 m.store)
    (fun j => ¬(InStore q (0 + j) ∧ InStore r (0 + j))) (fun i s u c inv turn => ?_)
    (fresh.copying q r 0 0) run
  · rwa [Nat.zero_add] at done
  · rw [zero_add]
    obtain ⟨x, t, source, turn⟩ := bind_ok.1 turn
    obtain ⟨y, w, target, turn⟩ := bind_ok.1 turn
    cases x with
    | none =>
      obtain ⟨rfl, -⟩ := Prod.mk.inj (pure_ok.1 turn)
      exact .inr ⟨by decide, fun h => inStore_none inv.foot.holding.frames source h.1⟩
    | some x =>
      have middle : Frames t.pager :=
        (getWordref_footing inv.foot fresh.1 (fresh.2.1.trans (by decide)) source).2.holding.frames
      cases y with
      | none =>
        obtain ⟨rfl, -⟩ := Prod.mk.inj (pure_ok.1 turn)
        exact .inr ⟨by decide, fun h => inStore_none middle target h.2⟩
      | some y =>
        obtain rfl := copy_returns turn
        rw [← zero_add (i : ℤ)] at source target turn
        exact .inl ⟨rfl, inv.turn fresh.1 fresh.2.1 source target turn⟩

theorem Copying.flat {q r : Seg} {l k : ℤ} {n : ℕ} {t : Store}
    (h : Copying s₀ held q r l k m.store n t) :
    (flatten m).copyWords q r l k n = some (flatten { m with store := t }) := by
  rw [Flat.copyWords, if_pos h.valid, h.rest]
  exact congrArg (fun f => some { flatten m with words := f }) h.view.symm

variable [RedBlackTree T]

theorem send_refines (k : send p a m = .ok (0, u)) : (flatten m).send p a = some (flatten u) := by
  rw [send] at k
  rcases ite_ok.1 k with ⟨-, k⟩ | ⟨ha, k⟩
  · cases (Prod.mk.inj (pure_ok.1 k)).1
  · have range : ¬(a < 0 ∨ a > 99) := by
      have hundred : procs = 100 := rfl
      omega
    rw [Flat.send, if_neg range]
    obtain ⟨c, s, hs, k⟩ := onSched_bind k
    obtain ⟨r, x, hx, k⟩ := bind_ok.1 k
    obtain ⟨rfl, rfl⟩ := updateSendWq_ok hx
    rw [if_neg (by exact not_not.2 rfl), get_bind] at k
    have first : moved (schedSuspend p) (flatten m).sched = some s := moved_ok hs
    simp only [first, Option.bind_some]
    rcases ite_ok.1 k with ⟨waits, k⟩ | ⟨alone, k⟩
    · obtain ⟨r, y, hy, k⟩ := bind_ok.1 k
      obtain ⟨rfl, rfl⟩ := removeReceiver_ok hy
      rw [if_neg (by exact not_not.2 rfl)] at k
      obtain ⟨d, t, ht, k⟩ := onSched_bind k
      obtain ⟨-, rfl⟩ := Prod.mk.inj (pure_ok.1 k)
      have second : moved (schedResume a.toNat) s = some t := moved_ok ht
      refine (if_pos waits).trans ?_
      rw [second]
      rfl
    · obtain ⟨-, rfl⟩ := Prod.mk.inj (pure_ok.1 k)
      exact if_neg alone

theorem recv_refines (fresh : Fresh s₀ held m.store.pager) (k : recv p a m = .ok (0, u)) :
    (flatten m).receive p a = some (flatten u) := by
  rw [recv] at k
  rcases ite_ok.1 k with ⟨-, k⟩ | ⟨ha, k⟩
  · cases (Prod.mk.inj (pure_ok.1 k)).1
  · have range : ¬a > 99 := by
      have hundred : procs = 100 := rfl
      omega
    rw [Flat.receive, if_neg range]
    rw [get_bind] at k
    have sender : (flatten m).waitingSender p a = m.waitingSender p a := rfl
    rw [sender]
    cases hs : m.waitingSender p a with
    | none =>
      simp only [hs] at k
      obtain ⟨r, w, hw, k⟩ := bind_ok.1 k
      rcases ite_ok.1 k with ⟨-, k⟩ | ⟨hr, k⟩
      · cases (Prod.mk.inj (pure_ok.1 k)).1
      · obtain rfl := not_not.1 hr
        obtain rfl := retry_eq hw
        obtain ⟨r, x, hx, k⟩ := bind_ok.1 k
        obtain ⟨rfl, rfl⟩ := updateRecvWq_ok hx
        rw [if_neg (by exact not_not.2 rfl)] at k
        obtain ⟨c, t, ht, k⟩ := onSched_bind k
        obtain ⟨-, rfl⟩ := Prod.mk.inj (pure_ok.1 k)
        have asleep : moved (schedSuspend p) (flatten m).sched = some t := moved_ok ht
        simp only [Flat.await, asleep, Option.map_some]
        rfl
    | some s =>
      simp only [hs] at k
      obtain ⟨r, w, hw, k⟩ := bind_ok.1 k
      rw [xferMsg, get_bind] at hw
      obtain ⟨t, ht, rfl⟩ := onMemory_ok hw
      rcases ite_ok.1 k with ⟨-, k⟩ | ⟨hr, k⟩
      · cases (Prod.mk.inj (pure_ok.1 k)).1
      · obtain rfl := not_not.1 hr
        obtain ⟨r, x, hx, k⟩ := bind_ok.1 k
        obtain ⟨rfl, rfl⟩ := updateSendWq_ok hx
        rw [if_neg (by exact not_not.2 rfl)] at k
        obtain ⟨c, t', ht', k⟩ := onSched_bind k
        obtain ⟨-, rfl⟩ := Prod.mk.inj (pure_ok.1 k)
        have awake : moved (schedResume s) (flatten m).sched = some t' := moved_ok ht'
        have copied := ((xferWords_copying fresh ht).resolve_right fun h => h.1 rfl).2.flat
        have taken : (flatten m).take p s = (some (flatten { m with store := t })).bind fun u =>
            (moved (schedResume s) (flatten m).sched).map fun t => { u with
              sched := t, sendWq := Function.update m.sendWq p ((m.sendWq p).erase s) } :=
          congrArg (fun o : Option (Flat T) => o.bind _) copied
        simp only [taken, Option.bind_some, awake, Option.map_some]
        rfl

theorem semDown_refines (k : semDown p a m = .ok (0, u)) :
    (flatten m).down p a = some (flatten u) := by
  rw [semDown] at k
  rcases ite_ok.1 k with ⟨-, k⟩ | ⟨ha, k⟩
  · cases (Prod.mk.inj (pure_ok.1 k)).1
  · obtain ⟨r, y, hy, k⟩ := onMemory_bind k
    rw [semP, get_bind] at hy
    rcases ite_ok.1 hy with ⟨-, hy⟩ | ⟨ha', hy⟩
    · obtain ⟨rfl, -⟩ := Prod.mk.inj (pure_ok.1 hy)
      cases (Prod.mk.inj (pure_ok.1 k)).1
    · rw [Flat.down, if_neg (by omega)]
      rcases ite_ok.1 hy with ⟨zero, hy⟩ | ⟨positive, hy⟩
      · obtain ⟨rfl, rfl⟩ := Prod.mk.inj (pure_ok.1 hy)
        rw [if_neg (by decide), if_pos rfl] at k
        obtain ⟨c, w, hc, k⟩ := bind_ok.1 k
        rcases ite_ok.1 k with ⟨-, k⟩ | ⟨hc', k⟩
        · cases (Prod.mk.inj (pure_ok.1 k)).1
        · obtain rfl := not_not.1 hc'
          obtain rfl := retry_eq hc
          obtain ⟨d, q, hq, k⟩ := onSched_bind k
          obtain ⟨e, w, he, k⟩ := bind_ok.1 k
          obtain ⟨rfl, rfl⟩ := updateSemWq_ok he
          obtain ⟨-, rfl⟩ := Prod.mk.inj (pure_ok.1 k)
          have asleep : moved (schedSuspend p) (flatten m).sched = some q := moved_ok hq
          refine (if_pos zero).trans ?_
          rw [asleep]
          rfl
      · obtain ⟨rfl, rfl⟩ := Prod.mk.inj (pure_ok.1 hy)
        rw [if_pos rfl] at k
        obtain ⟨-, rfl⟩ := Prod.mk.inj (pure_ok.1 k)
        exact if_neg positive

theorem semUp_refines (k : semUp p a m = .ok (0, u)) :
    (flatten m).up a = some (flatten u) := by
  rw [semUp] at k
  rcases ite_ok.1 k with ⟨-, k⟩ | ⟨ha, k⟩
  · cases (Prod.mk.inj (pure_ok.1 k)).1
  · obtain ⟨r, y, hy, k⟩ := onMemory_bind k
    rcases ite_ok.1 hy with ⟨-, hy⟩ | ⟨ha', hy⟩
    · obtain ⟨rfl, -⟩ := Prod.mk.inj (pure_ok.1 hy)
      cases (Prod.mk.inj (pure_ok.1 k)).1
    · rw [Flat.up, if_neg (by omega)]
      obtain ⟨rfl, rfl⟩ := Prod.mk.inj (pure_ok.1 hy)
      rw [if_neg (by decide), get_bind] at k
      cases hq : m.semWq a.toNat with
      | nil =>
        have none : (flatten m).semWq a.toNat = [] := hq
        simp only [hq] at k
        obtain ⟨-, rfl⟩ := Prod.mk.inj (pure_ok.1 k)
        simp only [none]
        rfl
      | cons w l =>
        have some : (flatten m).semWq a.toNat = w :: l := hq
        simp only [hq] at k
        obtain ⟨c, t, ht, k⟩ := onSched_bind k
        obtain ⟨e, x, hx, k⟩ := bind_ok.1 k
        obtain ⟨rfl, rfl⟩ := updateSemWq_ok hx
        obtain ⟨-, rfl⟩ := Prod.mk.inj (pure_ok.1 k)
        have awake : moved (schedResume w) (flatten m).sched = Option.some t := moved_ok ht
        simp only [some, awake, Option.map_some, removeProc, hq, List.erase_cons_head]
        rfl

theorem halt_refines (k : halt p a m = .ok (0, u)) :
    (flatten m).halt p = some (flatten u) := by
  rw [halt, modify_bind, freeSpace_eq] at k
  obtain ⟨c, s, hs, k⟩ := onSched_bind k
  obtain ⟨d, t, ht, k⟩ := onSched_bind k
  obtain ⟨-, rfl⟩ := Prod.mk.inj (pure_ok.1 k)
  have reset : moved (schedReset p) (flatten m).sched = some s := moved_ok hs
  have suspend : moved (schedSuspend p) s = some t := moved_ok ht
  rw [Flat.halt, reset, Option.bind_some, suspend, freeSpace_holes]
  rfl

theorem fork_refines (fresh : Fresh s₀ held m.store.pager) (hp : p < m.nextPid)
    (k : forkProc p a m = .ok (0, u)) : (flatten m).fork p = some (flatten u) := by
  rw [forkProc, get_bind] at k
  rcases ite_ok.1 k with ⟨-, k⟩ | ⟨size, k⟩
  · cases (Prod.mk.inj (pure_ok.1 k)).1
  · obtain ⟨q, w, hw, k⟩ := bind_ok.1 k
    rcases procalloc_ok hw with ⟨rfl, -⟩ | ⟨rfl, room, block, rfl⟩
    · simp only [modify_bind] at k
      exact (fault_ok.1 k).elim
    · simp only [modify_bind, get_bind] at k
      obtain ⟨r, t, ht, k⟩ := onMemory_bind k
      rcases ite_ok.1 k with ⟨-, k⟩ | ⟨hr, k⟩
      · cases (Prod.mk.inj (pure_ok.1 k)).1
      · obtain rfl := not_not.1 hr
        obtain ⟨c, s, hs, k⟩ := onSched_bind k
        obtain ⟨d, t', ht', k⟩ := onSched_bind k
        obtain ⟨-, hu⟩ := Prod.mk.inj (pure_ok.1 k)
        have hne : m.nextPid ≠ p := by omega
        have granted : ¬(word2int ((flatten m).seg p).lr + 1 ≤ 0 ∨ (flatten m).nextPid > 99 ∨
            (memalloc (word2int ((flatten m).seg p).lr + 1) (flatten m).holes).1 < 0) := by
          change ¬(word2int (m.seg p).lr + 1 ≤ 0 ∨ m.nextPid > 99 ∨
            (memalloc (word2int (m.seg p).lr + 1) m.holes).1 < 0)
          omega
        have reset : moved (schedReset m.nextPid) (flatten m).sched = some s := moved_ok hs
        have resume : moved (schedResume m.nextPid) s = some t' := moved_ok ht'
        have copy : dupMem (m.seg p) ⟨int2word (memalloc (word2int (m.seg p).lr + 1) m.holes).1,
            int2word (word2int (m.seg p).lr + 1 - 1), m.nextPid⟩ m.store = .ok (0, t) := by
          simpa [VM.seg, VM.setProc, hne, hne.symm] using ht
        have copied := ((dupMem_copying fresh copy).resolve_right fun h => h.1 rfl).2.flat
        have procs : Function.update (Function.update m.proc p
            { m.proc p with r := int2word m.nextPid }) m.nextPid
            { m.proc p with
              toSeg := ⟨int2word (memalloc (word2int (m.seg p).lr + 1) m.holes).1,
                int2word (word2int (m.seg p).lr + 1 - 1), m.nextPid⟩
              r := int2word (m.seg p).pid, sp := zeros } = u.proc := by
          funext q
          rw [hu]
          by_cases hn : q = m.nextPid
          · subst hn
            simp [VM.setProc, VM.regs, VM.seg, hne]
          · by_cases hq : q = p
            · subst hq
              simp [VM.setProc, hn]
            · simp [VM.setProc, hn, hq]
        rw [Flat.fork]
        refine (if_neg granted).trans ((congrArg (fun o : Option (Flat T) => o.bind _) copied).trans ?_)
        rw [Option.bind_some]
        refine (congrArg (fun o : Option (Sched T) => o.bind _) reset).trans ?_
        rw [Option.bind_some]
        refine (congrArg (fun o : Option (Sched T) => o.map _) resume).trans ?_
        rw [Option.map_some]
        have rest := congrArg (fun f => some { flatten u with proc := f }) procs
        rw [hu] at rest ⊢
        exact rest

/-- An instruction on one process works on the image of the process. -/
theorem execute_instruction {op : Op} {i : Instruction} (h : op.instruction = some i) (p : ℕ)
    (a : ℤ) (c : Flat T) :
    c.execute op p a = (step op (c.seg p).pid a (c.image p)).map (c.setImage p) := by
  cases op <;> first | rfl | cases h

/-- Every instruction other than EX does on the flat machine what it does on this one. -/
theorem run_refines {op : Op} (other : op ≠ .EX) (fresh : Fresh s₀ held m.store.pager)
    (hp : p < m.nextPid) (k : op.run p a m = .ok (0, u)) :
    (flatten m).execute op p a = some (flatten u) := by
  cases h : op.instruction with
  | some i =>
    rw [run_instr h] at k
    rw [execute_instruction h]
    exact instr_refines h fresh k
  | none =>
    cases op <;> cases h
    case none.SD.refl => exact send_refines k
    case none.RC.refl => exact recv_refines fresh k
    case none.PE.refl => exact semDown_refines k
    case none.VE.refl => exact semUp_refines (p := p) k
    case none.FK.refl => exact fork_refines (a := a) fresh hp k
    case none.EX.refl => exact absurd rfl other
    case none.HA.refl => exact halt_refines (a := a) k

theorem tick_refines {op : Op} (k : Ticked m u m.sched.current op a) (released : Released m)
    (other : op ≠ .EX) :
    (flatten m).tick = some (.instr m.sched.current op a, flatten u) := by
  obtain ⟨v, x, s, t, parts⟩ := tick_parts k
  obtain ⟨word, -, -⟩ := parts.fetched_image released.1 released.slack
  have seen : s.pager.view = m.store.pager.view := funext
    (touchPageBy_touched getRemovalPage_victims released.1 (getWordref_touch parts.fetch).2).view
  have fresh : Fresh m.store.pager _ s.pager :=
    ⟨released.slack, by simp, (getWordref_footing (.start _ released.1) released.slack
      (Nat.zero_le _) parts.fetch).2⟩
  have done := run_refines other (m := fetched m.sched.current s.pager m) fresh k.lt parts.run
  have last : flatten u = flatten v := by
    rw [parts.final]
    exact flatten_settled (releaseWordref_sameView parts.release)
  have guard : m.sched.current < m.nextPid ∧ (m.seg m.sched.current).pid = m.sched.current ∧
      0 ≤ word2int (m.seg m.sched.current).br := ⟨k.lt, k.own, tick_numeric k⟩
  rw [flatten_fetched seen] at done
  rw [last, Flat.tick]
  refine (if_pos guard).trans ?_
  refine (congrArg (fun o : Option Word => o.bind _) word).trans ?_
  rw [Option.bind_some, parts.decoded, Option.bind_some, parts.operand]
  exact congrArg (fun o : Option (Flat T) => o.map _) done

def flat (c : Config T) : Boundary T := ⟨flatten c.vm, c.i⟩

def executed : Label → Option Op
  | .instr _ op _ => some op
  | .slice => none

theorem next_refines {c d : Config T} {l : Label} (k : Dispatch.next c = some (l, d))
    (released : Released c.vm) (other : executed l ≠ some .EX) :
    FlatMachine.next (flat c) = some (l, flat d) := by
  obtain ⟨busy, ⟨op, a, rfl, early, turn, k⟩ | ⟨rfl, late, turn, s, hs, same⟩⟩ := next_cases k
  · have done := tick_refines k released (fun h => other (congrArg some h))
    have running : ¬(flat c).machine.sched.nrRunning = 0 := Nat.ne_of_gt busy
    have last : flat d = ⟨flatten d.vm, c.i + 1⟩ := congrArg (Boundary.mk _) turn
    rw [FlatMachine.next, if_neg running, last]
    exact (if_pos early).trans (congrArg (fun o : Option (Label × Flat T) => o.map _) done)
  · have running : ¬(flat c).machine.sched.nrRunning = 0 := Nat.ne_of_gt busy
    have moves : moved endSlice (flat c).machine.sched = some s := moved_ok hs
    have last : flat d = ⟨flatten { c.vm with sched := s }, 0⟩ := by
      rw [← same, ← turn]
      rfl
    rw [FlatMachine.next, if_neg running, last]
    exact (if_neg (Nat.not_lt.2 late)).trans
      (congrArg (fun o : Option (Sched T) => o.map _) moves)

def Closed (e : Execution T) : Prop := ∀ i < e.len, executed (e.lab i) ≠ some .EX

instance (e : Execution T) : Decidable (Closed e) :=
  inferInstanceAs (Decidable (∀ i < e.len, _))

theorem Closed.released {e : Execution T} (h : Closed e) (n : ℕ) (hn : n ≤ e.len) :
    Released (e.vm n) := by
  apply ReferenceBalance.released e _ n hn
  intro i hi
  have other := h i hi
  cases lab : e.lab i with
  | slice => trivial
  | instr p op a =>
    rw [lab] at other
    cases op <;> trivial

theorem Closed.refines {e : Execution T} (h : Closed e) : Refines e.toRun flat FlatMachine.next :=
  fun i hi => next_refines (e.ok i hi) (h.released i hi.le) (h i hi)

/-- The flat machine computes every run without EX. For any page size and any average the pager
changes nothing that the programs, the scheduler or the output show. -/
theorem flat_run (e : Execution T) (closed : Closed e) (n : ℕ) (hn : n ≤ e.len) :
    after FlatMachine.next n (flat (e.st 0)) = some (flat (e.st n)) ∧
      ∀ i < n, (FlatMachine.next (flat (e.st i))).map Prod.fst = some (e.lab i) := by
  refine ⟨closed.refines.after n hn, fun i hi => ?_⟩
  rw [closed.refines i (by omega), Option.map_some]

def widePages : Execution ListTree :=
  execution 100 halfWeight bareHost (bytes "BRAIN10\n10\nSD01\nBRAIN10\n10\nRC00\nDATA\n") 2
    (by decide +kernel) (by decide +kernel)

theorem widePages_flat : after FlatMachine.next 2 (flat (widePages.st 0)) =
    some (flat (widePages.st 2)) ∧
    ∀ i < 2, (FlatMachine.next (flat (widePages.st i))).map Prod.fst = some (widePages.lab i) :=
  flat_run widePages (by decide +kernel) 2 le_rfl

end
end BrainMachine.FlatRefinement
