import BrainMachine.ThreeFrames

set_option autoImplicit false

namespace BrainMachine.FailedReferences
open Codec Computations Paging AddressSpace Instructions Machine Dispatch MachineRuns SortedTree
open Transparency References FrameTable HeldPages MachineMemory MemoryRelations TickSteps ExecSteps
open ProcessImages TickFinishes ThreeFrames
open RunQueue (RedBlackTree LawfulTree account)
open ReferenceBalance (released_start)
open WaitQueues (execution_sane)

theorem loopFrom_through {σ : Type} (I : ℕ → σ → Prop) {body : ℕ → Exec σ ℤ} {n i : ℕ} {s u : σ}
    {r : ℤ} (step : ∀ j s r u, I j s → body j s = .ok (r, u) → r = 0 ∧ I (j + 1) u)
    (start : I i s) (run : loopFrom body n i s = .ok (r, u)) : r = 0 ∧ I (i + n) u := by
  induction n generalizing i s with
  | zero =>
    obtain ⟨rfl, rfl⟩ := Prod.mk.inj (pure_ok.1 run)
    exact ⟨rfl, start⟩
  | succ n ih =>
    obtain ⟨q, t, turn, rest⟩ := bind_ok.1 run
    obtain ⟨rfl, next⟩ := step i s q t start turn
    have last := ih next rest
    rwa [Nat.add_assoc, Nat.add_comm 1 n] at last

theorem getWordref_inStore {p : Seg} {a : ℤ} {s t : Store} {x : ℕ} (frames : Frames s.pager)
    (k : getWordref p a s = .ok (some x, t)) : InStore p a := by
  obtain ⟨valid, touch⟩ := getWordref_touch k
  have lt := (touchPageBy_touched getRemovalPage_victims frames touch).lt
  exact ⟨valid, by omega⟩

theorem listed {p : Seg} {a : ℤ} {c u : Core} {r : ℤ} (frames : Frames c.store.pager)
    (run : (do
      match ← onStore (getWordref p a) with
      | none => fault .undefined
      | some x => do
        let w ← onStore (deref x)
        onStore (putchars (wordBytes w ++ blank))
        onStore (releaseWordref p a)
        pure (0 : ℤ)) c = .ok (r, u)) : r = 0 ∧ InStore p a ∧ Frames u.store.pager := by
  obtain ⟨x, d, hx, run⟩ := bind_ok.1 run
  obtain ⟨s, touch, rfl⟩ := zoom_ok.1 hx
  cases x with
  | none => exact (fault_ok.1 run).elim
  | some x =>
    obtain ⟨w, e, hw, run⟩ := bind_ok.1 run
    obtain ⟨_, f, hf, run⟩ := bind_ok.1 run
    obtain ⟨_, g, hg, run⟩ := bind_ok.1 run
    obtain ⟨rfl, rfl⟩ := Prod.mk.inj (pure_ok.1 run)
    have read := respects_onStore (respects_deref (R := FramesKept) x) _ _ _ hw
    have shown := respects_onStore (respects_putchars (R := FramesKept) _) _ _ _ hf
    have released := respects_release (R := FramesKept) p a _ _ _ hg
    have referred : Frames s.pager := getWordref_frames frames touch
    exact ⟨rfl, getWordref_inStore frames touch, released (shown (read referred))⟩

theorem printMem_inStore {p : Seg} {c u : Core} {r : ℤ} (frames : Frames c.store.pager)
    (run : printMem p c = .ok (r, u)) (k : ℕ) (hk : k < 100) : InStore p k := by
  have put (cs : List UInt8) := respects_onStore (respects_putchars (R := FramesKept) cs)
  have lines := (loopFrom_through (fun i d => Frames d.store.pager ∧
    ∀ l : ℕ, l < 10 * i → InStore p l) (fun i d r e before turn => ?_) ⟨frames, ?_⟩ run).2
  · exact lines.2 k hk
  · obtain ⟨_, d₁, head, turn⟩ := bind_ok.1 turn
    obtain ⟨q, d₂, words, turn⟩ := bind_ok.1 turn
    obtain ⟨_, d₃, tail, turn⟩ := bind_ok.1 turn
    obtain ⟨rfl, rfl⟩ := Prod.mk.inj (pure_ok.1 turn)
    have line := (loopFrom_through (fun j d => Frames d.store.pager ∧
      ∀ l : ℕ, l < 10 * i + j → InStore p l) (fun j d r e before turn => ?_)
        ⟨put _ _ _ _ head before.1, before.2⟩ words).2
    · exact ⟨rfl, put _ _ _ _ tail line.1, fun l hl => line.2 l (by omega)⟩
    · obtain ⟨zero, here, kept⟩ := listed before.1 turn
      refine ⟨zero, kept, fun l hl => ?_⟩
      rcases Nat.lt_succ_iff_lt_or_eq.1 hl with hl | rfl
      · exact before.2 l hl
      · exact_mod_cast here
  · intro l hl
    omega

theorem getWordref_some {p : Seg} {a : ℤ} {s t : Store} {x : Option ℕ} (frames : Frames s.pager)
    (here : InStore p a) (k : getWordref p a s = .ok (x, t)) : ∃ y, x = some y := by
  obtain ⟨valid, top⟩ := here
  rcases ite_ok.1 k with ⟨neg, -⟩ | ⟨-, k⟩
  · omega
  · rw [get_bind] at k
    obtain ⟨u, touch, rfl⟩ := zoom_ok.1 k
    exact touchPage_answers frames (by omega) touch

section
variable {T : Type}

theorem fetch_some {m u : VM T} {p : ℕ} {f : Option Fetched} (frames : Frames m.store.pager)
    (here : InStore (m.seg p) (counter m p)) (run : fetch p m = .ok (f, u)) : ∃ g, f = some g := by
  rw [fetch, get_bind] at run
  rcases ite_ok.1 run with ⟨invalid, -⟩ | ⟨-, run⟩
  · have valid := (address_range here.1).2.1
    rw [counter, invalid] at valid
    omega
  · obtain ⟨x, s, ref, run⟩ := onMemory_bind run
    obtain ⟨y, rfl⟩ := getWordref_some frames here ref
    obtain ⟨_, d, -, run⟩ := bind_ok.1 run
    obtain ⟨_, e, -, run⟩ := bind_ok.1 run
    exact ⟨_, (Prod.mk.inj (pure_ok.1 run)).1⟩

variable [RedBlackTree T]

/-- A tick that ends on no instruction has listed the hundred words. -/
theorem illegal_lists {m : VM T} {p : ℕ} {r : ℤ × VM T} (frames : Frames m.store.pager)
    (lt : p < m.nextPid) (own : (m.seg p).pid = p) (here : InStore (m.seg p) (counter m p))
    (illegal : instructionAt m p = none)
    (run : tick p { m with sched := account m.sched } = .ok r) (i : ℕ) (hi : i < 100) :
    InStore (m.seg p) i := by
  rw [tick, get_bind, if_neg (not_le.2 lt)] at run
  rcases ite_ok.1 run with ⟨foreign, -⟩ | ⟨-, run⟩
  · exact absurd own foreign
  · obtain ⟨f, u, fetch, run⟩ := bind_ok.1 run
    obtain ⟨f, rfl⟩ := fetch_some (m := { m with sched := account m.sched }) frames here fetch
    obtain ⟨x, s, ref, rfl, rfl⟩ := fetch_eq fetch
    have same : s.pager.mem x = word m p (counter m p) := getWordref_word frames ref
    rw [same] at run
    dsimp only [execute] at run
    rw [← instructionAt, illegal] at run
    simp only [get_bind] at run
    obtain ⟨q, v, list, -⟩ := bind_ok.1 run
    obtain ⟨c, listing, rfl⟩ := zoom_ok.1 list
    rw [fetched_seg] at listing
    have referred : Frames s.pager := getWordref_frames frames ref
    exact printMem_inStore (by exact referred) listing i hi

variable [LawfulTree T]

/-- The next tick at a boundary finishes when its process is served. On a word that is no
instruction it finishes only if all the words that are listed are there. -/
theorem tick_returns (e : Execution T) {n : ℕ} (hn : n ≤ e.len)
    (busy : 0 < (e.vm n).sched.nrRunning) :
    (Served (e.vm n) (e.vm n).sched.current → ∃ r, tick (e.vm n).sched.current
      { e.vm n with sched := account (e.vm n).sched } = .ok r) ∧
    (InStore ((e.vm n).seg (e.vm n).sched.current) (counter (e.vm n) (e.vm n).sched.current) →
      instructionAt (e.vm n) (e.vm n).sched.current = none →
      (∃ r, tick (e.vm n).sched.current
        { e.vm n with sched := account (e.vm n).sched } = .ok r) →
      ∀ i : ℕ, i < 100 → InStore ((e.vm n).seg (e.vm n).sched.current) i) := by
  have sane := execution_sane e n hn
  have lt := sane.current busy
  obtain ⟨tabled, -⟩ := execution_tabled e n hn
  refine ⟨fun served => (tick_finishes tabled sane.served.1 rfl lt served).run, ?_⟩
  rintro here illegal ⟨r, run⟩ i hi
  exact illegal_lists tabled.frames lt (execution_own e n hn _ lt) here illegal run i hi

theorem twoPageRun_returns : ∃ r, tick (twoPageRun.vm 0).sched.current
    { twoPageRun.vm 0 with sched := account (twoPageRun.vm 0).sched } = .ok r := by
  have legal : instructionAt (twoPageRun.vm 0) (twoPageRun.vm 0).sched.current = some .LR := by
    decide +kernel
  have served : Served (twoPageRun.vm 0) (twoPageRun.vm 0).sched.current :=
    served_three (released_start _).2 (by decide +kernel) legal (by decide)
      fun _ fork => absurd fork (by decide)
  exact (tick_returns twoPageRun (Nat.zero_le _) (by decide +kernel)).1 served

def oneWordRun : Execution ListTree :=
  execution 100 halfWeight bareHost (bytes "BRAIN10\n1\nXX00\nDATA\n") 0
    (by decide +kernel) (by decide +kernel)

theorem oneWordRun_faults : 0 < (oneWordRun.vm 0).sched.nrRunning ∧
    ¬∃ r, tick (oneWordRun.vm 0).sched.current
      { oneWordRun.vm 0 with sched := account (oneWordRun.vm 0).sched } = .ok r := by
  refine ⟨by decide +kernel, ?_⟩
  rintro ⟨r, run⟩
  have dead : (tick (oneWordRun.vm 0).sched.current
      { oneWordRun.vm 0 with sched := account (oneWordRun.vm 0).sched }).isOk = false := by
    decide +kernel
  rw [run] at dead
  cases dead

end
end BrainMachine.FailedReferences
