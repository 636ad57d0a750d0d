import BrainMachine.Effects
import BrainMachine.Runs

set_option autoImplicit false

namespace BrainMachine.MachineRuns
open Codec Computations Paging Stdio AddressSpace Instructions HoleList RunQueue Machine Loader
open Dispatch Effects Runs

section
variable {T : Type} [RedBlackTree T]

def granted (n : ℤ) (m : VM T) : VM T :=
  { m.setProc m.nextPid (fun _ =>
      { r := zeros, sp := zeros, ic := (48, 48), c := 70, stackBase := 0
        br := int2word (memalloc n m.holes).1, lr := int2word (n - 1), pid := m.nextPid }) with
    holes := (memalloc n m.holes).2, nextPid := m.nextPid + 1 }

inductive Loads (m : VM T) : VM T → Prop
  | start : Loads m m
  | turn (w : VM T) (n a b : ℤ) (f : ℕ → Word) (s t : Sched T) (h : Loads m w) (hn : 0 ≤ n)
      (small : n < 2147483648) (room : w.nextPid ≤ 99) (block : 0 ≤ (memalloc n w.holes).1)
      (reset : schedReset w.nextPid w.sched = .ok (a, s))
      (resume : schedResume w.nextPid s = .ok (b, t)) :
      Loads m { stored f (entered (granted n w)) with sched := t }

theorem Loads.trans {m w u : VM T} (h : Loads m w) (k : Loads w u) : Loads m u := by
  induction k with
  | start => exact h
  | turn x n a b f s t _ hn small room block reset resume ih =>
    exact .turn x n a b f s t ih hn small room block reset resume

omit [RedBlackTree T] in
theorem loadHeader_lt (fh : Stream) : (loadHeader fh).1 < 2147483648 := by
  unfold loadHeader
  split
  · exact (by decide : (-1 : ℤ) < 2147483648)
  · exact BitVec.toInt_lt

theorem loadFileLoop_loads (n : ℕ) {fh rest : Stream} {m u : VM T}
    (h : loadFileLoop n fh m = .ok ((0, rest), u)) : Loads m u ∧ m.nextPid < u.nextPid := by
  induction n generalizing fh m with
  | zero => exact (fault_ok.1 h).elim
  | succ n ih =>
    rw [loadFileLoop] at h
    rcases ite_ok.1 h with ⟨-, h⟩ | ⟨hn, h⟩
    · cases (Prod.mk.inj (pure_ok.1 h)).1
    · obtain ⟨p, w, hw, h⟩ := bind_ok.1 h
      rcases procalloc_ok hw with ⟨rfl, -⟩ | ⟨rfl, room, block, rfl⟩
      · cases (Prod.mk.inj (pure_ok.1 h)).1
      · obtain ⟨code, x, hx, h⟩ := bind_ok.1 h
        obtain ⟨f, rfl⟩ := loadCode_stored hx
        rcases ite_ok.1 h with ⟨-, h⟩ | ⟨-, h⟩
        · cases (Prod.mk.inj (pure_ok.1 h)).1
        · obtain ⟨a, s, hs, h⟩ := onSched_bind h
          obtain ⟨b, t, ht, h⟩ := onSched_bind h
          have turn : Loads m { stored f (entered (granted (loadHeader fh).1 m)) with sched := t } :=
            .turn m _ a b f s t .start (by omega) (loadHeader_lt fh) room block hs ht
          rcases ite_ok.1 h with ⟨-, h⟩ | ⟨-, h⟩
          · obtain ⟨hl, hlt⟩ := ih h
            exact ⟨turn.trans hl, Nat.lt_of_succ_lt hlt⟩
          · obtain ⟨-, rfl⟩ := Prod.mk.inj (pure_ok.1 h)
            exact ⟨turn, Nat.lt_succ_self _⟩

/-- The start state of `sched_run` is reached by loading at least one process. -/
theorem boot_loads {pgSize : ℕ} {average : UInt32 → UInt32 → UInt32}
    {host : Host} {input : List UInt8} {m : VM T}
    (h : boot pgSize average host input = some m) : ∃ pager u fh,
      pagememInit pgSize average = some pager ∧ Loads (startState pager host) u ∧
      0 < u.nextPid ∧ m = { u with store := { u.store with stdin := fh } } := by
  rw [boot] at h
  cases hp : pagememInit pgSize average with
  | none => simp [hp] at h
  | some pager =>
    simp only [hp] at h
    split at h
    · rename_i fh u hu
      rw [loadFile] at hu
      rcases hs : scanToken 7 ⟨input, false⟩ with ⟨_ | tok, fh'⟩
      · simp only [hs] at hu
        cases (Prod.mk.inj (pure_ok.1 hu)).1
      · simp only [hs] at hu
        rcases ite_ok.1 hu with ⟨-, hu⟩ | ⟨-, hu⟩
        · cases (Prod.mk.inj (pure_ok.1 hu)).1
        · cases hl : skipLine fh'.rest with
          | none =>
            simp only [hl] at hu
            exact (fault_ok.1 hu).elim
          | some rest =>
            simp only [hl] at hu
            obtain ⟨hu, hlt⟩ := loadFileLoop_loads _ hu
            exact ⟨pager, u, fh, rfl, hu, hlt, (Option.some.inj h).symm⟩
    · cases h

structure Execution (T : Type) [RedBlackTree T] extends Run (StepOf (next (T := T))) where
  pgSize : ℕ
  average : UInt32 → UInt32 → UInt32
  host : Host
  input : List UInt8
  booted : boot pgSize average host input = some (st 0).vm
  slice : (st 0).i = 0

def Execution.vm (e : Execution T) (n : ℕ) : VM T := (e.st n).vm

def execution (pgSize : ℕ) (average : UInt32 → UInt32 → UInt32)
    (host : Host) (input : List UInt8) (n : ℕ)
    (h : (boot (T := T) pgSize average host input).isSome)
    (ok : (after next n ⟨(boot (T := T) pgSize average host input).get h, 0⟩).isSome) :
    Execution T where
  toRun := runOf next ⟨(boot pgSize average host input).get h, 0⟩ .slice n ok
  pgSize := pgSize
  average := average
  host := host
  input := input
  booted := (Option.some_get h).symm
  slice := rfl

/-- An execution starts where loading has ended, with what it left of the input. -/
theorem Execution.loads (e : Execution T) : ∃ pager u fh,
    pagememInit e.pgSize e.average = some pager ∧ Loads (startState pager e.host) u ∧
      e.vm 0 = { u with store := { u.store with stdin := fh } } := by
  obtain ⟨pager, u, fh, hp, hu, -, hm⟩ := boot_loads e.booted
  exact ⟨pager, u, fh, hp, hu, hm⟩

/-- A step of an execution is a tick of the current process or the end of a slice. -/
theorem Execution.step (e : Execution T) {n : ℕ} (hn : n < e.len) :
    0 < (e.vm n).sched.nrRunning ∧
    ((∃ p op a, e.lab n = .instr p op a ∧ (e.vm n).sched.current = p ∧
      Ticked (e.vm n) (e.vm (n + 1)) p op a) ∨
    (e.lab n = .slice ∧ ∃ s, endSlice (e.vm n).sched = .ok ((), s) ∧
      e.vm (n + 1) = { e.vm n with sched := s })) := by
  obtain ⟨pos, ⟨op, a, lab, -, -, k⟩ | ⟨lab, -, -, s, hs, hm⟩⟩ := next_cases (e.ok n hn)
  · exact ⟨pos, .inl ⟨_, op, a, lab, rfl, k⟩⟩
  · exact ⟨pos, .inr ⟨lab, s, hs, hm⟩⟩

theorem Execution.ticked (e : Execution T) {n : ℕ} (hn : n < e.len) {p : ℕ} {op : Op} {a : ℤ}
    (lab : e.lab n = .instr p op a) : 0 < (e.vm n).sched.nrRunning ∧
      (e.vm n).sched.current = p ∧ Ticked (e.vm n) (e.vm (n + 1)) p op a := by
  obtain ⟨pos, ⟨p', op', a', lab', cur, k⟩ | ⟨lab', -⟩⟩ := e.step hn
  · obtain ⟨rfl, rfl, rfl⟩ := Label.instr.inj (lab.symm.trans lab')
    exact ⟨pos, cur, k⟩
  · rw [lab'] at lab
    cases lab

/-- The start state, and then every boundary, has what loading establishes and steps keep. -/
theorem Execution.invariant (e : Execution T) (I : VM T → Prop)
    (load : ∀ pager u fh, pagememInit e.pgSize e.average = some pager →
      Loads (startState pager e.host) u → I { u with store := { u.store with stdin := fh } })
    (slice : ∀ m s, 0 < m.sched.nrRunning → I m → endSlice m.sched = .ok ((), s) →
      I { m with sched := s })
    (tick : ∀ m u op a, 0 < m.sched.nrRunning → I m → Ticked m u m.sched.current op a → I u)
    (n : ℕ) (hn : n ≤ e.len) : I (e.vm n) := by
  refine e.toRun.invariant (fun i => I (e.vm i)) ?_ (fun i hi hI => ?_) n hn
  · obtain ⟨pager, u, fh, hp, hu, hm⟩ := e.loads
    rw [hm]
    exact load pager u fh hp hu
  · obtain ⟨pos, ⟨p, op, a, -, rfl, h⟩ | ⟨-, s, hs, h⟩⟩ := e.step hi
    · exact tick _ _ op a pos hI h
    · rw [h]
      exact slice _ s pos hI hs

end
end BrainMachine.MachineRuns
