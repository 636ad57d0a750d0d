import BrainMachine.ExecSteps
import BrainMachine.MemoryRelations
import BrainMachine.ProgramText

set_option autoImplicit false

namespace BrainMachine.FailedCalls
open Codec Computations Paging Stdio AddressSpace Instructions HoleList RunQueue Machine Loader
open Dispatch Effects Runs MachineRuns SortedTree WaitQueues References MachineMemory
open MemoryRelations ProcessImages ProgramText TickSteps ExecSteps

/-- A text whose first line starts with BRAIN10, and the size that follows that line. -/
inductive Headed : List UInt8 → ℤ → Prop
  | mk (comment rest : List UInt8) (n : ℤ) (inline : Inline comment)
      (size : (loadHeader ⟨rest, false⟩).1 = n) (pos : 0 ≤ n) :
      Headed (brain10 ++ (comment ++ 10 :: rest)) n

theorem Headed.mark {text : List UInt8} {n : ℤ} (h : Headed text n) :
    ∃ left, scanToken 7 ⟨text, false⟩ = (some brain10, left) := by
  cases h with
  | mk comment rest n inline size pos =>
    obtain ⟨left, scanned, -⟩ := scan_line .nil brain10_solid (by decide) inline rest
    have tok : (brain10 ++ comment.takeWhile fun c => !isspace c).take 7 = brain10 :=
      List.take_left' rfl
    rw [tok] at scanned
    exact ⟨⟨left, false⟩, scanned⟩

section
variable {T : Type}

def named (m : VM T) (p : ℕ) : Option (List UInt8) :=
  m.host.files (lowHalf (word m p (counter m p)))

inductive Missing (m : VM T) (p : ℕ) : Op → Prop
  | pid (h : procs ≤ m.nextPid) : Missing m p .FK
  | room (h : chosen (UInt32.ofInt (word2int (m.seg p).lr + 1)) m.holes = none) : Missing m p .FK
  | block (text : List UInt8) (n : ℤ) (file : named m p = some text) (headed : Headed text n)
      (h : chosen (UInt32.ofInt n) m.holes = none) : Missing m p .EX

structure Harmless (m u : VM T) (p : ℕ) : Prop where
  regs : u.regs p = { advance (m.regs p) with r := zeros }
  others : ∀ q, q ≠ p → u.regs q = m.regs q
  seg : ∀ q, u.seg q = m.seg q
  words : ∀ q a, word u q a = word m q a
  nextPid : u.nextPid = m.nextPid
  holes : u.holes = m.holes
  recvWq : u.recvWq = m.recvWq
  sendWq : u.sendWq = m.sendWq
  semWq : u.semWq = m.semWq
  sched : u.sched = account m.sched

structure Refused (m : VM T) (p : ℕ) : Prop where
  inner : counter m p ≠ 99
  room : m.host.opened < m.host.limit
  size : ∃ text n, named m p = some text ∧ fileSize ⟨text, false⟩ = some n ∧ 0 ≤ n ∧
    (memalloc n m.holes).1 < 0 ∧ (memalloc n m.holes).2 = m.holes

variable [RedBlackTree T]

def Survives (c : Config T) (op : Op) (a : ℤ) : Prop :=
  ∃ u, next c = some (.instr c.vm.sched.current op a, ⟨u, c.i + 1⟩) ∧
    Harmless c.vm u c.vm.sched.current

variable [LawfulTree T]

omit [LawfulTree T] in
theorem exec_survives {c : Config T} {a : ℤ} (busy : 0 < c.vm.sched.nrRunning)
    (turn : c.i < schedGranularity) (lt : c.vm.sched.current < c.vm.nextPid)
    (own : (c.vm.seg c.vm.sched.current).pid = c.vm.sched.current)
    (frames : Frames c.vm.store.pager) (hp : pending c.vm = some (.EX, a))
    (headed : ∀ text, named c.vm c.vm.sched.current = some text →
      ∃ left, scanToken 7 ⟨text, false⟩ = (some brain10, left))
    (refused : Refused c.vm c.vm.sched.current) : Survives c .EX a := by
  obtain ⟨inner, room, text, n, file, size, pos, none, kept⟩ := refused
  obtain ⟨left, mark⟩ := headed text file
  obtain ⟨x, s, g, fetch, same, exec⟩ := next_exec busy turn lt own frames hp file inner room
  have touched := touchPageBy_touched getRemovalPage_victims frames (getWordref_touch fetch).2
  have header : (loadHeader left).1 = n := by
    rw [fileSize, mark] at size
    exact Option.some.inj size
  obtain ⟨t, step, last⟩ := exec _ (execFile_refused mark header pos none)
  have frame := denied_local c.vm.sched.current n (opens (fetched c.vm.sched.current g c.vm))
  have seg (q : ℕ) : (settled t (denied c.vm.sched.current n
      (opens (fetched c.vm.sched.current g c.vm)))).seg q = c.vm.seg q :=
    (frame.seg q).trans (fetched_seg _ q g c.vm)
  refine ⟨_, step, ?_, fun q hq => ?_, seg, fun q b => ?_, rfl, kept, rfl, rfl, rfl, rfl⟩
  · refine (denied_regs _ _ _).trans ?_
    rw [opens_regs, fetched_regs]
  · exact (frame.regs q hq).trans (fetched_regs_other hq g c.vm)
  · rw [word, word, seg]
    exact ((trans_sameFrames same last).view _).trans (touched.view _)

omit [LawfulTree T] in
theorem fork_fails {m u : VM T} {p : ℕ} {a : ℤ} (k : Ticked m u p .FK a)
    (missing : Missing m p .FK) : False := by
  cases k.effect with
  | quiet op a h hsd hrc hfk => exact hfk rfl
  | fork a c d n s hn pos room granted =>
    have hundred : procs = 100 := rfl
    cases missing with
    | pid h =>
      have : m.nextPid ≤ 99 := room
      omega
    | room h =>
      obtain ⟨k, hk, -⟩ := memalloc_granted granted
      have found : chosen (UInt32.ofInt (word2int (m.seg p).lr + 1)) m.holes = some k := hn ▸ hk
      cases h.symm.trans found

omit [LawfulTree T] in
theorem exec_refused {m u : VM T} {p : ℕ} {a : ℤ} {text : List UInt8} {left : Stream}
    (k : Ticked m u p .EX a) (frames : Frames m.store.pager) (file : named m p = some text)
    (mark : scanToken 7 ⟨text, false⟩ = (some brain10, left)) (h : Harmless m u p) :
    Refused m p := by
  obtain ⟨valid, inner, room, x, s, g, t, fetch, same, n, size, pos,
    ⟨refused, final⟩ | ⟨granted, code, ws, -, -, -, final⟩⟩ := tick_exec k frames file mark
  · refine ⟨inner, room, text, n, file, ?_, pos, refused, ?_⟩
    · rw [fileSize, mark]
      exact congrArg some size
    · have holes : u.holes = (memalloc n m.holes).2 := by
        rw [final]
        rfl
      exact holes.symm.trans h.holes
  · have regs : u.regs p = resetRegs (advance (m.regs p)) := by
      rw [final]
      refine (loaded_regs p n ws _).trans ?_
      rw [opens_regs, fetched_regs]
    exact absurd (congrArg Regs.ic (h.regs.symm.trans regs)) (advance_inner valid inner)

omit [LawfulTree T] in
/-- EX closes the file that it has opened, unless its size is refused. -/
theorem exec_opened {m u : VM T} {p : ℕ} {a : ℤ} {text : List UInt8} {left : Stream}
    (k : Ticked m u p .EX a) (frames : Frames m.store.pager) (file : named m p = some text)
    (mark : scanToken 7 ⟨text, false⟩ = (some brain10, left)) : u.host.opened =
      if (memalloc (loadHeader left).1 m.holes).1 < 0 then m.host.opened + 1
      else m.host.opened := by
  obtain ⟨-, -, -, x, s, g, t, -, -, n, rfl, -, ⟨refused, final⟩ | ⟨granted, code, ws, final⟩⟩ :=
    tick_exec k frames file mark
  · rw [if_pos refused, final]
    rfl
  · rw [if_neg (not_lt.2 granted), final.2.2.2]
    exact congrArg (fun h : Host => h.opened - 1) (resized_host p _ (opens (fetched p g m)))

/-- A call for which something is missing is harmless exactly when it is an EX that is refused
its block. -/
theorem survives_iff (e : Execution T) (n : ℕ) (op : Op) (a : ℤ) (hn : n ≤ e.len)
    (busy : 0 < (e.vm n).sched.nrRunning) (turn : (e.st n).i < schedGranularity)
    (hp : pending (e.vm n) = some (op, a))
    (missing : Missing (e.vm n) (e.vm n).sched.current op) :
    Survives (e.st n) op a ↔ op = .EX ∧ Refused (e.vm n) (e.vm n).sched.current := by
  have lt := (execution_sane e n hn).current busy
  have own := execution_own e n hn _ lt
  have frames := execution_frames e n hn
  constructor
  · rintro ⟨u, step, harmless⟩
    obtain ⟨-, ⟨op', a', lab, -, -, k⟩ | ⟨lab, -⟩⟩ := next_cases step
    · obtain ⟨-, rfl, rfl⟩ := Label.instr.inj lab
      cases missing with
      | pid h => exact (fork_fails k (.pid h)).elim
      | room h => exact (fork_fails k (.room h)).elim
      | block text size file headed h =>
        obtain ⟨left, mark⟩ := headed.mark
        exact ⟨rfl, exec_refused k frames file mark harmless⟩
    · cases lab
  · rintro ⟨rfl, refused⟩
    cases missing with
    | block text size file headed h =>
      refine exec_survives busy turn lt own frames hp (fun text' file' => ?_) refused
      obtain rfl := Option.some.inj (file.symm.trans file')
      exact headed.mark

def oneWordText : List UInt8 := bytes "BRAIN10\n1\nHA00\nDATA\n"

def fullExecRun : Execution ListTree :=
  execution 100 halfWeight (hostOf oneWordText) (bytes "BRAIN10\n10000\nEXAA\nDATA\n") 0
    (by decide +kernel) (by decide +kernel)

theorem fullExecRun_survives : Survives (fullExecRun.st 0) .EX (-1) := by
  have headed : Headed oneWordText 1 := by
    have text : oneWordText = brain10 ++ ([] ++ 10 :: bytes "1\nHA00\nDATA\n") := by decide
    rw [text]
    exact .mk [] _ 1 List.not_mem_nil (by decide) (by decide)
  apply (survives_iff fullExecRun 0 .EX (-1) le_rfl (by decide +kernel) (by decide +kernel)
    (by decide +kernel) (.block _ 1 (by decide +kernel) headed (by decide +kernel))).2
  exact ⟨rfl, by decide +kernel, by decide +kernel, oneWordText, 1, by decide +kernel, by decide,
    by decide, by decide +kernel, by decide +kernel⟩

def leakRun : Execution ListTree :=
  execution 100 halfWeight { hostOf oneWordText with limit := 1 }
    (bytes "BRAIN10\n10000\nEXAA\nBU00\nDATA\n") 2 (by decide +kernel) (by decide +kernel)

-- the second EX is the end of the machine
example : (next (leakRun.st 2)).isNone := by decide +kernel

def fullForkRun : Execution ListTree :=
  execution 100 halfWeight bareHost (bytes "BRAIN10\n10000\nFK00\nDATA\n") 0
    (by decide +kernel) (by decide +kernel)

/-- No hole is left, and the FK is the end of the machine. -/
theorem fullForkRun_dies : pending (fullForkRun.vm 0) = some (.FK, 0) ∧
    Missing (fullForkRun.vm 0) (fullForkRun.vm 0).sched.current .FK ∧
    ¬Survives (fullForkRun.st 0) .FK 0 := by
  refine ⟨by decide +kernel, .room (by decide +kernel), ?_⟩
  rintro ⟨u, step, -⟩
  have dead : (next (fullForkRun.st 0)).isNone := by decide +kernel
  rw [step] at dead
  cases dead

end
end BrainMachine.FailedCalls
