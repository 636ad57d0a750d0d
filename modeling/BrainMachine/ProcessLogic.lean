import BrainMachine.LocalRuns
import BrainMachine.ProgramLogic

set_option autoImplicit false

namespace BrainMachine.ProcessLogic
open Codec Paging AddressSpace Instructions RunQueue Machine Dispatch Effects Runs MachineRuns
open Isolation SortedTree WaitQueues References MachineMemory ReferenceBalance ProcessImages
open TickSteps LocalRuns
open ProgramLogic

def lone (c : Image) : Option Image :=
  (c.get (word2int (icWord c.regs.ic))).bind fun w =>
    (decode (opcode w.b0 w.b1)).bind fun op =>
      if plainOp op then step op 0 (operand w) (c.setRegs advance) else none

theorem lone_parts {c d : Image} (h : lone c = some d) : ∃ w op,
    c.get (word2int (icWord c.regs.ic)) = some w ∧ decode (opcode w.b0 w.b1) = some op ∧
      plainOp op = true ∧ step op 0 (operand w) (c.setRegs advance) = some d := by
  obtain ⟨w, hw, h⟩ := Option.bind_eq_some_iff.1 h
  obtain ⟨op, hop, h⟩ := Option.bind_eq_some_iff.1 h
  split at h
  · rename_i plain
    exact ⟨w, op, hw, hop, plain, h⟩
  · cases h

theorem lone_turn {c d : Image} (h : lone c = some d) : turn c = some d := by
  obtain ⟨w, op, hw, hop, -, done⟩ := lone_parts h
  rw [turn, hw, Option.bind_some, hop, Option.bind_some, done]

def counterAt (i : ℕ) : UInt8 × UInt8 := lowHalf (int2word i)

theorem word2int_counterAt {i : ℕ} (h : i < 100) : word2int (icWord (counterAt i)) = i := by
  have all : ∀ i : Fin 100, word2int (icWord (counterAt i)) = i.val := by decide +kernel
  exact all ⟨i, h⟩

structure Next (i : ℕ) (op : Op) (a : ℤ) (c : Image) : Prop where
  counter : c.regs.ic = counterAt i
  small : i < 100
  inside : (i : ℤ) ≤ c.limit
  decoded : decode (opcode (c.words i).b0 (c.words i).b1) = some op
  operand : operand (c.words i) = a

def goto (i : ℕ) (c : Image) : Image := c.setRegs fun g => { g with ic := counterAt i }

section
variable {c : Image} {a i : ℕ}

theorem get_at (h : (a : ℤ) ≤ c.limit) : c.get a = some (c.words a) :=
  if_pos ⟨Int.natCast_nonneg a, h⟩

theorem lone_next {op : Op} {x : ℤ} (h : Next i op x c) (plain : plainOp op = true) :
    lone c = step op 0 x (goto (i + 1) c) := by
  have counter : word2int (icWord c.regs.ic) = i := by
    rw [h.counter, word2int_counterAt h.small]
  have next : c.setRegs advance = goto (i + 1) c := by
    simp only [Image.setRegs, goto, advance, counter, counterAt, Nat.cast_succ]
  rw [lone, counter, get_at h.inside, Option.bind_some, h.decoded, Option.bind_some, if_pos plain,
    h.operand, next]

theorem lone_jump (h : Next i .BU a c) : lone c = some (goto a c) := lone_next h rfl

end

section
variable {T : Type} [RedBlackTree T] {e : Execution T} {p n : ℕ}

theorem own_plain (h : Confined e) (hn : n < e.len) {d : Image} (go : lone (own e p n) = some d)
    (op : Op) (a : ℤ) (lab : e.lab n = .instr p op a) : plainOp op = true := by
  obtain ⟨-, -, k⟩ := e.ticked hn lab
  have released := h.released n hn.le
  obtain ⟨w, hw, decoded, -⟩ := tick_decodes k released.1 released.slack
  obtain ⟨w', op', hw', decoded', plain, -⟩ := lone_parts go
  obtain rfl := Option.some.inj (hw.symm.trans hw')
  obtain rfl := Option.some.inj (decoded.symm.trans decoded')
  exact plain

theorem own_lone (h : Confined e) (hn : n < e.len) (mine : ran e p n = true) {d : Image}
    (go : lone (own e p n) = some d) : own e p (n + 1) = d := by
  have turned := own_turn h hn mine (own_plain h hn go)
  rw [lone_turn go] at turned
  exact (Option.some.inj turned).symm

def ticksFrom (e : Execution T) (p b n : ℕ) : ℕ := tallyFrom (ran e p) b n

theorem own_iterate (h : Confined e) (hp : p < (e.vm 0).nextPid) {b N : ℕ} {d : Image}
    (go : iterate lone N (own e p b) = some d) (hb : b ≤ n) (hn : n ≤ e.len)
    (few : ticksFrom e p b n ≤ N) :
    iterate lone (ticksFrom e p b n) (own e p b) = some (own e p n) := by
  induction n, hb using Nat.le_induction with
  | base =>
    rw [ticksFrom, tallyFrom_self]
    rfl
  | succ n hb ih =>
    have count : ticksFrom e p b (n + 1) = ticksFrom e p b n + if ran e p n then 1 else 0 :=
      tallyFrom_succ _ hb
    cases mine : ran e p n with
    | true =>
      rw [mine, if_pos rfl] at count
      rw [count] at few ⊢
      have here := ih (by omega) (by omega)
      obtain ⟨c, hc⟩ := iterate_below go few
      have next : lone (own e p n) = some c := by
        rw [iterate, here, Option.bind_some] at hc
        exact hc
      rw [hc, own_lone h hn mine next]
    | false =>
      rw [mine, if_neg Bool.false_ne_true, Nat.add_zero] at count
      rw [count] at few ⊢
      rw [own_other h hn hp mine]
      exact ih (by omega) few

theorem own_leads {N b : ℕ} {P Q : Image → Prop} (triple : Leads lone N P Q) (h : Confined e)
    (hp : p < (e.vm 0).nextPid) (hb : b ≤ n) (hn : n ≤ e.len) (start : P (own e p b))
    (count : ticksFrom e p b n = N) : Q (own e p n) := by
  obtain ⟨d, go, last⟩ := triple _ start
  have here := own_iterate h hp go hb hn (by omega)
  rw [count, go] at here
  rwa [← Option.some.inj here]

/-- A triple holds of a process from wherever its precondition holds: its ticks are those that the
triple speaks of, and after the last of them, with any number of ticks of others in between, the
postcondition holds. -/
theorem triple_sound {N : ℕ} {P Q : Image → Prop} (triple : Leads lone N P Q) (e : Execution T)
    (h : Confined e) (p : ℕ) (hp : p < (e.vm 0).nextPid) (b n : ℕ) (hb : b ≤ n) (hn : n ≤ e.len)
    (start : P (own e p b)) :
    (∀ op a, n < e.len → ticksFrom e p b n < N → e.lab n = .instr p op a → plainOp op = true) ∧
      (ticksFrom e p b n = N → Q (own e p n)) := by
  refine ⟨fun op a hn' few lab => ?_, own_leads triple h hp hb hn start⟩
  obtain ⟨d, go, -⟩ := triple _ start
  have here := own_iterate h hp go hb hn few.le
  obtain ⟨c, hc⟩ := iterate_below go few
  rw [iterate, here, Option.bind_some] at hc
  exact own_plain h hn' hc op a lab

def keepsBlocks : Label → Bool
  | .instr _ op _ => decide (op ≠ .FK ∧ op ≠ .EX)
  | .slice => true

theorem confined_of (fits : extent (e.vm 0) (e.vm 0).nextPid ≤ vaddrSize)
    (keeps : ∀ i < e.len, keepsBlocks (e.lab i) = true) : Confined e := by
  refine ⟨fits, fun i hi p op a lab => ?_⟩
  have here := keeps i hi
  rw [lab] at here
  exact of_decide_eq_true here

end

def spinRun : Execution ListTree :=
  execution 1 halfWeight bareHost (bytes "BRAIN10\n1\nBU00\nBRAIN10\n1\nBU00\nDATA\n") 50
    (by decide +kernel) (by decide +kernel)

theorem spin_leads : Leads lone 2 (Next 0 .BU 0) (Next 0 .BU 0) := by
  have turn : Leads lone 1 (Next 0 .BU 0) (Next 0 .BU 0) :=
    .one fun c h => ⟨_, lone_jump (a := 0) h, rfl, h.small, h.inside, h.decoded, h.operand⟩
  exact Leads.loop (I := fun _ => Next 0 .BU 0) (fun _ => turn) 2

theorem spinRun_start : Next 0 .BU 0 (own spinRun 1 0) :=
  ⟨by decide +kernel, by decide, by decide +kernel, by decide +kernel, by decide +kernel⟩

theorem spinRun_jumps : plainOp .BU = true ∧ Next 0 .BU 0 (own spinRun 1 23) := by
  have sound := triple_sound spin_leads spinRun
    (confined_of (by decide +kernel) (by decide +kernel)) 1 (by decide +kernel) 0
  constructor
  · exact (sound 22 (by decide) (by decide) spinRun_start).1 .BU 0 (by decide) (by decide +kernel)
      (by decide +kernel)
  · exact (sound 23 (by decide) (by decide) spinRun_start).2 (by decide +kernel)

end BrainMachine.ProcessLogic
