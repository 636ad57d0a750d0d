import BrainMachine.BootedPrograms
import BrainMachine.ProcessLogic

set_option autoImplicit false

namespace BrainMachine.StackSum
open Codec Stdio Paging AddressSpace Instructions RunQueue Machine Loader Dispatch Effects Runs
open MachineRuns
open SortedTree References MachineMemory ReferenceBalance ProcessImages TickSteps LocalRuns
open ProgramText LoaderFormat ProgramLogic ProcessLogic BootedPrograms

def sumProgram (n : ℕ) : Program :=
  ⟨100, [bytes "BU05", bytes "0001", wordBytes (int2word n), bytes "0050", bytes "0000",
    bytes "LR03", bytes "SP00", bytes "LR02", bytes "BU09",
    bytes "PH00", bytes "CE01", bytes "BT14", bytes "SU01", bytes "BU09",
    bytes "PP00", bytes "AD04", bytes "SR04", bytes "PS00", bytes "CE03", bytes "BT21",
    bytes "BU14", bytes "HA00"]⟩

def sumCode : ℕ → Op × ℕ
  | 0 => (.BU, 5)
  | 5 => (.LR, 3) | 6 => (.SP, 0) | 7 => (.LR, 2) | 8 => (.BU, 9)
  | 9 => (.PH, 0) | 10 => (.CE, 1) | 11 => (.BT, 14) | 12 => (.SU, 1) | 13 => (.BU, 9)
  | 14 => (.PP, 0) | 15 => (.AD, 4) | 16 => (.SR, 4) | 17 => (.PS, 0) | 18 => (.CE, 3)
  | 19 => (.BT, 21) | 20 => (.BU, 14)
  | _ => (.HA, 0)

theorem sumCode_decodes (n i : ℕ) (h : i = 0 ∨ 5 ≤ i ∧ i < 22) :
    decode (opcode (codeWord (sumProgram n) i).b0 (codeWord (sumProgram n) i).b1) =
      some (sumCode i).1 ∧ operand (codeWord (sumProgram n) i) = (sumCode i).2 := by
  have closed : ∀ i : Fin 22, i.val = 0 ∨ 5 ≤ i.val →
      decode (opcode (codeWord (sumProgram 0) i).b0 (codeWord (sumProgram 0) i).b1) =
        some (sumCode i).1 ∧ operand (codeWord (sumProgram 0) i) = (sumCode i).2 := by
    decide +kernel
  have same : codeWord (sumProgram n) i = codeWord (sumProgram 0) i := by
    rcases h with rfl | ⟨low, high⟩
    · rfl
    · interval_cases i <;> rfl
  rw [same]
  exact closed ⟨i, by omega⟩ (by rcases h with h | h <;> simp [h])

theorem word2int_small {m : ℕ} (h : m < 10000) : word2int (int2word m) = m := by
  rw [word2int_int2word, Nat.mod_eq_of_lt h]

structure Early (n i : ℕ) (r : Word) (c : Image) : Prop where
  code : ∀ a < 22, c.words a = codeWord (sumProgram n) a
  limit : c.limit = 99
  counter : c.regs.ic = counterAt i
  r : c.regs.r = r

/-- `m` is in the register, `k` numbers from `n` down are on the stack, and the sum is `t`. -/
structure Here (n i m k t : ℕ) (c : Image) : Prop where
  code : ∀ a < 22, a ≠ 4 → c.words a = codeWord (sumProgram n) a
  limit : c.limit = 99
  counter : c.regs.ic = counterAt i
  r : c.regs.r = int2word m
  base : c.regs.stackBase = 50
  sp : c.regs.sp = int2word (50 + k : ℕ)
  sum : c.words 4 = int2word t
  stack : ∀ j < k, c.words (51 + j) = int2word (n - j : ℕ)

section
variable {n i m k t a : ℕ} {op : Op} {w : Word} {c : Image}

theorem next_instruction (code : ∀ a < 22, a ≠ 4 → c.words a = codeWord (sumProgram n) a)
    (limit : c.limit = 99) (counter : c.regs.ic = counterAt i) (h : i = 0 ∨ 5 ≤ i ∧ i < 22)
    (here : sumCode i = (op, a)) : Next i op a c := by
  have word : c.words i = codeWord (sumProgram n) i := code i (by omega) (by omega)
  obtain ⟨decoded, operand⟩ := sumCode_decodes n i h
  rw [← word, here] at decoded operand
  exact ⟨counter, by omega, by omega, decoded, operand⟩

theorem Early.next (h : Early n i w c) (hi : i = 0 ∨ 5 ≤ i ∧ i < 22)
    (here : sumCode i = (op, a)) : Next i op a c :=
  next_instruction (fun a ha _ => h.code a ha) h.limit h.counter hi here

theorem Here.next (h : Here n i m k t c) (hi : 5 ≤ i ∧ i < 22) (here : sumCode i = (op, a)) :
    Next i op a c := next_instruction h.code h.limit h.counter (.inr hi) here

theorem Here.inside (h : Here n i m k t c) {a : ℕ} (ha : a ≤ 99) : (a : ℤ) ≤ c.limit := by
  rw [h.limit]
  omega

theorem Early.inside (h : Early n i w c) {a : ℕ} (ha : a ≤ 99) : (a : ℤ) ≤ c.limit := by
  rw [h.limit]
  omega

end

section
variable {n m k t : ℕ} {c : Image}

theorem Here.pointer {i : ℕ} (h : Here n i m k t c) (hk : k ≤ 49) :
    word2int c.regs.sp = (50 + k : ℕ) := by
  rw [h.sp, word2int_small (by omega)]

end

section
variable {T : Type} [RedBlackTree T] [LawfulTree T]

end

end BrainMachine.StackSum
