import BrainMachine.LoaderFormat

set_option autoImplicit false

namespace BrainMachine.BootedPrograms
open Codec Computations Paging Stdio AddressSpace Instructions HoleList RunQueue Machine Loader
open Dispatch Effects MachineRuns MachineMemory ProgramText ProgramReading SortedTree LoaderFormat

def listing (p : Program) (digits : List UInt8) : List UInt8 :=
  brain10 ++ ([] ++ 10 :: ([] ++ (digits ++ ([] ++ 10 :: p.code.flatMap fun tok => tok ++ [10]))))

theorem listing_lines {toks : List (List UInt8)} (h : ∀ tok ∈ toks, Token tok) :
    Lines (toks.flatMap fun tok => tok ++ [10]) toks := by
  induction toks with
  | nil => exact .done
  | cons tok toks ih =>
    have remark : Remark [] := ⟨List.not_mem_nil, fun c hc => nomatch hc⟩
    have rest := ih fun t ht => h t (List.mem_cons_of_mem tok ht)
    have line := Lines.code [] tok [] _ toks .nil List.not_mem_nil (h tok List.mem_cons_self)
      remark rest
    rw [List.flatMap_cons, List.append_assoc]
    exact line

theorem listing_block {p : Program} {digits : List UInt8} (some : digits ≠ [])
    (numeric : ∀ c ∈ digits, isdigit c = true) (value : decimal digits = p.size)
    (pos : 1 ≤ p.size) (tokens : ∀ tok ∈ p.code, Token tok) (fits : p.code.length ≤ p.size) :
    Block (listing p digits) p := by
  have inline : Inline [] := List.not_mem_nil
  exact .mk _ _ _ inline (.mk [] digits [] _ p .nil inline some numeric value pos .nil inline
    (listing_lines tokens) fits)

section
variable {T : Type} [RedBlackTree T]

variable [LawfulTree T]

theorem boot_ready {pgSize : ℕ} {average : UInt32 → UInt32 → UInt32}
    {host : Host} {text tail : List UInt8} {ps : List Program}
    {m : VM T} (format : Programs text ps) (few : ps.length ≤ procs) (fits : total ps ≤ vaddrSize)
    (h : boot pgSize average host (text ++ tail) = some m) : ∃ pager u,
      Ready (startState pager host) ps u ∧
        m = { u with store := { u.store with stdin := ⟨tail, false⟩ } } := by
  rw [boot] at h
  split at h
  · cases h
  · rename_i pager accepted
    obtain ⟨u, run, ready⟩ := loadFile_ready (T := T) accepted host tail format few fits
    rw [run] at h
    exact ⟨pager, u, ready, (Option.some.inj h).symm⟩

theorem boot_stdin {pgSize : ℕ} {average : UInt32 → UInt32 → UInt32}
    {host : Host} {text tail : List UInt8} {ps : List Program}
    {m : VM T} (format : Programs text ps) (few : ps.length ≤ procs) (fits : total ps ≤ vaddrSize)
    (h : boot pgSize average host (text ++ tail) = some m) : m.store.stdin = ⟨tail, false⟩ := by
  obtain ⟨pager, u, -, rfl⟩ := boot_ready format few fits h
  rfl

end
end BrainMachine.BootedPrograms
