import BrainMachine.MachineMemory
import BrainMachine.ProcessImages

set_option autoImplicit false

/-!
# The frame of a tick

Before the instruction of a tick runs, the word at the counter is referenced and the counter
incremented; after it, the reference is released. Apart from the pager and the number of
operations, this is all that a tick does around its instruction.
-/
namespace BrainMachine.TickSteps
open Codec Computations Paging AddressSpace Instructions Machine Loader Dispatch Effects
open RunQueue MachineMemory References ProcessImages

def advance (g : Regs) : Regs :=
  { g with ic := lowHalf (int2word (word2int (icWord g.ic) + 1)) }

def retreat (g : Regs) : Regs :=
  { g with ic := lowHalf (int2word (word2int (icWord g.ic) - 1)) }

def operand (w : Word) : ℤ := word2int ⟨48, 48, w.b2, w.b3⟩

theorem icWord_lt (ic : UInt8 × UInt8) : word2int (icWord ic) < 100 := by
  have skip : word2int (icWord ic) = word2intFrom 0 [ic.1, ic.2] := rfl
  rw [skip]
  rcases word2intFrom_bounds [ic.1, ic.2] 0 le_rfl with h | ⟨-, h⟩
  · omega
  · exact h

/-- A counter that reads as a number is the low half of that number. -/
theorem ic_eq {ic : UInt8 × UInt8} (h : 0 ≤ word2int (icWord ic)) :
    lowHalf (int2word (word2int (icWord ic))) = ic := by
  rw [int2word_word2int h]
  rfl

/-- Up to address 98 the counter comes back, and from 99 it is invalid. -/
theorem back_again (c : Fin 100) :
    lowHalf (int2word (word2int (icWord (lowHalf (int2word (c.val + 1)))) - 1)) =
      if c.val = 99 then (48, 47) else lowHalf (int2word c.val) := by
  revert c
  decide +kernel

theorem retreat_advance {g : Regs} (h : 0 ≤ word2int (icWord g.ic)) :
    retreat (advance g) = if word2int (icWord g.ic) = 99 then { g with ic := (48, 47) } else g := by
  obtain ⟨c, hc⟩ := Int.eq_ofNat_of_zero_le h
  have lt := icWord_lt g.ic
  have back := back_again ⟨c, by omega⟩
  rw [retreat, advance, hc]
  dsimp only at back ⊢
  rw [back]
  by_cases last : c = 99
  · rw [if_pos last, if_pos (by omega)]
  · rw [if_neg last, if_neg (by omega), ← hc, ic_eq h]

/-- Setting the counter back is not the same as going on, also where it wraps. -/
theorem retreat_ne {g : Regs} (h : 0 ≤ word2int (icWord g.ic)) :
    (retreat (advance g)).ic ≠ (advance g).ic := by
  have apart : ∀ c : Fin 100, (if c.val = 99 then (48, 47) else lowHalf (int2word c.val)) ≠
      lowHalf (int2word (c.val + 1)) := by decide +kernel
  obtain ⟨c, hc⟩ := Int.eq_ofNat_of_zero_le h
  have lt := icWord_lt g.ic
  have differ := apart ⟨c, by omega⟩
  rw [← back_again] at differ
  rw [retreat, advance, hc]
  exact differ

section
variable {T : Type}

def fetched (p : ℕ) (g : Pager) (m : VM T) : VM T :=
  ({ m with sched := account m.sched } : VM T).setCore p
    ⟨advance (m.regs p), { m.store with pager := g }⟩

def settled (g : Pager) (m : VM T) : VM T :=
  { m with store := { m.store with pager := g, ops := m.store.ops + 1 } }

def picture (m : VM T) (p : ℕ) : Image := image (m.seg p) (m.core p)

@[simp]
theorem setCore_regs (p : ℕ) (c : Core) (m : VM T) : (m.setCore p c).regs p = c.regs := by
  simp [VM.regs, VM.setCore, VM.setProc]

@[simp]
theorem fetched_regs (p : ℕ) (g : Pager) (m : VM T) :
    (fetched p g m).regs p = advance (m.regs p) := setCore_regs p _ _

theorem fetched_regs_other {p q : ℕ} (h : q ≠ p) (g : Pager) (m : VM T) :
    (fetched p g m).regs q = m.regs q := by
  simp [fetched, VM.regs, VM.setCore, VM.setProc, h]

@[simp]
theorem setCore_seg (p q : ℕ) (c : Core) (m : VM T) : (m.setCore p c).seg q = m.seg q := by
  by_cases h : q = p <;> simp [VM.seg, VM.setCore, VM.setProc, h]

@[simp]
theorem fetched_seg (p q : ℕ) (g : Pager) (m : VM T) : (fetched p g m).seg q = m.seg q :=
  setCore_seg p q _ _

theorem retry_eq {p : ℕ} {m u : VM T} (h : onCore p retryOp m = .ok (0, u)) :
    u = m.setCore p ⟨retreat (m.regs p), m.store⟩ := by
  obtain ⟨c, hc, rfl⟩ := zoom_ok.1 h
  rw [retryOp, get_bind] at hc
  rcases ite_ok.1 hc with ⟨-, hc⟩ | ⟨-, hc⟩
  · cases (Prod.mk.inj (pure_ok.1 hc)).1
  · obtain ⟨_, d, hd, hc⟩ := bind_ok.1 hc
    obtain ⟨-, rfl⟩ := Prod.mk.inj (pure_ok.1 hc)
    rw [setRegs_ok hd]
    rfl

theorem word_picture {m : VM T} {p : ℕ} {a : ℤ} (numeric : 0 ≤ word2int (m.seg p).br)
    (h0 : 0 ≤ a) (hl : a ≤ word2int (m.seg p).lr) :
    word m p a = (picture m p).words a.toNat := by
  have inside : (a.toNat : ℤ) ≤ word2int (m.seg p).lr := by omega
  have nat : (getGlobalAddress (m.seg p) a).toNat = (word2int (m.seg p).br).toNat + a.toNat := by
    rw [address_of_range numeric h0 hl]
    omega
  simp only [word, nat, picture, image, inside, if_true]
  rfl

theorem fetch_eq {p : ℕ} {f : Fetched} {m u : VM T}
    (k : fetch p { m with sched := account m.sched } = .ok (some f, u)) : ∃ x s,
      getWordref (m.seg p) (counter m p) m.store = .ok (some x, s) ∧
      f = ⟨counter m p, opcode (s.pager.mem x).b0 (s.pager.mem x).b1, operand (s.pager.mem x)⟩ ∧
      u = fetched p s.pager m := by
  obtain ⟨x, s, hs, same, rfl⟩ := fetch_run k
  have rest : s = { m.store with pager := s.pager } := getWordref_rest hs
  refine ⟨x, s, hs, same, ?_⟩
  rw [fetched, ← rest]
  rfl

variable [RedBlackTree T]

/-- The parts of a tick that returned 0: the store `s` after the fetch, with its word at `x`,
the machine `v` after the instruction, and the store `t` after the release. -/
structure Parts (m u v : VM T) (p : ℕ) (op : Op) (a : ℤ) (x : ℕ) (s t : Store) : Prop where
  fetch : getWordref (m.seg p) (counter m p) m.store = .ok (some x, s)
  decoded : decode (opcode (s.pager.mem x).b0 (s.pager.mem x).b1) = some op
  operand : operand (s.pager.mem x) = a
  run : op.run p a (fetched p s.pager m) = .ok (0, v)
  release : releaseWordref (v.seg p) (counter m p) v.store = .ok ((), t)
  final : u = settled t.pager v

theorem tick_parts {m u : VM T} {p : ℕ} {op : Op} {a : ℤ} (k : Ticked m u p op a) :
    ∃ v x s t, Parts m u v p op a x s t := by
  obtain ⟨f, w, v, hf, hop, ha, run, y, hy, rfl⟩ := k.parts
  obtain ⟨x, s, fetch, rfl, rfl⟩ := fetch_eq hf
  obtain ⟨t, release, rfl⟩ := onMemory_ok hy
  refine ⟨v, x, s, t, fetch, hop, ha, run, release, ?_⟩
  rw [releaseWordref_rest release]
  rfl

theorem tick_counter {m u : VM T} {p : ℕ} {op : Op} {a : ℤ} (k : Ticked m u p op a) :
    0 ≤ counter m p ∧ counter m p ≤ word2int (m.seg p).lr := by
  obtain ⟨v, x, s, t, parts⟩ := tick_parts k
  obtain ⟨-, h0, hl, -⟩ := address_range (getWordref_touch parts.fetch).1
  exact ⟨h0, hl⟩

/-- The fetch references the word at the counter, and shows the machine as it was. -/
theorem Parts.fetched_image {m u v : VM T} {p : ℕ} {op : Op} {a : ℤ} {x : ℕ} {s t : Store}
    (h : Parts m u v p op a x s t) (frames : Frames m.store.pager)
    (slack : Slack 8 m.store.pager) :
    (picture m p).get (counter m p) = some (s.pager.mem x) ∧
      image (m.seg p) ⟨advance (m.regs p), { m.store with pager := s.pager }⟩ =
        (picture m p).setRegs advance ∧
      Footing (fun _ => True) m.store.pager
        [((getGlobalAddress (m.seg p) (counter m p)).toNat, x)] s.pager := by
  obtain ⟨word, same, -, foot⟩ := getWordref_image (p := m.seg p) (c := m.core p)
    (Footing.start _ frames) slack (Nat.zero_le _) h.fetch
  have rest : s = { m.store with pager := s.pager } := getWordref_rest h.fetch
  refine ⟨word, ?_, foot⟩
  rw [← rest, picture, ← same]
  rfl

theorem tick_decodes {m u : VM T} {p : ℕ} {op : Op} {a : ℤ} (k : Ticked m u p op a)
    (frames : Frames m.store.pager) (slack : Slack 8 m.store.pager) :
    ∃ w, (picture m p).get (counter m p) = some w ∧ decode (opcode w.b0 w.b1) = some op ∧
      operand w = a := by
  obtain ⟨v, x, s, t, parts⟩ := tick_parts k
  exact ⟨_, (parts.fetched_image frames slack).1, parts.decoded, parts.operand⟩

theorem tick_numeric {m u : VM T} {p : ℕ} {op : Op} {a : ℤ} (k : Ticked m u p op a) :
    0 ≤ word2int (m.seg p).br := by
  obtain ⟨v, x, s, t, parts⟩ := tick_parts k
  exact (address_range (getWordref_touch parts.fetch).1).1

theorem tick_word {m u : VM T} {p : ℕ} {op : Op} {a : ℤ} (k : Ticked m u p op a)
    (frames : Frames m.store.pager) (slack : Slack 8 m.store.pager) :
    decode (opcode (word m p (counter m p)).b0 (word m p (counter m p)).b1) = some op ∧
      operand (word m p (counter m p)) = a := by
  obtain ⟨w, hw, decoded, rfl⟩ := tick_decodes k frames slack
  obtain ⟨h0, hl⟩ := tick_counter k
  have same : (picture m p).get (counter m p) = some ((picture m p).words (counter m p).toNat) :=
    if_pos ⟨h0, hl⟩
  rw [same] at hw
  rw [word_picture (tick_numeric k) h0 hl, Option.some.inj hw]
  exact ⟨decoded, rfl⟩

/-- A tick with an instruction on one process steps the image of the process. -/
theorem tick_image {m u : VM T} {p : ℕ} {op : Op} {a : ℤ} {i : Instruction}
    (k : Ticked m u p op a) (h : op.instruction = some i) (frames : Frames m.store.pager)
    (slack : Slack 8 m.store.pager) :
    step op (m.seg p).pid a ((picture m p).setRegs advance) = some (picture u p) := by
  obtain ⟨v, x, s, t, parts⟩ := tick_parts k
  obtain ⟨-, start, foot⟩ := parts.fetched_image frames slack
  have run := parts.run
  rw [run_instr h, instr, get_bind, fetched_seg] at run
  obtain ⟨c, hc, hv⟩ := zoom_ok.1 run
  change v = (fetched p s.pager m).setCore p c at hv
  obtain ⟨done, -⟩ := instruction_refines h a m.store.pager _ _ c slack (by simp) foot hc
  have core : (fetched p s.pager m).core p =
      ⟨advance (m.regs p), { m.store with pager := s.pager }⟩ := by
    rw [VM.core, fetched_regs]
    rfl
  rw [core, start] at done
  have seg : v.seg p = m.seg p := by
    rw [hv, setCore_seg, fetched_seg]
  have regs : v.regs p = c.regs := by
    rw [hv, setCore_regs]
  have store : v.store = c.store := by
    rw [hv]
    rfl
  have view := releaseWordref_sameView parts.release
  rw [done, parts.final]
  change some (image (m.seg p) c) = some (image (v.seg p) ⟨v.regs p, (settled t.pager v).store⟩)
  rw [seg, regs]
  simp only [image, settled, view, store]

end
end BrainMachine.TickSteps
