import BrainMachine.ReferenceBalance
import BrainMachine.Rendezvous
import BrainMachine.TickSteps

set_option autoImplicit false

/-!
# Local computation

The image of a process without the shared tables and the input is what its plain instructions
work on. A tick of the process steps this image, and the ticks of others leave it alone, so that
it depends on the number of its own ticks only.
-/
namespace BrainMachine.LocalRuns
open Codec Computations Paging Stdio AddressSpace Transparency Instructions RunQueue Machine
open Dispatch Effects Runs MachineRuns SortedTree WaitQueues Isolation References MachineMemory
open ReferenceBalance ProcessImages TickSteps

def plainOp : Op → Bool
  | .LR | .LL | .LH | .SR | .SP | .PS | .PH | .PP | .CE | .CL | .BT | .BU | .PD | .AD | .SU
  | .MI | .DI | .AS | .SS | .MS | .DS | .NP => true
  | _ => false

def alone (out : List UInt8) (c : Image) : Image :=
  { c with semTable := fun _ => 0, shm := fun _ => zeros, stdin := ⟨[], false⟩, stdout := out }

theorem alone_ext {c d : Image} (regs : c.regs = d.regs) (limit : c.limit = d.limit)
    (words : c.words = d.words) (out : List UInt8) : alone out c = alone out d := by
  simp only [alone, regs, limit, words]

def Plain (f : Image → Option Image) : Prop := ∀ c d, f c = some d →
  ∃ o, d.stdout = c.stdout ++ o ∧ ∀ out, f (alone out c) = some (alone (out ++ o) d)

theorem plain_silent {f : Image → Option Image} (silent : ∀ c d, f c = some d →
    d.stdout = c.stdout ∧ ∀ out, f (alone out c) = some (alone out d)) : Plain f := by
  intro c d h
  obtain ⟨same, own⟩ := silent c d h
  refine ⟨[], by rw [same, List.append_nil], fun out => ?_⟩
  rw [List.append_nil]
  exact own out

theorem plain_regs (f : Regs → Regs) : Plain fun c => some (c.setRegs f) := by
  apply plain_silent
  intro c d h
  obtain rfl := Option.some.inj h
  exact ⟨rfl, fun out => rfl⟩

theorem plain_load (f : Word → Regs → Regs) (a : ℤ) : Plain (load f a) := by
  apply plain_silent
  intro c d h
  obtain ⟨w, hw, rfl⟩ := Option.map_eq_some_iff.1 h
  refine ⟨rfl, fun out => ?_⟩
  have same : (alone out c).get a = some w := hw
  rw [load, same]
  rfl

theorem set_alone {c d : Image} {a : ℤ} {w : Word} (h : c.set a w = some d) :
    d.stdout = c.stdout ∧ ∀ out, (alone out c).set a w = some (alone out d) := by
  rw [Image.set] at h
  split at h
  · rename_i range
    obtain rfl := Option.some.inj h
    refine ⟨rfl, fun out => ?_⟩
    rw [Image.set]
    exact if_pos range
  · cases h

theorem plain_store (a : ℤ) : Plain fun c => c.set a c.regs.r := by
  apply plain_silent
  intro c d h
  exact set_alone h

theorem plain_registerOp (op : Char) (a : ℤ) : Plain (registerOp op a) := by
  apply plain_silent
  intro c d h
  obtain ⟨w, hw, h⟩ := Option.bind_eq_some_iff.1 h
  have same (out : List UInt8) : (alone out c).get a = some w := hw
  split at h
  · cases h
  · rename_i res
    obtain rfl := Option.some.inj h
    refine ⟨rfl, fun out => ?_⟩
    rw [registerOp, same out]
    exact if_neg res

theorem plain_push : Plain pushWord := by
  apply plain_silent
  intro c d h
  rw [pushWord] at h
  split at h
  · cases h
  · rename_i valid
    obtain ⟨same, own⟩ := set_alone h
    refine ⟨same, fun out => ?_⟩
    rw [pushWord]
    exact (if_neg valid).trans (own out)

theorem plain_pop : Plain popWord := by
  apply plain_silent
  intro c d h
  rw [popWord] at h
  split at h
  · rename_i low
    obtain rfl := Option.some.inj h
    refine ⟨rfl, fun out => ?_⟩
    rw [popWord]
    exact if_pos low
  · rename_i low
    obtain ⟨w, hw, rfl⟩ := Option.map_eq_some_iff.1 h
    refine ⟨rfl, fun out => ?_⟩
    have same : (alone out c).get (word2int (alone out c).regs.sp) = some w := hw
    rw [popWord]
    refine (if_neg low).trans ?_
    rw [same]
    rfl

theorem plain_stackWords (op : Char) : Plain (stackWords op) := by
  apply plain_silent
  intro c d h
  rw [stackWords] at h
  split at h
  · cases h
  · rename_i low
    obtain ⟨top, ht, h⟩ := Option.bind_eq_some_iff.1 h
    obtain ⟨below, hb, h⟩ := Option.bind_eq_some_iff.1 h
    split at h
    · cases h
    · rename_i res
      obtain ⟨same, own⟩ := set_alone h
      refine ⟨same, fun out => ?_⟩
      have top' : (alone out c).get (word2int (alone out c).regs.sp) = some top := ht
      have below' : (alone out c).get (word2int (alone out c).regs.sp - 1) =
          some below := hb
      rw [stackWords_some (c := alone out c) low top' below', if_neg res]
      exact own out

theorem plain_printTurn (a : ℤ) (i : ℕ) : Plain (printTurn a i) := by
  intro c d h
  obtain ⟨w, hw, rfl⟩ := Option.map_eq_some_iff.1 h
  refine ⟨wordBytes w ++ [10], rfl, fun out => ?_⟩
  have same : (alone out c).get (a + i) = some w := hw
  rw [printTurn, same]
  rfl

theorem plain_turns {f : ℕ → Image → Option Image} (h : ∀ i, Plain (f i)) (n i : ℕ) :
    Plain (turns f n i) := by
  induction n generalizing i with
  | zero =>
    apply plain_silent
    intro c d hd
    obtain rfl := Option.some.inj hd
    exact ⟨rfl, fun out => rfl⟩
  | succ n ih =>
    intro c d hd
    obtain ⟨b, hb, hd⟩ := Option.bind_eq_some_iff.1 hd
    obtain ⟨o, first, own⟩ := h i c b hb
    obtain ⟨o', rest, own'⟩ := ih (i + 1) b d hd
    refine ⟨o ++ o', by rw [rest, first, List.append_assoc], fun out => ?_⟩
    rw [turns, own out, Option.bind_some, own' (out ++ o), List.append_assoc]

theorem plain_step {op : Op} (h : plainOp op = true) (pid : ℕ) (a : ℤ) :
    Plain (step op pid a) := by
  cases op <;> simp only [plainOp, Bool.false_eq_true] at h
  case LR => exact plain_load _ a
  case LL => exact plain_load _ a
  case LH => exact plain_load _ a
  case SR => exact plain_store a
  case SP => exact plain_regs _
  case PS => exact plain_regs _
  case PH => exact plain_push
  case PP => exact plain_pop
  case CE => exact plain_load _ a
  case CL => exact plain_load _ a
  case BT =>
    apply plain_silent
    intro c d h
    rw [step] at h
    obtain rfl := Option.some.inj h
    by_cases flag : c.regs.c = 84
    · rw [if_pos flag]
      refine ⟨rfl, fun out => ?_⟩
      exact congrArg some (if_pos flag)
    · rw [if_neg flag]
      refine ⟨rfl, fun out => ?_⟩
      exact congrArg some (if_neg flag)
  case BU => exact plain_regs _
  case PD => exact plain_turns (plain_printTurn a) 10 0
  case AD => exact plain_registerOp _ a
  case SU => exact plain_registerOp _ a
  case MI => exact plain_registerOp _ a
  case DI => exact plain_registerOp _ a
  case AS => exact plain_stackWords _
  case SS => exact plain_stackWords _
  case MS => exact plain_stackWords _
  case DS => exact plain_stackWords _
  case NP =>
    apply plain_silent
    intro c d h
    obtain rfl := Option.some.inj h
    exact ⟨rfl, fun out => rfl⟩

def turn (c : Image) : Option Image :=
  (c.get (word2int (icWord c.regs.ic))).bind fun w =>
    (decode (opcode w.b0 w.b1)).bind fun op => step op 0 (operand w) (c.setRegs advance)

def solo : ℕ → Image → Option Image
  | 0, c => some c
  | k + 1, c => (solo k c).bind turn

section
variable {T : Type} [RedBlackTree T]

theorem tick_turn {m u : VM T} {p : ℕ} {op : Op} {a : ℤ} (k : Ticked m u p op a)
    (h : plainOp op = true) (frames : Frames m.store.pager) (slack : Slack 8 m.store.pager)
    (out : List UInt8) : turn (alone out (picture m p)) =
      some (alone (out ++ u.store.stdout.drop m.store.stdout.length) (picture u p)) := by
  obtain ⟨w, word, decoded, rfl⟩ := tick_decodes k frames slack
  have single : ∃ i, op.instruction = some i := by
    cases op <;> first | exact ⟨_, rfl⟩ | cases h
  obtain ⟨i, hi⟩ := single
  obtain ⟨o, grown, own⟩ := plain_step h _ _ _ _ (tick_image k hi frames slack)
  have added : u.store.stdout.drop m.store.stdout.length = o := by
    rw [show u.store.stdout = m.store.stdout ++ o from grown, List.drop_left]
  have word' : (alone out (picture m p)).get
      (word2int (icWord (alone out (picture m p)).regs.ic)) = some w := word
  rw [turn, word', Option.bind_some, decoded, Option.bind_some, added]
  have pid : ∀ q, step op q (operand w) = step op 0 (operand w) := by
    intro q
    cases op <;> first | rfl | cases h
  rw [← pid (m.seg p).pid]
  exact own out

def ran (e : Execution T) (p i : ℕ) : Bool :=
  match e.lab i with
  | .instr q _ _ => decide (q = p)
  | .slice => false

def ticks (e : Execution T) (p n : ℕ) : ℕ := tallyFrom (ran e p) 0 n

def printed (e : Execution T) (p : ℕ) : ℕ → List UInt8
  | 0 => []
  | n + 1 => printed e p n ++
    if ran e p n then (e.vm (n + 1)).store.stdout.drop (e.vm n).store.stdout.length else []

/-- The loaded processes fit into secondary storage together, and there is no FK or EX. -/
structure Confined (e : Execution T) : Prop where
  fits : extent (e.vm 0) (e.vm 0).nextPid ≤ vaddrSize
  fixed : ∀ i < e.len, ∀ p op a, e.lab i = .instr p op a → op ≠ .FK ∧ op ≠ .EX

theorem Confined.segs {e : Execution T} (h : Confined e) (n : ℕ) (hn : n ≤ e.len) :
    (e.vm n).nextPid = (e.vm 0).nextPid ∧
      ∀ q < (e.vm 0).nextPid, (e.vm n).seg q = (e.vm 0).seg q := by
  refine e.toRun.invariant (fun n => (e.vm n).nextPid = (e.vm 0).nextPid ∧
    ∀ q < (e.vm 0).nextPid, (e.vm n).seg q = (e.vm 0).seg q) ⟨rfl, fun q _ => rfl⟩
    (fun i hi ih => ?_) n hn
  obtain ⟨next, segs⟩ := ih
  obtain ⟨-, ⟨p, op, a, lab, -, k⟩ | ⟨-, s, -, hm⟩⟩ := e.step hi
  · obtain ⟨fork, exec⟩ := h.fixed i hi p op a lab
    have pids : (e.vm (i + 1)).nextPid = (e.vm i).nextPid + if op = .FK then 1 else 0 :=
      (nextPid_effect k.effect :)
    rw [if_neg fork, Nat.add_zero] at pids
    refine ⟨pids.trans next, fun q hq => ?_⟩
    rw [← segs q hq]
    by_cases hp : q = p
    · subst hp
      exact (seg_effect k.effect k.lt exec :)
    · exact ((other_effect k.effect hp (next ▸ hq)).1 :)
  · rw [hm]
    exact ⟨next, segs⟩

theorem Confined.released {e : Execution T} (h : Confined e) (n : ℕ) (hn : n ≤ e.len) :
    Released (e.vm n) := by
  apply ReferenceBalance.released e _ n hn
  intro i hi
  cases lab : e.lab i with
  | slice => trivial
  | instr p op a =>
    have exec := (h.fixed i hi p op a lab).2
    cases op <;> trivial

theorem Confined.numeric {e : Execution T} (h : Confined e) {n q : ℕ} (hn : n ≤ e.len)
    (hq : q < (e.vm 0).nextPid) : 0 ≤ word2int ((e.vm n).seg q).br := by
  rw [(h.segs n hn).2 q hq]
  exact (arranged_start e h.fits).numeric q hq

theorem Confined.apart {e : Execution T} (h : Confined e) {n p q v : ℕ} (hn : n ≤ e.len)
    (hp : p < (e.vm 0).nextPid) (hq : q < (e.vm 0).nextPid) (hne : q ≠ p)
    (hv : Reach ((e.vm n).seg p) v) : ¬Reach ((e.vm n).seg q) v := by
  have isolated := (arranged_start e h.fits).isolated
  rw [(h.segs n hn).2 q hq]
  rw [(h.segs n hn).2 p hp] at hv
  exact Rendezvous.reach_apart isolated ⟨hp, not_halted_zero e p⟩ ⟨hq, not_halted_zero e q⟩ hne hv

omit [RedBlackTree T] in
/-- A machine that keeps the registers and the words of a process keeps its image. -/
theorem picture_same {m u : VM T} {q : ℕ} (seg : u.seg q = m.seg q) (regs : u.regs q = m.regs q)
    (numeric : 0 ≤ word2int (m.seg q).br) (view : ∀ v, Reach (m.seg q) v →
      u.store.pager.view v = m.store.pager.view v) (out : List UInt8) :
    alone out (picture u q) = alone out (picture m q) := by
  have words : (picture u q).words = (picture m q).words := by
    funext c
    simp only [picture, image, seg]
    by_cases inside : (c : ℤ) ≤ word2int (m.seg q).lr
    · rw [if_pos inside, if_pos inside]
      apply view
      refine ⟨c, ?_⟩
      rw [address_of_range numeric (Int.natCast_nonneg c) inside]
      omega
    · rw [if_neg inside, if_neg inside]
  apply alone_ext regs _ words
  rw [picture, picture, image, image, seg]

def own (e : Execution T) (p n : ℕ) : Image := alone (printed e p n) (picture (e.vm n) p)

theorem own_other {e : Execution T} (h : Confined e) {p n : ℕ} (hn : n < e.len)
    (hp : p < (e.vm 0).nextPid) (other : ran e p n = false) : own e p (n + 1) = own e p n := by
  have quiet : printed e p (n + 1) = printed e p n := by
    rw [printed, other]
    exact List.append_nil _
  rw [own, own, quiet]
  obtain ⟨-, ⟨q, op, a, lab, -, k⟩ | ⟨-, s, -, hm⟩⟩ := e.step hn
  · have hne : p ≠ q := by
      rintro rfl
      rw [ran, lab] at other
      exact absurd rfl (of_decide_eq_false other)
    obtain ⟨fork, exec⟩ := h.fixed n hn q op a lab
    have next := (h.segs n hn.le).1
    have next' := (h.segs (n + 1) hn).1
    have hq : q < (e.vm 0).nextPid := next ▸ k.lt
    obtain ⟨seg, regs⟩ : (e.vm (n + 1)).seg p = (e.vm n).seg p ∧
        (e.vm (n + 1)).regs p = (e.vm n).regs p := (other_effect k.effect hne (next ▸ hp) :)
    apply picture_same seg regs (h.numeric hn.le hp)
    intro v hv
    have released := h.released n hn.le
    apply (tick_paged k released.1 released.slack).view v
    rintro ⟨-, hw | hw | ⟨grown, -⟩⟩
    · exact h.apart hn.le hp hq hne.symm hv hw
    · rw [← seg] at hv
      exact h.apart hn hp hq hne.symm hv hw
    · omega
  · rw [hm]
    rfl

theorem own_turn {e : Execution T} (h : Confined e) {p n : ℕ} (hn : n < e.len)
    (mine : ran e p n = true)
    (plain : ∀ op a, e.lab n = .instr p op a → plainOp op = true) :
    turn (own e p n) = some (own e p (n + 1)) := by
  have grown : printed e p (n + 1) = printed e p n ++
      (e.vm (n + 1)).store.stdout.drop (e.vm n).store.stdout.length := by
    rw [printed, mine]
    rfl
  obtain ⟨-, ⟨q, op, a, lab, -, k⟩ | ⟨lab, s, -, hm⟩⟩ := e.step hn
  · rw [ran, lab] at mine
    obtain rfl := of_decide_eq_true mine
    have released := h.released n hn.le
    rw [own, own, grown]
    exact tick_turn k (plain op a lab) released.1 released.slack _
  · rw [ran, lab] at mine
    cases mine

theorem own_solo {e : Execution T} (h : Confined e) {p : ℕ} (hp : p < (e.vm 0).nextPid)
    (plain : ∀ i < e.len, ∀ op a, e.lab i = .instr p op a → plainOp op = true) (n : ℕ)
    (hn : n ≤ e.len) : solo (ticks e p n) (own e p 0) = some (own e p n) := by
  refine e.toRun.invariant (fun n => solo (ticks e p n) (own e p 0) = some (own e p n)) rfl
    (fun i hi ih => ?_) n hn
  have count : ticks e p (i + 1) = ticks e p i + if ran e p i then 1 else 0 :=
    tallyFrom_succ _ (Nat.zero_le i)
  cases mine : ran e p i with
  | true =>
    rw [mine] at count
    rw [count]
    change (solo (ticks e p i) (own e p 0)).bind turn = _
    rw [ih]
    exact own_turn h hi mine (plain i hi)
  | false =>
    rw [mine] at count
    rw [count, own_other h hi hp mine]
    exact ih

structure Alike (m : VM T) (p : ℕ) (u : VM T) (q : ℕ) : Prop where
  regs : m.regs p = u.regs q
  limit : (m.seg p).lr = (u.seg q).lr
  words : ∀ a, 0 ≤ a → a ≤ word2int (m.seg p).lr → word m p a = word u q a

def Nth (e : Execution T) (p k i : ℕ) : Prop :=
  i < e.len ∧ ran e p i = true ∧ ticks e p (i + 1) = k

omit [RedBlackTree T] in
theorem alone_alike {m u : VM T} {p q : ℕ} (hm : 0 ≤ word2int (m.seg p).br)
    (hu : 0 ≤ word2int (u.seg q).br) (h : Alike m p u q) (out : List UInt8) :
    alone out (picture m p) = alone out (picture u q) := by
  have words : (picture m p).words = (picture u q).words := by
    funext c
    by_cases inside : (c : ℤ) ≤ word2int (m.seg p).lr
    · have same := h.words c (Int.natCast_nonneg c) inside
      rw [word_picture hm (Int.natCast_nonneg c) inside,
        word_picture hu (Int.natCast_nonneg c) (h.limit ▸ inside)] at same
      exact same
    · simp only [picture, image, ← h.limit, inside, if_false]
  apply alone_ext h.regs _ words
  simp only [picture, image, h.limit]

/-- In two runs without FK and EX, a process that starts alike and executes plain instructions
is alike after each of its ticks, and has printed the same. -/
theorem local_computation (e f : Execution T) (p q : ℕ) (he : Confined e) (hf : Confined f)
    (hp : p < (e.vm 0).nextPid) (hq : q < (f.vm 0).nextPid)
    (start : Alike (e.vm 0) p (f.vm 0) q)
    (plain : ∀ i < e.len, ∀ op a, e.lab i = .instr p op a → plainOp op = true)
    (plain' : ∀ i < f.len, ∀ op a, f.lab i = .instr q op a → plainOp op = true) (k i j : ℕ)
    (hi : Nth e p k i) (hj : Nth f q k j) :
    Alike (e.vm (i + 1)) p (f.vm (j + 1)) q ∧ printed e p (i + 1) = printed f q (j + 1) := by
  have first : own e p 0 = own f q 0 :=
    alone_alike (he.numeric (Nat.zero_le _) hp) (hf.numeric (Nat.zero_le _) hq) start []
  have left := own_solo he hp plain (i + 1) hi.1
  have right := own_solo hf hq plain' (j + 1) hj.1
  rw [hi.2.2, first] at left
  rw [hj.2.2, left] at right
  have same : own e p (i + 1) = own f q (j + 1) := Option.some.inj right
  have limit : ((e.vm (i + 1)).seg p).lr = ((f.vm (j + 1)).seg q).lr := by
    rw [(he.segs (i + 1) hi.1).2 p hp, (hf.segs (j + 1) hj.1).2 q hq]
    exact start.limit
  refine ⟨⟨congrArg Image.regs same, limit, fun a h0 hl => ?_⟩, congrArg Image.stdout same⟩
  rw [word_picture (he.numeric hi.1 hp) h0 hl, word_picture (hf.numeric hj.1 hq) h0 (limit ▸ hl)]
  exact (congrArg (fun c : Image => c.words a.toNat) same :)

def quietRun : Execution ListTree :=
  execution 100 halfWeight bareHost (bytes "BRAIN10\n3\nLR02\nAD02\n0007\nDATA\n") 2
    (by decide +kernel) (by decide +kernel)

def crowdedRun : Execution ListTree :=
  execution 1 halfWeight bareHost
    (bytes "BRAIN10\n1\nHA00\nBRAIN10\n3\nLR02\nAD02\n0007\nDATA\n") 3
    (by decide +kernel) (by decide +kernel)

theorem runs_alike : Alike (quietRun.vm 2) 0 (crowdedRun.vm 3) 1 ∧
    printed quietRun 0 2 = printed crowdedRun 1 3 := by
  have quiet : ∀ i < 2, quietRun.lab i = .instr 0 .LR 2 ∨ quietRun.lab i = .instr 0 .AD 2 := by
    decide +kernel
  have crowded : ∀ i < 3, crowdedRun.lab i = .instr 0 .HA 0 ∨
      crowdedRun.lab i = .instr 1 .LR 2 ∨ crowdedRun.lab i = .instr 1 .AD 2 := by
    decide +kernel
  have start : Alike (quietRun.vm 0) 0 (crowdedRun.vm 0) 1 := by
    refine ⟨by decide +kernel, by decide +kernel, fun a h0 hl => ?_⟩
    have limit : word2int ((quietRun.vm 0).seg 0).lr = 2 := by decide +kernel
    rw [limit] at hl
    interval_cases a <;> decide +kernel
  apply local_computation quietRun crowdedRun 0 1 _ _ (by decide +kernel) (by decide +kernel) start
    _ _ 2 1 2 ⟨by decide, by decide +kernel, by decide +kernel⟩
    ⟨by decide, by decide +kernel, by decide +kernel⟩
  · refine ⟨by decide +kernel, fun i hi p op a lab => ?_⟩
    rcases quiet i hi with h | h <;> rw [h] at lab <;> cases lab <;> decide
  · refine ⟨by decide +kernel, fun i hi p op a lab => ?_⟩
    rcases crowded i hi with h | h | h <;> rw [h] at lab <;> cases lab <;> decide
  · intro i hi op a lab
    rcases quiet i hi with h | h <;> rw [h] at lab <;> cases lab <;> rfl
  · intro i hi op a lab
    rcases crowded i hi with h | h | h <;> rw [h] at lab <;> cases lab <;> rfl

end
end BrainMachine.LocalRuns
