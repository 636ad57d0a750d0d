import BrainMachine.ReferenceBalance
import BrainMachine.Rendezvous
import BrainMachine.TickSteps

set_option autoImplicit false

namespace BrainMachine.Forking
open Codec Computations Paging AddressSpace Transparency Instructions HoleList RunQueue Machine
open Dispatch Effects Runs MachineRuns SortedTree WaitQueues Isolation References Footprints
open MachineMemory MemoryRelations ReferenceBalance Rendezvous ProcessImages TickSteps

def cell (p : Seg) (c : ℕ) : ℕ := (getGlobalAddress p c).toNat

theorem dupMem_copies {p q : Seg} {s₀ : Pager} {held : List (ℕ × ℕ)} {s u : Store}
    (foot : Footing (fun _ => True) s₀ held s.pager) (slack : Slack 8 s₀)
    (len : held.length ≤ 4) (k : dupMem p q s = .ok (0, u)) :
    u.pager.view = copyCells (cell p) (cell q) s.pager.view
      (min (word2int p.lr + 1) (word2int q.lr + 1)).toNat ∧
    ∀ c < (min (word2int p.lr + 1) (word2int q.lr + 1)).toNat,
      0 ≤ getGlobalAddress p c ∧ 0 ≤ getGlobalAddress q c :=
  (dupMem_run foot slack len (fun _ _ => trivial) k).2

section
variable {T : Type} [RedBlackTree T]

def childSeg (m : VM T) (p : ℕ) : Seg :=
  ⟨int2word (memalloc (word2int (m.seg p).lr + 1) m.holes).1,
    int2word (word2int (m.seg p).lr), m.nextPid⟩

/-- The registers of parent and child after FK, and the copy of the words between them. -/
structure Forked (m u : VM T) (p : ℕ) : Prop where
  parent : u.regs p = { m.regs p with r := int2word m.nextPid }
  child : u.regs m.nextPid = { m.regs p with r := int2word (m.seg p).pid, sp := zeros }
  seg : u.seg m.nextPid = childSeg m p
  copied : ∃ t, dupMem (m.seg p) (childSeg m p) m.store = .ok (0, t) ∧ u.store = t

theorem forkProc_forked {p : ℕ} {a : ℤ} {m u : VM T} (hp : p < m.nextPid)
    (h : forkProc p a m = .ok (0, u)) : Forked m u p := by
  rw [forkProc, get_bind] at h
  rcases ite_ok.1 h with ⟨-, h⟩ | ⟨-, h⟩
  · cases (Prod.mk.inj (pure_ok.1 h)).1
  · obtain ⟨q, w, hw, h⟩ := bind_ok.1 h
    rcases procalloc_ok hw with ⟨rfl, -⟩ | ⟨rfl, -, -, rfl⟩
    · simp only [modify_bind] at h
      exact (fault_ok.1 h).elim
    · simp only [modify_bind, get_bind] at h
      obtain ⟨r, t, ht, h⟩ := onMemory_bind h
      rcases ite_ok.1 h with ⟨-, h⟩ | ⟨hr, h⟩
      · cases (Prod.mk.inj (pure_ok.1 h)).1
      · obtain rfl := not_not.1 hr
        obtain ⟨c, s, -, h⟩ := onSched_bind h
        obtain ⟨d, t', -, h⟩ := onSched_bind h
        obtain ⟨-, rfl⟩ := Prod.mk.inj (pure_ok.1 h)
        have hne : m.nextPid ≠ p := by omega
        refine ⟨?_, ?_, ?_, t, ?_, rfl⟩
        · simp [VM.regs, VM.setProc, hne.symm]
        · simp [VM.regs, VM.setProc, hne]
        · simp [VM.seg, VM.setProc, hne, childSeg]
        · have segs : childSeg m p = ⟨int2word (memalloc (word2int (m.seg p).lr + 1) m.holes).1,
              int2word (word2int (m.seg p).lr + 1 - 1), m.nextPid⟩ := by
            rw [childSeg, Int.add_sub_cancel]
          rw [segs]
          simpa [VM.seg, VM.setProc, hne, hne.symm] using ht

structure ForkTick (m u : VM T) (p : ℕ) : Prop where
  parent : u.regs p = { advance (m.regs p) with r := int2word m.nextPid }
  child : u.regs m.nextPid = { advance (m.regs p) with r := int2word p, sp := zeros }
  seg : u.seg m.nextPid = childSeg m p
  limit : (childSeg m p).lr = (m.seg p).lr
  view : u.store.pager.view = copyCells (cell (m.seg p)) (cell (childSeg m p))
    m.store.pager.view (word2int (m.seg p).lr + 1).toNat
  valid : ∀ c < (word2int (m.seg p).lr + 1).toNat,
    0 ≤ getGlobalAddress (m.seg p) c ∧ 0 ≤ getGlobalAddress (childSeg m p) c

theorem fork_tick {m u : VM T} {p : ℕ} {a : ℤ} (k : Ticked m u p .FK a)
    (frames : Frames m.store.pager) (slack : Slack 8 m.store.pager) : ForkTick m u p := by
  obtain ⟨v, x, s, t, parts⟩ := tick_parts k
  have forked : Forked (fetched p s.pager m) v p := forkProc_forked (a := a) k.lt parts.run
  have before : s.pager.view = m.store.pager.view :=
    funext (touchPageBy_touched getRemovalPage_victims frames (getWordref_touch parts.fetch).2).view
  have after : u.store.pager.view = v.store.pager.view := by
    rw [parts.final]
    exact (releaseWordref_sameView parts.release :)
  have child : childSeg (fetched p s.pager m) p = childSeg m p := by
    rw [childSeg, fetched_seg]
    rfl
  have limit : (childSeg m p).lr = (m.seg p).lr := by
    obtain ⟨h0, hl⟩ := tick_counter k
    exact int2word_word2int (h0.trans hl)
  obtain ⟨y, hy, hv⟩ := forked.copied
  rw [fetched_seg, child] at hy
  have foot : Footing (fun _ => True) m.store.pager _ (fetched p s.pager m).store.pager :=
    (parts.fetched_image frames slack).2.2
  obtain ⟨view, valid⟩ := dupMem_copies foot slack (by simp) hy
  rw [limit, min_self] at view valid
  refine ⟨?_, ?_, ?_, limit, ?_, valid⟩
  · rw [parts.final]
    refine forked.parent.trans ?_
    rw [fetched_regs]
    rfl
  · rw [parts.final]
    refine forked.child.trans ?_
    rw [fetched_regs, fetched_seg, k.own]
  · rw [parts.final]
    exact forked.seg.trans child
  · rw [after, hv, view]
    exact congrArg (fun f => copyCells _ _ f _) before

def keeper (e : Execution T) (n p s : ℕ) : Prop := s = p ∨ live e n s

def owned (e : Execution T) (n p v : ℕ) : Prop :=
  ∃ s, keeper e n p s ∧ Reach ((e.vm n).seg s) v

structure Cloned (e : Execution T) (n p : ℕ) : Prop where
  parent : (e.vm (n + 1)).regs p =
    { advance ((e.vm n).regs p) with r := int2word (e.vm n).nextPid }
  child : (e.vm (n + 1)).regs (e.vm n).nextPid =
    { (e.vm (n + 1)).regs p with r := int2word p }
  place : (e.vm (n + 1)).seg p = (e.vm n).seg p ∧
    ((e.vm (n + 1)).seg (e.vm n).nextPid).lr = ((e.vm n).seg p).lr ∧
    ((e.vm (n + 1)).seg (e.vm n).nextPid).pid = (e.vm n).nextPid
  copied : ∀ a, 0 ≤ a → a ≤ word2int ((e.vm n).seg p).lr →
    word (e.vm (n + 1)) (e.vm n).nextPid a = word (e.vm n) p a
  kept : ∀ s a, keeper e n p s → 0 ≤ getGlobalAddress ((e.vm n).seg s) a →
    word (e.vm (n + 1)) s a = word (e.vm n) s a
  runnable : ∃ c d t, schedReset (e.vm n).nextPid (account (e.vm n).sched) = .ok (c, t) ∧
    schedResume (e.vm n).nextPid t = .ok (d, (e.vm (n + 1)).sched) ∧
    (e.vm n).nextPid ∈ (e.vm (n + 1)).sched.running

/-- The stack pointer of `p` is that of a fresh process, and where the block of the child lies
over words of a live process, these are already the words to be copied there. -/
structure Clonable (e : Execution T) (n p : ℕ) : Prop where
  sp : ((e.vm n).regs p).sp = zeros
  block : ∀ a, 0 ≤ a → a ≤ word2int ((e.vm n).seg p).lr → ∀ s b, keeper e n p s →
    getGlobalAddress ((e.vm n).seg s) b = getGlobalAddress (childSeg (e.vm n) p) a →
      word (e.vm n) s b = word (e.vm n) p a

variable [LawfulTree T]

theorem fork_runnable (e : Execution T) {n p : ℕ} {a : ℤ} (hn : n < e.len)
    (k : Ticked (e.vm n) (e.vm (n + 1)) p .FK a) :
    ∃ c d t, schedReset (e.vm n).nextPid (account (e.vm n).sched) = .ok (c, t) ∧
      schedResume (e.vm n).nextPid t = .ok (d, (e.vm (n + 1)).sched) ∧
      (e.vm n).nextPid ∈ (e.vm (n + 1)).sched.running := by
  have sane := (execution_sane e n hn.le).account
  cases k.effect with
  | quiet op a k hsd hrc hfk => exact absurd rfl hfk
  | fork a c d l t hl pos room granted nextPid holes files child seg regs reset resume shift =>
    obtain ⟨-, counted, -, -⟩ := schedReset_running reset
    have hundred : procs = 100 := rfl
    exact ⟨c, d, t, reset, resume,
      (schedResume_mem (counted sane.served.1) (by exact room) resume _).2 (.inl rfl)⟩

theorem cell_eq {p : Seg} {c : ℕ} (h : 0 ≤ getGlobalAddress p c) :
    (cell p c : ℤ) = getGlobalAddress p c := Int.toNat_of_nonneg h

/-- A successful FK makes a clone exactly when its parent and its block are clonable. -/
theorem cloned_iff (e : Execution T) (n p : ℕ) (a : ℤ) (hn : n < e.len)
    (lab : e.lab n = .instr p .FK a) (slack : Slack 8 (e.vm n).store.pager) :
    Cloned e n p ↔ Clonable e n p := by
  obtain ⟨-, -, k⟩ := e.ticked hn lab
  have frames := execution_frames e n hn.le
  obtain ⟨parent, child, seg, limit, view, valid⟩ := fork_tick k frames slack
  have place : (e.vm (n + 1)).seg p = (e.vm n).seg p := (seg_effect k.effect k.lt (by decide) :)
  have segs (s : ℕ) (hs : keeper e n p s) : (e.vm (n + 1)).seg s = (e.vm n).seg s := by
    by_cases hp : s = p
    · rw [hp, place]
    · exact ((other_effect k.effect hp (hs.resolve_left hp).1).1 :)
  obtain ⟨h0, hl⟩ := tick_counter k
  -- an address of the process as an index of the copying loop
  have index (b : ℤ) (hb : 0 ≤ b) (hb' : b ≤ word2int ((e.vm n).seg p).lr) : ∃ c : ℕ, b = c ∧
      c < (word2int ((e.vm n).seg p).lr + 1).toNat := ⟨b.toNat, by omega, by omega⟩
  have sources : ∀ c < (word2int ((e.vm n).seg p).lr + 1).toNat,
      owned e n p (cell ((e.vm n).seg p) c) :=
    fun c hc => ⟨p, .inl rfl, c, (cell_eq (valid c hc).1).symm⟩
  have distinct : ∀ c < (word2int ((e.vm n).seg p).lr + 1).toNat,
      ∀ d < (word2int ((e.vm n).seg p).lr + 1).toNat,
        cell (childSeg (e.vm n) p) c = cell (childSeg (e.vm n) p) d → c = d := by
    intro c hc d hd he
    have := getGlobalAddress_inj (a := c) (b := d) (valid c hc).2
      (by rw [← cell_eq (valid c hc).2, ← cell_eq (valid d hd).2, he])
    omega
  have cells := copyCells_iff _ (f := (e.vm n).store.pager.view) sources distinct
  rw [← view] at cells
  constructor
  · intro cloned
    constructor
    · have same := congrArg Regs.sp (child.symm.trans cloned.child)
      rw [parent] at same
      exact same.symm
    · intro b hb hb' s d hs hd
      obtain ⟨c, rfl, hc⟩ := index b hb hb'
      have target := cloned.copied c hb hb'
      have source := cloned.kept s d hs (by rw [hd]; exact (valid c hc).2)
      rw [← source, ← target, word, word, segs s hs, seg, hd]
  · intro clonable
    have overlap : ∀ c < (word2int ((e.vm n).seg p).lr + 1).toNat,
        owned e n p (cell (childSeg (e.vm n) p) c) →
          (e.vm n).store.pager.view (cell (childSeg (e.vm n) p) c) =
            (e.vm n).store.pager.view (cell ((e.vm n).seg p) c) := by
      rintro c hc ⟨s, hs, d, hd⟩
      rw [cell_eq (valid c hc).2] at hd
      have same := clonable.block c (Int.natCast_nonneg c) (by omega) s d hs hd
      rw [word, word, hd] at same
      exact same
    obtain ⟨kept, copied⟩ := cells.2 overlap
    refine ⟨parent, ?_, ⟨place, ?_, ?_⟩, ?_, ?_, fork_runnable e hn k⟩
    · rw [child, parent, ← clonable.sp]
      rfl
    · rw [seg, limit]
    · rw [seg, childSeg]
    · intro b hb hb'
      obtain ⟨c, rfl, hc⟩ := index b hb hb'
      rw [word, word, seg]
      exact copied c hc
    · intro s d hs hd
      rw [word, word, segs s hs]
      exact kept _ ⟨s, hs, d, (Int.toNat_of_nonneg hd).symm⟩

theorem forkRun_slack : Slack 8 (forkRun.vm 0).store.pager := by
  apply (released forkRun (fun j hj => ?_) 0 (Nat.zero_le _)).slack
  obtain rfl : j = 0 := Nat.lt_one_iff.1 hj
  rw [show forkRun.lab 0 = .instr 0 .FK 0 by decide +kernel]
  trivial

theorem forkRun_cloned : Cloned forkRun 0 0 := by
  apply (cloned_iff forkRun 0 0 0 (by decide) (by decide +kernel) forkRun_slack).2
  refine ⟨by decide +kernel, fun a h0 hl s b hs hd => ?_⟩
  have pids : (forkRun.vm 0).nextPid = 1 := by decide +kernel
  have s0 : s = 0 := by
    rcases hs with hs | hs
    · exact hs
    · have := hs.1
      omega
  subst s0
  have child : childSeg (forkRun.vm 0) 0 = ⟨⟨48, 48, 48, 51⟩, ⟨48, 48, 48, 50⟩, 1⟩ := by
    decide +kernel
  have parent : (forkRun.vm 0).seg 0 = ⟨⟨48, 48, 48, 48⟩, ⟨48, 48, 48, 50⟩, 0⟩ := by
    decide +kernel
  have base : word2int ⟨48, 48, 48, 51⟩ = 3 := by decide
  have limit : word2int ⟨48, 48, 48, 50⟩ = 2 := by decide
  have zero : word2int ⟨48, 48, 48, 48⟩ = 0 := by decide
  have above : getGlobalAddress (childSeg (forkRun.vm 0) 0) a = 3 + a := by
    rw [parent, limit] at hl
    rw [child, address_of_range (by decide) h0 (by rw [limit]; exact hl), base]
  have below := address_range (p := (forkRun.vm 0).seg 0) (a := b) (by omega)
  rw [parent, zero, limit, ← parent] at below
  omega

def stackRun : Execution ListTree :=
  execution 100 halfWeight bareHost
    (bytes "BRAIN10\n4\nLR03\nSP00\nFK00\n0002\nDATA\n") 3 (by decide +kernel) (by decide +kernel)

theorem stackRun_isolated : Isolated stackRun 2 := by
  have pids : (stackRun.vm 2).nextPid = 1 := by decide +kernel
  have seg : (stackRun.vm 2).seg 0 = ⟨⟨48, 48, 48, 48⟩, ⟨48, 48, 48, 51⟩, 0⟩ := by decide +kernel
  have limit : word2int ⟨48, 48, 48, 51⟩ = 3 := by decide
  have zero : word2int ⟨48, 48, 48, 48⟩ = 0 := by decide
  have only (p : ℕ) (hp : live stackRun 2 p) : p = 0 := by
    have := hp.1
    omega
  have size : (vaddrSize : ℤ) = 10000 := rfl
  constructor
  · intro p hp _
    rw [only p hp, seg]
    decide
  · intro p q hp hq hne
    exact absurd ((only p hp).trans (only q hq).symm) hne
  · intro p a hp ha
    have range := address_range ha
    rw [only p hp, seg, zero, limit, ← seg] at range
    rw [only p hp] at ha ⊢
    refine ⟨by omega, fun q b hq hne => absurd (only q hq) hne⟩

/-- The stack pointer of the child is 0000 and that of its parent 0002. -/
theorem stackRun_not_cloned : stackRun.lab 2 = .instr 0 .FK 0 ∧ Isolated stackRun 2 ∧
    ¬Cloned stackRun 2 0 := by
  refine ⟨by decide +kernel, stackRun_isolated, fun cloned => ?_⟩
  have same := congrArg Regs.sp cloned.child
  revert same
  decide +kernel

end
end BrainMachine.Forking
