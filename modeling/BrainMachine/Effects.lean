import BrainMachine.Dispatch
import BrainMachine.RunQueueSteps

set_option autoImplicit false

namespace BrainMachine.Effects
open Codec Computations Paging Stdio AddressSpace Instructions HoleList RunQueue Machine Loader
open Dispatch

section
variable {T : Type}

/-- The run queue, the wait queues and the open files apart, only registers of `p` and shared
memory differ. -/
structure Frame (p : ℕ) (m u : VM T) : Prop where
  nextPid : u.nextPid = m.nextPid
  holes : u.holes = m.holes
  files : u.host.files = m.host.files
  seg : ∀ q, u.seg q = m.seg q
  regs : ∀ q, q ≠ p → u.regs q = m.regs q

structure Local (p : ℕ) (m u : VM T) : Prop extends Frame p m u where
  sched : u.sched = m.sched
  recvWq : u.recvWq = m.recvWq
  sendWq : u.sendWq = m.sendWq
  semWq : u.semWq = m.semWq

theorem Frame.refl (p : ℕ) (m : VM T) : Frame p m m :=
  ⟨rfl, rfl, rfl, fun _ => rfl, fun _ _ => rfl⟩

theorem Frame.trans {p : ℕ} {m u w : VM T} (h : Frame p m u) (k : Frame p u w) : Frame p m w :=
  ⟨k.nextPid.trans h.nextPid, k.holes.trans h.holes, k.files.trans h.files,
    fun q => (k.seg q).trans (h.seg q), fun q hq => (k.regs q hq).trans (h.regs q hq)⟩

theorem Local.refl (p : ℕ) (m : VM T) : Local p m m := ⟨.refl p m, rfl, rfl, rfl, rfl⟩

theorem Local.trans {p : ℕ} {m u w : VM T} (h : Local p m u) (k : Local p u w) : Local p m w :=
  ⟨h.toFrame.trans k.toFrame, k.sched.trans h.sched, k.recvWq.trans h.recvWq,
    k.sendWq.trans h.sendWq, k.semWq.trans h.semWq⟩

theorem setCore_local (p : ℕ) (c : Core) (m : VM T) : Local p m (m.setCore p c) := by
  refine ⟨⟨rfl, rfl, rfl, fun q => ?_, fun q hq => ?_⟩, rfl, rfl, rfl, rfl⟩
  · by_cases hq : q = p <;> simp [VM.seg, VM.setCore, VM.setProc, hq]
  · simp [VM.regs, VM.setCore, VM.setProc, hq]

theorem onCore_local {α : Type} {p : ℕ} {x : Exec Core α} {m u : VM T} {a : α}
    (h : onCore p x m = .ok (a, u)) : Local p m u := by
  obtain ⟨c, -, rfl⟩ := zoom_ok.1 h
  exact setCore_local p c m

theorem onMemory_local {α : Type} (p : ℕ) {x : Exec Store α} {m u : VM T} {a : α}
    (h : onMemory x m = .ok (a, u)) : Local p m u := by
  obtain ⟨t, -, rfl⟩ := zoom_ok.1 h
  exact ⟨⟨rfl, rfl, rfl, fun _ => rfl, fun _ _ => rfl⟩, rfl, rfl, rfl, rfl⟩

theorem instr_local {i : Instruction} {p : ℕ} {addr r : ℤ} {m u : VM T}
    (h : instr i p addr m = .ok (r, u)) : Local p m u := by
  simp only [instr, get_bind] at h
  exact onCore_local h

instance (p : ℕ) : IsPreorder (VM T) (Local p) where
  refl := .refl p
  trans _ _ _ := .trans

theorem memory_local {α : Type} (p : ℕ) (x : Exec Store α) :
    Respects (Local p) (onMemory x : Exec (VM T) α) := fun _ _ _ => onMemory_local p

theorem core_local {α : Type} (p : ℕ) (x : Exec Core α) :
    Respects (Local p) (onCore p x : Exec (VM T) α) := fun _ _ _ => onCore_local

theorem fetch_local {p : ℕ} {f : Option Fetched} {m u : VM T} (h : fetch p m = .ok (f, u)) :
    Local p m u := by
  have steps : Respects (Local p) (fetch p : Exec (VM T) (Option Fetched)) := by
    refine Respects.get.bind fun _ => .ite (.pure _) ((memory_local p _).bind fun a => ?_)
    cases a with
    | none => exact .pure _
    | some a => exact (core_local p _).bind fun _ => (memory_local p _).bind fun _ => .pure _
  exact steps m u f h

theorem host_local (p : ℕ) (m : VM T) {h : Host} (files : h.files = m.host.files) :
    Local p m { m with host := h } :=
  ⟨⟨rfl, rfl, files, fun _ => rfl, fun _ _ => rfl⟩, rfl, rfl, rfl, rfl⟩

theorem fopen_files (h : Host) (fname : UInt8 × UInt8) : (h.fopen fname).2.files = h.files := by
  unfold Host.fopen
  split
  · rfl
  · split <;> rfl

theorem getExecFh_local {p : ℕ} {f : Option Stream} {m u : VM T}
    (h : getExecFh p m = .ok (f, u)) : Local p m u := by
  have steps : Respects (Local p) (getExecFh p : Exec (VM T) (Option Stream)) := by
    refine Respects.get.bind fun _ => .ite (.pure _) ((memory_local p _).bind fun a => ?_)
    cases a with
    | none => exact .pure _
    | some a =>
      refine (memory_local p _).bind fun w => (memory_local p _).bind fun _ => ?_
      intro v u f h
      obtain ⟨-, rfl⟩ := Prod.mk.inj (pure_ok.1 h)
      exact host_local p v (fopen_files _ _)
  exact steps m u f h

def stored (f : ℕ → Word) (m : VM T) : VM T :=
  { m with store := { m.store with pager := { m.store.pager with pageMem := f } } }

theorem pageStore_stored {p : Seg} {w : Word} {addr r : ℤ} {m u : VM T}
    (h : onMemory (pageStore p w addr) m = .ok (r, u)) : ∃ f, u = stored f m := by
  obtain ⟨t, ht, rfl⟩ := zoom_ok.1 h
  rcases ite_ok.1 ht with ⟨-, ht⟩ | ⟨-, ht⟩
  · obtain ⟨-, rfl⟩ := Prod.mk.inj (pure_ok.1 ht)
    exact ⟨m.store.pager.pageMem, rfl⟩
  · rcases ite_ok.1 ht with ⟨-, ht⟩ | ⟨-, ht⟩
    · obtain ⟨a, x, hx, ht⟩ := bind_ok.1 ht
      obtain ⟨y, hy, rfl⟩ := zoom_ok.1 hx
      obtain ⟨-, rfl⟩ := Prod.mk.inj (modify_ok.1 hy)
      obtain ⟨-, rfl⟩ := Prod.mk.inj (pure_ok.1 ht)
      exact ⟨_, rfl⟩
    · exact (fault_ok.1 ht).elim

theorem loadCodeLoop_stored {p : ℕ} (n : ℕ) {buf : List UInt8} {addr : ℕ} {fh : Stream}
    {r : ℤ × Stream} {m u : VM T} (h : loadCodeLoop p n buf addr fh m = .ok (r, u)) :
    ∃ f, u = stored f m := by
  have same : ∃ f, m = stored f m := ⟨m.store.pager.pageMem, rfl⟩
  induction n generalizing buf addr fh m with
  | zero => exact (fault_ok.1 h).elim
  | succ n ih =>
    rw [loadCodeLoop] at h
    rcases hs : scanToken 7 fh with ⟨_ | tok, fh'⟩
    · simp only [hs] at h
      obtain ⟨-, rfl⟩ := Prod.mk.inj (pure_ok.1 h)
      exact same
    · simp only [hs] at h
      cases hl : skipLine fh'.rest with
      | none =>
        simp only [hl] at h
        exact (fault_ok.1 h).elim
      | some rest =>
        simp only [hl] at h
        rcases ite_ok.1 h with ⟨-, h⟩ | ⟨-, h⟩
        · obtain ⟨-, rfl⟩ := Prod.mk.inj (pure_ok.1 h)
          exact same
        · rcases ite_ok.1 h with ⟨-, h⟩ | ⟨-, h⟩
          · obtain ⟨-, rfl⟩ := Prod.mk.inj (pure_ok.1 h)
            exact same
          · rw [get_bind, bind_ok] at h
            obtain ⟨a, w, hw, h⟩ := h
            obtain ⟨f, rfl⟩ := pageStore_stored hw
            rcases ite_ok.1 h with ⟨-, h⟩ | ⟨-, h⟩
            · obtain ⟨-, rfl⟩ := Prod.mk.inj (pure_ok.1 h)
              exact ⟨f, rfl⟩
            · obtain ⟨g, rfl⟩ := ih h ⟨f, rfl⟩
              exact ⟨g, rfl⟩

def entered (m : VM T) : VM T := { m with host := m.host.enter }

theorem entered_local (p : ℕ) (m : VM T) : Local p m (entered m) := host_local p m rfl

theorem loadCode_eq (fh : Stream) (p : ℕ) (m : VM T) : loadCode fh p m =
    loadCodeLoop p (fh.rest.length + 1) m.host.buffer 0 fh (entered m) := by
  rw [loadCode, get_bind, modify_bind]
  rfl

theorem loadCode_stored {p : ℕ} {fh : Stream} {r : ℤ × Stream} {m u : VM T}
    (h : loadCode fh p m = .ok (r, u)) : ∃ f, u = stored f (entered m) := by
  rw [loadCode_eq] at h
  exact loadCodeLoop_stored _ h

theorem stored_local (p : ℕ) (f : ℕ → Word) (m : VM T) : Local p m (stored f m) :=
  ⟨⟨rfl, rfl, rfl, fun _ => rfl, fun _ _ => rfl⟩, rfl, rfl, rfl, rfl⟩

theorem procalloc_ok {n : ℤ} {m u : VM T} {q : Option ℕ} (h : procalloc n m = .ok (q, u)) :
    (q = none ∧ u.sched = m.sched) ∨
    (q = some m.nextPid ∧ m.nextPid ≤ 99 ∧ 0 ≤ (memalloc n m.holes).1 ∧
      u = { m.setProc m.nextPid (fun _ =>
        { r := zeros, sp := zeros, ic := (48, 48), c := 70, stackBase := 0
          br := int2word (memalloc n m.holes).1, lr := int2word (n - 1), pid := m.nextPid }) with
        holes := (memalloc n m.holes).2, nextPid := m.nextPid + 1 }) := by
  simp only [procalloc, get_bind] at h
  rcases ite_ok.1 h with ⟨-, h⟩ | ⟨hp, h⟩
  · obtain ⟨rfl, rfl⟩ := Prod.mk.inj (pure_ok.1 h)
    exact .inl ⟨rfl, rfl⟩
  · simp only [modify_bind] at h
    rcases ite_ok.1 h with ⟨-, h⟩ | ⟨hb, h⟩
    · obtain ⟨rfl, rfl⟩ := Prod.mk.inj (pure_ok.1 h)
      exact .inl ⟨rfl, rfl⟩
    · simp only [modify_bind] at h
      obtain ⟨rfl, rfl⟩ := Prod.mk.inj (pure_ok.1 h)
      have : procs = 100 := rfl
      exact .inr ⟨rfl, by omega, by omega, rfl⟩

def resized (p : ℕ) (n : ℤ) (m : VM T) : VM T :=
  (({ m with holes := (memalloc n m.holes).2 } : VM T).freeSpace (m.seg p)).setProc p
    fun q => { q with br := int2word (memalloc n m.holes).1, lr := int2word (n - 1) }

theorem freeSpace_eq (m : VM T) (q : Seg) :
    m.freeSpace q = { m with holes := (m.freeSpace q).holes } := by
  unfold VM.freeSpace
  split <;> rfl

theorem freeSpace_holes (m : VM T) (q : Seg) : (m.freeSpace q).holes =
    if word2int q.br < 0 ∨ word2int q.lr < 0 then m.holes
    else freemem (word2int q.br) (word2int q.lr + 1) m.holes := by
  unfold VM.freeSpace
  split <;> rfl

theorem resized_seg (p : ℕ) (n : ℤ) (m : VM T) (q : ℕ) : (resized p n m).seg q =
    if q = p then ⟨int2word (memalloc n m.holes).1, int2word (n - 1), (m.seg p).pid⟩
    else m.seg q := by
  rw [resized, freeSpace_eq]
  by_cases hq : q = p <;> simp [VM.seg, VM.setProc, hq]

theorem resized_regs (p : ℕ) (n : ℤ) (m : VM T) (q : ℕ) :
    (resized p n m).regs q = m.regs q := by
  rw [resized, freeSpace_eq]
  by_cases hq : q = p <;> simp [VM.regs, VM.setProc, hq]

theorem resized_holes (p : ℕ) (n : ℤ) (m : VM T) : (resized p n m).holes =
    if word2int (m.seg p).br < 0 ∨ word2int (m.seg p).lr < 0 then (memalloc n m.holes).2
    else freemem (word2int (m.seg p).br) (word2int (m.seg p).lr + 1) (memalloc n m.holes).2 :=
  freeSpace_holes _ _

theorem resized_eq (p : ℕ) (n : ℤ) (m : VM T) : resized p n m =
    { m with holes := (resized p n m).holes, proc := (resized p n m).proc } := by
  rw [resized, freeSpace_eq]
  rfl

theorem Local.resized {p : ℕ} {m w : VM T} (h : Local p m w) (n : ℤ) :
    Local p (resized p n m) (resized p n w) := by
  have em := resized_eq p n m
  have ew := resized_eq p n w
  refine ⟨⟨?_, ?_, ?_, fun q => ?_, fun q hq => ?_⟩, ?_, ?_, ?_, ?_⟩
  · rw [congrArg VM.nextPid em, congrArg VM.nextPid ew]
    exact h.nextPid
  · rw [resized_holes, resized_holes, h.seg, h.holes]
  · rw [congrArg VM.host em, congrArg VM.host ew]
    exact h.files
  · rw [resized_seg, resized_seg, h.seg, h.seg, h.holes]
  · rw [resized_regs, resized_regs, h.regs q hq]
  · rw [congrArg VM.sched em, congrArg VM.sched ew]
    exact h.sched
  · rw [congrArg VM.recvWq em, congrArg VM.recvWq ew]
    exact h.recvWq
  · rw [congrArg VM.sendWq em, congrArg VM.sendWq ew]
    exact h.sendWq
  · rw [congrArg VM.semWq em, congrArg VM.semWq ew]
    exact h.semWq

theorem resizeProc_ok {p : ℕ} {n r : ℤ} {m u : VM T} (h : resizeProc p n m = .ok (r, u)) :
    (r = -1 ∧ (memalloc n m.holes).1 < 0 ∧ u = { m with holes := (memalloc n m.holes).2 }) ∨
    (r = 0 ∧ 0 ≤ (memalloc n m.holes).1 ∧ u = resized p n m) := by
  simp only [resizeProc, get_bind, modify_bind] at h
  rcases ite_ok.1 h with ⟨hn, h⟩ | ⟨hn, h⟩
  · obtain ⟨rfl, rfl⟩ := Prod.mk.inj (pure_ok.1 h)
    exact .inl ⟨rfl, hn, rfl⟩
  · simp only [modify_bind] at h
    obtain ⟨rfl, rfl⟩ := Prod.mk.inj (pure_ok.1 h)
    exact .inr ⟨rfl, by omega, rfl⟩

theorem updateRecvWq_ok {i : ℕ} {f : List ℕ → ℤ × List ℕ} {m u : VM T} {r : ℤ}
    (h : updateRecvWq i f m = .ok (r, u)) : r = (f (m.recvWq i)).1 ∧
      u = { m with recvWq := Function.update m.recvWq i (f (m.recvWq i)).2 } :=
  Prod.mk.inj (pure_ok.1 h)

theorem updateSendWq_ok {i : ℕ} {f : List ℕ → ℤ × List ℕ} {m u : VM T} {r : ℤ}
    (h : updateSendWq i f m = .ok (r, u)) : r = (f (m.sendWq i)).1 ∧
      u = { m with sendWq := Function.update m.sendWq i (f (m.sendWq i)).2 } :=
  Prod.mk.inj (pure_ok.1 h)

theorem updateSemWq_ok {i : ℕ} {f : List ℕ → ℤ × List ℕ} {m u : VM T} {r : ℤ}
    (h : updateSemWq i f m = .ok (r, u)) : r = (f (m.semWq i)).1 ∧
      u = { m with semWq := Function.update m.semWq i (f (m.semWq i)).2 } :=
  Prod.mk.inj (pure_ok.1 h)

theorem onSched_ok {α : Type} {x : Exec (Sched T) α} {m u : VM T} {a : α}
    (h : onSched x m = .ok (a, u)) : ∃ s, x m.sched = .ok (a, s) ∧ u = { m with sched := s } :=
  zoom_ok.1 h

theorem onSched_bind {α β : Type} {x : Exec (Sched T) α} {f : α → Exec (VM T) β} {m : VM T}
    {r : β × VM T} (h : (onSched x >>= f) m = .ok r) :
    ∃ a s, x m.sched = .ok (a, s) ∧ f a { m with sched := s } = .ok r := by
  obtain ⟨a, u, hx, hf⟩ := bind_ok.1 h
  obtain ⟨s, hs, rfl⟩ := onSched_ok hx
  exact ⟨a, s, hs, hf⟩

theorem Frame.put {p : ℕ} {m u : VM T} (h : Frame p m u) (s : Sched T)
    (rq sq eq : ℕ → List ℕ) :
    Frame p m { u with sched := s, recvWq := rq, sendWq := sq, semWq := eq } :=
  ⟨h.nextPid, h.holes, h.files, h.seg, h.regs⟩

/-- The first `remove_proc` reports no error, so that the queue of `p` alone is searched. -/
theorem removeReceiver_ok {p q : ℕ} {r : ℤ} {m u : VM T} (h : removeReceiver p q m = .ok (r, u)) :
    r = 0 ∧ u = { m with recvWq := Function.update m.recvWq p ((m.recvWq p).erase q) } := by
  obtain ⟨c, w, hw, h⟩ := bind_ok.1 h
  obtain ⟨rfl, rfl⟩ := updateRecvWq_ok hw
  rcases ite_ok.1 h with ⟨hc, -⟩ | ⟨-, h⟩
  · exact absurd rfl hc
  · exact Prod.mk.inj (pure_ok.1 h)

theorem semP_range {sem r : ℤ} {s t : Store} (h : semP sem s = .ok (r, t)) (hr : r = 1) :
    sem ≤ 99 := by
  rw [semP, get_bind] at h
  rcases ite_ok.1 h with ⟨-, h⟩ | ⟨hs, -⟩
  · rw [hr] at h
    cases (Prod.mk.inj (pure_ok.1 h)).1
  · omega

theorem semV_range {sem r : ℤ} {s t : Store} (h : semV sem s = .ok (r, t)) (hr : ¬r ≠ 0) :
    sem ≤ 99 := by
  rcases ite_ok.1 h with ⟨-, h⟩ | ⟨hs, -⟩
  · have := (Prod.mk.inj (pure_ok.1 h)).1
    omega
  · omega

structure Shift (m u : VM T) (recvWq sendWq semWq : ℕ → List ℕ) : Prop where
  recvWq : u.recvWq = recvWq
  sendWq : u.sendWq = sendWq
  semWq : u.semWq = semWq

structure Still (m u : VM T) : Prop extends Shift m u m.recvWq m.sendWq m.semWq where
  sched : u.sched = m.sched
  nextPid : u.nextPid = m.nextPid

theorem Local.still {p : ℕ} {m u : VM T} (h : Local p m u) : Still m u :=
  ⟨⟨h.recvWq, h.sendWq, h.semWq⟩, h.sched, h.nextPid⟩

theorem Local.still_holes {p : ℕ} {m u : VM T} {l : List Hole}
    (h : Local p { m with holes := l } u) : Still m u :=
  ⟨⟨h.recvWq, h.sendWq, h.semWq⟩, h.sched, h.nextPid⟩

theorem Local.still_resized {p : ℕ} {n : ℤ} {m u : VM T} (h : Local p (Effects.resized p n m) u) :
    Still m u := by
  have e := resized_eq p n m
  refine ⟨⟨h.recvWq.trans ?_, h.sendWq.trans ?_, h.semWq.trans ?_⟩, h.sched.trans ?_,
    h.nextPid.trans ?_⟩
  · rw [congrArg VM.recvWq e]
  · rw [congrArg VM.sendWq e]
  · rw [congrArg VM.semWq e]
  · rw [congrArg VM.sched e]
  · rw [congrArg VM.nextPid e]

theorem freeSpace_still (m : VM T) (q : Seg) : Still m (m.freeSpace q) := by
  rw [freeSpace_eq]
  exact ⟨⟨rfl, rfl, rfl⟩, rfl, rfl⟩

theorem Shift.after {m u w : VM T} {rq sq eq : ℕ → List ℕ} {p : ℕ} (h : Shift m u rq sq eq)
    (k : Local p u w) : Shift m w rq sq eq :=
  ⟨k.recvWq.trans h.recvWq, k.sendWq.trans h.sendWq, k.semWq.trans h.semWq⟩

theorem Shift.before {p : ℕ} {m w u : VM T} {rq sq eq : ℕ → List ℕ} (_h : Local p m w)
    (k : Shift w u rq sq eq) : Shift m u rq sq eq := ⟨k.recvWq, k.sendWq, k.semWq⟩

theorem Local.freeSpace {p : ℕ} {m w : VM T} (h : Local p m w) (q : ℕ) :
    Frame p (m.freeSpace (m.seg q)) (w.freeSpace (w.seg q)) := by
  rw [freeSpace_eq m, freeSpace_eq w]
  refine ⟨h.nextPid, ?_, h.files, h.seg, h.regs⟩
  change (w.freeSpace (w.seg q)).holes = (m.freeSpace (m.seg q)).holes
  rw [freeSpace_holes, freeSpace_holes, h.seg, h.holes]

theorem Local.withHoles {p : ℕ} {m w : VM T} (h : Local p m w) (l : List Hole) :
    Local p { m with holes := l } { w with holes := l } :=
  ⟨⟨h.nextPid, rfl, h.files, h.seg, h.regs⟩, h.sched, h.recvWq, h.sendWq, h.semWq⟩

def fileSize (fh : Stream) : Option ℤ :=
  match scanToken 7 fh with
  | (none, _) => none
  | (some _, fh) => some (loadHeader fh).1

/-- `exec_proc` of a file asks once for a block of the size in its header. -/
theorem execFile_ok {p : ℕ} {fh : Stream} {m u : VM T} (h : execFile p fh m = .ok (0, u)) :
    ∃ n, fileSize fh = some n ∧ 0 ≤ n ∧
      ((memalloc n m.holes).1 < 0 ∧ Local p { m with holes := (memalloc n m.holes).2 } u ∨
        0 ≤ (memalloc n m.holes).1 ∧ Local p (resized p n m) u) := by
  rw [execFile] at h
  rcases hs : scanToken 7 fh with ⟨_ | tok, fh'⟩
  · simp only [hs] at h
    cases (Prod.mk.inj (pure_ok.1 h)).1
  · simp only [hs] at h
    rcases ite_ok.1 h with ⟨-, h⟩ | ⟨-, h⟩
    · cases (Prod.mk.inj (pure_ok.1 h)).1
    · rcases ite_ok.1 h with ⟨-, h⟩ | ⟨hn, h⟩
      · cases (Prod.mk.inj (pure_ok.1 h)).1
      · refine ⟨(loadHeader fh').1, by rw [fileSize, hs], by omega, ?_⟩
        obtain ⟨r, x, hx, h⟩ := bind_ok.1 h
        rcases resizeProc_ok hx with ⟨rfl, refused, rfl⟩ | ⟨rfl, granted, rfl⟩
        · rcases ite_ok.1 h with ⟨-, h⟩ | ⟨hr, -⟩
          · obtain ⟨_, y, hy, h⟩ := bind_ok.1 h
            obtain ⟨-, rfl⟩ := Prod.mk.inj (pure_ok.1 h)
            exact .inl ⟨refused, onCore_local hy⟩
          · exact absurd (by decide) hr
        · rcases ite_ok.1 h with ⟨hr, -⟩ | ⟨-, h⟩
          · exact absurd rfl hr
          · obtain ⟨code, y, hy, h⟩ := bind_ok.1 h
            obtain ⟨f, rfl⟩ := loadCode_stored hy
            rcases ite_ok.1 h with ⟨-, h⟩ | ⟨-, h⟩
            · cases (Prod.mk.inj (pure_ok.1 h)).1
            · obtain ⟨_, z, hz, h⟩ := bind_ok.1 h
              obtain ⟨-, rfl⟩ := Prod.mk.inj (pure_ok.1 h)
              have enter : Local p (resized p (loadHeader fh').1 m) _ := entered_local p _
              have read := enter.trans (stored_local p f _)
              exact .inr ⟨granted, (read.trans (onCore_local hz)).trans (host_local p z rfl)⟩

variable [RedBlackTree T]

inductive Effect (p : ℕ) (m u : VM T) : Op → ℤ → Prop where
  | quiet (op : Op) (a : ℤ) (h : Local p m u) (hsd : op ≠ .SD) (hrc : op ≠ .RC) (hfk : op ≠ .FK)
      (hha : op ≠ .HA) : Effect p m u op a
  | recvBlock (a c : ℤ) (ha : a ≤ 99) (none : m.waitingSender p a = none) (frame : Frame p m u)
      (sched : schedSuspend p m.sched = .ok (c, u.sched))
      (shift : Shift m u (Function.update m.recvWq (recvIndex a) (m.recvWq (recvIndex a) ++ [p]))
        m.sendWq m.semWq) : Effect p m u .RC a
  | recvTake (a c : ℤ) (s : ℕ) (some : m.waitingSender p a = some s) (frame : Frame p m u)
      (sched : schedResume s m.sched = .ok (c, u.sched))
      (shift : Shift m u m.recvWq (Function.update m.sendWq p ((m.sendWq p).erase s)) m.semWq) :
      Effect p m u .RC a
  | sendAlone (a c : ℤ) (ha : 0 ≤ a ∧ a ≤ 99) (alone : ¬m.receiverWaits p a.toNat)
      (frame : Frame p m u) (sched : schedSuspend p m.sched = .ok (c, u.sched))
      (shift : Shift m u m.recvWq
        (Function.update m.sendWq a.toNat (m.sendWq a.toNat ++ [p])) m.semWq) : Effect p m u .SD a
  | sendWake (a c d : ℤ) (s : Sched T) (ha : 0 ≤ a ∧ a ≤ 99) (waits : m.receiverWaits p a.toNat)
      (frame : Frame p m u) (suspend : schedSuspend p m.sched = .ok (c, s))
      (resume : schedResume a.toNat s = .ok (d, u.sched))
      (shift : Shift m u (Function.update m.recvWq p ((m.recvWq p).erase a.toNat))
        (Function.update m.sendWq a.toNat (m.sendWq a.toNat ++ [p])) m.semWq) : Effect p m u .SD a
  | downBlock (a c : ℤ) (ha : 0 ≤ a ∧ a ≤ 99) (frame : Frame p m u)
      (sched : schedSuspend p m.sched = .ok (c, u.sched))
      (shift : Shift m u m.recvWq m.sendWq
        (Function.update m.semWq a.toNat (m.semWq a.toNat ++ [p]))) : Effect p m u .PE a
  | upWake (a c : ℤ) (w : ℕ) (l : List ℕ) (ha : 0 ≤ a ∧ a ≤ 99) (head : m.semWq a.toNat = w :: l)
      (frame : Frame p m u) (sched : schedResume w m.sched = .ok (c, u.sched))
      (shift : Shift m u m.recvWq m.sendWq (Function.update m.semWq a.toNat l)) :
      Effect p m u .VE a
  | fork (a c d n : ℤ) (s : Sched T) (hn : n = word2int (m.seg p).lr + 1) (pos : 0 < n)
      (room : m.nextPid ≤ 99) (granted : 0 ≤ (memalloc n m.holes).1)
      (nextPid : u.nextPid = m.nextPid + 1) (holes : u.holes = (memalloc n m.holes).2)
      (files : u.host.files = m.host.files)
      (child : u.seg m.nextPid = ⟨int2word (memalloc n m.holes).1, int2word (n - 1), m.nextPid⟩)
      (seg : ∀ q, q ≠ m.nextPid → u.seg q = m.seg q)
      (regs : ∀ q, q ≠ p → q ≠ m.nextPid → u.regs q = m.regs q)
      (reset : schedReset m.nextPid m.sched = .ok (c, s))
      (resume : schedResume m.nextPid s = .ok (d, u.sched))
      (shift : Shift m u m.recvWq m.sendWq m.semWq) : Effect p m u .FK a
  | execNone (a n : ℤ) (refused : (memalloc n m.holes).1 < 0)
      (h : Local p { m with holes := (memalloc n m.holes).2 } u) : Effect p m u .EX a
  | execGrant (a n : ℤ) (hn : 0 ≤ n) (granted : 0 ≤ (memalloc n m.holes).1)
      (h : Local p (resized p n m) u) : Effect p m u .EX a
  | halt (a c d : ℤ) (s : Sched T) (frame : Frame p (m.freeSpace (m.seg p)) u)
      (reset : schedReset p m.sched = .ok (c, s)) (suspend : schedSuspend p s = .ok (d, u.sched))
      (shift : Shift m u m.recvWq m.sendWq m.semWq) : Effect p m u .HA a

theorem recv_effect {p : ℕ} {a : ℤ} {m u : VM T} (h : recv p a m = .ok (0, u)) :
    Effect p m u .RC a := by
  rw [recv] at h
  rcases ite_ok.1 h with ⟨-, h⟩ | ⟨ha, h⟩
  · cases (Prod.mk.inj (pure_ok.1 h)).1
  · rw [get_bind] at h
    cases hs : m.waitingSender p a with
    | none =>
      simp only [hs] at h
      obtain ⟨r, w, hr, h⟩ := bind_ok.1 h
      have hl := onCore_local hr
      rcases ite_ok.1 h with ⟨-, h⟩ | ⟨-, h⟩
      · cases (Prod.mk.inj (pure_ok.1 h)).1
      · obtain ⟨r, x, hx, h⟩ := bind_ok.1 h
        obtain ⟨-, rfl⟩ := updateRecvWq_ok hx
        rcases ite_ok.1 h with ⟨-, h⟩ | ⟨-, h⟩
        · cases (Prod.mk.inj (pure_ok.1 h)).1
        · obtain ⟨c, t, ht, h⟩ := onSched_bind h
          obtain ⟨-, rfl⟩ := Prod.mk.inj (pure_ok.1 h)
          have ha : a ≤ 99 := by
            have : procs = 100 := rfl
            omega
          refine .recvBlock a c ha hs (hl.toFrame.put t _ _ _) ?_ ⟨?_, hl.sendWq, hl.semWq⟩
          · rw [← hl.sched]
            exact ht
          · change Function.update w.recvWq _ _ = _
            rw [hl.recvWq]
            rfl
    | some s =>
      simp only [hs] at h
      obtain ⟨r, w, hr, h⟩ := bind_ok.1 h
      rw [xferMsg, get_bind] at hr
      have hl := onMemory_local p hr
      rcases ite_ok.1 h with ⟨-, h⟩ | ⟨-, h⟩
      · cases (Prod.mk.inj (pure_ok.1 h)).1
      · obtain ⟨r, x, hx, h⟩ := bind_ok.1 h
        obtain ⟨-, rfl⟩ := updateSendWq_ok hx
        rcases ite_ok.1 h with ⟨-, h⟩ | ⟨-, h⟩
        · cases (Prod.mk.inj (pure_ok.1 h)).1
        · obtain ⟨c, t, ht, h⟩ := onSched_bind h
          obtain ⟨-, rfl⟩ := Prod.mk.inj (pure_ok.1 h)
          refine .recvTake a c s hs (hl.toFrame.put t _ _ _) ?_ ⟨hl.recvWq, ?_, hl.semWq⟩
          · rw [← hl.sched]
            exact ht
          · change Function.update w.sendWq _ _ = _
            rw [hl.sendWq]
            rfl

theorem send_effect {p : ℕ} {a : ℤ} {m u : VM T} (h : send p a m = .ok (0, u)) :
    Effect p m u .SD a := by
  rw [send] at h
  rcases ite_ok.1 h with ⟨-, h⟩ | ⟨ha, h⟩
  · cases (Prod.mk.inj (pure_ok.1 h)).1
  · have ha : 0 ≤ a ∧ a ≤ 99 := by
      have : procs = 100 := rfl
      omega
    obtain ⟨c, t, ht, h⟩ := onSched_bind h
    obtain ⟨r, x, hx, h⟩ := bind_ok.1 h
    obtain ⟨-, rfl⟩ := updateSendWq_ok hx
    rcases ite_ok.1 h with ⟨-, h⟩ | ⟨-, h⟩
    · cases (Prod.mk.inj (pure_ok.1 h)).1
    · rw [get_bind] at h
      rcases ite_ok.1 h with ⟨hw, h⟩ | ⟨hw, h⟩
      · obtain ⟨r, y, hy, h⟩ := bind_ok.1 h
        obtain ⟨-, rfl⟩ := removeReceiver_ok hy
        rcases ite_ok.1 h with ⟨-, h⟩ | ⟨-, h⟩
        · cases (Prod.mk.inj (pure_ok.1 h)).1
        · obtain ⟨d, s, hs, h⟩ := onSched_bind h
          obtain ⟨-, rfl⟩ := Prod.mk.inj (pure_ok.1 h)
          exact .sendWake a c d t ha hw ((Frame.refl p m).put s _ _ _) ht hs ⟨rfl, rfl, rfl⟩
      · obtain ⟨-, rfl⟩ := Prod.mk.inj (pure_ok.1 h)
        exact .sendAlone a c ha hw ((Frame.refl p m).put t _ _ _) ht ⟨rfl, rfl, rfl⟩

theorem semDown_effect {p : ℕ} {a : ℤ} {m u : VM T} (h : semDown p a m = .ok (0, u)) :
    Effect p m u .PE a := by
  rw [semDown] at h
  rcases ite_ok.1 h with ⟨-, h⟩ | ⟨ha, h⟩
  · cases (Prod.mk.inj (pure_ok.1 h)).1
  · obtain ⟨r, w, hw, h⟩ := bind_ok.1 h
    have hl := onMemory_local p hw
    rcases ite_ok.1 h with ⟨-, h⟩ | ⟨-, h⟩
    · obtain ⟨-, rfl⟩ := Prod.mk.inj (pure_ok.1 h)
      exact .quiet .PE a hl (by decide) (by decide) (by decide) (by decide)
    · rcases ite_ok.1 h with ⟨hr, h⟩ | ⟨-, h⟩
      · obtain ⟨t, ht, -⟩ := zoom_ok.1 hw
        have ha' := semP_range ht hr
        obtain ⟨c, x, hx, h⟩ := bind_ok.1 h
        have hl := hl.trans (onCore_local hx)
        rcases ite_ok.1 h with ⟨-, h⟩ | ⟨-, h⟩
        · cases (Prod.mk.inj (pure_ok.1 h)).1
        · obtain ⟨d, s, hs, h⟩ := onSched_bind h
          obtain ⟨e, z, hz, h⟩ := bind_ok.1 h
          obtain ⟨rfl, rfl⟩ := updateSemWq_ok hz
          rcases ite_ok.1 h with ⟨-, h⟩ | ⟨-, h⟩
          · cases (Prod.mk.inj (pure_ok.1 h)).1
          · obtain ⟨-, rfl⟩ := Prod.mk.inj (pure_ok.1 h)
            refine .downBlock a d ⟨by omega, ha'⟩ (hl.toFrame.put s _ _ _) ?_
              ⟨hl.recvWq, hl.sendWq, ?_⟩
            · rw [← hl.sched]
              exact hs
            · change Function.update x.semWq _ (x.semWq _ ++ [p]) = _
              rw [hl.semWq]
      · cases (Prod.mk.inj (pure_ok.1 h)).1

theorem semUp_effect {p : ℕ} {a : ℤ} {m u : VM T} (h : semUp p a m = .ok (0, u)) :
    Effect p m u .VE a := by
  rw [semUp] at h
  rcases ite_ok.1 h with ⟨-, h⟩ | ⟨ha, h⟩
  · cases (Prod.mk.inj (pure_ok.1 h)).1
  · obtain ⟨r, w, hw, h⟩ := bind_ok.1 h
    have hl := onMemory_local p hw
    rcases ite_ok.1 h with ⟨-, h⟩ | ⟨hr, h⟩
    · cases (Prod.mk.inj (pure_ok.1 h)).1
    · obtain ⟨t, ht, -⟩ := zoom_ok.1 hw
      have ha' := semV_range ht hr
      rw [get_bind] at h
      cases hq : w.semWq a.toNat with
      | nil =>
        simp only [hq] at h
        obtain ⟨-, rfl⟩ := Prod.mk.inj (pure_ok.1 h)
        exact .quiet .VE a hl (by decide) (by decide) (by decide) (by decide)
      | cons q l =>
        simp only [hq] at h
        obtain ⟨c, s, hs, h⟩ := onSched_bind h
        obtain ⟨e, z, hz, h⟩ := bind_ok.1 h
        obtain ⟨-, rfl⟩ := updateSemWq_ok hz
        rcases ite_ok.1 h with ⟨-, h⟩ | ⟨-, h⟩
        · cases (Prod.mk.inj (pure_ok.1 h)).1
        · obtain ⟨-, rfl⟩ := Prod.mk.inj (pure_ok.1 h)
          have hm : m.semWq a.toNat = q :: l := by rw [← hl.semWq, hq]
          refine .upWake a c q l ⟨by omega, ha'⟩ hm (hl.toFrame.put s _ _ _) ?_
            ⟨hl.recvWq, hl.sendWq, ?_⟩
          · rw [← hl.sched]
            exact hs
          · change Function.update w.semWq _ ((w.semWq _).erase q) = _
            rw [hq, List.erase_cons_head, hl.semWq]

theorem halt_effect {p : ℕ} {a : ℤ} {m u : VM T} (h : halt p a m = .ok (0, u)) :
    Effect p m u .HA a := by
  have same := freeSpace_still m (m.seg p)
  rw [halt, modify_bind] at h
  obtain ⟨c, s, hs, h⟩ := onSched_bind h
  obtain ⟨d, t, ht, h⟩ := onSched_bind h
  obtain ⟨-, rfl⟩ := Prod.mk.inj (pure_ok.1 h)
  rw [same.sched] at hs
  exact .halt a c d s ((Frame.refl p (m.freeSpace (m.seg p))).put t _ _ _) hs ht
    ⟨same.recvWq, same.sendWq, same.semWq⟩

theorem forkProc_effect {p : ℕ} {a : ℤ} {m u : VM T} (hp : p < m.nextPid)
    (h : forkProc p a m = .ok (0, u)) : Effect p m u .FK a := by
  rw [forkProc, get_bind] at h
  rcases ite_ok.1 h with ⟨-, h⟩ | ⟨hn, h⟩
  · cases (Prod.mk.inj (pure_ok.1 h)).1
  · obtain ⟨q, w, hw, h⟩ := bind_ok.1 h
    rcases procalloc_ok hw with ⟨rfl, -⟩ | ⟨rfl, room, granted, rfl⟩
    · simp only [modify_bind] at h
      exact (fault_ok.1 h).elim
    · simp only [modify_bind, get_bind] at h
      obtain ⟨r, x, hx, h⟩ := bind_ok.1 h
      have hl := onMemory_local p hx
      rcases ite_ok.1 h with ⟨-, h⟩ | ⟨-, h⟩
      · cases (Prod.mk.inj (pure_ok.1 h)).1
      · obtain ⟨c, s, hs, h⟩ := onSched_bind h
        obtain ⟨d, t, ht, h⟩ := onSched_bind h
        obtain ⟨-, rfl⟩ := Prod.mk.inj (pure_ok.1 h)
        rw [hl.sched] at hs
        have hne : m.nextPid ≠ p := by omega
        refine .fork a c d _ s rfl (by omega) room granted hl.nextPid hl.holes hl.files ?_
          (fun q hq => ?_) (fun q hq hqn => ?_) hs ht ⟨hl.recvWq, hl.sendWq, hl.semWq⟩
        · refine (hl.seg _).trans ?_
          simp [VM.seg, VM.setProc, hne]
        · refine (hl.seg q).trans ?_
          by_cases hqp : q = p <;> simp [VM.seg, VM.setProc, hq, hqp]
          simp [hne.symm]
        · refine (hl.regs q hq).trans ?_
          simp [VM.regs, VM.setProc, hq, hqn]

omit [RedBlackTree T] in
theorem execProc_ok {p : ℕ} {a : ℤ} {m u : VM T} (h : execProc p a m = .ok (0, u)) :
    ∃ fh w n, getExecFh p m = .ok (some fh, w) ∧ fileSize fh = some n ∧ 0 ≤ n ∧
      ((memalloc n m.holes).1 < 0 ∧ Local p { m with holes := (memalloc n m.holes).2 } u ∨
        0 ≤ (memalloc n m.holes).1 ∧ Local p (resized p n m) u) := by
  obtain ⟨f, w, hw, h⟩ := bind_ok.1 h
  have hl := getExecFh_local hw
  cases f with
  | none => cases (Prod.mk.inj (pure_ok.1 h)).1
  | some fh =>
    obtain ⟨n, hn, pos, ⟨refused, k⟩ | ⟨granted, k⟩⟩ := execFile_ok h
    · rw [hl.holes] at refused k
      exact ⟨fh, w, n, hw, hn, pos, .inl ⟨refused, (hl.withHoles _).trans k⟩⟩
    · rw [hl.holes] at granted
      exact ⟨fh, w, n, hw, hn, pos, .inr ⟨granted, (hl.resized n).trans k⟩⟩

theorem execProc_effect {p : ℕ} {a : ℤ} {m u : VM T} (h : execProc p a m = .ok (0, u)) :
    Effect p m u .EX a := by
  obtain ⟨-, -, n, -, -, pos, ⟨refused, k⟩ | ⟨granted, k⟩⟩ := execProc_ok h
  · exact .execNone a n refused k
  · exact .execGrant a n pos granted k

/-- Every instruction that returned 0 had the effect its kind allows. -/
theorem run_effect {p : ℕ} {op : Op} {a : ℤ} {m u : VM T} (hp : p < m.nextPid)
    (h : op.run p a m = .ok (0, u)) : Effect p m u op a := by
  cases op
  case SD => exact send_effect h
  case RC => exact recv_effect h
  case PE => exact semDown_effect h
  case VE => exact semUp_effect h
  case FK => exact forkProc_effect hp h
  case EX => exact execProc_effect h
  case HA => exact halt_effect h
  all_goals exact .quiet _ a (instr_local h) (by decide) (by decide) (by decide) (by decide)

theorem seg_effect {m u : VM T} {p : ℕ} {op : Op} {a : ℤ} (k : Effect p m u op a)
    (hp : p < m.nextPid) (hop : op ≠ .EX) : u.seg p = m.seg p := by
  cases k with
  | quiet op a k => exact k.seg p
  | execNone a n refused k => exact absurd rfl hop
  | execGrant a n hn granted k => exact absurd rfl hop
  | recvBlock a c ha none frame => exact frame.seg p
  | recvTake a c s some frame => exact frame.seg p
  | sendAlone a c ha alone frame => exact frame.seg p
  | sendWake a c d s ha waits frame => exact frame.seg p
  | downBlock a c ha frame => exact frame.seg p
  | upWake a c w l ha head frame => exact frame.seg p
  | fork a c d n s hn pos room granted nextPid holes files child seg =>
    exact seg p (Nat.ne_of_lt hp)
  | halt a c d s frame =>
    rw [frame.seg, freeSpace_eq]
    rfl

theorem other_effect {m u : VM T} {p q : ℕ} {op : Op} {a : ℤ} (k : Effect p m u op a)
    (hq : q ≠ p) (hn : q < m.nextPid) : u.seg q = m.seg q ∧ u.regs q = m.regs q := by
  cases k with
  | quiet op a k => exact ⟨k.seg q, k.regs q hq⟩
  | execNone a n refused k => exact ⟨k.seg q, k.regs q hq⟩
  | execGrant a n hn granted k =>
    refine ⟨(k.seg q).trans ?_, (k.regs q hq).trans (resized_regs p n m q)⟩
    rw [resized_seg, if_neg hq]
  | recvBlock a c ha none frame => exact ⟨frame.seg q, frame.regs q hq⟩
  | recvTake a c s some frame => exact ⟨frame.seg q, frame.regs q hq⟩
  | sendAlone a c ha alone frame => exact ⟨frame.seg q, frame.regs q hq⟩
  | sendWake a c d s ha waits frame => exact ⟨frame.seg q, frame.regs q hq⟩
  | downBlock a c ha frame => exact ⟨frame.seg q, frame.regs q hq⟩
  | upWake a c w l ha head frame => exact ⟨frame.seg q, frame.regs q hq⟩
  | fork a c d n s hn' pos room granted nextPid holes files child seg regs =>
    exact ⟨seg q (Nat.ne_of_lt hn), regs q hq (Nat.ne_of_lt hn)⟩
  | halt a c d s frame =>
    refine ⟨(frame.seg q).trans ?_, (frame.regs q hq).trans ?_⟩ <;>
      rw [freeSpace_eq] <;> rfl

theorem Effect.after {p : ℕ} {m u w : VM T} {op : Op} {a : ℤ} (h : Effect p m u op a)
    (k : Local p u w) : Effect p m w op a := by
  cases h with
  | quiet op a h hsd hrc hfk hha => exact .quiet op a (h.trans k) hsd hrc hfk hha
  | recvBlock a c ha none frame sched shift =>
    exact .recvBlock a c ha none (frame.trans k.toFrame) (k.sched ▸ sched) (shift.after k)
  | recvTake a c s some frame sched shift =>
    exact .recvTake a c s some (frame.trans k.toFrame) (k.sched ▸ sched) (shift.after k)
  | sendAlone a c ha alone frame sched shift =>
    exact .sendAlone a c ha alone (frame.trans k.toFrame) (k.sched ▸ sched) (shift.after k)
  | sendWake a c d s ha waits frame suspend resume shift =>
    exact .sendWake a c d s ha waits (frame.trans k.toFrame) suspend (k.sched ▸ resume)
      (shift.after k)
  | downBlock a c ha frame sched shift =>
    exact .downBlock a c ha (frame.trans k.toFrame) (k.sched ▸ sched) (shift.after k)
  | upWake a c q l ha head frame sched shift =>
    exact .upWake a c q l ha head (frame.trans k.toFrame) (k.sched ▸ sched) (shift.after k)
  | fork a c d n s hn pos room granted nextPid holes files child seg regs reset resume shift =>
    exact .fork a c d n s hn pos room granted (k.nextPid.trans nextPid) (k.holes.trans holes)
      (k.files.trans files) ((k.seg _).trans child) (fun q hq => (k.seg q).trans (seg q hq))
      (fun q hq hn => (k.regs q hq).trans (regs q hq hn)) reset (k.sched ▸ resume) (shift.after k)
  | execNone a n refused h => exact .execNone a n refused (h.trans k)
  | execGrant a n hn granted h => exact .execGrant a n hn granted (h.trans k)
  | halt a c d s frame reset suspend shift =>
    exact .halt a c d s (frame.trans k.toFrame) reset (k.sched ▸ suspend) (shift.after k)

theorem Effect.before {p : ℕ} {m w u : VM T} {op : Op} {a : ℤ} (h : Local p m w)
    (k : Effect p w u op a) : Effect p m u op a := by
  have sender : w.waitingSender p = m.waitingSender p := by
    funext a
    rw [VM.waitingSender, VM.waitingSender, h.sendWq]
  have waits (q : ℕ) : w.receiverWaits p q ↔ m.receiverWaits p q := by
    rw [VM.receiverWaits, VM.receiverWaits, h.recvWq]
  cases k with
  | quiet op a k hsd hrc hfk hha => exact .quiet op a (h.trans k) hsd hrc hfk hha
  | recvBlock a c ha none frame sched shift =>
    rw [h.sched] at sched
    rw [h.recvWq, h.sendWq, h.semWq] at shift
    exact .recvBlock a c ha (sender ▸ none) (h.toFrame.trans frame) sched (shift.before h)
  | recvTake a c s some frame sched shift =>
    rw [h.sched] at sched
    rw [h.recvWq, h.sendWq, h.semWq] at shift
    exact .recvTake a c s (sender ▸ some) (h.toFrame.trans frame) sched (shift.before h)
  | sendAlone a c ha alone frame sched shift =>
    rw [h.sched] at sched
    rw [h.recvWq, h.sendWq, h.semWq] at shift
    exact .sendAlone a c ha (mt (waits _).2 alone) (h.toFrame.trans frame) sched (shift.before h)
  | sendWake a c d s ha found frame suspend resume shift =>
    rw [h.sched] at suspend
    rw [h.recvWq, h.sendWq, h.semWq] at shift
    exact .sendWake a c d s ha ((waits _).1 found) (h.toFrame.trans frame) suspend resume
      (shift.before h)
  | downBlock a c ha frame sched shift =>
    rw [h.sched] at sched
    rw [h.recvWq, h.sendWq, h.semWq] at shift
    exact .downBlock a c ha (h.toFrame.trans frame) sched (shift.before h)
  | upWake a c q l ha head frame sched shift =>
    rw [h.sched] at sched
    rw [h.recvWq, h.sendWq, h.semWq] at shift
    exact .upWake a c q l ha (h.semWq ▸ head) (h.toFrame.trans frame) sched (shift.before h)
  | fork a c d n s hn pos room granted nextPid holes files child seg regs reset resume shift =>
    rw [h.seg] at hn
    rw [h.nextPid] at room nextPid child seg regs reset resume
    rw [h.holes] at granted holes child
    rw [h.sched] at reset
    rw [h.recvWq, h.sendWq, h.semWq] at shift
    exact .fork a c d n s hn pos room granted nextPid holes (files.trans h.files) child
      (fun q hq => (seg q hq).trans (h.seg q)) (fun q hq hn => (regs q hq hn).trans (h.regs q hq))
      reset resume (shift.before h)
  | execNone a n refused k =>
    rw [h.holes] at refused k
    exact .execNone a n refused ((h.withHoles _).trans k)
  | execGrant a n hn granted k =>
    rw [h.holes] at granted
    exact .execGrant a n hn granted ((h.resized n).trans k)
  | halt a c d s frame reset suspend shift =>
    rw [h.sched] at reset
    rw [h.recvWq, h.sendWq, h.semWq] at shift
    exact .halt a c d s ((h.freeSpace p).trans frame) reset suspend (shift.before h)

/-- A tick that returned 0, taken apart: the fetch, the instruction and the release. -/
structure Ticked (m u : VM T) (p : ℕ) (op : Op) (a : ℤ) : Prop where
  lt : p < m.nextPid
  own : (m.seg p).pid = p
  parts : ∃ f w v, fetch p { m with sched := account m.sched } = .ok (some f, w) ∧
    decode f.op = some op ∧ f.addr = a ∧ op.run p a w = .ok (0, v) ∧
    ∃ x, onMemory (releaseWordref (v.seg p) f.ic) v = .ok ((), x) ∧
      u = { x with store := { x.store with ops := x.store.ops + 1 } }

theorem runTick_ticked {m u : VM T} {op : Op} {a : ℤ} (h : runTick m = .ok (0, u))
    (hp : pending m = some (op, a)) : Ticked m u m.sched.current op a := by
  rw [runTick, modify_bind, get_bind, bind_ok] at h
  obtain ⟨r, x, hx, h⟩ := h
  rcases ite_ok.1 h with ⟨-, h⟩ | ⟨hr, h⟩
  · cases (Prod.mk.inj (pure_ok.1 h)).1
  · rw [modify_bind] at h
    obtain ⟨-, rfl⟩ := Prod.mk.inj (pure_ok.1 h)
    obtain rfl := not_not.1 hr
    rw [tick, get_bind] at hx
    rcases ite_ok.1 hx with ⟨-, hx⟩ | ⟨(hlt : ¬m.sched.current ≥ m.nextPid), hx⟩
    · cases (Prod.mk.inj (pure_ok.1 hx)).1
    · rcases ite_ok.1 hx with ⟨-, hx⟩ | ⟨hown, hx⟩
      · cases (Prod.mk.inj (pure_ok.1 hx)).1
      · obtain ⟨f, w, hf, hx⟩ := bind_ok.1 hx
        change fetch m.sched.current _ = _ at hf
        cases f with
        | none => cases (Prod.mk.inj (pure_ok.1 hx)).1
        | some f =>
          simp only [pending, hf, Option.map_eq_some_iff, Prod.mk.injEq] at hp
          obtain ⟨op', hop, rfl, rfl⟩ := hp
          simp only [execute, hop] at hx
          obtain ⟨r, v, hv, hx⟩ := bind_ok.1 hx
          rw [get_bind] at hx
          obtain ⟨b, y, hy, hx⟩ := bind_ok.1 hx
          obtain ⟨rfl, rfl⟩ := Prod.mk.inj (pure_ok.1 hx)
          exact ⟨by omega, not_not.1 hown, f, w, v, hf, hop, rfl, hv, x, hy, rfl⟩

theorem Ticked.effect {m u : VM T} {p : ℕ} {op : Op} {a : ℤ} (h : Ticked m u p op a) :
    Effect p { m with sched := account m.sched } u op a := by
  obtain ⟨f, w, v, hf, -, -, hv, x, hx, rfl⟩ := h.parts
  have hl := fetch_local hf
  have hop : Effect p w v op a := run_effect (hl.nextPid ▸ h.lt) hv
  have hr : Local p v { x with store := { x.store with ops := x.store.ops + 1 } } :=
    (onMemory_local p hx).trans
      ⟨⟨rfl, rfl, rfl, fun _ => rfl, fun _ _ => rfl⟩, rfl, rfl, rfl, rfl⟩
  exact (hop.before hl).after hr

def execSize (m : VM T) (p : ℕ) : Option ℤ :=
  match fetch p m with
  | .ok (some _, w) => match getExecFh p w with
    | .ok (some fh, _) => fileSize fh
    | _ => none
  | _ => none

theorem exec_request {m u : VM T} {p : ℕ} {a : ℤ} (k : Ticked m u p .EX a) :
    ∃ n, execSize { m with sched := account m.sched } p = some n ∧ 0 ≤ n ∧
      ((memalloc n m.holes).1 < 0 ∧ Local p
          { m with sched := account m.sched, holes := (memalloc n m.holes).2 } u ∨
        0 ≤ (memalloc n m.holes).1 ∧
          Local p (resized p n { m with sched := account m.sched }) u) := by
  obtain ⟨f, w, v, hf, -, -, hv, x, hx, rfl⟩ := k.parts
  have hl := fetch_local hf
  have hr : Local p v { x with store := { x.store with ops := x.store.ops + 1 } } :=
    (onMemory_local p hx).trans
      ⟨⟨rfl, rfl, rfl, fun _ => rfl, fun _ _ => rfl⟩, rfl, rfl, rfl, rfl⟩
  obtain ⟨fh, w', n, hg, hn, pos, h⟩ := execProc_ok (a := a) hv
  refine ⟨n, ?_, pos, ?_⟩
  · simp only [execSize, hf, hg, hn]
  · rw [hl.holes] at h
    rcases h with ⟨refused, k⟩ | ⟨granted, k⟩
    · exact .inl ⟨refused, ((hl.withHoles _).trans k).trans hr⟩
    · exact .inr ⟨granted, ((hl.resized n).trans k).trans hr⟩

/-- A step of the machine is one tick of the current process or the end of a slice. -/
theorem next_cases {c d : Config T} {b : Label} (h : next c = some (b, d)) :
    0 < c.vm.sched.nrRunning ∧
    ((∃ op a, b = .instr c.vm.sched.current op a ∧ c.i < schedGranularity ∧ d.i = c.i + 1 ∧
      Ticked c.vm d.vm c.vm.sched.current op a) ∨
    (b = .slice ∧ schedGranularity ≤ c.i ∧ d.i = 0 ∧
      ∃ s, endSlice c.vm.sched = .ok ((), s) ∧ d.vm = { c.vm with sched := s })) := by
  rw [next] at h
  by_cases h0 : c.vm.sched.nrRunning = 0
  · rw [if_pos h0] at h
    cases h
  · rw [if_neg h0] at h
    refine ⟨by omega, ?_⟩
    by_cases hi : c.i < schedGranularity
    · rw [if_pos hi] at h
      split at h
      · rename_i m op a hm hp
        obtain ⟨rfl, rfl⟩ := Prod.mk.inj (Option.some.inj h)
        exact .inl ⟨op, a, rfl, hi, rfl, runTick_ticked hm hp⟩
      · cases h
    · rw [if_neg hi] at h
      cases he : onSched endSlice c.vm with
      | error e => simp [he] at h
      | ok r =>
        obtain ⟨a, m⟩ := r
        simp only [he, Option.some.injEq, Prod.mk.injEq] at h
        obtain ⟨rfl, rfl⟩ := h
        obtain ⟨s, hs, rfl⟩ := onSched_ok he
        exact .inr ⟨rfl, by omega, rfl, s, hs, rfl⟩

end
end BrainMachine.Effects
