import BrainMachine.Isolation
import BrainMachine.ProgramReading
import BrainMachine.StoreCoherence
import BrainMachine.TickSteps

set_option autoImplicit false

namespace BrainMachine.ExecSteps
open Codec Computations Paging Stdio AddressSpace Instructions HoleList RunQueue Machine Loader
open Dispatch Effects MachineRuns SortedTree WaitQueues References StoreCoherence MachineMemory
open ProcessImages TickSteps ProgramReading
open Isolation (granted_seg)

theorem next_counter {g : Regs} (h : 0 ≤ word2int (icWord g.ic)) :
    word2int (icWord (advance g).ic) = (word2int (icWord g.ic) + 1) % 100 := by
  have wraps : ∀ c : Fin 100,
      word2int (icWord (lowHalf (int2word (c.val + 1)))) = (c.val + 1 : ℤ) % 100 := by
    decide +kernel
  obtain ⟨c, hc⟩ := Int.eq_ofNat_of_zero_le h
  have lt := icWord_lt g.ic
  have wrap := wraps ⟨c, by omega⟩
  rw [advance, hc]
  exact wrap

theorem releaseWordref_total (p : Seg) (a : ℤ) (s : Store) :
    ∃ t, releaseWordref p a s = .ok ((), t) ∧ SameFrames s.pager t.pager := by
  by_cases hg : getGlobalAddress p a < 0
  · refine ⟨s, ?_, rfl, rfl, rfl, rfl, rfl, fun _ => rfl, fun _ => rfl⟩
    rw [releaseWordref, if_pos hg]
    rfl
  · refine ⟨{ s with pager := pageReleaseRef (getGlobalAddress p a) s.pager }, ?_,
      pageReleaseRef_sameFrames _ _⟩
    rw [releaseWordref, if_neg hg]
    rfl

theorem releaseWordref_sameFrames {p : Seg} {a : ℤ} {s t : Store}
    (h : releaseWordref p a s = .ok ((), t)) : SameFrames s.pager t.pager := by
  obtain ⟨v, release, same⟩ := releaseWordref_total p a s
  obtain ⟨-, rfl⟩ := Prod.mk.inj (Except.ok.inj (release.symm.trans h))
  exact same

theorem trans_sameFrames {s t u : Pager} (h : SameFrames s t) (k : SameFrames t u) :
    SameFrames s u :=
  ⟨k.count.trans h.count, k.size.trans h.size, k.mem.trans h.mem, k.pageMem.trans h.pageMem,
    k.free.trans h.free, fun p => (k.valid p).trans (h.valid p), fun p => (k.addr p).trans (h.addr p)⟩

section
variable {T : Type}

/-- Anywhere else than at address 99 the increment does not lead to 0. -/
theorem advance_inner {m : VM T} {p : ℕ} (valid : 0 ≤ counter m p) (inner : counter m p ≠ 99) :
    (advance (m.regs p)).ic ≠ (48, 48) := by
  intro ic
  have zero : word2int (icWord (advance (m.regs p)).ic) = 0 := by
    rw [ic]
    decide
  rw [next_counter valid, ← counter] at zero
  have lt : counter m p < 100 := icWord_lt _
  omega

/-- At address 99 the counter has come back to 0, and there is no word before it. -/
theorem getExecFh_last {m : VM T} {p : ℕ} (last : counter m p = 99) (g : Pager) :
    getExecFh p (fetched p g m) = .ok (none, fetched p g m) := by
  have ic : word2int (icWord ((fetched p g m).regs p).ic) = 0 := by
    rw [fetched_regs, next_counter (by rw [← counter, last]; decide), ← counter, last]
    rfl
  have outside : onMemory (getWordref ((fetched p g m).seg p) (0 - 1)) (fetched p g m) =
      .ok (none, fetched p g m) := by
    rw [onMemory, zoom, getWordref]
    rfl
  rw [getExecFh, get_bind]
  simp only [ic]
  rw [if_neg (by decide), bind_of_ok outside]
  rfl

def opens (m : VM T) : VM T := { m with host := { m.host with opened := m.host.opened + 1 } }

theorem opens_regs (m : VM T) (q : ℕ) : (opens m).regs q = m.regs q := rfl

theorem fopen_found {h : Host} {fname : UInt8 × UInt8} {text : List UInt8}
    (file : h.files fname = some text) (room : h.opened < h.limit) :
    h.fopen fname = (some ⟨text, false⟩, { h with opened := h.opened + 1 }) := by
  rw [Host.fopen, file]
  exact if_pos room

theorem fopen_some {h u : Host} {fname : UInt8 × UInt8} {fh : Stream}
    (k : h.fopen fname = (some fh, u)) :
    ∃ text, h.files fname = some text ∧ h.opened < h.limit ∧ fh = ⟨text, false⟩ := by
  unfold Host.fopen at k
  split at k
  · cases k
  · rename_i text file
    split at k
    · rename_i room
      exact ⟨text, file, room, (Option.some.inj (Prod.mk.inj k).1).symm⟩
    · cases k

theorem fopen_full {h : Host} {fname : UInt8 × UInt8} (full : h.limit ≤ h.opened) :
    h.fopen fname = (none, h) := by
  rw [Host.fopen]
  split
  · rfl
  · exact if_neg (Nat.not_lt.2 full)

/-- At any other address the name is in the word that was fetched. -/
theorem getExecFh_inner {m : VM T} {p x : ℕ} {s : Store} (frames : Frames m.store.pager)
    (fetch : getWordref (m.seg p) (counter m p) m.store = .ok (some x, s))
    (inner : counter m p ≠ 99) : ∃ g, SameFrames s.pager g ∧
      getExecFh p (fetched p s.pager m) =
        .ok ((m.host.fopen (lowHalf (word m p (counter m p)))).1,
          { fetched p g m with host := (m.host.fopen (lowHalf (word m p (counter m p)))).2 }) := by
  have touched := touchPageBy_touched getRemovalPage_victims frames (getWordref_touch fetch).2
  have valid := (getWordref_touch fetch).1
  obtain ⟨-, h0, -, -⟩ := address_range valid
  have lt : counter m p < 100 := icWord_lt _
  have ic : word2int (icWord ((fetched p s.pager m).regs p).ic) = counter m p + 1 := by
    rw [fetched_regs, next_counter h0, ← counter]
    omega
  obtain ⟨y, t, read, same, shown⟩ := getWordref_resident (u := (fetched p s.pager m).store)
    touched.frames valid touched.resident
  obtain ⟨t', release, same'⟩ := releaseWordref_total (m.seg p) (counter m p) t
  have rest : t' = { m.store with pager := t'.pager } := by
    rw [releaseWordref_rest release, getWordref_rest read]
    rfl
  refine ⟨t'.pager, trans_sameFrames same same', ?_⟩
  rw [getExecFh, get_bind]
  simp only [ic, fetched_seg, Int.add_sub_cancel]
  have first : onMemory (getWordref (m.seg p) (counter m p)) (fetched p s.pager m) =
      .ok (some y, { fetched p s.pager m with store := t }) := by
    rw [onMemory, zoom, read]
  have last : onMemory (releaseWordref (m.seg p) (counter m p))
      { fetched p s.pager m with store := t } = .ok ((), fetched p t'.pager m) := by
    rw [onMemory, zoom, release, rest]
    rfl
  rw [if_neg (by omega), bind_of_ok first]
  change (onMemory (releaseWordref (m.seg p) (counter m p)) >>= fun _ => _) _ = _
  rw [bind_of_ok last]
  change Except.ok ((m.host.fopen (lowHalf (t.pager.mem y))).1,
    { fetched p t'.pager m with host := (m.host.fopen (lowHalf (t.pager.mem y))).2 }) = _
  have found : t.pager.mem y = word m p (counter m p) := shown.trans (touched.view _)
  rw [found]

def denied (p : ℕ) (n : ℤ) (m : VM T) : VM T :=
  ({ m with holes := (memalloc n m.holes).2 } : VM T).setCore p ⟨{ m.regs p with r := zeros }, m.store⟩

theorem denied_regs (p : ℕ) (n : ℤ) (m : VM T) :
    (denied p n m).regs p = { m.regs p with r := zeros } := setCore_regs p _ _

theorem denied_local (p : ℕ) (n : ℤ) (m : VM T) :
    Local p { m with holes := (memalloc n m.holes).2 } (denied p n m) := setCore_local p _ _

theorem execFile_refused {m : VM T} {p : ℕ} {fh left : Stream} {n : ℤ}
    (mark : scanToken 7 fh = (some brain10, left)) (header : (loadHeader left).1 = n) (pos : 0 ≤ n)
    (refused : (memalloc n m.holes).1 < 0) : execFile p fh m = .ok (0, denied p n m) := by
  have resize : resizeProc p n m = .ok (-1, { m with holes := (memalloc n m.holes).2 }) := by
    rw [resizeProc, get_bind, modify_bind, if_pos refused]
    rfl
  rw [execFile, mark]
  simp only [header]
  rw [if_neg (by simp), if_neg (by omega), bind_of_ok resize, if_pos (by decide)]
  rfl

def placed (p : ℕ) (n : ℤ) (ws : List Word) (m : VM T) : VM T :=
  stored (writeWords (base (resized p n m) p) ws m.store.pager.pageMem) (entered (resized p n m))

theorem placed_regs (p : ℕ) (n : ℤ) (ws : List Word) (m : VM T) :
    (placed p n ws m).regs p = m.regs p := resized_regs p n m p

def loaded (p : ℕ) (n : ℤ) (ws : List Word) (m : VM T) : VM T :=
  { (placed p n ws m).setCore p ⟨resetRegs (m.regs p), (placed p n ws m).store⟩ with
    host := (placed p n ws m).host.fclose }

theorem loaded_regs (p : ℕ) (n : ℤ) (ws : List Word) (m : VM T) :
    (loaded p n ws m).regs p = resetRegs (m.regs p) := setCore_regs p _ _

theorem loaded_seg (p : ℕ) (n : ℤ) (ws : List Word) (m : VM T) : (loaded p n ws m).seg p =
    ⟨int2word (memalloc n m.holes).1, int2word (n - 1), (m.seg p).pid⟩ := by
  refine (setCore_seg p p _ _).trans ?_
  exact (resized_seg p n m p).trans (if_pos rfl)

theorem resizeProc_granted {m : VM T} {p : ℕ} {n : ℤ} (granted : 0 ≤ (memalloc n m.holes).1) :
    resizeProc p n m = .ok (0, resized p n m) := by
  rw [resizeProc, get_bind, modify_bind, if_neg (by omega), modify_bind, resized]
  rfl

theorem resized_host (p : ℕ) (n : ℤ) (m : VM T) : (resized p n m).host = m.host := by
  rw [resized, freeSpace_eq]
  rfl

theorem execFile_granted {m : VM T} {p : ℕ} {fh left : Stream} {n code : ℤ} {ws : List Word}
    (mark : scanToken 7 fh = (some brain10, left)) (reads : Reads m.host.buffer left n code ws)
    (granted : 0 ≤ (memalloc n m.holes).1)
    (inside : ∀ i < ws.length, 0 ≤ getGlobalAddress ((resized p n m).seg p) i ∧
      base (resized p n m) p + i < vaddrSize) : execFile p fh m = .ok (0, loaded p n ws m) := by
  obtain ⟨rfl, pos, words, complete⟩ := reads
  obtain ⟨rest, run⟩ := loadCodeLoop_stores (m := entered (resized p (loadHeader left).1 m))
    (p := p) (a := 0) words fun i hi => by
      rw [Nat.zero_add]
      exact inside i hi
  rw [← resized_host p (loadHeader left).1 m] at run
  have load := (loadCode_eq _ p (resized p (loadHeader left).1 m)).trans run
  rw [Nat.add_zero] at load
  rw [execFile, mark]
  dsimp only
  rw [if_neg (by simp), if_neg (by omega), bind_of_ok (resizeProc_granted granted),
    if_neg (by simp), bind_of_ok load, if_neg complete]
  rw [loaded, ← placed_regs p (loadHeader left).1 ws m, placed, ← resized_store p _ m]
  rfl

/-- EX of a file with a header either is denied its block or loads what it reads. -/
theorem execFile_cases {m u : VM T} {p : ℕ} {fh left : Stream}
    (mark : scanToken 7 fh = (some brain10, left)) (h : execFile p fh m = .ok (0, u)) :
    ∃ n, (loadHeader left).1 = n ∧ 0 ≤ n ∧
      ((memalloc n m.holes).1 < 0 ∧ u = denied p n m ∨
        0 ≤ (memalloc n m.holes).1 ∧ ∃ code ws, Reads m.host.buffer left n code ws ∧
          (∀ i < ws.length, 0 ≤ getGlobalAddress ((resized p n m).seg p) (i : ℕ)) ∧
          u = loaded p n ws m) := by
  rw [execFile, mark] at h
  dsimp only at h
  rcases ite_ok.1 h with ⟨hm, -⟩ | ⟨-, h⟩
  · exact absurd rfl hm
  · rcases ite_ok.1 h with ⟨-, h⟩ | ⟨hn, h⟩
    · cases (Prod.mk.inj (pure_ok.1 h)).1
    · refine ⟨(loadHeader left).1, rfl, by omega, ?_⟩
      obtain ⟨r, x, hx, h⟩ := bind_ok.1 h
      rcases resizeProc_ok hx with ⟨rfl, refused, rfl⟩ | ⟨rfl, granted, rfl⟩
      · rw [if_pos (by decide)] at h
        obtain ⟨_, y, hy, h⟩ := bind_ok.1 h
        obtain ⟨-, rfl⟩ := Prod.mk.inj (pure_ok.1 h)
        obtain ⟨c, hc, rfl⟩ := zoom_ok.1 hy
        obtain ⟨-, rfl⟩ := Prod.mk.inj (modify_ok.1 hc)
        exact .inl ⟨refused, rfl⟩
      · rw [if_neg (by decide)] at h
        obtain ⟨⟨code, rest⟩, y, hy, h⟩ := bind_ok.1 h
        rcases ite_ok.1 h with ⟨-, h⟩ | ⟨complete, h⟩
        · cases (Prod.mk.inj (pure_ok.1 h)).1
        · rw [loadCode_eq, resized_host] at hy
          obtain ⟨ws, words, inside, rfl⟩ := loadCodeLoop_read hy complete
          obtain ⟨_, z, hz, h⟩ := bind_ok.1 h
          obtain ⟨-, rfl⟩ := Prod.mk.inj (pure_ok.1 h)
          obtain ⟨c, hc, rfl⟩ := zoom_ok.1 hz
          obtain ⟨-, rfl⟩ := Prod.mk.inj (modify_ok.1 hc)
          refine .inr ⟨granted, code, ws, ⟨rfl, by omega, words, complete⟩, fun i hi => ?_, ?_⟩
          · have valid := inside i hi
            rwa [Nat.zero_add] at valid
          · rw [loaded, ← placed_regs p (loadHeader left).1 ws m, placed, Nat.add_zero,
              ← resized_store p _ m]
            rfl

variable [RedBlackTree T]

theorem own_effect {m u : VM T} {p : ℕ} {op : Op} {a : ℤ} (k : Effect p m u op a)
    (hp : p < m.nextPid) (own : ∀ q < m.nextPid, (m.seg q).pid = q) :
    ∀ q < u.nextPid, (u.seg q).pid = q := by
  intro q hq
  by_cases old : q < m.nextPid
  · by_cases other : q = p
    · subst q
      have same : (u.seg p).pid = (m.seg p).pid := by
        by_cases exec : op = .EX
        · subst op
          cases k with
          | quiet op a h => rw [h.seg]
          | execNone a n refused h =>
            rw [h.seg]
            rfl
          | execGrant a n hn granted h => rw [h.seg, resized_seg, if_pos rfl]
        · rw [seg_effect k hp exec]
      exact same.trans (own p hp)
    · rw [(other_effect k other old).1]
      exact own q old
  · rw [nextPid_effect k] at hq
    by_cases fork : op = .FK
    · subst op
      rw [if_pos rfl] at hq
      obtain rfl : q = m.nextPid := by omega
      cases k with
      | quiet op a h hsd hrc hfk => exact absurd rfl hfk
      | fork a c d n s hn pos room granted nextPid holes files child => rw [child]
    · rw [if_neg fork] at hq
      omega

theorem load_own {start u : VM T} (h : Loads start u) (none : start.nextPid = 0) :
    ∀ q < u.nextPid, (u.seg q).pid = q := by
  induction h with
  | start =>
    intro q hq
    omega
  | turn w n a b f s t hl hn small room block reset resume ih =>
    intro q hq
    change ((granted n w).seg q).pid = q
    rw [granted_seg]
    by_cases new : q = w.nextPid
    · rw [if_pos new, new]
    · rw [if_neg new]
      have hq' : q < w.nextPid + 1 := hq
      exact ih q (by omega)

variable [LawfulTree T]

theorem execution_own (e : Execution T) (n : ℕ) (hn : n ≤ e.len) :
    ∀ q < (e.vm n).nextPid, ((e.vm n).seg q).pid = q := by
  have both := e.invariant (fun m => Sane m ∧ ∀ q < m.nextPid, (m.seg q).pid = q) ?_
    (fun m s _ h hs => ⟨h.1.slice hs, h.2⟩) (fun m u op a pos h k => ?_) n hn
  · exact both.2
  · intro pager u fh hp hu
    obtain ⟨⟨room, served, hr, hs, he⟩, -⟩ := load_placed hu
    have own := load_own hu rfl
    exact ⟨⟨room, served, hr, hs, he⟩, own⟩
  · exact ⟨h.1.account.effect pos rfl k.effect, own_effect k.effect (h.1.current pos) h.2⟩

omit [RedBlackTree T] [LawfulTree T] in
theorem pending_fetch {m : VM T} {op : Op} {a : ℤ} (h : pending m = some (op, a)) : ∃ f w,
    fetch m.sched.current { m with sched := account m.sched } = .ok (some f, w) ∧
      decode f.op = some op ∧ f.addr = a := by
  unfold pending at h
  split at h
  · rename_i f w hf
    obtain ⟨op', hop, he⟩ := Option.map_eq_some_iff.1 h
    obtain ⟨rfl, rfl⟩ := Prod.mk.inj he
    exact ⟨f, w, hf, hop, rfl⟩
  · cases h

omit [LawfulTree T] in
theorem runTick_run {m w v : VM T} {p : ℕ} {op : Op} {f : Fetched} (cur : m.sched.current = p)
    (lt : p < m.nextPid) (own : (m.seg p).pid = p)
    (fetch : fetch p { m with sched := account m.sched } = .ok (some f, w))
    (decoded : decode f.op = some op) (run : op.run p f.addr w = .ok (0, v)) :
    ∃ t : Store, runTick m = .ok (0, settled t.pager v) ∧ SameFrames v.store.pager t.pager := by
  subst cur
  obtain ⟨t, release, same⟩ := releaseWordref_total (v.seg m.sched.current) f.ic v.store
  refine ⟨t, ?_, same⟩
  have last : onMemory (releaseWordref (v.seg m.sched.current) f.ic) v =
      .ok ((), { v with store := t }) := by
    rw [onMemory, zoom, release]
  have done : tick m.sched.current { m with sched := account m.sched } =
      .ok (0, { v with store := t }) := by
    rw [tick, get_bind, if_neg (Nat.not_le.2 lt), if_neg (by exact not_not.2 own), bind_of_ok fetch]
    simp only [execute, decoded]
    rw [bind_of_ok run, get_bind, bind_of_ok last]
    rfl
  rw [runTick, modify_bind, get_bind]
  change (tick m.sched.current >>= _) { m with sched := account m.sched } = _
  rw [bind_of_ok done, if_neg (by simp), modify_bind, releaseWordref_rest release]
  rfl

omit [LawfulTree T] in
theorem tick_exec {m u : VM T} {p : ℕ} {a : ℤ} {text : List UInt8} {left : Stream}
    (k : Ticked m u p .EX a) (frames : Frames m.store.pager)
    (file : m.host.files (lowHalf (word m p (counter m p))) = some text)
    (mark : scanToken 7 ⟨text, false⟩ = (some brain10, left)) :
    0 ≤ counter m p ∧ counter m p ≠ 99 ∧ m.host.opened < m.host.limit ∧ ∃ x s g t,
      getWordref (m.seg p) (counter m p) m.store = .ok (some x, s) ∧ SameFrames s.pager g ∧
      ∃ n, (loadHeader left).1 = n ∧ 0 ≤ n ∧
        ((memalloc n m.holes).1 < 0 ∧ u = settled t (denied p n (opens (fetched p g m))) ∨
          0 ≤ (memalloc n m.holes).1 ∧ ∃ code ws, Reads m.host.buffer left n code ws ∧
            (∀ i < ws.length,
              0 ≤ getGlobalAddress ((resized p n (opens (fetched p g m))).seg p) (i : ℕ)) ∧
            SameFrames (loaded p n ws (opens (fetched p g m))).store.pager t ∧
            u = settled t (loaded p n ws (opens (fetched p g m)))) := by
  obtain ⟨v, x, s, t, parts⟩ := tick_parts k
  obtain ⟨valid, -⟩ := tick_counter k
  have run : execProc p a (fetched p s.pager m) = .ok (0, v) := parts.run
  have inner : counter m p ≠ 99 := by
    intro last
    rw [execProc, bind_of_ok (getExecFh_last last _)] at run
    cases (Prod.mk.inj (pure_ok.1 run)).1
  obtain ⟨g, same, opened⟩ := getExecFh_inner frames parts.fetch inner
  rw [execProc, bind_of_ok opened] at run
  have room : m.host.opened < m.host.limit := by
    by_contra full
    rw [fopen_full (Nat.not_lt.1 full)] at run
    cases (Prod.mk.inj (pure_ok.1 run)).1
  rw [fopen_found file room] at run
  refine ⟨valid, inner, room, x, s, g, t.pager, parts.fetch, same, ?_⟩
  obtain ⟨n, size, pos, ⟨refused, rfl⟩ | ⟨granted, code, ws, reads, inside, rfl⟩⟩ :=
    execFile_cases (m := opens (fetched p g m)) mark run
  · exact ⟨n, size, pos, .inl ⟨refused, parts.final⟩⟩
  · exact ⟨n, size, pos, .inr ⟨granted, code, ws, reads, inside,
      releaseWordref_sameFrames parts.release, parts.final⟩⟩

omit [LawfulTree T] in
/-- The tick of an EX that can open its file is what `exec_proc` does with it. -/
theorem next_exec {c : Config T} {a : ℤ} {text : List UInt8} (busy : 0 < c.vm.sched.nrRunning)
    (turn : c.i < schedGranularity) (lt : c.vm.sched.current < c.vm.nextPid)
    (own : (c.vm.seg c.vm.sched.current).pid = c.vm.sched.current)
    (frames : Frames c.vm.store.pager) (hp : pending c.vm = some (.EX, a))
    (file : c.vm.host.files (lowHalf (word c.vm c.vm.sched.current
      (counter c.vm c.vm.sched.current))) = some text)
    (inner : counter c.vm c.vm.sched.current ≠ 99) (room : c.vm.host.opened < c.vm.host.limit) :
    ∃ x s g,
      getWordref (c.vm.seg c.vm.sched.current) (counter c.vm c.vm.sched.current) c.vm.store =
        .ok (some x, s) ∧ SameFrames s.pager g ∧
      ∀ v, execFile c.vm.sched.current ⟨text, false⟩
          (opens (fetched c.vm.sched.current g c.vm)) = .ok (0, v) →
        ∃ t, next c = some (.instr c.vm.sched.current .EX a, ⟨settled t v, c.i + 1⟩) ∧
          SameFrames v.store.pager t := by
  obtain ⟨f, w, hf, hop, ha⟩ := pending_fetch hp
  obtain ⟨x, s, fetch, hf', rfl⟩ := fetch_eq hf
  obtain ⟨g, same, opened⟩ := getExecFh_inner frames fetch inner
  rw [fopen_found file room] at opened
  refine ⟨x, s, g, fetch, same, fun v run => ?_⟩
  have exec : Op.run .EX c.vm.sched.current f.addr (fetched c.vm.sched.current s.pager c.vm) =
      .ok (0, v) := (bind_of_ok opened).trans run
  obtain ⟨t, tick, last⟩ := runTick_run rfl lt own hf hop exec
  refine ⟨t.pager, ?_, last⟩
  rw [next, if_neg (by omega), if_pos turn, tick, hp]
  rfl

end
end BrainMachine.ExecSteps
