import BrainMachine.FailedCalls

set_option autoImplicit false

/-!
# EX against the boot loader

The boot loader skips the rest of the line of BRAIN10 and writes to blank memory of which nothing
is resident. EX does not skip the line, and its words go to recycled memory, past the frames of
the pages that are resident.
-/
namespace BrainMachine.ExecLoading
open Codec Computations Paging Stdio AddressSpace Instructions HoleList RunQueue Machine Loader
open Dispatch Effects Runs MachineRuns SortedTree WaitQueues References MachineMemory
open MemoryRelations ProcessImages TickSteps ProgramReading ExecSteps FailedCalls
open Isolation (word2int_int2word_small granted_seg)

section
variable {T : Type}

/-- What `load_file` reads of a text: its size follows on the line after the one of BRAIN10.
`load_code` finds `buf` in its buffer. -/
def BootReads (buf text : List UInt8) (n : ℕ) (ws : List Word) : Prop :=
  ∃ left line code, scanToken 7 ⟨text, false⟩ = (some brain10, left) ∧
    skipLine left.rest = some line ∧ Reads buf ⟨line, left.eof⟩ n code ws

def ExecReads (buf text : List UInt8) (n : ℕ) (ws : List Word) : Prop :=
  ∃ left code, scanToken 7 ⟨text, false⟩ = (some brain10, left) ∧ Reads buf left n code ws

structure Fresh (n : ℕ) (ws : List Word) (b : VM T) : Prop where
  small : n ≤ vaddrSize
  regs : ∀ g, b.regs 0 = resetRegs g
  limit : (b.seg 0).lr = int2word ((n : ℤ) - 1)
  words : ∀ i < n, word b 0 i = ws[i]?.getD zeros

theorem limit_eq {n : ℕ} (small : n ≤ vaddrSize) : word2int (int2word ((n : ℤ) - 1)) = n - 1 := by
  have size : vaddrSize = 10000 := rfl
  cases n with
  | zero => decide
  | succ n =>
    exact word2int_int2word_small (by omega) (by omega)

theorem fresh_of {m : VM T} {n : ℕ} {ws : List Word} {t : Sched T} (small : n ≤ vaddrSize)
    (seg : m.seg 0 = ⟨zeros, int2word ((n : ℤ) - 1), 0⟩) (regs : ∀ g, m.regs 0 = resetRegs g)
    (blank : ∀ v, m.store.pager.pageMem v = zeros) (absent : ∀ q, ¬m.store.pager.resident q) :
    Fresh n ws
      { stored (writeWords (base m 0) ws m.store.pager.pageMem) m with sched := t } := by
  have none : word2int zeros = 0 := by decide
  refine ⟨small, regs, congrArg Seg.lr seg, fun i hi => ?_⟩
  have bottom : base m 0 = 0 := by
    rw [base, seg, none]
    rfl
  have address : getGlobalAddress (m.seg 0) i = (i : ℤ) := by
    rw [seg, getGlobalAddress, if_neg (by omega)]
    simp only [limit_eq small]
    rw [none, if_neg (by omega), if_neg (by omega), Int.zero_add]
  have still : ∀ q, ¬({ stored (writeWords (base m 0) ws m.store.pager.pageMem) m with
      sched := t } : VM T).store.pager.resident q := absent
  refine (word_absent still 0 i).trans ?_
  change writeWords (base m 0) ws m.store.pager.pageMem (getGlobalAddress (m.seg 0) i).toNat = _
  have here := writeWords_at 0 i ws m.store.pager.pageMem
  rw [Nat.zero_add] at here
  rw [bottom, address, Int.toNat_natCast, here, blank]

variable [RedBlackTree T]

/-- `load_file` has accepted the text at boot and has made one process of it. Its `load_code` found
`buf` in the buffer. -/
structure Booted (buf text : List UInt8) (b : VM T) : Prop where
  accepted : ∃ pgSize average pager host rest, pagememInit pgSize average = some pager ∧
    host.buffer = buf ∧ loadFile ⟨text, false⟩ (startState pager host) = .ok ((0, rest), b)
  one : b.nextPid = 1

omit [RedBlackTree T] in
theorem first_block {n : ℕ} (block : 0 ≤ (memalloc (n : ℤ) (freemem 0 vaddrSize [])).1)
    (small : n < 2147483648) :
    n ≤ vaddrSize ∧ (memalloc (n : ℤ) (freemem 0 vaddrSize [])).1 = 0 := by
  obtain ⟨k, hk, address, -⟩ := memalloc_granted block
  obtain ⟨mem, large⟩ := chosen_some hk
  obtain rfl : k = ⟨0, 10000⟩ := List.mem_singleton.1 mem
  refine ⟨?_, address⟩
  have le := UInt32.le_iff_toNat_le.1 large
  rw [ofInt_toNat (by omega) (by omega)] at le
  exact le

theorem loadFileLoop_once {n : ℕ} {fh rest : Stream} {m u : VM T}
    (h : loadFileLoop n fh m = .ok ((0, rest), u)) (one : u.nextPid = 1) :
    ∃ k code ws t, Reads m.host.buffer fh k code ws ∧ 0 ≤ (memalloc k m.holes).1 ∧
      (∀ i < ws.length, 0 ≤ getGlobalAddress ((granted k m).seg m.nextPid) (i : ℕ)) ∧
      u = { stored (writeWords (base (granted k m) m.nextPid) ws m.store.pager.pageMem)
        (entered (granted k m)) with sched := t } := by
  cases n with
  | zero => exact (fault_ok.1 h).elim
  | succ n =>
    rw [loadFileLoop] at h
    rcases ite_ok.1 h with ⟨-, h⟩ | ⟨hn, h⟩
    · cases (Prod.mk.inj (pure_ok.1 h)).1
    · obtain ⟨p, w, hw, h⟩ := bind_ok.1 h
      rcases procalloc_ok hw with ⟨rfl, -⟩ | ⟨rfl, room, block, rfl⟩
      · cases (Prod.mk.inj (pure_ok.1 h)).1
      · obtain ⟨⟨code, stream⟩, x, hx, h⟩ := bind_ok.1 h
        rcases ite_ok.1 h with ⟨-, h⟩ | ⟨complete, h⟩
        · cases (Prod.mk.inj (pure_ok.1 h)).1
        · rw [loadCode_eq] at hx
          obtain ⟨ws, words, inside, rfl⟩ := loadCodeLoop_read hx complete
          obtain ⟨a, s, hs, h⟩ := onSched_bind h
          obtain ⟨b, t, ht, h⟩ := onSched_bind h
          refine ⟨(loadHeader fh).1, code, ws, t, ⟨rfl, by omega, words, complete⟩, block,
            fun i hi => ?_, ?_⟩
          · have valid := inside i hi
            rw [Nat.zero_add] at valid
            exact valid
          · rcases ite_ok.1 h with ⟨-, h⟩ | ⟨-, h⟩
            · -- a second turn would make a second process
              have more : m.nextPid + 1 < u.nextPid := (loadFileLoop_loads _ h).2
              omega
            · obtain ⟨-, rfl⟩ := Prod.mk.inj (pure_ok.1 h)
              rfl

theorem Booted.fresh {buf text : List UInt8} {b : VM T} (h : Booted buf text b) :
    ∃ n ws, BootReads buf text n ws ∧ Fresh n ws b := by
  have size : vaddrSize = 10000 := rfl
  obtain ⟨⟨pgSize, average, pager, host, rest, hp, rfl, run⟩, one⟩ := h
  rw [loadFile] at run
  rcases hs : scanToken 7 ⟨text, false⟩ with ⟨_ | tok, left⟩
  · simp only [hs] at run
    cases (Prod.mk.inj (pure_ok.1 run)).1
  · simp only [hs] at run
    by_cases mark : tok = brain10
    · subst tok
      rw [if_neg (by simp)] at run
      cases hl : skipLine left.rest with
      | none =>
        simp only [hl] at run
        exact (fault_ok.1 run).elim
      | some line =>
        simp only [hl] at run
        obtain ⟨k, code, ws, t, reads, block, inside, rfl⟩ := loadFileLoop_once run one
        obtain ⟨n, rfl⟩ := Int.eq_ofNat_of_zero_le reads.pos
        obtain ⟨small, zero⟩ := first_block block
          (by have := loadHeader_lt ⟨line, left.eof⟩; rw [reads.size] at this; omega)
        have seg : (granted (n : ℤ) (startState (T := T) pager host)).seg 0 =
            ⟨zeros, int2word ((n : ℤ) - 1), 0⟩ := by
          rw [granted_seg, if_pos (by exact rfl)]
          change (⟨int2word (memalloc (n : ℤ) (freemem 0 vaddrSize [])).1, _, _⟩ : Seg) = _
          rw [zero]
          rfl
        obtain ⟨blank, absent, -⟩ := pagememInit_blank hp
        exact ⟨n, ws, ⟨left, line, code, hs, hl, reads⟩,
          fresh_of (m := entered (granted (n : ℤ) (startState pager host))) small seg
            (fun _ => rfl) blank absent⟩
    · rw [if_pos mark] at run
      cases (Prod.mk.inj (pure_ok.1 run)).1

def Cached (m : VM T) (p v : ℕ) : Prop := ∃ x s,
  getWordref (m.seg p) (counter m p) m.store = .ok (x, s) ∧ s.pager.resident (v / s.pager.pgSize)

def Available (m : VM T) (n : ℤ) : Prop :=
  0 ≤ (memalloc n m.holes).1 ∧ (memalloc n m.holes).1 + n ≤ vaddrSize

instance (m : VM T) (n : ℤ) : Decidable (Available m n) := inferInstanceAs (Decidable (_ ∧ _))

def place (m : VM T) (n i : ℕ) : ℕ := (memalloc n m.holes).1.toNat + i

/-- EX reads a program of the size that the boot loader reads, and each of its words is the one
of the boot loader, which found `buf` in its buffer: the word that is in view already, for a page
in a frame, and otherwise the word that EX stores, or the one in view where it stores none. -/
def Suits (m : VM T) (p : ℕ) (buf text : List UInt8) : Prop :=
  ∃ n ws ws', BootReads buf text n ws ∧ ExecReads m.host.buffer text n ws' ∧ ws'.length ≤ n ∧
    ∀ i < n,
    (Cached m p (place m n i) → m.store.pager.view (place m n i) = ws[i]?.getD zeros) ∧
    (¬Cached m p (place m n i) →
      ws'[i]?.getD (m.store.pager.view (place m n i)) = ws[i]?.getD zeros)

structure Alike (u b : VM T) (p : ℕ) : Prop where
  regs : u.regs p = b.regs 0
  limit : (u.seg p).lr = (b.seg 0).lr
  words : ∀ a, 0 ≤ a → a ≤ word2int (b.seg 0).lr → word u p a = word b 0 a

def Agrees (c : Config T) (a : ℤ) (b : VM T) : Prop :=
  ∃ u, next c = some (.instr c.vm.sched.current .EX a, ⟨u, c.i + 1⟩) ∧ Alike u b c.vm.sched.current

omit [RedBlackTree T] in
theorem resized_base {m : VM T} {p n b : ℕ} (block : (memalloc n m.holes).1 = b)
    (low : b < vaddrSize) : base (resized p n m) p = b := by
  have size : vaddrSize = 10000 := rfl
  rw [base, resized_seg, if_pos rfl, block]
  dsimp only
  rw [word2int_int2word_small (by omega) (by omega)]
  rfl

omit [RedBlackTree T] in
theorem resized_inside {m : VM T} {p n i b : ℕ} (block : (memalloc n m.holes).1 = b)
    (top : b + n ≤ vaddrSize) (hi : i < n) :
    getGlobalAddress ((resized p n m).seg p) i = ((b + i : ℕ) : ℤ) := by
  have size : vaddrSize = 10000 := rfl
  have bottom : word2int (int2word (b : ℤ)) = b := word2int_int2word_small (by omega) (by omega)
  have limit := limit_eq (n := n) (by omega)
  rw [resized_seg, if_pos rfl, block,
    address_of_range (by rw [bottom]; omega) (by omega) (by rw [limit]; omega), bottom]
  omega

omit [RedBlackTree T] in
theorem placed_view {m : VM T} {n i b : ℕ} (p : ℕ) (ws : List Word)
    (block : (memalloc n m.holes).1 = b) (top : b + n ≤ vaddrSize) (hi : i < n) :
    (m.store.pager.resident ((b + i) / m.store.pager.pgSize) →
      (placed p n ws m).store.pager.view (b + i) = m.store.pager.view (b + i)) ∧
    (¬m.store.pager.resident ((b + i) / m.store.pager.pgSize) →
      (placed p n ws m).store.pager.view (b + i) =
        ws[i]?.getD (m.store.pager.view (b + i))) := by
  have pager : (placed p n ws m).store.pager =
      { m.store.pager with pageMem := writeWords b ws m.store.pager.pageMem } := by
    have store : (entered (resized p n m)).store = m.store := resized_store p n m
    rw [placed, resized_base block (by omega), stored]
    dsimp only
    rw [store]
  rw [pager]
  constructor
  · intro res
    refine (view_resident (s := { m.store.pager with
      pageMem := writeWords b ws m.store.pager.pageMem }) res).trans ?_
    exact (view_resident res).symm
  · intro res
    refine (view_absent (s := { m.store.pager with
      pageMem := writeWords b ws m.store.pager.pageMem }) res).trans ?_
    rw [view_absent res]
    exact writeWords_at b i ws m.store.pager.pageMem

def Bounded (holes : List Hole) : Prop := ∀ k ∈ holes, k.size.toNat ≤ vaddrSize

theorem Bounded.memalloc {holes : List Hole} (h : Bounded holes) (n : ℤ) :
    Bounded (memalloc n holes).2 := by
  intro k hk
  obtain ⟨x, hx, same⟩ := memalloc_sizes n holes k hk
  rw [same]
  exact h x hx

omit [RedBlackTree T] in
theorem Bounded.freeSpace {m : VM T} (h : Bounded m.holes) (q : Seg) :
    Bounded (m.freeSpace q).holes := by
  have size : vaddrSize = 10000 := rfl
  rw [freeSpace_holes]
  split
  · exact h
  · rename_i numeric
    intro k hk
    rcases (addHole_mem _ _ _ k).1 hk with rfl | hk
    · dsimp only
      obtain none | ⟨-, lt⟩ := word2int_bounds q.lr
      · omega
      · rw [ofInt_toNat (by omega) (by omega)]
        omega
    · exact h k hk

theorem Bounded.effect {m u : VM T} {p : ℕ} {op : Op} {a : ℤ} (k : Effect p m u op a)
    (h : Bounded m.holes) : Bounded u.holes := by
  cases k with
  | quiet op a l => rw [l.holes]; exact h
  | recvBlock a c ha none frame => rw [frame.holes]; exact h
  | recvTake a c s some frame => rw [frame.holes]; exact h
  | sendAlone a c ha alone frame => rw [frame.holes]; exact h
  | sendWake a c d s ha waits frame => rw [frame.holes]; exact h
  | downBlock a c ha frame => rw [frame.holes]; exact h
  | upWake a c w l ha head frame => rw [frame.holes]; exact h
  | fork a c d n s hn pos room granted nextPid holes => rw [holes]; exact h.memalloc n
  | execNone a n refused l => rw [l.holes]; exact h.memalloc n
  | execGrant a n hn granted l =>
    rw [l.holes]
    have taken : Bounded ({ m with holes := (HoleList.memalloc n m.holes).2 } : VM T).holes :=
      h.memalloc n
    exact taken.freeSpace (m.seg p)
  | halt a c d s frame => rw [frame.holes]; exact h.freeSpace (m.seg p)

theorem load_bounded {start u : VM T} (h : Loads start u) (k : Bounded start.holes) :
    Bounded u.holes := by
  induction h with
  | start => exact k
  | turn w n a b f s t hl hn small room block reset resume ih => exact ih.memalloc n

theorem execution_bounded (e : Execution T) (n : ℕ) (hn : n ≤ e.len) : Bounded (e.vm n).holes := by
  refine e.invariant (fun m => Bounded m.holes) (fun pager u fh hp hu => ?_)
    (fun m s _ h _ => h) (fun m u op a _ h k => Bounded.effect k.effect h) n hn
  have bounded : Bounded u.holes := by
    refine load_bounded hu fun k hk => ?_
    rw [List.mem_singleton.1 hk]
    decide
  exact bounded

omit [RedBlackTree T] in
theorem bootReads_inj {buf text : List UInt8} {n k : ℕ} {ws vs : List Word}
    (h : BootReads buf text n ws) (h' : BootReads buf text k vs) : n = k ∧ ws = vs := by
  obtain ⟨left, line, code, mark, skipped, reads⟩ := h
  obtain ⟨left', line', code', mark', skipped', reads'⟩ := h'
  obtain ⟨-, rfl⟩ := Prod.mk.inj (mark.symm.trans mark')
  obtain rfl := Option.some.inj (skipped.symm.trans skipped')
  obtain ⟨-, rfl⟩ := Prod.mk.inj (Option.some.inj (reads.words.symm.trans reads'.words))
  exact ⟨Int.natCast_inj.1 (reads.size.symm.trans reads'.size), rfl⟩

omit [RedBlackTree T] in
theorem cached_iff {m : VM T} {p v : ℕ} {x : Option ℕ} {s : Store}
    (fetch : getWordref (m.seg p) (counter m p) m.store = .ok (x, s)) :
    Cached m p v ↔ s.pager.resident (v / s.pager.pgSize) := by
  constructor
  · rintro ⟨y, t, fetch', res⟩
    obtain ⟨-, rfl⟩ := Prod.mk.inj (Except.ok.inj (fetch.symm.trans fetch'))
    exact res
  · exact fun res => ⟨x, s, fetch, res⟩

instance (m : VM T) (p v : ℕ) : Decidable (Cached m p v) :=
  match fetch : getWordref (m.seg p) (counter m p) m.store with
  | .ok (_, s) => decidable_of_iff ((s.pager.pgTable (v / s.pager.pgSize)).valid = true)
    (cached_iff fetch).symm
  | .error _ => .isFalse fun h => by
    obtain ⟨x, s, fetch', -⟩ := h
    cases fetch.symm.trans fetch'

omit [RedBlackTree T] in
theorem loaded_word {m : VM T} {p n i x : ℕ} {s : Store} {g t : Pager} (ws : List Word)
    (frames : Frames m.store.pager)
    (fetch : getWordref (m.seg p) (counter m p) m.store = .ok (some x, s))
    (same : SameFrames s.pager g)
    (last : SameFrames (loaded p n ws (opens (fetched p g m))).store.pager t)
    (room : Available m n) (hi : i < n) :
    (Cached m p (place m n i) → word (settled t (loaded p n ws (opens (fetched p g m)))) p i =
      m.store.pager.view (place m n i)) ∧
    (¬Cached m p (place m n i) → word (settled t (loaded p n ws (opens (fetched p g m)))) p i =
      ws[i]?.getD (m.store.pager.view (place m n i))) := by
  have size : vaddrSize = 10000 := rfl
  obtain ⟨granted, top⟩ := room
  obtain ⟨b, hb⟩ := Int.eq_ofNat_of_zero_le granted
  have spot : place m n i = b + i := by
    rw [place, hb]
    rfl
  have touched := touchPageBy_touched getRemovalPage_victims frames (getWordref_touch fetch).2
  have view (v : ℕ) : g.view v = m.store.pager.view v := (same.view v).trans (touched.view v)
  have cached : Cached m p (b + i) ↔ g.resident ((b + i) / g.pgSize) := by
    rw [cached_iff fetch, same.size, Pager.resident, Pager.resident, same.valid]
  have seg : (settled t (loaded p n ws (opens (fetched p g m)))).seg p =
      (resized p n (opens (fetched p g m))).seg p := setCore_seg p p _ _
  have address : getGlobalAddress ((settled t (loaded p n ws (opens (fetched p g m)))).seg p) i =
      ((b + i : ℕ) : ℤ) := by
    rw [seg]
    exact resized_inside hb (by omega) hi
  rw [word, address, Int.toNat_natCast, spot, cached, ← view]
  have shown := last.view (b + i)
  obtain ⟨kept, stored⟩ := placed_view (m := opens (fetched p g m)) p ws hb (by omega) hi
  exact ⟨fun res => shown.trans (kept res), fun res => shown.trans (stored res)⟩

theorem exec_agrees {c : Config T} {a : ℤ} {b : VM T} {text : List UInt8} {k : ℕ}
    {ws vs : List Word} (busy : 0 < c.vm.sched.nrRunning) (turn : c.i < schedGranularity)
    (lt : c.vm.sched.current < c.vm.nextPid)
    (own : (c.vm.seg c.vm.sched.current).pid = c.vm.sched.current)
    (frames : Frames c.vm.store.pager) (hp : pending c.vm = some (.EX, a))
    (file : named c.vm c.vm.sched.current = some text) (fresh : Fresh k ws b)
    (room : Available c.vm k) (inner : counter c.vm c.vm.sched.current ≠ 99)
    (files : c.vm.host.opened < c.vm.host.limit)
    (exec : ExecReads c.vm.host.buffer text k vs) (fits : vs.length ≤ k)
    (suits : ∀ i < k,
      (Cached c.vm c.vm.sched.current (place c.vm k i) →
        c.vm.store.pager.view (place c.vm k i) = ws[i]?.getD zeros) ∧
      (¬Cached c.vm c.vm.sched.current (place c.vm k i) →
        vs[i]?.getD (c.vm.store.pager.view (place c.vm k i)) = ws[i]?.getD zeros)) :
    Agrees c a b := by
  obtain ⟨left, code, mark, reads⟩ := exec
  obtain ⟨x, s, g, fetch, same, run⟩ := next_exec busy turn lt own frames hp file inner files
  obtain ⟨v, hv⟩ := Int.eq_ofNat_of_zero_le room.1
  have top : v + k ≤ vaddrSize := by
    have := room.2
    omega
  have block : (memalloc k (opens (fetched c.vm.sched.current g c.vm)).holes).1 = v := hv
  obtain ⟨t, step, last⟩ := run _ (execFile_granted mark reads room.1 fun i hi => by
    rw [resized_inside block top (by omega), resized_base block (by omega)]
    exact ⟨Int.natCast_nonneg _, by omega⟩)
  refine ⟨_, step, ?_, ?_, fun d h0 hl => ?_⟩
  · exact (loaded_regs _ _ _ _).trans (fresh.regs _).symm
  · rw [fresh.limit]
    exact congrArg Seg.lr (loaded_seg c.vm.sched.current k vs _)
  · rw [fresh.limit, limit_eq fresh.small] at hl
    obtain ⟨i, rfl⟩ := Int.eq_ofNat_of_zero_le h0
    have hi : i < k := by omega
    obtain ⟨kept, stored⟩ := loaded_word vs frames fetch same last room hi
    rw [fresh.words i hi]
    by_cases cached : Cached c.vm c.vm.sched.current (place c.vm k i)
    · exact (kept cached).trans ((suits i hi).1 cached)
    · exact (stored cached).trans ((suits i hi).2 cached)

omit [RedBlackTree T] in
/-- A block that was granted is no larger than secondary storage. -/
theorem granted_small {holes : List Hole} {n : ℕ} (h : Bounded holes)
    (granted : 0 ≤ (memalloc (n : ℤ) holes).1) (lt : n < 2147483648) : n ≤ vaddrSize := by
  obtain ⟨k, hk, -⟩ := memalloc_granted granted
  obtain ⟨mem, large⟩ := chosen_some hk
  have le := UInt32.le_iff_toNat_le.1 large
  rw [ofInt_toNat (by omega) (by omega)] at le
  exact le.trans (h k mem)

omit [RedBlackTree T] in
theorem words_fit {m : VM T} {p n : ℕ} {ws : List Word} (small : n ≤ vaddrSize)
    (inside : ∀ i < ws.length, 0 ≤ getGlobalAddress ((resized p n m).seg p) (i : ℕ)) :
    ws.length ≤ n := by
  by_contra long
  obtain ⟨-, -, le, -⟩ := address_range (inside n (by omega))
  have limit : ((resized p n m).seg p).lr = int2word ((n : ℤ) - 1) := by
    rw [resized_seg, if_pos rfl]
  rw [limit, limit_eq small] at le
  omega

/-- What an EX that makes its process like a booted one has read and stored. -/
theorem exec_suits {m u b : VM T} {p l : ℕ} {a : ℤ} {text : List UInt8} {left : Stream}
    {ws : List Word} (k : Ticked m u p .EX a) (frames : Frames m.store.pager)
    (bounded : Bounded m.holes) (file : named m p = some text)
    (mark : scanToken 7 ⟨text, false⟩ = (some brain10, left)) (fresh : Fresh l ws b)
    (room : Available m l) (alike : Alike u b p) :
    counter m p ≠ 99 ∧ m.host.opened < m.host.limit ∧
      ∃ vs, ExecReads m.host.buffer text l vs ∧ vs.length ≤ l ∧ ∀ i < l,
      (Cached m p (place m l i) → m.store.pager.view (place m l i) = ws[i]?.getD zeros) ∧
      (¬Cached m p (place m l i) →
        vs[i]?.getD (m.store.pager.view (place m l i)) = ws[i]?.getD zeros) := by
  obtain ⟨valid, inner, files, x, s, g, t, fetch, same, n, size, pos,
    ⟨-, final⟩ | ⟨granted, code, vs, reads, inside, last, final⟩⟩ := tick_exec k frames file mark
  · -- a refused block leaves the counter where it is, and a booted process starts at 0
    have regs : u.regs p = { advance (m.regs p) with r := zeros } := by
      rw [final]
      refine (denied_regs p n _).trans ?_
      rw [opens_regs, fetched_regs]
    exact absurd (congrArg Regs.ic (regs.symm.trans (alike.regs.trans (fresh.regs (m.regs p)))))
      (advance_inner valid inner)
  · obtain ⟨n, rfl⟩ := Int.eq_ofNat_of_zero_le pos
    have small : n ≤ vaddrSize := by
      have lt := loadHeader_lt left
      exact granted_small bounded granted (by omega)
    have limit : (u.seg p).lr = int2word ((n : ℤ) - 1) := by
      rw [final]
      exact congrArg Seg.lr (loaded_seg p n vs _)
    have equal := congrArg word2int (limit.symm.trans (alike.limit.trans fresh.limit))
    rw [limit_eq small, limit_eq fresh.small] at equal
    obtain rfl : n = l := by omega
    refine ⟨inner, files, vs, ⟨left, code, mark, reads⟩, words_fit small inside, fun i hi => ?_⟩
    obtain ⟨kept, stored⟩ := loaded_word vs frames fetch same last room hi
    have here := alike.words i (Int.natCast_nonneg i) (by rw [fresh.limit, limit_eq small]; omega)
    rw [fresh.words i hi, final] at here
    exact ⟨fun cached => (kept cached).symm.trans here,
      fun absent => (stored absent).symm.trans here⟩

variable [LawfulTree T]

/-- EX makes its process like a freshly booted one exactly when it can read its name and open its
file, and the text suits the memory that it goes to. -/
theorem agrees_iff (e : Execution T) (n : ℕ) (a : ℤ) (hn : n ≤ e.len)
    (busy : 0 < (e.vm n).sched.nrRunning) (turn : (e.st n).i < schedGranularity)
    (hp : pending (e.vm n) = some (.EX, a)) (text : List UInt8)
    (file : named (e.vm n) (e.vm n).sched.current = some text) (buf : List UInt8) (b : VM T)
    (booted : Booted buf text b) (room : Available (e.vm n) (word2int (b.seg 0).lr + 1)) :
    Agrees (e.st n) a b ↔ counter (e.vm n) (e.vm n).sched.current ≠ 99 ∧
      (e.vm n).host.opened < (e.vm n).host.limit ∧
      Suits (e.vm n) (e.vm n).sched.current buf text := by
  have size : vaddrSize = 10000 := rfl
  have lt := (execution_sane e n hn).current busy
  have own := execution_own e n hn _ lt
  have frames := execution_frames e n hn
  obtain ⟨k, ws, reads, fresh⟩ := booted.fresh
  have limit : word2int (b.seg 0).lr = (k : ℤ) - 1 := by
    rw [fresh.limit, limit_eq fresh.small]
  rw [limit, Int.sub_add_cancel] at room
  constructor
  · rintro ⟨u, step, alike⟩
    obtain ⟨-, ⟨op', a', lab, -, -, t⟩ | ⟨lab, -⟩⟩ := next_cases step
    · obtain ⟨-, rfl, rfl⟩ := Label.instr.inj lab
      have ⟨left, line, code, mark, _⟩ := reads
      obtain ⟨inner, files, vs, exec, fits, suits⟩ :=
        exec_suits t frames (execution_bounded e n hn) file mark fresh room alike
      exact ⟨inner, files, k, ws, vs, reads, exec, fits, suits⟩
    · cases lab
  · rintro ⟨inner, files, k', ws', vs, reads', exec, fits, suits⟩
    obtain ⟨rfl, rfl⟩ := bootReads_inj reads' reads
    exact exec_agrees busy turn lt own frames hp file fresh room inner files exec fits suits

def bootText (text : List UInt8) : Option (VM ListTree) :=
  (pagememInit 100 halfWeight).bind fun pager =>
    match loadFile ⟨text, false⟩ (startState pager bareHost) with
    | .ok ((0, _), u) => some u
    | _ => none

theorem bootText_booted {text : List UInt8} {b : VM ListTree} (h : bootText text = some b)
    (one : b.nextPid = 1) : Booted bareHost.buffer text b := by
  obtain ⟨pager, hp, h⟩ := Option.bind_eq_some_iff.1 h
  split at h
  · rename_i rest u loaded
    cases h
    exact ⟨⟨100, halfWeight, pager, _, rest, hp, rfl, loaded⟩, one⟩
  · cases h

def oneWordBoot : VM ListTree := (bootText oneWordText).get (by decide +kernel)

theorem oneWordBoot_booted : Booted bareHost.buffer oneWordText oneWordBoot :=
  bootText_booted (Option.some_get _).symm (by decide +kernel)

def oneWord : List Word := [⟨72, 65, 48, 48⟩]

theorem oneWord_boots : BootReads bareHost.buffer oneWordText 1 oneWord :=
  ⟨⟨bytes "\n1\nHA00\nDATA\n", false⟩, bytes "1\nHA00\nDATA\n", 1, by decide, by decide,
    by decide, by decide, by decide, by decide⟩

theorem oneWord_executes : ExecReads bareHost.buffer oneWordText 1 oneWord :=
  ⟨⟨bytes "\n1\nHA00\nDATA\n", false⟩, 1, by decide, by decide, by decide, by decide, by decide⟩

def wholePageRun : Execution ListTree :=
  execution 100 halfWeight (hostOf oneWordText) (bytes "BRAIN10\n100\nEXAA\nDATA\n") 0
    (by decide +kernel) (by decide +kernel)

theorem wholePageRun_agrees : Agrees (wholePageRun.st 0) (-1) oneWordBoot := by
  apply (agrees_iff wholePageRun 0 (-1) le_rfl (by decide +kernel) (by decide +kernel)
    (by decide +kernel) oneWordText (by decide +kernel) bareHost.buffer oneWordBoot
    oneWordBoot_booted (by decide +kernel)).2
  have buffer : (wholePageRun.vm 0).host.buffer = bareHost.buffer := by decide +kernel
  have executes : ExecReads (wholePageRun.vm 0).host.buffer oneWordText 1 oneWord := by
    rw [buffer]
    exact oneWord_executes
  refine ⟨by decide +kernel, by decide +kernel, 1, oneWord, oneWord, oneWord_boots, executes,
    le_rfl, fun i hi => ?_⟩
  obtain rfl : i = 0 := by omega
  have absent : ¬Cached (wholePageRun.vm 0) (wholePageRun.vm 0).sched.current
      (place (wholePageRun.vm 0) (1 : ℕ) 0) := by
    decide +kernel
  have stored : oneWord[0]? = some ⟨72, 65, 48, 48⟩ := by decide
  refine ⟨fun cached => absurd cached absent, fun _ => ?_⟩
  rw [stored, Option.getD_some, Option.getD_some]

def sharedPageRun : Execution ListTree :=
  execution 100 halfWeight (hostOf oneWordText) (bytes "BRAIN10\n1\nEXAA\nDATA\n") 0
    (by decide +kernel) (by decide +kernel)

/-- The block is on the page that is in a frame, and the word is not seen there. -/
theorem sharedPageRun_disagrees :
    pending (sharedPageRun.vm 0) = some (.EX, -1) ∧
    named (sharedPageRun.vm 0) (sharedPageRun.vm 0).sched.current = some oneWordText ∧
    Booted bareHost.buffer oneWordText oneWordBoot ∧
    Available (sharedPageRun.vm 0) (word2int (oneWordBoot.seg 0).lr + 1) ∧
    ¬Agrees (sharedPageRun.st 0) (-1) oneWordBoot := by
  refine ⟨by decide +kernel, by decide +kernel, oneWordBoot_booted, by decide +kernel, ?_⟩
  rintro ⟨u, step, alike⟩
  have seen : (next (sharedPageRun.st 0)).map (fun c => word c.2.vm 0 0) = some zeros := by
    decide +kernel
  have expected : word oneWordBoot 0 0 = ⟨72, 65, 48, 48⟩ := by decide +kernel
  have current : (sharedPageRun.st 0).vm.sched.current = 0 := by decide +kernel
  have here := alike.words 0 le_rfl (by decide +kernel)
  rw [current, expected] at here
  rw [step, Option.map_some, here] at seen
  cases seen

end
end BrainMachine.ExecLoading
