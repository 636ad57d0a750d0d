import Mathlib.Logic.Relation
import BrainMachine.LoaderFormat

set_option autoImplicit false

/-!
# Where the loader ends

`load_file` and `load_code` leave a line by reading on to its newline, and at the end of the text
`fgetc` answers EOF for ever. The loader ends on a text if and only if every line of which it
takes a token is terminated, and every word that it stores goes to secondary storage.
-/
namespace BrainMachine.LoaderTermination
open Codec Computations Paging Stdio AddressSpace Instructions HoleList RunQueue Machine Loader
open Dispatch Effects MachineRuns MachineMemory ProgramText ProgramReading LoaderFormat SortedTree
open Fairness
open Relation

theorem skipLine_none {s : List UInt8} : skipLine s = none ↔ Inline s := by
  induction s with
  | nil => exact iff_of_true rfl List.not_mem_nil
  | cons c s ih =>
    rw [skipLine]
    by_cases hc : c = 10
    · rw [if_pos hc, hc]
      exact iff_of_false (by simp) fun h => h List.mem_cons_self
    · rw [if_neg hc, ih, Inline, Inline, List.mem_cons, not_or]
      exact ⟨fun h => ⟨fun he => hc he.symm, h⟩, And.right⟩

theorem skipLine_shorter {s rest : List UInt8} (h : skipLine s = some rest) :
    rest.length < s.length := by
  induction s with
  | nil => cases h
  | cons c s ih =>
    rw [skipLine] at h
    rw [List.length_cons]
    split at h
    · obtain rfl := Option.some.inj h
      omega
    · have := ih h
      omega

theorem scanToken_shorter {n : ℕ} {s t : Stream} {tok : List UInt8}
    (h : scanToken n s = (some tok, t)) : t.rest.length ≤ s.rest.length := by
  rw [scanToken] at h
  have drop := (List.dropWhile_sublist isspace (l := s.rest)).length_le
  dsimp only at h
  split at h
  · cases (Prod.mk.inj h).1
  · obtain ⟨-, rfl⟩ := Prod.mk.inj h
    rw [List.length_drop]
    omega

theorem loadHeader_shorter (fh : Stream) : (loadHeader fh).2.rest.length ≤ fh.rest.length := by
  have drop := (List.dropWhile_sublist isspace (l := fh.rest)).length_le
  have scanned : (scanUnsigned fh).2.rest.length ≤ fh.rest.length := by
    rw [scanUnsigned]
    rw [List.length_drop]
    cases hr : fh.rest.dropWhile isspace with
    | nil => simp
    | cons c cs =>
      rw [hr, List.length_cons] at drop
      dsimp only
      split
      · dsimp only
        omega
      · split
        · dsimp only
          omega
        · rw [List.length_cons]
          omega
  unfold loadHeader
  split
  · rename_i he
    rw [he] at scanned
    exact scanned
  · rename_i he
    rw [he] at scanned
    exact scanned

section
variable {α : Type} {r : α → α → Prop} {P : α → Prop} {c : α}

theorem reach_last (last : ∀ d, ¬r c d) : (∀ d, ReflTransGen r c d → P d) ↔ P c := by
  refine ⟨fun h => h c .refl, fun h d reach => ?_⟩
  rcases reach.cases_head with rfl | ⟨e, first, -⟩
  · exact h
  · exact absurd first (last e)

/-- What holds of all that is reached, along the one step there is. -/
theorem reach_next {d : α} (next : ∀ e, r c e ↔ e = d) :
    (∀ e, ReflTransGen r c e → P e) ↔ P c ∧ ∀ e, ReflTransGen r d e → P e := by
  constructor
  · intro h
    exact ⟨h c .refl, fun e reach => h e (.head ((next d).2 rfl) reach)⟩
  · rintro ⟨here, rest⟩ e reach
    rcases reach.cases_head with rfl | ⟨f, first, reach⟩
    · exact here
    · obtain rfl := (next f).1 first
      exact rest e reach

end

structure Cursor where
  addr : ℕ
  fh : Stream

structure Stores (p : Seg) (c : Cursor) (tok : List UInt8) : Prop where
  header : tok ≠ brain10
  data : tok.take 4 ≠ dataMark
  inside : 0 ≤ getGlobalAddress p c.addr

def Follows (p : Seg) (c d : Cursor) : Prop :=
  ∃ tok s rest, scanToken 7 c.fh = (some tok, s) ∧ skipLine s.rest = some rest ∧
    Stores p c tok ∧ d = ⟨c.addr + 1, ⟨rest, s.eof⟩⟩

/-- The line at the cursor is terminated, and a word in it goes to secondary storage. -/
def Sound (p : Seg) (c : Cursor) : Prop :=
  ∀ tok s, scanToken 7 c.fh = (some tok, s) → ¬Inline s.rest ∧
    (Stores p c tok → (getGlobalAddress p c.addr).toNat < vaddrSize)

def CodeSound (p : Seg) (fh : Stream) : Prop :=
  ∀ c, ReflTransGen (Follows p) ⟨0, fh⟩ c → Sound p c

def NextHeader (p : Seg) (c : Cursor) (next : Stream) : Prop :=
  ∃ d s rest, ReflTransGen (Follows p) c d ∧ scanToken 7 d.fh = (some brain10, s) ∧
    skipLine s.rest = some rest ∧ next = ⟨rest, s.eof⟩

theorem nextHeader_next {p : Seg} {c d : Cursor} {next : Stream} {tok : List UInt8} {s : Stream}
    (line : scanToken 7 c.fh = (some tok, s)) (other : tok ≠ brain10)
    (follows : ∀ e, Follows p c e ↔ e = d) : NextHeader p c next ↔ NextHeader p d next := by
  constructor
  · rintro ⟨e, t, rest, reach, header, skip, he⟩
    rcases reach.cases_head with rfl | ⟨f, first, reach⟩
    · rw [line] at header
      exact absurd (Option.some.inj (Prod.mk.inj header).1) other
    · obtain rfl := (follows f).1 first
      exact ⟨e, t, rest, reach, header, skip, he⟩
  · rintro ⟨e, t, rest, reach, header, skip, he⟩
    exact ⟨e, t, rest, .head ((follows d).2 rfl) reach, header, skip, he⟩

theorem nextHeader_last {p : Seg} {c : Cursor} {next : Stream} (last : ∀ d, ¬Follows p c d) :
    NextHeader p c next ↔ ∃ s rest, scanToken 7 c.fh = (some brain10, s) ∧
      skipLine s.rest = some rest ∧ next = ⟨rest, s.eof⟩ := by
  constructor
  · rintro ⟨d, s, rest, reach, header⟩
    rcases reach.cases_head with rfl | ⟨e, first, -⟩
    · exact ⟨s, rest, header⟩
    · exact absurd first (last e)
  · rintro ⟨s, rest, header⟩
    exact ⟨c, s, rest, .refl, header⟩

theorem Follows.shorter {p : Seg} {c d : Cursor} (h : Follows p c d) :
    d.fh.rest.length < c.fh.rest.length := by
  obtain ⟨tok, s, rest, line, skip, -, rfl⟩ := h
  exact Nat.lt_of_lt_of_le (skipLine_shorter skip) (scanToken_shorter line)

theorem NextHeader.shorter {p : Seg} {c : Cursor} {next : Stream} (h : NextHeader p c next) :
    next.rest.length < c.fh.rest.length := by
  obtain ⟨d, s, rest, reach, line, skip, rfl⟩ := h
  have last : rest.length < d.fh.rest.length :=
    Nat.lt_of_lt_of_le (skipLine_shorter skip) (scanToken_shorter line)
  have before : d.fh.rest.length ≤ c.fh.rest.length := by
    clear line last
    induction reach with
    | refl => exact le_rfl
    | tail _ step ih => exact step.shorter.le.trans ih
  exact last.trans_le before

section
variable {T : Type}

theorem pageStore_outside {pid a : ℕ} {m : VM T} (h : getGlobalAddress (m.seg pid) a < 0)
    (w : Word) : onMemory (pageStore (m.seg pid) w a) m = .ok (-1, m) := by
  rw [onMemory, zoom, pageStore, if_pos h]
  rfl

theorem pageStore_inside {pid a : ℕ} {m : VM T} (h : 0 ≤ getGlobalAddress (m.seg pid) a)
    (top : (getGlobalAddress (m.seg pid) a).toNat < vaddrSize) (w : Word) :
    ∃ f, onMemory (pageStore (m.seg pid) w a) m = .ok (0, stored f m) := by
  rw [onMemory, zoom, pageStore, if_neg (not_lt.2 h), if_pos top]
  exact ⟨_, rfl⟩

theorem pageStore_past {pid a : ℕ} {m : VM T} (h : 0 ≤ getGlobalAddress (m.seg pid) a)
    (past : ¬(getGlobalAddress (m.seg pid) a).toNat < vaddrSize) (w : Word) :
    onMemory (pageStore (m.seg pid) w a) m = .error .undefined := by
  rw [onMemory, zoom, pageStore, if_neg (not_lt.2 h), if_neg past]
  rfl

/-- What one line makes of the loop of `load_code`: the loop ends there, it goes on at the next
line, or it fails at a line that is not sound. -/
inductive Turn (p : Seg) (k pid : ℕ) (c : Cursor) (m : VM T) :
    Except Fault ((ℤ × Stream) × VM T) → Prop
  | last (code : ℤ) (s : Stream) (sound : Sound p c) (none : ∀ d, ¬Follows p c d)
      (header : ∀ next, NextHeader p c next ↔ code = 0 ∧ next = s) :
      Turn p k pid c m (.ok ((code, s), m))
  | next (buf : List UInt8) (f : ℕ → Word) (s : Stream) (shorter : s.rest.length < c.fh.rest.length)
      (sound : Sound p c) (one : ∀ d, Follows p c d ↔ d = ⟨c.addr + 1, s⟩)
      (header : ∀ next, NextHeader p c next ↔ NextHeader p ⟨c.addr + 1, s⟩ next) :
      Turn p k pid c m (loadCodeLoop pid k buf (c.addr + 1) s (stored f m))
  | fails (e : Fault) (sound : ¬Sound p c) : Turn p k pid c m (.error e)

theorem loadCodeLoop_turn (pid k a : ℕ) (buf : List UInt8) (fh : Stream) (m : VM T) :
    Turn (m.seg pid) k pid ⟨a, fh⟩ m (loadCodeLoop pid (k + 1) buf a fh m) := by
  rw [loadCodeLoop]
  rcases hs : scanToken 7 fh with ⟨_ | tok, s⟩
  · have none : ∀ d, ¬Follows (m.seg pid) ⟨a, fh⟩ d := by
      rintro d ⟨tok, t, rest, line, -⟩
      cases hs.symm.trans line
    refine .last (-1) s (fun tok t line => ?_) none fun next => ?_
    · cases hs.symm.trans line
    · rw [nextHeader_last none]
      refine iff_of_false ?_ (by simp)
      rintro ⟨t, rest, line, -⟩
      cases hs.symm.trans line
  · have here {tok' : List UInt8} {t : Stream} (line : scanToken 7 fh = (some tok', t)) :
        tok' = tok ∧ t = s := by
      obtain ⟨he, rfl⟩ := Prod.mk.inj (line.symm.trans hs)
      exact ⟨Option.some.inj he, rfl⟩
    dsimp only
    cases hl : skipLine s.rest with
    | none => exact .fails _ fun sound => (sound tok s hs).1 (skipLine_none.1 hl)
    | some rest =>
      have inline : ¬Inline s.rest := by
        intro h
        rw [skipLine_none.2 h] at hl
        cases hl
      have follows (d : Cursor) : Follows (m.seg pid) ⟨a, fh⟩ d ↔
          Stores (m.seg pid) ⟨a, fh⟩ tok ∧ d = ⟨a + 1, ⟨rest, s.eof⟩⟩ := by
        constructor
        · rintro ⟨tok', t, rest', line, skip, stores, rfl⟩
          obtain ⟨rfl, rfl⟩ := here line
          obtain rfl := Option.some.inj (hl.symm.trans skip)
          exact ⟨stores, rfl⟩
        · rintro ⟨stores, rfl⟩
          exact ⟨tok, s, rest, hs, hl, stores, rfl⟩
      have last (code : ℤ) (stop : ¬Stores (m.seg pid) ⟨a, fh⟩ tok)
          (zero : code = 0 ↔ tok = brain10) : Turn (m.seg pid) k pid ⟨a, fh⟩ m
            (.ok ((code, ⟨rest, s.eof⟩), m)) := by
        have none (d : Cursor) : ¬Follows (m.seg pid) ⟨a, fh⟩ d :=
          fun h => stop ((follows d).1 h).1
        refine .last code _ (fun tok' t line => ?_) none fun next => ?_
        · obtain ⟨rfl, rfl⟩ := here line
          exact ⟨inline, fun h => absurd h stop⟩
        · rw [nextHeader_last none, zero]
          constructor
          · rintro ⟨t, rest', line, skip, rfl⟩
            obtain ⟨rfl, rfl⟩ := here line
            obtain rfl := Option.some.inj (hl.symm.trans skip)
            exact ⟨rfl, rfl⟩
          · rintro ⟨rfl, rfl⟩
            exact ⟨s, rest, hs, hl, rfl⟩
      dsimp only
      by_cases header : tok = brain10
      · rw [if_pos header]
        exact last 0 (fun h => h.header header) (iff_of_true rfl header)
      · rw [if_neg header]
        by_cases data : tok.take 4 = dataMark
        · rw [if_pos data]
          exact last 1 (fun h => h.data data) (iff_of_false (by decide) header)
        · rw [if_neg data, get_bind]
          by_cases inside : 0 ≤ getGlobalAddress (m.seg pid) a
          · have stores : Stores (m.seg pid) ⟨a, fh⟩ tok := ⟨header, data, inside⟩
            by_cases top : (getGlobalAddress (m.seg pid) a).toNat < vaddrSize
            · obtain ⟨f, hf⟩ := pageStore_inside inside top (bufferWord (fillBuffer buf tok))
              have one (d : Cursor) : Follows (m.seg pid) ⟨a, fh⟩ d ↔
                  d = ⟨a + 1, ⟨rest, s.eof⟩⟩ := by
                rw [follows]
                exact and_iff_right stores
              rw [bind_of_ok hf, if_neg (by simp)]
              refine .next _ f ⟨rest, s.eof⟩ ?_ (fun tok' t line => ?_) one fun next =>
                nextHeader_next hs header one
              · exact Nat.lt_of_lt_of_le (skipLine_shorter hl) (scanToken_shorter hs)
              · obtain ⟨rfl, rfl⟩ := here line
                exact ⟨inline, fun _ => top⟩
            · have stop := pageStore_past inside top (bufferWord (fillBuffer buf tok))
              change Turn _ _ _ _ _ (Except.bind _ _)
              rw [stop]
              exact .fails _ fun sound => top ((sound tok s hs).2 stores)
          · have stop := pageStore_outside (not_le.1 inside) (bufferWord (fillBuffer buf tok))
            rw [bind_of_ok stop, if_pos (by decide)]
            exact last (-1) (fun h => inside h.inside) (iff_of_false (by decide) header)

/-- With enough fuel the loop of `load_code` ends if and only if all lines that it comes to are
sound. It changes nothing but secondary storage, and the answer is 0 when it ends at a header. -/
theorem loadCodeLoop_ends (pid a : ℕ) (buf : List UInt8) (m : VM T) {k : ℕ} {fh : Stream}
    (fuel : fh.rest.length < k) :
    ((∃ r, loadCodeLoop pid k buf a fh m = .ok r) ↔
      ∀ c, ReflTransGen (Follows (m.seg pid)) ⟨a, fh⟩ c → Sound (m.seg pid) c) ∧
    ∀ code rest u, loadCodeLoop pid k buf a fh m = .ok ((code, rest), u) →
      (∃ f, u = stored f m) ∧
        ∀ next, NextHeader (m.seg pid) ⟨a, fh⟩ next ↔ code = 0 ∧ next = rest := by
  induction k generalizing a buf fh m with
  | zero => omega
  | succ k ih =>
    have turn := loadCodeLoop_turn pid k a buf fh m
    generalize loadCodeLoop pid (k + 1) buf a fh m = r at turn ⊢
    cases turn with
    | last code s sound none header =>
      refine ⟨iff_of_true ⟨_, rfl⟩ ((reach_last none).2 sound), fun code' rest u he => ?_⟩
      obtain ⟨hr, rfl⟩ := Prod.mk.inj (Except.ok.inj he)
      obtain ⟨rfl, rfl⟩ := Prod.mk.inj hr
      exact ⟨⟨m.store.pager.pageMem, rfl⟩, header⟩
    | next buf f s shorter sound one header =>
      have fuel : s.rest.length < k := by
        change s.rest.length < fh.rest.length at shorter
        omega
      obtain ⟨ends, result⟩ := ih (a + 1) buf (stored f m) fuel
      refine ⟨?_, fun code rest u he => ?_⟩
      · rw [reach_next one]
        exact ends.trans ⟨fun h => ⟨sound, h⟩, And.right⟩
      · obtain ⟨⟨g, rfl⟩, next⟩ := result code rest u he
        exact ⟨⟨g, rfl⟩, fun n => (header n).trans (next n)⟩
    | fails e sound =>
      refine ⟨iff_of_false ?_ fun h => sound (h _ .refl), fun code rest u he => ?_⟩
      · rintro ⟨r, he⟩
        cases he
      · cases he

variable [RedBlackTree T]

theorem loadFileLoop_answer {k : ℕ} {fh rest : Stream} {code : ℤ} {m u : VM T}
    (h : loadFileLoop k fh m = .ok ((code, rest), u)) : code = 0 ∨ code = 1 := by
  induction k generalizing fh m with
  | zero => exact (fault_ok.1 h).elim
  | succ k ih =>
    rw [loadFileLoop] at h
    rcases ite_ok.1 h with ⟨-, h⟩ | ⟨-, h⟩
    · exact .inr (Prod.mk.inj (Prod.mk.inj (pure_ok.1 h)).1).1
    · obtain ⟨p, w, hw, h⟩ := bind_ok.1 h
      cases p with
      | none => exact .inr (Prod.mk.inj (Prod.mk.inj (pure_ok.1 h)).1).1
      | some pid =>
        obtain ⟨c, x, hx, h⟩ := bind_ok.1 h
        rcases ite_ok.1 h with ⟨-, h⟩ | ⟨-, h⟩
        · exact .inr (Prod.mk.inj (Prod.mk.inj (pure_ok.1 h)).1).1
        · obtain ⟨-, y, hy, h⟩ := bind_ok.1 h
          obtain ⟨-, z, hz, h⟩ := bind_ok.1 h
          rcases ite_ok.1 h with ⟨-, h⟩ | ⟨-, h⟩
          · exact ih h
          · exact .inl (Prod.mk.inj (Prod.mk.inj (pure_ok.1 h)).1).1

end

/-- Where `load_file` looks for the size of a program: the free blocks, the next pid and what is
left of the text. -/
structure Header where
  holes : List Hole
  pid : ℕ
  fh : Stream

def Header.size (c : Header) : ℤ := (loadHeader c.fh).1
def Header.code (c : Header) : Stream := (loadHeader c.fh).2

def Header.seg (c : Header) : Seg :=
  ⟨int2word (memalloc c.size c.holes).1, int2word (c.size - 1), c.pid⟩

def Header.Served (c : Header) : Prop :=
  0 ≤ c.size ∧ c.pid ≤ 99 ∧ 0 ≤ (memalloc c.size c.holes).1

def Begins (c d : Header) : Prop :=
  c.Served ∧ d.holes = (memalloc c.size c.holes).2 ∧ d.pid = c.pid + 1 ∧
    NextHeader c.seg ⟨0, c.code⟩ d.fh

/-- Where the code of a program that is served ends at a header, one program comes next. -/
theorem begins_iff {c : Header} {rest : Stream} (served : c.Served)
    (next : ∀ left, NextHeader c.seg ⟨0, c.code⟩ left ↔ left = rest) (d : Header) :
    Begins c d ↔ d = ⟨(memalloc c.size c.holes).2, c.pid + 1, rest⟩ := by
  constructor
  · rintro ⟨-, hh, hp, hn⟩
    obtain ⟨holes, pid, left⟩ := d
    obtain rfl : holes = _ := hh
    obtain rfl : pid = _ := hp
    obtain rfl : left = rest := (next left).1 hn
    rfl
  · rintro rfl
    exact ⟨served, rfl, rfl, (next rest).2 rfl⟩

/-- The line of the first BRAIN10 is terminated, and the code is sound of every program that
`load_file` comes to. -/
def TextSound (text : List UInt8) : Prop :=
  ∀ s, scanToken 7 ⟨text, false⟩ = (some brain10, s) → ∃ rest, skipLine s.rest = some rest ∧
    ∀ c, ReflTransGen Begins ⟨freemem 0 vaddrSize [], 0, ⟨rest, s.eof⟩⟩ c → c.Served →
      CodeSound c.seg c.code

section
variable {T : Type} [RedBlackTree T] [LawfulTree T]

omit [RedBlackTree T] [LawfulTree T] in
theorem granted_code_seg (m : VM T) (fh : Stream) :
    (granted (loadHeader fh).1 m).seg m.nextPid = Header.seg ⟨m.holes, m.nextPid, fh⟩ := by
  rw [Isolation.granted_seg, if_pos rfl]
  rfl

theorem admitted {s : Sched T} {n : ℕ} (tracked : Tracked s (Finset.range n)) (room : n ≤ 99) :
    ∃ u t, schedReset n s = .ok (0, u) ∧ schedResume n u = .ok (0, t) := by
  have wiped := tracked.setTask (f := fun e => { e with vruntime := 0 }) n fun _ => rfl
  have new : n ∉ Finset.range n := by simp
  obtain ⟨t, run, -⟩ := wiped.resume room fun hp => absurd hp new
  refine ⟨_, t, ?_, run⟩
  rw [schedReset, if_neg (by omega), modify_bind]
  rfl

omit [LawfulTree T] in
/-- Without a size, a pid or a block the loop of `load_file` ends. -/
theorem loadFileLoop_unserved {k : ℕ} {fh : Stream} {m : VM T}
    (unserved : ¬Header.Served ⟨m.holes, m.nextPid, fh⟩) :
    ∃ r, loadFileLoop (k + 1) fh m = .ok r := by
  have hundred : procs = 100 := rfl
  rw [loadFileLoop]
  by_cases negative : (loadHeader fh).1 < 0
  · rw [if_pos negative]
    exact ⟨_, rfl⟩
  · rw [if_neg negative]
    by_cases full : m.nextPid > 99
    · have none : procalloc (loadHeader fh).1 m = .ok (none, m) := by
        rw [procalloc, get_bind, if_pos (by omega)]
        rfl
      rw [bind_of_ok none]
      exact ⟨_, rfl⟩
    · have block : (memalloc (loadHeader fh).1 m.holes).1 < 0 := by
        by_contra block
        exact unserved ⟨not_lt.1 negative, not_lt.1 full, not_lt.1 block⟩
      have none : procalloc (loadHeader fh).1 m =
          .ok (none, { m with holes := (memalloc (loadHeader fh).1 m.holes).2 }) := by
        rw [procalloc, get_bind, if_neg (by omega), modify_bind, if_pos block]
        rfl
      rw [bind_of_ok none]
      exact ⟨_, rfl⟩

/-- With enough fuel the loop of `load_file` ends if and only if the code is sound of all programs
that it comes to. -/
theorem loadFileLoop_ends {pager : Pager} {host : Host} {k : ℕ}
    {fh : Stream} {m : VM T} (loads : Loads (startState pager host) m)
    (fuel : fh.rest.length < k) :
    (∃ r, loadFileLoop k fh m = .ok r) ↔
      ∀ c, ReflTransGen Begins ⟨m.holes, m.nextPid, fh⟩ c → c.Served → CodeSound c.seg c.code := by
  induction k generalizing fh m with
  | zero => omega
  | succ k ih =>
    by_cases served : Header.Served ⟨m.holes, m.nextPid, fh⟩
    · obtain ⟨pos, room, block⟩ : 0 ≤ (loadHeader fh).1 ∧ m.nextPid ≤ 99 ∧
        0 ≤ (memalloc (loadHeader fh).1 m.holes).1 := served
      have shorter := loadHeader_shorter fh
      obtain ⟨ends, result⟩ := loadCodeLoop_ends m.nextPid 0 m.host.buffer
        (entered (granted (loadHeader fh).1 m)) (Nat.lt_succ_self (loadHeader fh).2.rest.length)
      have code_seg : (entered (granted (loadHeader fh).1 m)).seg m.nextPid = _ :=
        granted_code_seg _ _
      rw [code_seg] at ends result
      have alone (stop : ∀ next, ¬NextHeader (Header.seg ⟨m.holes, m.nextPid, fh⟩)
          ⟨0, (loadHeader fh).2⟩ next) (d : Header) : ¬Begins ⟨m.holes, m.nextPid, fh⟩ d :=
        fun h => stop d.fh h.2.2.2
      rw [loadFileLoop, if_neg (show ¬(loadHeader fh).1 < 0 from not_lt.2 pos),
        bind_of_ok (procalloc_granted room block)]
      by_cases sound : CodeSound (Header.seg ⟨m.holes, m.nextPid, fh⟩) (loadHeader fh).2
      · obtain ⟨⟨⟨code, rest⟩, u⟩, run⟩ := ends.2 sound
        obtain ⟨⟨f, rfl⟩, next⟩ := result code rest u run
        have load := (loadCode_eq _ m.nextPid (granted (loadHeader fh).1 m)).trans run
        change (∃ r, (loadCode _ m.nextPid >>= _) _ = .ok r) ↔ _
        rw [bind_of_ok load]
        by_cases error : code = -1
        · rw [if_pos error, reach_last (alone fun n hn => ?_)]
          · exact iff_of_true ⟨_, rfl⟩ fun _ => sound
          · have zero := ((next n).1 hn).1
            omega
        · obtain ⟨s, t, reset, resume⟩ := admitted (load_fair loads).1 room
          have turn := Loads.turn m _ 0 0 f s t loads pos (loadHeader_lt fh) room block reset resume
          rw [if_neg error]
          rw [bind_of_ok (onSched_of_ok
            (m := stored f (entered (granted (loadHeader fh).1 m))) reset)]
          rw [bind_of_ok (onSched_of_ok
            (m := { stored f (entered (granted (loadHeader fh).1 m)) with sched := s }) resume)]
          by_cases zero : code = 0
          · have header := (next rest).2 ⟨zero, rfl⟩
            have one := begins_iff (c := ⟨m.holes, m.nextPid, fh⟩) ⟨pos, room, block⟩ fun left =>
              (next left).trans (and_iff_right zero)
            have less : rest.rest.length < k := by
              have := header.shorter
              change rest.rest.length < (loadHeader fh).2.rest.length at this
              omega
            rw [if_pos zero, reach_next one]
            exact (ih turn less).trans ⟨fun h => ⟨fun _ => sound, h⟩, And.right⟩
          · rw [if_neg zero, reach_last (alone fun n hn => zero ((next n).1 hn).1)]
            exact iff_of_true ⟨_, rfl⟩ fun _ => sound
      · refine iff_of_false ?_ fun h => sound (h _ .refl ⟨pos, room, block⟩)
        rintro ⟨r, h⟩
        obtain ⟨c, u, run, -⟩ := bind_ok.1 h
        rw [loadCode_eq] at run
        exact sound (ends.1 ⟨_, run⟩)
    · have last (d : Header) : ¬Begins ⟨m.holes, m.nextPid, fh⟩ d := fun h => served h.1
      rw [reach_last last]
      exact iff_of_true (loadFileLoop_unserved served) fun h => absurd h served

/-- `load_file` ends, with 0 or 1, on the sound texts and on no other. -/
theorem loadFile_ends (pager : Pager) (host : Host)
    (text : List UInt8) :
    (∃ code rest u, loadFile ⟨text, false⟩ (startState (T := T) pager host) =
      .ok ((code, rest), u) ∧ (code = 0 ∨ code = 1)) ↔ TextSound text := by
  rw [TextSound, loadFile]
  rcases hs : scanToken 7 ⟨text, false⟩ with ⟨_ | tok, s⟩
  · refine iff_of_true ⟨1, s, _, rfl, .inr rfl⟩ fun t line => ?_
    cases (Prod.mk.inj line).1
  · dsimp only
    by_cases header : tok = brain10
    · subst tok
      rw [if_neg (by simp)]
      cases hl : skipLine s.rest with
      | none =>
        refine iff_of_false ?_ fun h => ?_
        · rintro ⟨code, rest, u, run, -⟩
          cases run
        · obtain ⟨rest, skip, -⟩ := h s rfl
          cases hl.symm.trans skip
      | some line =>
        have fuel : (⟨line, s.eof⟩ : Stream).rest.length < line.length + 1 := Nat.lt_succ_self _
        have fresh : Loads (startState (T := T) pager host) (startState pager host) := .start
        have ends := loadFileLoop_ends fresh fuel
        constructor
        · rintro ⟨code, rest, u, run, -⟩ t here
          obtain rfl := (Prod.mk.inj here).2
          exact ⟨line, hl, ends.1 ⟨_, run⟩⟩
        · intro h
          obtain ⟨rest, skip, sound⟩ := h s rfl
          obtain rfl := Option.some.inj (hl.symm.trans skip)
          obtain ⟨⟨⟨code, left⟩, u⟩, run⟩ := ends.2 sound
          exact ⟨code, left, u, run, loadFileLoop_answer run⟩
    · rw [if_pos header]
      refine iff_of_true ⟨1, s, _, rfl, .inr rfl⟩ fun t line => ?_
      exact absurd (Option.some.inj (Prod.mk.inj line).1) header

end

theorem pairText_sound : TextSound pairText := by
  apply (loadFile_ends (T := ListTree) ((pagememInit 100 halfWeight).get rfl) bareHost _).1
  refine ⟨0, ⟨[], false⟩, _, ok_of_result (⟨0, ⟨[], false⟩⟩, startState
    ((pagememInit 100 halfWeight).get rfl) bareHost) ?_, .inl rfl⟩
  decide +kernel

/-- A text that ends in the line of the first header. -/
theorem headerLine_endless : ¬∀ text, ∃ code rest u, loadFile ⟨text, false⟩
    (startState (T := ListTree) ((pagememInit 100 halfWeight).get rfl) bareHost) =
      .ok ((code, rest), u) ∧ (code = 0 ∨ code = 1) := by
  intro h
  obtain ⟨code, rest, u, run, -⟩ := h (bytes "BRAIN10")
  cases run

end BrainMachine.LoaderTermination
