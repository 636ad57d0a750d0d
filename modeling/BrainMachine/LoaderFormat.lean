import BrainMachine.Fairness
import BrainMachine.Isolation
import BrainMachine.ProgramReading
import BrainMachine.ProgramText
import BrainMachine.SortedTree

set_option autoImplicit false

namespace BrainMachine.LoaderFormat
open Codec Computations Paging Stdio AddressSpace Instructions HoleList RunQueue Machine Loader
open Dispatch Effects MachineRuns MachineMemory ProcessImages ProgramText ProgramReading SortedTree
open Fairness
open Isolation (word2int_int2word_small)

def writeCode (a : ℕ) : List (List UInt8) → (ℕ → Word) → ℕ → Word
  | [], f => f
  | tok :: toks, f => writeCode (a + 1) toks (Function.update f a (bufferWord tok))

theorem writeCode_words (a : ℕ) (toks : List (List UInt8)) (f : ℕ → Word) :
    writeCode a toks f = writeWords a (toks.map bufferWord) f := by
  induction toks generalizing a f with
  | nil => rfl
  | cons tok toks ih => exact ih (a + 1) _

theorem writeCode_below {a v : ℕ} (toks : List (List UInt8)) (f : ℕ → Word) (h : v < a) :
    writeCode a toks f v = f v := by
  rw [writeCode_words, writeWords_below _ _ h]

theorem writeCode_at (a k : ℕ) (toks : List (List UInt8)) (f : ℕ → Word) :
    writeCode a toks f (a + k) = (toks[k]?.map bufferWord).getD (f (a + k)) := by
  rw [writeCode_words, writeWords_at, List.getElem?_map]

/-- The first four characters of the `k`-th token, and blank words after the last one. -/
def codeWord (p : Program) (k : ℕ) : Word := (p.code[k]?.map bufferWord).getD zeros

def total (ps : List Program) : ℕ := (ps.map Program.size).sum

theorem total_append (ps qs : List Program) : total (ps ++ qs) = total ps + total qs := by
  simp [total]

/-- Only the first seven characters of a token are read, and the first four are kept. -/
theorem bufferWord_fill {tok : List UInt8} (long : 4 ≤ tok.length) (buf : List UInt8) :
    bufferWord (fillBuffer buf (tok.take 7)) = bufferWord tok := by
  match tok, long with
  | a :: b :: c :: d :: tok, _ => simp [bufferWord, fillBuffer]

section
variable {T : Type}

theorem address_here {p : Seg} {b n a : ℕ} (hb : word2int p.br = b)
    (hl : word2int p.lr = (n : ℤ) - 1) (ha : a < n) :
    getGlobalAddress p a = ((b + a : ℕ) : ℤ) := by
  rw [address_of_range (by omega) (by omega) (by omega), hb, Int.natCast_add]

theorem pageStore_here {pid b n a : ℕ} {m : VM T} (hb : word2int (m.seg pid).br = b)
    (hl : word2int (m.seg pid).lr = (n : ℤ) - 1) (ha : a < n) (top : b + n ≤ vaddrSize) (w : Word) :
    onMemory (pageStore (m.seg pid) w a) m =
      .ok (0, stored (Function.update m.store.pager.pageMem (b + a) w) m) := by
  have bottom : base m pid = b := by
    rw [base, hb, Int.toNat_natCast]
  have inside : 0 ≤ getGlobalAddress (m.seg pid) a := by
    rw [address_here hb hl ha]
    exact Int.natCast_nonneg _
  rw [pageStore_done inside (by omega), bottom]

structure Ends (pid : ℕ) (line rest : List UInt8) (code : ℤ) : Prop where
  stop : ∀ (pad : List UInt8) (n : ℕ) (buf : List UInt8) (addr : ℕ) (m : VM T), Blank pad →
    loadCodeLoop pid (n + 1) buf addr ⟨pad ++ line, false⟩ m = .ok ((code, ⟨rest, false⟩), m)

theorem ends_header (pid : ℕ) {comment : List UInt8} (inline : Inline comment)
    (rest : List UInt8) :
    Ends (T := T) pid (brain10 ++ (comment ++ 10 :: rest)) rest 0 := by
  constructor
  intro pad n buf addr m space
  obtain ⟨left, scanned, skipped⟩ := scan_line space brain10_solid (by decide) inline rest
  have tok : (brain10 ++ comment.takeWhile fun c => !isspace c).take 7 = brain10 :=
    List.take_left' rfl
  rw [loadCodeLoop, scanned]
  simp only [skipped, tok, if_true]
  rfl

theorem ends_data (pid : ℕ) {comment : List UInt8} (inline : Inline comment)
    (rest : List UInt8) :
    Ends (T := T) pid (dataMark ++ (comment ++ 10 :: rest)) rest 1 := by
  constructor
  intro pad n buf addr m space
  obtain ⟨left, scanned, skipped⟩ := scan_line space dataMark_solid (by decide) inline rest
  have start : ((dataMark ++ comment.takeWhile fun c => !isspace c).take 7).take 4 =
      dataMark := by
    rw [List.take_take]
    exact List.take_left' rfl
  have other : (dataMark ++ comment.takeWhile fun c => !isspace c).take 7 ≠ brain10 := by
    intro he
    rw [he] at start
    exact absurd start (by decide)
  rw [loadCodeLoop, scanned]
  simp only [skipped, other, start, if_true, if_false]
  rfl

theorem loadCodeLoop_code {pid b n a : ℕ} {m : VM T} (hb : word2int (m.seg pid).br = b)
    (hl : word2int (m.seg pid).lr = (n : ℤ) - 1) (ha : a < n) (top : b + n ≤ vaddrSize)
    {pad tok remark : List UInt8} (space : Blank pad) (token : Token tok) (after : Remark remark)
    (rest buf : List UInt8) (k : ℕ) :
    loadCodeLoop pid (k + 1) buf a ⟨pad ++ (tok ++ (remark ++ 10 :: rest)), false⟩ m =
      loadCodeLoop pid k (fillBuffer buf (tok.take 7)) (a + 1) ⟨rest, false⟩
        (stored (Function.update m.store.pager.pageMem (b + a) (bufferWord tok)) m) := by
  have some : tok ≠ [] := by
    rintro rfl
    exact absurd token.long (by decide)
  obtain ⟨left, scanned, skipped⟩ := scan_line space token.solid some after.inline rest
  have none : (remark.takeWhile fun c => !isspace c) = [] := by
    cases remark with
    | nil => rfl
    | cons c remark => rw [List.takeWhile_cons_of_neg (by simp [after.apart c rfl])]
  rw [none, List.append_nil] at scanned
  have header : tok.take 7 ≠ brain10 := by
    intro he
    exact token.header (he ▸ List.take_prefix 7 tok)
  have data : (tok.take 7).take 4 ≠ dataMark := by
    intro he
    rw [List.take_take] at he
    exact token.data (he ▸ List.take_prefix 4 tok)
  rw [loadCodeLoop, scanned]
  simp only [skipped, header, data, if_false, get_bind]
  rw [bind_of_ok (pageStore_here hb hl ha top _), if_neg (by simp), bufferWord_fill token.long]

/-- The loop stores the words of the lines in front of the line that ends it. -/
theorem loadCodeLoop_lines {pid b n : ℕ} (top : b + n ≤ vaddrSize) {line rest : List UInt8}
    {code : ℤ} (ends : Ends (T := T) pid line rest code) {text : List UInt8}
    {toks : List (List UInt8)} (h : Lines text toks) :
    ∀ (pad buf : List UInt8) (a k : ℕ) (m : VM T), Blank pad → toks.length < k →
      word2int (m.seg pid).br = b → word2int (m.seg pid).lr = (n : ℤ) - 1 →
      a + toks.length ≤ n →
      loadCodeLoop pid k buf a ⟨pad ++ (text ++ line), false⟩ m =
        .ok ((code, ⟨rest, false⟩), stored (writeCode (b + a) toks m.store.pager.pageMem) m) := by
  induction h with
  | done =>
    intro pad buf a k m space fuel hb hl fits
    obtain ⟨k, rfl⟩ : ∃ j, k = j + 1 := ⟨k - 1, by simp at fuel; omega⟩
    rw [List.nil_append, ends.stop pad k buf a m space]
    rfl
  | blank pad' rest' toks space' inline h ih =>
    intro pad buf a k m space fuel hb hl fits
    have join : pad ++ ((pad' ++ 10 :: rest') ++ line) =
        (pad ++ (pad' ++ [10])) ++ (rest' ++ line) := by simp
    rw [join]
    exact ih _ buf a k m (space.append space'.line) fuel hb hl fits
  | code pad' tok remark rest' toks space' inline token after h ih =>
    intro pad buf a k m space fuel hb hl fits
    rw [List.length_cons] at fuel fits
    obtain ⟨k, rfl⟩ : ∃ j, k = j + 1 := ⟨k - 1, by omega⟩
    have join : pad ++ ((pad' ++ (tok ++ (remark ++ 10 :: rest'))) ++ line) =
        (pad ++ pad') ++ (tok ++ (remark ++ 10 :: (rest' ++ line))) := by simp
    rw [join, loadCodeLoop_code hb hl (by omega) top (space.append space') token after]
    exact ih [] _ (a + 1) k _ .nil (by omega) hb hl (by omega)

theorem procalloc_granted {n : ℤ} {m : VM T} (room : m.nextPid ≤ 99)
    (block : 0 ≤ (memalloc n m.holes).1) :
    procalloc n m = .ok (some m.nextPid, granted n m) := by
  have hundred : procs = 100 := rfl
  rw [procalloc, get_bind, if_neg (by omega), modify_bind, if_neg (by omega), modify_bind]
  rfl

/-- While everything loaded lies in front of the only hole, that hole serves the next
request, and its address is the number of words that were loaded. -/
theorem memalloc_next {a n : ℕ} (pos : 1 ≤ n) (fits : a + n ≤ vaddrSize) :
    (memalloc n [⟨UInt32.ofNat a, 10000⟩]).1 = a ∧ (a + n < vaddrSize →
      (memalloc n [⟨UInt32.ofNat a, 10000⟩]).2 = [⟨UInt32.ofNat (a + n), 10000⟩]) := by
  have size : vaddrSize = 10000 := rfl
  have nat : UInt32.ofInt (n : ℤ) = UInt32.ofNat n := by
    apply UInt32.toNat_inj.1
    rw [ofInt_toNat (by omega) (by omega), UInt32.toNat_ofNat']
    omega
  have addr : (UInt32.ofNat a).toBitVec.toInt = (a : ℤ) := by
    have val : (UInt32.ofNat a).toBitVec.toNat = a := by
      change (UInt32.ofNat a).toNat = a
      rw [UInt32.toNat_ofNat']
      omega
    rw [BitVec.toInt_eq_toNat_cond, val, if_pos (by omega)]
  have val : (UInt32.ofNat n).toNat = n := by
    rw [UInt32.toNat_ofNat']
    omega
  rw [memalloc, if_neg (by omega), nat, getFirstHole, firstHole]
  by_cases whole : (10000 : UInt32) = UInt32.ofNat n
  · have hn : n = 10000 := by
      rw [← val, ← whole]
      rfl
    rw [if_pos whole]
    exact ⟨addr, fun h => by omega⟩
  · have larger : (10000 : UInt32) > UInt32.ofNat n := by
      apply UInt32.lt_iff_toNat_lt.2
      have hn : n ≠ 10000 := by
        rintro rfl
        exact whole rfl
      rw [val]
      change n < 10000
      omega
    rw [if_neg whole, if_pos larger]
    exact ⟨addr, fun _ => by rw [UInt32.ofNat_add]⟩

section
variable [RedBlackTree T]

omit [RedBlackTree T] in
theorem onSched_of_ok {α : Type} {x : Exec (Sched T) α} {m : VM T} {a : α} {t : Sched T}
    (h : x m.sched = .ok (a, t)) : onSched x m = .ok (a, { m with sched := t }) := by
  rw [onSched, zoom, h]

/-- A process that joins the run queue with the key that all have preempts nobody. -/
theorem schedResume_current {s u : Sched T} {pid : ℕ} {r : ℤ} (hp : pid ≤ 99)
    (equal : ∀ q, (place pid s).vruntime q = 0) (h : schedResume pid s = .ok (r, u)) :
    u.current = if s.nrRunning = 0 then pid else s.current := by
  have idle : (place pid s).nrRunning = s.nrRunning := rfl
  rw [schedResume, if_neg (by omega), modify_bind, get_bind, idle] at h
  by_cases h0 : s.nrRunning = 0
  · rw [if_pos h0, modify_bind] at h
    obtain ⟨-, rfl⟩ := Prod.mk.inj (pure_ok.1 h)
    rw [if_pos h0]
  · rw [if_neg h0] at h ⊢
    rcases ite_ok.1 h with ⟨-, h⟩ | ⟨-, h⟩
    · obtain ⟨-, rfl⟩ := Prod.mk.inj (pure_ok.1 h)
      rfl
    · rw [modify_bind, bind_ok] at h
      obtain ⟨a, w, hw, h⟩ := h
      rw [modify_bind] at h
      obtain ⟨-, rfl⟩ := Prod.mk.inj (pure_ok.1 h)
      rw [preempt, bind_ok] at hw
      obtain ⟨n, x, hx, hw⟩ := hw
      obtain ⟨l, -, rfl⟩ := leftmost_ok hx
      rw [get_bind, enqueue_vruntime, equal, equal] at hw
      rcases ite_ok.1 hw with ⟨gt, -⟩ | ⟨-, hw⟩
      · rw [keyComp_gt] at gt
        exact absurd gt (lt_irrefl _)
      · obtain ⟨-, rfl⟩ := Prod.mk.inj (pure_ok.1 hw)
        rfl

variable [LawfulTree T]

structure Loaded (ps : List Program) (m : VM T) : Prop where
  count : m.nextPid = ps.length
  own : ∀ i < ps.length, (m.seg i).pid = i
  base : ∀ i < ps.length, word2int (m.seg i).br = (total (ps.take i) : ℤ)
  limit : ∀ (i : ℕ) (hi : i < ps.length), word2int (m.seg i).lr = (ps[i].size : ℤ) - 1
  words : ∀ (i : ℕ) (hi : i < ps.length) (k : ℕ), k < ps[i].size →
    word m i k = codeWord ps[i] k
  runnable : m.sched.running.Perm (List.range ps.length)
  current : m.sched.current = 0

/-- The machine between two programs: what was loaded lies in front of the only hole, and
nothing is resident. -/
structure Ready (start : VM T) (ps : List Program) (m : VM T) : Prop extends Loaded ps m where
  loads : Loads start m
  holes : total ps < vaddrSize → m.holes = [⟨UInt32.ofNat (total ps), 10000⟩]
  blank : ∀ v, total ps ≤ v → m.store.pager.pageMem v = zeros
  absent : ∀ q, ¬m.store.pager.resident q

omit [LawfulTree T] in
theorem tracked_perm {s : Sched T} {n : ℕ} (h : Tracked s (Finset.range n)) :
    s.running.Perm (List.range n) := by
  rw [List.perm_ext_iff_of_nodup h.running_nodup List.nodup_range]
  intro q
  rw [h.mem, Finset.mem_range, List.mem_range]

theorem total_take (ps : List Program) (p : Program) {i : ℕ} (hi : i ≤ ps.length) :
    total ((ps ++ [p]).take i) = total (ps.take i) := by
  rw [List.take_append_of_le_length hi]

theorem total_take_le (ps : List Program) {i : ℕ} (hi : i < ps.length) :
    total (ps.take i) + ps[i].size ≤ total ps := by
  have sum := total_append (ps.take i) (ps.drop i)
  rw [List.take_append_drop, List.drop_eq_getElem_cons hi] at sum
  have cons (p : Program) (qs : List Program) : total (p :: qs) = p.size + total qs := rfl
  rw [cons] at sum
  omega

/-- The next process is made runnable behind those that have not run yet. -/
theorem resume_next {s : Sched T} {n : ℕ} (tracked : Tracked s (Finset.range n))
    (zero : ∀ q, s.vruntime q = 0) (min : s.minVruntime = 0) (current : s.current = 0)
    (room : n ≤ 99) :
    ∃ t, schedReset n s = .ok (0, setTask n (fun e => { e with vruntime := 0 }) s) ∧
      schedResume n (setTask n (fun e => { e with vruntime := 0 }) s) = .ok (0, t) ∧
      t.running.Perm (List.range (n + 1)) ∧ t.current = 0 := by
  have wiped := tracked.setTask (f := fun e => { e with vruntime := 0 }) n fun _ => rfl
  have new : n ∉ Finset.range n := by simp
  obtain ⟨t, run, grown, -⟩ := wiped.resume room fun hp => absurd hp new
  have reset : schedReset n s = .ok (0, setTask n (fun e => { e with vruntime := 0 }) s) := by
    rw [schedReset, if_neg (by omega), modify_bind]
    rfl
  have equal (q : ℕ) :
      (place n (setTask n (fun e => { e with vruntime := 0 }) s)).vruntime q = 0 := by
    by_cases hq : q = n
    · simp [place, setTask, Sched.vruntime, hq, min, wakeFloor, schedLatency]
    · have := zero q
      simpa [place, setTask, Sched.vruntime, hq] using this
  refine ⟨t, reset, run, tracked_perm (by rw [Finset.range_add_one]; exact grown), ?_⟩
  rw [schedResume_current room equal run]
  split
  · rename_i h0
    have none := tracked_perm tracked
    have idle : s.nrRunning = 0 := h0
    rw [Sched.running, if_pos idle] at none
    have := none.length_eq
    rw [List.length_range] at this
    exact this.symm
  · exact current

omit [LawfulTree T] in
theorem Ready.granted_seg {start : VM T} {ps : List Program} {m : VM T} (h : Ready start ps m)
    (p : Program) (pos : 1 ≤ p.size) (fits : total ps + p.size ≤ vaddrSize) (q : ℕ) :
    (granted (p.size : ℤ) m).seg q = if q = ps.length then
      ⟨int2word (total ps : ℤ), int2word ((p.size : ℤ) - 1), ps.length⟩ else m.seg q := by
  have served := memalloc_next (a := total ps) pos fits
  rw [← h.holes (by omega)] at served
  rw [Isolation.granted_seg, served.1, h.count]

omit [LawfulTree T] in
theorem Ready.segs {start : VM T} {ps : List Program} {m : VM T} (h : Ready start ps m)
    (p : Program) (pos : 1 ≤ p.size) (fits : total ps + p.size ≤ vaddrSize) (i : ℕ)
    (hi : i < (ps ++ [p]).length) : ((granted (p.size : ℤ) m).seg i).pid = i ∧
      word2int ((granted (p.size : ℤ) m).seg i).br = (total ((ps ++ [p]).take i) : ℤ) ∧
      word2int ((granted (p.size : ℤ) m).seg i).lr = ((ps ++ [p])[i].size : ℤ) - 1 := by
  have size : vaddrSize = 10000 := rfl
  rw [h.granted_seg p pos fits]
  by_cases old : i < ps.length
  · rw [if_neg (by omega), total_take ps p old.le, List.getElem_append_left old]
    exact ⟨h.own i old, h.base i old, h.limit i old⟩
  · obtain rfl : i = ps.length := by
      rw [List.length_append, List.length_singleton] at hi
      omega
    rw [if_pos rfl, total_take ps p le_rfl, List.take_length, List.getElem_concat_length rfl]
    exact ⟨rfl, word2int_int2word_small (by omega) (by omega),
      word2int_int2word_small (by omega) (by omega)⟩

omit [LawfulTree T] in
/-- The words of all processes after the code of the next one was stored. -/
theorem Ready.next_words {start : VM T} {ps : List Program} {m : VM T} (h : Ready start ps m)
    (p : Program) (pos : 1 ≤ p.size) (fits : total ps + p.size ≤ vaddrSize) (t : Sched T)
    (i : ℕ) (hi : i < (ps ++ [p]).length) (k : ℕ) (hk : k < (ps ++ [p])[i].size) :
    word { stored (writeCode (total ps) p.code m.store.pager.pageMem) (entered (granted p.size m))
      with sched := t } i k = codeWord (ps ++ [p])[i] k := by
  obtain ⟨-, base, limit⟩ := h.segs p pos fits i hi
  have addr := address_here base limit hk
  refine Eq.trans (word_absent ?_ i (k : ℤ)) ?_
  · exact h.absent
  change writeCode (total ps) p.code m.store.pager.pageMem
    (getGlobalAddress ((granted (p.size : ℤ) m).seg i) k).toNat = _
  rw [addr, Int.toNat_natCast]
  by_cases old : i < ps.length
  · rw [List.getElem_append_left old] at hk ⊢
    have inside := total_take_le ps old
    have kept := h.words i old k hk
    rw [word_absent h.absent, address_here (h.base i old) (h.limit i old) hk,
      Int.toNat_natCast] at kept
    rw [total_take ps p old.le, writeCode_below _ _ (by omega)]
    exact kept
  · obtain rfl : i = ps.length := by
      rw [List.length_append, List.length_singleton] at hi
      omega
    rw [total_take ps p le_rfl, List.take_length, List.getElem_concat_length rfl, writeCode_at,
      h.blank _ (Nat.le_add_right _ _)]
    rfl

theorem Ready.next {pager : Pager} {host : Host}
    {ps : List Program} {m : VM T} (h : Ready (startState pager host) ps m) (p : Program)
    (pos : 1 ≤ p.size) (short : p.code.length ≤ p.size) (fits : total ps + p.size ≤ vaddrSize)
    (room : ps.length ≤ 99) : ∃ s t, schedReset m.nextPid m.sched = .ok (0, s) ∧
      schedResume m.nextPid s = .ok (0, t) ∧ Ready (startState pager host) (ps ++ [p])
        { stored (writeCode (total ps) p.code m.store.pager.pageMem) (entered (granted p.size m))
          with sched := t } := by
  have size : vaddrSize = 10000 := rfl
  have count := h.count
  have single : total [p] = p.size := by simp [total]
  obtain ⟨tracked, zero, min⟩ := load_fair h.loads
  obtain ⟨t, reset, run, runnable, current⟩ :=
    resume_next tracked zero min h.current (by omega)
  have served := memalloc_next (a := total ps) pos fits
  rw [← h.holes (by omega)] at served
  have loads := Loads.turn m (p.size : ℤ) 0 0
    (writeCode (total ps) p.code m.store.pager.pageMem) _ t h.loads (by omega) (by omega)
    (by omega) (by omega) reset run
  refine ⟨_, t, reset, run, ⟨⟨?_, fun i hi => (h.segs p pos fits i hi).1,
    fun i hi => (h.segs p pos fits i hi).2.1, fun i hi => (h.segs p pos fits i hi).2.2,
    fun i hi k hk => h.next_words p pos fits t i hi k hk, ?_, current⟩, loads, fun fits' => ?_,
    fun v hv => ?_, h.absent⟩⟩
  · change m.nextPid + 1 = _
    rw [count, List.length_append]
    rfl
  · rw [List.length_append, List.length_singleton, ← count]
    exact runnable
  · rw [total_append, single] at fits' ⊢
    exact served.2 fits'
  · rw [total_append, single] at hv
    obtain ⟨k, rfl⟩ : ∃ k, v = total ps + k := ⟨v - total ps, by omega⟩
    change writeCode (total ps) p.code m.store.pager.pageMem (total ps + k) = zeros
    rw [writeCode_at, List.getElem?_eq_none (by omega)]
    exact h.blank _ (Nat.le_add_right _ _)

/-- One turn of the loop of `load_file`: the body of a program, up to the line that ends it. -/
theorem loadFileLoop_turn {pager : Pager} {host : Host}
    {ps : List Program} {m : VM T} (h : Ready (startState pager host) ps m) {p : Program}
    {body line rest : List UInt8} {code : ℤ} (b : Body body p)
    (ends : Ends (T := T) ps.length line rest code) (error : code ≠ -1)
    (fits : total ps + p.size ≤ vaddrSize) (room : ps.length ≤ 99) (k : ℕ) :
    ∃ u, Ready (startState pager host) (ps ++ [p]) u ∧
      loadFileLoop (k + 1) ⟨body ++ line, false⟩ m =
        (if code = 0 then loadFileLoop k ⟨rest, false⟩ else pure (0, ⟨rest, false⟩)) u := by
  have size : vaddrSize = 10000 := rfl
  obtain ⟨pad, digits, behind, lines, p, space, inline, some, numeric, value, pos, space',
    inline', code', short⟩ := b
  obtain ⟨s, t, reset, resume, ready⟩ := h.next p pos short fits room
  refine ⟨_, ready, ?_⟩
  have join : (pad ++ (digits ++ (behind ++ 10 :: lines))) ++ line =
      pad ++ (digits ++ (behind ++ 10 :: (lines ++ line))) := by simp
  have header := loadHeader_body space some numeric (by omega) space' (lines ++ line)
  rw [value] at header
  have served := memalloc_next (a := total ps) pos fits
  rw [← h.holes (by omega)] at served
  have alloc := procalloc_granted (n := (p.size : ℤ)) (m := m) (by rw [h.count]; exact room)
    (by rw [served.1]; omega)
  have seg : (granted (p.size : ℤ) m).seg m.nextPid =
      ⟨int2word (total ps : ℤ), int2word ((p.size : ℤ) - 1), m.nextPid⟩ := by
    rw [h.granted_seg p pos fits, if_pos h.count, h.count]
  have base : word2int ((granted (p.size : ℤ) m).seg m.nextPid).br = (total ps : ℤ) := by
    rw [seg]
    exact word2int_int2word_small (by omega) (by omega)
  have limit : word2int ((granted (p.size : ℤ) m).seg m.nextPid).lr = (p.size : ℤ) - 1 := by
    rw [seg]
    exact word2int_int2word_small (by omega) (by omega)
  have split : behind ++ 10 :: (lines ++ line) = (behind ++ [10]) ++ (lines ++ line) := by simp
  have fuel : p.code.length < (behind ++ 10 :: (lines ++ line)).length + 1 := by
    have := code'.length_le
    simp only [List.length_append, List.length_cons]
    omega
  rw [← h.count] at ends
  have code := loadCodeLoop_lines fits ends code' (behind ++ [10]) m.host.buffer 0
    ((behind ++ 10 :: (lines ++ line)).length + 1) (entered (granted (p.size : ℤ) m)) space'.line
    fuel base limit (by omega)
  rw [Nat.add_zero, ← split] at code
  have load := (loadCode_eq ⟨behind ++ 10 :: (lines ++ line), false⟩ m.nextPid
    (granted (p.size : ℤ) m)).trans code
  rw [loadFileLoop, join, header, if_neg (by omega), bind_of_ok alloc]
  change (loadCode _ m.nextPid >>= _) _ = _
  rw [bind_of_ok load, if_neg error]
  rw [bind_of_ok (onSched_of_ok (m := stored _ (entered (granted (p.size : ℤ) m))) reset)]
  rw [bind_of_ok (onSched_of_ok
    (m := { stored _ (entered (granted (p.size : ℤ) m)) with sched := s }) resume)]
  rfl

/-- The loop of `load_file` on what follows the first header line. -/
theorem loadFileLoop_programs (pager : Pager) (host : Host)
    (tail : List UInt8) {text : List UInt8} {ps : List Program} (h : Programs text ps) :
    ∃ comment after, Inline comment ∧ text = brain10 ++ (comment ++ 10 :: after) ∧
      ps.length ≤ after.length + 1 ∧
      ∀ (qs : List Program) (m : VM T) (k : ℕ), Ready (startState pager host) qs m →
        ps.length ≤ k → total qs + total ps ≤ vaddrSize → qs.length + ps.length ≤ procs →
        ∃ u, loadFileLoop k ⟨after ++ tail, false⟩ m = .ok ((0, ⟨tail, false⟩), u) ∧
          Ready (startState pager host) (qs ++ ps) u := by
  have hundred : procs = 100 := rfl
  have cons (p : Program) (qs : List Program) : total (p :: qs) = p.size + total qs := rfl
  induction h with
  | last text comment p b inline =>
    obtain ⟨head, body, p, inline', b⟩ := b
    refine ⟨head, body ++ (dataMark ++ (comment ++ [10])), inline', by simp, by simp,
      fun qs m k ready fuel fits room => ?_⟩
    rw [cons] at fits
    rw [List.length_singleton] at fuel room
    obtain ⟨k, rfl⟩ : ∃ j, k = j + 1 := ⟨k - 1, by omega⟩
    have join : (body ++ (dataMark ++ (comment ++ [10]))) ++ tail =
        body ++ (dataMark ++ (comment ++ 10 :: tail)) := by simp
    obtain ⟨u, ready', run⟩ := loadFileLoop_turn ready b
      (ends_data qs.length inline tail) (by decide) (by omega) (by omega) k
    rw [join]
    exact ⟨u, run, ready'⟩
  | more text rest p ps b programs ih =>
    obtain ⟨head, body, p, inline', b⟩ := b
    obtain ⟨comment, after, inline, rfl, short, loop⟩ := ih
    have longer : (p :: ps).length ≤ (body ++ (brain10 ++ (comment ++ 10 :: after))).length + 1 := by
      simp only [List.length_append, List.length_cons]
      omega
    refine ⟨head, body ++ (brain10 ++ (comment ++ 10 :: after)), inline', by simp, longer,
      fun qs m k ready fuel fits room => ?_⟩
    rw [cons] at fits
    rw [List.length_cons] at fuel room
    obtain ⟨k, rfl⟩ : ∃ j, k = j + 1 := ⟨k - 1, by omega⟩
    have join : (body ++ (brain10 ++ (comment ++ 10 :: after))) ++ tail =
        body ++ (brain10 ++ (comment ++ 10 :: (after ++ tail))) := by simp
    obtain ⟨u, ready', run⟩ := loadFileLoop_turn ready b
      (ends_header qs.length inline (after ++ tail)) (by decide) (by omega) (by omega) k
    have single : total [p] = p.size := rfl
    obtain ⟨w, run', ready''⟩ := loop (qs ++ [p]) u k ready' (by omega)
      (by rw [total_append, single]; omega) (by rw [List.length_append, List.length_singleton]; omega)
    rw [List.append_assoc] at ready''
    rw [join]
    exact ⟨w, run.trans run', ready''⟩

omit [LawfulTree T] in
theorem ready_start {pgSize : ℕ} {average : UInt32 → UInt32 → UInt32} {pager : Pager}
    (accepted : pagememInit pgSize average = some pager) (host : Host) :
    Ready (startState (T := T) pager host) [] (startState pager host) := by
  have empty (i : ℕ) : ¬i < 0 := Nat.not_lt_zero i
  obtain ⟨blank, absent, -⟩ := pagememInit_blank accepted
  refine ⟨⟨rfl, ?_, ?_, ?_, ?_, .refl [], rfl⟩, .start, fun _ => rfl, fun v _ => blank v, absent⟩
  all_goals exact fun i hi => absurd hi (empty i)

theorem loadFile_ready {pgSize : ℕ} {average : UInt32 → UInt32 → UInt32} {pager : Pager}
    (accepted : pagememInit pgSize average = some pager) (host : Host) {text : List UInt8}
    (tail : List UInt8) {ps : List Program} (format : Programs text ps) (few : ps.length ≤ procs)
    (fits : total ps ≤ vaddrSize) :
    ∃ m : VM T, loadFile ⟨text ++ tail, false⟩ (startState pager host) =
      .ok ((0, ⟨tail, false⟩), m) ∧ Ready (startState pager host) ps m := by
  obtain ⟨comment, after, inline, rfl, short, loop⟩ :=
    loadFileLoop_programs (T := T) pager host tail format
  have join : (brain10 ++ (comment ++ 10 :: after)) ++ tail =
      [] ++ (brain10 ++ (comment ++ 10 :: (after ++ tail))) := by simp
  obtain ⟨left, scanned, skipped⟩ := scan_line .nil brain10_solid (by decide) inline (after ++ tail)
  have tok : (brain10 ++ comment.takeWhile fun c => !isspace c).take 7 = brain10 :=
    List.take_left' rfl
  obtain ⟨u, run, ready⟩ := loop [] (startState pager host) ((after ++ tail).length + 1)
    (ready_start accepted host) (by rw [List.length_append]; omega)
    (by simpa [total] using fits) (by simpa using few)
  refine ⟨u, ?_, ready⟩
  rw [loadFile, join, scanned]
  simp only [tok, skipped, ne_eq, not_true, if_false]
  exact run

/-- Every text of programs that fit is loaded: process `i` has the base after the earlier
programs, its size less one as limit, and the words of its code. -/
theorem loadFile_programs (pgSize : ℕ) (average : UInt32 → UInt32 → UInt32) (pager : Pager)
    (accepted : pagememInit pgSize average = some pager)
    (host : Host) (text tail : List UInt8) (ps : List Program)
    (format : Programs text ps) (few : ps.length ≤ procs) (fits : total ps ≤ vaddrSize) :
    ∃ m : VM T, loadFile ⟨text ++ tail, false⟩ (startState pager host) =
      .ok ((0, ⟨tail, false⟩), m) ∧ Loaded ps m := by
  obtain ⟨m, run, ready⟩ := loadFile_ready (T := T) accepted host tail format few fits
  exact ⟨m, run, ready.toLoaded⟩

end
end

def pair : List Program := [⟨2, [bytes "HA00"]⟩, ⟨2, [bytes "LR02", bytes "PE00"]⟩]

def pairText : List UInt8 :=
  bytes "BRAIN10 halt\n2\n\nHA00 now\nBRAIN10\n02\nLR02\n  PE00 up\nDATA end\n"

theorem pairText_programs : Programs pairText pair := by
  have text : pairText =
      (brain10 ++ (bytes " halt" ++ 10 :: ([] ++ (bytes "2" ++ ([] ++ 10 ::
        ([] ++ 10 :: ([] ++ (bytes "HA00" ++ (bytes " now" ++ 10 :: []))))))))) ++
      ((brain10 ++ ([] ++ 10 :: ([] ++ (bytes "02" ++ ([] ++ 10 :: ([] ++ (bytes "LR02" ++ ([] ++
        10 :: (bytes "  " ++ (bytes "PE00" ++ (bytes " up" ++ 10 :: []))))))))))) ++
      (dataMark ++ (bytes " end" ++ [10]))) := by decide
  have token (tok : List UInt8) (h : tok ∈ [bytes "HA00", bytes "LR02", bytes "PE00"]) :
      Token tok := by
    have solid : ∀ tok ∈ [bytes "HA00", bytes "LR02", bytes "PE00"], Solid tok ∧ 4 ≤ tok.length ∧
        ¬brain10 <+: tok ∧ ¬dataMark <+: tok := by decide
    obtain ⟨solid, long, header, data⟩ := solid tok h
    exact ⟨solid, long, header, data⟩
  have remark (s : List UInt8) (inline : Inline s) (h : s.head? = some 32) : Remark s := by
    refine ⟨inline, fun c hc => ?_⟩
    obtain rfl : 32 = c := Option.mem_some.1 (h ▸ hc)
    decide
  have bare : Remark [] := ⟨List.not_mem_nil, fun c hc => nomatch hc⟩
  have inline : Inline [] := List.not_mem_nil
  have numeric (s : List UInt8) (h : s.all isdigit = true) : ∀ c ∈ s, isdigit c = true :=
    List.all_eq_true.1 h
  rw [text]
  refine .more _ _ _ _ (.mk _ _ _ (by decide) ?_) (.last _ _ _ (.mk _ _ _ inline ?_) (by decide))
  · exact .mk [] (bytes "2") [] _ _ .nil inline (by decide) (numeric _ rfl) rfl (by decide) .nil
      inline (.blank [] _ _ .nil inline (.code [] _ _ [] [] .nil inline (token _ (by decide))
        (remark _ (by decide) rfl) .done)) (by decide)
  · exact .mk [] (bytes "02") [] _ _ .nil inline (by decide) (numeric _ rfl) rfl (by decide) .nil
      inline (.code [] _ [] _ _ .nil inline (token _ (by decide)) bare
        (.code (bytes "  ") _ _ [] [] (by decide) (by decide) (token _ (by decide))
          (remark _ (by decide) rfl) .done)) (by decide)

theorem pairText_loaded : ∃ m : VM ListTree, loadFile ⟨pairText ++ bytes "1234\n", false⟩
    (startState ((pagememInit 100 halfWeight).get rfl) bareHost) =
      .ok ((0, ⟨bytes "1234\n", false⟩), m) ∧ Loaded pair m :=
  loadFile_programs 100 halfWeight _ (Option.some_get rfl).symm bareHost pairText _ pair
    pairText_programs (by decide) (by decide)

end BrainMachine.LoaderFormat
