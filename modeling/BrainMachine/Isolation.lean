import BrainMachine.HoleListSteps
import BrainMachine.Packing
import BrainMachine.WaitQueues

set_option autoImplicit false

/-!
# Isolation of address spaces

The blocks of live processes are packed, with the addresses of the holes as starts, for as
long as every request has room in front of the hole it is served from. A hole that was cut
keeps its recorded size, so that the allocator itself does not see to that.
-/
namespace BrainMachine.Isolation
open Codec Computations Paging Stdio AddressSpace Instructions HoleList RunQueue Machine Loader
open Dispatch Effects Runs MachineRuns SortedTree WaitQueues Packing

theorem word2int_int2word_nonneg {a : ℤ} (h : 0 ≤ a) : 0 ≤ word2int (int2word a) := by
  obtain ⟨n, rfl⟩ := Int.eq_ofNat_of_zero_le h
  have hn := word2int_int2word n
  rw [hn]
  exact Int.natCast_nonneg _

theorem word2int_int2word_small {a : ℤ} (h : 0 ≤ a) (ha : a < 10000) :
    word2int (int2word a) = a := by
  obtain ⟨n, rfl⟩ := Int.eq_ofNat_of_zero_le h
  have hn := word2int_int2word n
  rw [hn]
  omega

/-- The limit register of a block holds its size less one, and -1 for an empty block. -/
theorem limit_size {n : ℤ} (h : 0 ≤ n) (hn : n ≤ 10000) :
    word2int (int2word (n - 1)) + 1 = n := by
  by_cases h0 : n = 0
  · rw [h0]
    decide
  · rw [word2int_int2word_small (by omega) (by omega)]
    omega

def block (p : Seg) (b s : ℕ) : Prop :=
  word2int p.br = b ∧ word2int p.lr + 1 = s ∧ 0 < s

section
variable {T : Type}

def starts (m : VM T) (a : ℕ) : Prop := ∃ h ∈ m.holes, h.addr.toNat = a

def extent (m : VM T) (k : ℕ) : ℕ :=
  ((List.range k).map fun p => (word2int (m.seg p).lr + 1).toNat).sum

theorem extent_succ (m : VM T) (k : ℕ) :
    extent m (k + 1) = extent m k + (word2int (m.seg k).lr + 1).toNat := by
  simp [extent, List.range_succ]

theorem extent_congr {m u : VM T} {k : ℕ} (h : ∀ p < k, u.seg p = m.seg p) :
    extent u k = extent m k := by
  induction k with
  | zero => rfl
  | succ k ih =>
    rw [extent_succ, extent_succ, h k (Nat.lt_succ_self k),
      ih fun p hp => h p (Nat.lt_succ_of_lt hp)]

theorem extent_mono (m : VM T) {j k : ℕ} (h : j ≤ k) : extent m j ≤ extent m k := by
  induction h with
  | refl => exact le_rfl
  | step h ih =>
    rw [extent_succ]
    omega

variable [RedBlackTree T]

def live (e : Execution T) (n p : ℕ) : Prop := p < (e.vm n).nextPid ∧ ¬halted e p n

def owns (e : Execution T) (n p b s : ℕ) : Prop := live e n p ∧ block ((e.vm n).seg p) b s

/-- The ranges of live processes lie in secondary storage and apart from one another, and an
address that one of them can form is not an address of another. -/
structure Isolated (e : Execution T) (n : ℕ) : Prop where
  inside : ∀ p, live e n p → 0 ≤ word2int ((e.vm n).seg p).lr →
    0 ≤ word2int ((e.vm n).seg p).br ∧
      word2int ((e.vm n).seg p).br + word2int ((e.vm n).seg p).lr < vaddrSize
  disjoint : ∀ p q, live e n p → live e n q → p ≠ q → 0 ≤ word2int ((e.vm n).seg p).lr →
    0 ≤ word2int ((e.vm n).seg q).lr →
      word2int ((e.vm n).seg p).br + word2int ((e.vm n).seg p).lr < word2int ((e.vm n).seg q).br ∨
      word2int ((e.vm n).seg q).br + word2int ((e.vm n).seg q).lr < word2int ((e.vm n).seg p).br
  own : ∀ p a, live e n p → 0 ≤ getGlobalAddress ((e.vm n).seg p) a →
    getGlobalAddress ((e.vm n).seg p) a < vaddrSize ∧ ∀ q b, live e n q → q ≠ p →
      getGlobalAddress ((e.vm n).seg q) b ≠ getGlobalAddress ((e.vm n).seg p) a

def request (m : VM T) : Label → Option ℤ
  | .instr p .FK _ => some (word2int (m.seg p).lr + 1)
  | .instr p .EX _ => execSize { m with sched := account m.sched } p
  | _ => none

/-- The loaded processes fit into secondary storage together, every later request has room
in front of the hole it is served from, and no process frees its space twice. -/
structure Roomy (e : Execution T) : Prop where
  load : extent (e.vm 0) (e.vm 0).nextPid ≤ vaddrSize
  step : ∀ i < e.len, ∀ n ∈ request (e.vm i) (e.lab i), 0 < n →
    ∀ h ∈ chosen (UInt32.ofInt n) (e.vm i).holes,
      Room vaddrSize (owns e i) (starts (e.vm i)) h.addr.toNat n.toNat
  once : ∀ i < e.len, ∀ p op a, e.lab i = .instr p op a → halted e p i → op ≠ .EX ∧ op ≠ .HA

structure Arranged (e : Execution T) (n : ℕ) : Prop where
  numeric : ∀ p < (e.vm n).nextPid, 0 ≤ word2int ((e.vm n).seg p).br
  packed : Packed vaddrSize (owns e n) (starts (e.vm n))

theorem Arranged.owner {e : Execution T} {n : ℕ} (h : Arranged e n) {p : ℕ} (hp : live e n p)
    (hl : 0 ≤ word2int ((e.vm n).seg p).lr) : ∃ b s : ℕ, owns e n p b s ∧
      word2int ((e.vm n).seg p).br = b ∧ word2int ((e.vm n).seg p).lr + 1 = s := by
  obtain ⟨b, hb⟩ := Int.eq_ofNat_of_zero_le (h.numeric p hp.1)
  obtain ⟨l, hl⟩ := Int.eq_ofNat_of_zero_le hl
  exact ⟨b, l + 1, ⟨hp, hb, by rw [hl]; rfl, Nat.succ_pos l⟩, hb, by rw [hl]; rfl⟩

theorem Arranged.isolated {e : Execution T} {n : ℕ} (h : Arranged e n) : Isolated e n := by
  have top : (vaddrSize : ℤ) = 10000 := rfl
  have apart (p q : ℕ) (hp : live e n p) (hq : live e n q) (hne : p ≠ q)
      (lp : 0 ≤ word2int ((e.vm n).seg p).lr) (lq : 0 ≤ word2int ((e.vm n).seg q).lr) :
      word2int ((e.vm n).seg p).br + word2int ((e.vm n).seg p).lr < word2int ((e.vm n).seg q).br ∨
      word2int ((e.vm n).seg q).br + word2int ((e.vm n).seg q).lr <
        word2int ((e.vm n).seg p).br := by
    obtain ⟨b, s, hb, eb, es⟩ := h.owner hp lp
    obtain ⟨c, t, hc, ec, et⟩ := h.owner hq lq
    have := h.packed.apart p q b s c t hne hb hc
    omega
  have inside (p : ℕ) (hp : live e n p) (lp : 0 ≤ word2int ((e.vm n).seg p).lr) :
      0 ≤ word2int ((e.vm n).seg p).br ∧
        word2int ((e.vm n).seg p).br + word2int ((e.vm n).seg p).lr < vaddrSize := by
    obtain ⟨b, s, hb, eb, es⟩ := h.owner hp lp
    have := h.packed.inside p b s hb
    omega
  have formed (p : Seg) (a : ℤ) (ha : 0 ≤ getGlobalAddress p a) :
      0 ≤ word2int p.lr ∧ word2int p.br ≤ getGlobalAddress p a ∧
        getGlobalAddress p a ≤ word2int p.br + word2int p.lr := by
    unfold getGlobalAddress at ha ⊢
    split at ha
    · omega
    · rename_i h0
      rw [if_neg h0]
      dsimp only at ha ⊢
      split at ha
      · omega
      · rename_i h1
        rw [if_neg h1]
        split at ha
        · omega
        · rename_i h2
          rw [if_neg h2]
          omega
  refine ⟨inside, apart, fun p a hp ha => ?_⟩
  obtain ⟨lp, lo, hi⟩ := formed _ a ha
  refine ⟨by have := inside p hp lp; omega, fun q b hq hne he => ?_⟩
  obtain ⟨lq, lo', hi'⟩ := formed _ b (he ▸ ha)
  have := apart q p hq hp hne lq lp
  omega

theorem live_of_succ {e : Execution T} {n p : ℕ} (h : live e (n + 1) p)
    (hp : p < (e.vm n).nextPid) : live e n p :=
  ⟨hp, fun hh => h.2 ((halted_succ e p n).2 (.inl hh))⟩

theorem owns_of_succ {e : Execution T} {n p b s : ℕ} (h : owns e (n + 1) p b s)
    (hp : p < (e.vm n).nextPid) (seg : (e.vm (n + 1)).seg p = (e.vm n).seg p) :
    owns e n p b s :=
  ⟨live_of_succ h.1 hp, seg ▸ h.2⟩

theorem Arranged.keep {e : Execution T} {n : ℕ} (h : Arranged e n)
    (next : (e.vm (n + 1)).nextPid = (e.vm n).nextPid)
    (seg : ∀ q, (e.vm (n + 1)).seg q = (e.vm n).seg q)
    (hs : ∀ a, starts (e.vm (n + 1)) a → starts (e.vm n) a) : Arranged e (n + 1) := by
  refine ⟨fun p hp => ?_, h.packed.mono (fun p b s hp => ?_) hs⟩
  · rw [seg]
    exact h.numeric p (next ▸ hp)
  · exact owns_of_succ hp (next ▸ hp.1.1) (seg p)

omit [RedBlackTree T] in
theorem starts_congr {m u : VM T} (h : u.holes = m.holes) (a : ℕ) (ha : starts u a) :
    starts m a := by
  rw [starts, h] at ha
  exact ha

omit [RedBlackTree T] in
theorem starts_memalloc {m u : VM T} {k : Hole} {n : ℤ} (hn : 0 ≤ n)
    (small : k.addr.toNat + n.toNat < 4294967296)
    (rest : ∀ x ∈ u.holes, x ∈ m.holes ∨ x.addr = k.addr + UInt32.ofInt n) (a : ℕ)
    (ha : starts u a) : starts m a ∨ a = k.addr.toNat + n.toNat := by
  obtain ⟨x, hx, rfl⟩ := ha
  refine (rest x hx).imp (fun hx => ⟨x, hx, rfl⟩) fun hx => ?_
  rw [hx]
  exact add_ofInt hn small

omit [RedBlackTree T] in
theorem starts_empty {m u : VM T} {k : Hole} (hk : k ∈ m.holes)
    (rest : ∀ x ∈ u.holes, x ∈ m.holes ∨ x.addr = k.addr + UInt32.ofInt 0) (a : ℕ)
    (ha : starts u a) : starts m a := by
  obtain ⟨x, hx, rfl⟩ := ha
  rcases rest x hx with hx | hx
  · exact ⟨x, hx, rfl⟩
  · refine ⟨k, hk, ?_⟩
    rw [hx, show UInt32.ofInt 0 = 0 from rfl, UInt32.add_zero]

omit [RedBlackTree T] in
theorem starts_freemem {m u : VM T} {b : ℕ} {p : Seg} (hb : word2int p.br = b)
    (small : b < 4294967296) (hu : u.holes = freemem (word2int p.br) (word2int p.lr + 1) m.holes)
    (a : ℕ) (ha : starts u a) : a = b ∨ starts m a := by
  obtain ⟨x, hx, rfl⟩ := ha
  rw [hu, freemem, addHole_mem] at hx
  refine hx.imp (fun hx => ?_) fun hx => ⟨x, hx, rfl⟩
  rw [hx, hb]
  exact ofInt_toNat (Int.natCast_nonneg b) (by omega)

theorem Arranged.halt {e : Execution T} {n : ℕ} (h : Arranged e n) {p : ℕ} (hp : live e n p)
    (gone : ¬live e (n + 1) p) (next : (e.vm (n + 1)).nextPid = (e.vm n).nextPid)
    (seg : ∀ q, (e.vm (n + 1)).seg q = (e.vm n).seg q)
    (holes : (e.vm (n + 1)).holes =
      if word2int ((e.vm n).seg p).br < 0 ∨ word2int ((e.vm n).seg p).lr < 0 then (e.vm n).holes
      else freemem (word2int ((e.vm n).seg p).br) (word2int ((e.vm n).seg p).lr + 1)
        (e.vm n).holes) : Arranged e (n + 1) := by
  by_cases hr : word2int ((e.vm n).seg p).br < 0 ∨ word2int ((e.vm n).seg p).lr < 0
  · rw [if_pos hr] at holes
    exact h.keep next seg (starts_congr holes)
  · rw [if_neg hr] at holes
    obtain ⟨b, s, owned, hb, hs⟩ := h.owner hp (by omega)
    have top := h.packed.inside p b s owned
    have size : vaddrSize = 10000 := rfl
    refine ⟨fun q hq => ?_, ?_⟩
    · rw [seg]
      exact h.numeric q (next ▸ hq)
    · have old {q c t : ℕ} (hq : owns e (n + 1) q c t) : owns e n q c t :=
        owns_of_succ hq (next ▸ hq.1.1) (seg q)
      have rest : Packed vaddrSize (owns e (n + 1)) (starts (e.vm n)) :=
        h.packed.mono (fun q c t hq => old hq) fun _ ha => ha
      refine rest.start (x := b) (fun q c t hq => ?_) (starts_freemem hb (by omega) holes)
      have hne : q ≠ p := by
        rintro rfl
        exact gone hq.1
      exact h.packed.base owned (old hq) hne

/-- What the registers of a block place that was granted where it fits. -/
theorem block_granted {k : Hole} {n : ℤ} {a pid b s : ℕ} (hn : 0 < n) (ha : k.addr.toNat = a)
    (fits : a + n.toNat ≤ vaddrSize)
    (h : block ⟨int2word k.addr.toNat, int2word (n - 1), pid⟩ b s) : b = a ∧ s = n.toNat := by
  have size : vaddrSize = 10000 := rfl
  obtain ⟨hb, hs, -⟩ := h
  rw [limit_size (by omega) (by omega)] at hs
  rw [word2int_int2word_small (by omega) (by omega)] at hb
  omega

theorem Arranged.fork {e : Execution T} {i : ℕ} (h : Arranged e i) {n : ℤ} (hn : 0 < n)
    (room : ∀ k ∈ chosen (UInt32.ofInt n) (e.vm i).holes,
      Room vaddrSize (owns e i) (starts (e.vm i)) k.addr.toNat n.toNat)
    (granted : 0 ≤ (memalloc n (e.vm i).holes).1)
    (next : (e.vm (i + 1)).nextPid = (e.vm i).nextPid + 1)
    (holes : (e.vm (i + 1)).holes = (memalloc n (e.vm i).holes).2)
    (child : (e.vm (i + 1)).seg (e.vm i).nextPid =
      ⟨int2word (memalloc n (e.vm i).holes).1, int2word (n - 1), (e.vm i).nextPid⟩)
    (seg : ∀ q, q ≠ (e.vm i).nextPid → (e.vm (i + 1)).seg q = (e.vm i).seg q) :
    Arranged e (i + 1) := by
  obtain ⟨k, hk, he, rest⟩ := memalloc_granted granted
  have room := room k hk
  have fits := room.fits
  have size : vaddrSize = 10000 := rfl
  refine ⟨fun q hq => ?_, h.packed.put (p := (e.vm i).nextPid)
    ⟨k, (chosen_some hk).1, rfl⟩ room (fun q b s hq => ?_) fun c hc => ?_⟩
  · by_cases hp : q = (e.vm i).nextPid
    · rw [hp, child]
      exact word2int_int2word_nonneg granted
    · rw [seg q hp]
      exact h.numeric q (by omega)
  · by_cases hp : q = (e.vm i).nextPid
    · obtain ⟨-, hb⟩ := hq
      rw [hp, child, he] at hb
      exact .inr ⟨hp, block_granted hn rfl fits hb⟩
    · have := hq.1.1
      exact .inl ⟨owns_of_succ hq (by omega) (seg q hp), hp⟩
  · rw [← holes] at rest
    exact starts_memalloc (by omega) (by omega) rest c hc

/-- EX takes a new block for a live process and then gives the old one back. -/
theorem Arranged.exec {e : Execution T} {i : ℕ} (h : Arranged e i) {n : ℤ} {p : ℕ} (hn : 0 ≤ n)
    (hp : live e i p)
    (room : 0 < n → ∀ k ∈ chosen (UInt32.ofInt n) (e.vm i).holes,
      Room vaddrSize (owns e i) (starts (e.vm i)) k.addr.toNat n.toNat)
    (granted : 0 ≤ (memalloc n (e.vm i).holes).1)
    (next : (e.vm (i + 1)).nextPid = (e.vm i).nextPid)
    (holes : (e.vm (i + 1)).holes =
      if word2int ((e.vm i).seg p).br < 0 ∨ word2int ((e.vm i).seg p).lr < 0 then
        (memalloc n (e.vm i).holes).2
      else freemem (word2int ((e.vm i).seg p).br) (word2int ((e.vm i).seg p).lr + 1)
        (memalloc n (e.vm i).holes).2)
    (seg : ∀ q, (e.vm (i + 1)).seg q = if q = p then
        ⟨int2word (memalloc n (e.vm i).holes).1, int2word (n - 1), ((e.vm i).seg p).pid⟩
      else (e.vm i).seg q) : Arranged e (i + 1) := by
  obtain ⟨k, hk, he, rest⟩ := memalloc_granted granted
  have size : vaddrSize = 10000 := rfl
  have moved (q : ℕ) : (e.vm (i + 1)).seg q = if q = p then
      ⟨int2word k.addr.toNat, int2word (n - 1), ((e.vm i).seg p).pid⟩ else (e.vm i).seg q := by
    rw [seg, he]
  have other {q b s : ℕ} (hq : owns e (i + 1) q b s) (hne : q ≠ p) : owns e i q b s :=
    owns_of_succ hq (next ▸ hq.1.1) ((moved q).trans (if_neg hne))
  have numeric (q : ℕ) (hq : q < (e.vm (i + 1)).nextPid) :
      0 ≤ word2int ((e.vm (i + 1)).seg q).br := by
    rw [moved]
    split
    · exact word2int_int2word_nonneg (Int.natCast_nonneg _)
    · exact h.numeric q (next ▸ hq)
  -- the new block, before the old one is given back
  have taken : Packed vaddrSize (owns e (i + 1))
      (starts { e.vm i with holes := (memalloc n (e.vm i).holes).2 }) ∧
      ∀ b s, owns e i p b s → ∀ c t, owns e (i + 1) p c t → b ≤ c ∨ c + t ≤ b := by
    by_cases h0 : n = 0
    · have empty {c t : ℕ} (hq : owns e (i + 1) p c t) : False := by
        obtain ⟨-, -, hs, ht⟩ := hq
        rw [moved, if_pos rfl, limit_size hn (by omega)] at hs
        omega
      refine ⟨h.packed.mono (fun q c t hq => other hq ?_)
        (starts_empty ((chosen_some hk).1) (by rwa [h0] at rest ⊢)),
        fun _ _ _ c t hq => (empty hq).elim⟩
      rintro rfl
      exact empty hq
    · have room := room (by omega) k hk
      have fits := room.fits
      have new {c t : ℕ} (hq : owns e (i + 1) p c t) : c = k.addr.toNat ∧ t = n.toNat := by
        obtain ⟨-, hb⟩ := hq
        rw [moved, if_pos rfl] at hb
        exact block_granted (by omega) rfl fits hb
      refine ⟨h.packed.put (p := p) ⟨k, (chosen_some hk).1, rfl⟩ room
        (fun q c t hq => ?_) (starts_memalloc hn (by omega) rest), fun b s hb c t hq => ?_⟩
      · by_cases hne : q = p
        · subst q
          exact .inr ⟨rfl, new hq⟩
        · exact .inl ⟨other hq hne, hne⟩
      · obtain ⟨rfl, rfl⟩ := new hq
        have := room.free p b s hb
        omega
  obtain ⟨packed, old⟩ := taken
  refine ⟨numeric, ?_⟩
  by_cases hr : word2int ((e.vm i).seg p).br < 0 ∨ word2int ((e.vm i).seg p).lr < 0
  · rw [if_pos hr] at holes
    exact packed.mono (fun _ _ _ hq => hq) (starts_congr holes)
  · rw [if_neg hr] at holes
    obtain ⟨b, s, owned, hb, -⟩ := h.owner hp (by omega)
    have top := h.packed.inside p b s owned
    refine packed.start (x := b) (fun q c t hq => ?_) (starts_freemem hb (by omega) holes)
    by_cases hne : q = p
    · subst q
      exact old b s owned c t hq
    · exact h.packed.base owned (other hq hne) hne

theorem Arranged.refused {e : Execution T} {i : ℕ} (h : Arranged e i) {n : ℤ} (hn : 0 ≤ n)
    (room : 0 < n → ∀ k ∈ chosen (UInt32.ofInt n) (e.vm i).holes,
      Room vaddrSize (owns e i) (starts (e.vm i)) k.addr.toNat n.toNat)
    (refused : (memalloc n (e.vm i).holes).1 < 0)
    (next : (e.vm (i + 1)).nextPid = (e.vm i).nextPid)
    (holes : (e.vm (i + 1)).holes = (memalloc n (e.vm i).holes).2)
    (seg : ∀ q, (e.vm (i + 1)).seg q = (e.vm i).seg q) : Arranged e (i + 1) := by
  apply h.keep next seg
  intro c hc
  rcases memalloc_refused refused with same | ⟨k, hk, neg, rest⟩
  · exact starts_congr (holes.trans same) c hc
  · rw [← holes] at rest
    by_cases h0 : n = 0
    · rw [h0] at rest
      exact starts_empty ((chosen_some hk).1) rest c hc
    · -- with room in front of it the address is not negative
      have fits := (room (by omega) k hk).fits
      have size : vaddrSize = 10000 := rfl
      have lt : k.addr.toBitVec.toNat < 10001 := by
        change k.addr.toNat < 10001
        omega
      rw [BitVec.toInt_eq_toNat_cond] at neg
      split at neg <;> omega

theorem arranged_step {e : Execution T} {i : ℕ} (hi : i < e.len) (roomy : Roomy e)
    (h : Arranged e i) : Arranged e (i + 1) := by
  obtain ⟨-, ⟨p, op, a, lab, -, k⟩ | ⟨-, s, -, hm⟩⟩ := e.step hi
  · have request := roomy.step i hi
    have once := roomy.once i hi p op a lab
    have hlt := k.lt
    rw [lab] at request
    by_cases hex : op = .EX
    · subst op
      have hp : live e i p := ⟨hlt, fun hh => (once hh).1 rfl⟩
      obtain ⟨n, hr, hn, ⟨refused, hl⟩ | ⟨granted, hl⟩⟩ := exec_request k
      · exact h.refused hn (fun pos => request n hr pos) refused hl.nextPid hl.holes hl.seg
      · exact h.exec hn hp (fun pos => request n hr pos) granted hl.still_resized.nextPid
          (hl.holes.trans (resized_holes _ _ _)) fun q => (hl.seg q).trans (resized_seg _ _ _ q)
    · have effect := k.effect
      cases effect with
      | quiet op a k => exact h.keep k.nextPid k.seg (starts_congr k.holes)
      | recvBlock a c ha none frame => exact h.keep frame.nextPid frame.seg (starts_congr frame.holes)
      | recvTake a c s some frame => exact h.keep frame.nextPid frame.seg (starts_congr frame.holes)
      | sendAlone a c ha alone frame =>
        exact h.keep frame.nextPid frame.seg (starts_congr frame.holes)
      | sendWake a c d s ha waits frame =>
        exact h.keep frame.nextPid frame.seg (starts_congr frame.holes)
      | downBlock a c ha frame => exact h.keep frame.nextPid frame.seg (starts_congr frame.holes)
      | upWake a c w l ha head frame =>
        exact h.keep frame.nextPid frame.seg (starts_congr frame.holes)
      | fork a c d n s hn pos room granted nextPid holes files child seg =>
        exact h.fork pos (request n (hn ▸ rfl) pos) granted nextPid holes child seg
      | execNone => exact absurd rfl hex
      | execGrant => exact absurd rfl hex
      | halt a c d s frame =>
        have hp : live e i p := ⟨hlt, fun hh => (once hh).2 rfl⟩
        have gone : ¬live e (i + 1) p := fun hl => hl.2 ⟨i, Nat.lt_succ_self i, a, lab⟩
        refine h.halt hp gone (frame.nextPid.trans ?_) (fun q => (frame.seg q).trans ?_)
          (frame.holes.trans (freeSpace_holes _ _))
        · exact (freeSpace_still _ _).nextPid
        · rw [freeSpace_eq]
          rfl
  · exact h.keep (by rw [hm]) (fun q => by rw [hm]; rfl) (starts_congr (by rw [hm]))

structure Stacked (m : VM T) : Prop where
  room : m.nextPid ≤ 100
  sizes : ∀ p < m.nextPid, 0 ≤ word2int (m.seg p).lr + 1 ∧ word2int (m.seg p).lr + 1 ≤ 10000
  bases : ∀ p < m.nextPid, (m.seg p).br = int2word (extent m p)
  holes : m.holes = [] ∨ m.holes = [⟨UInt32.ofInt (extent m m.nextPid), 10000⟩]

omit [RedBlackTree T] in
theorem Stacked.bound {m : VM T} (h : Stacked m) {k : ℕ} (hk : k ≤ m.nextPid) :
    extent m k ≤ k * 10000 := by
  induction k with
  | zero => exact le_rfl
  | succ k ih =>
    have := ih (by omega)
    have := h.sizes k (by omega)
    rw [extent_succ]
    omega

omit [RedBlackTree T] in
theorem granted_seg (n : ℤ) (m : VM T) (q : ℕ) : (granted n m).seg q =
    if q = m.nextPid then ⟨int2word (memalloc n m.holes).1, int2word (n - 1), m.nextPid⟩
    else m.seg q := by
  by_cases hq : q = m.nextPid <;> simp [granted, VM.seg, VM.setProc, hq]

omit [RedBlackTree T] in
/-- A block that is granted lies behind the loaded processes. -/
theorem Stacked.behind {w : VM T} {n : ℤ} (h : Stacked w) (hn : 0 ≤ n) (small : n < 2147483648)
    (block : 0 ≤ (memalloc n w.holes).1) :
    w.holes = [⟨UInt32.ofInt (extent w w.nextPid), 10000⟩] ∧ n ≤ 10000 ∧
      (UInt32.ofInt (extent w w.nextPid : ℕ)).toNat = extent w w.nextPid ∧
        (memalloc n w.holes).1 = extent w w.nextPid := by
  have bound := h.bound le_rfl
  have room := h.room
  obtain ⟨k, hk, he, -⟩ := memalloc_granted block
  obtain ⟨mem, le⟩ := chosen_some hk
  have single : w.holes = [⟨UInt32.ofInt (extent w w.nextPid), 10000⟩] := by
    apply h.holes.resolve_left
    intro none
    rw [none] at mem
    cases mem
  rw [single] at mem
  obtain rfl := List.mem_singleton.1 mem
  have addr : (UInt32.ofInt (extent w w.nextPid : ℕ)).toNat = extent w w.nextPid :=
    (ofInt_toNat (Int.natCast_nonneg _) (by omega)).trans (Int.toNat_natCast _)
  refine ⟨single, ?_, addr, he.trans (congrArg Nat.cast addr)⟩
  rw [UInt32.le_iff_toNat_le, ofInt_toNat hn (by omega)] at le
  change n.toNat ≤ 10000 at le
  omega

omit [RedBlackTree T] in
theorem Stacked.turn {w : VM T} {n : ℤ} {f : ℕ → Word} {t : Sched T} (h : Stacked w) (hn : 0 ≤ n)
    (small : n < 2147483648) (room : w.nextPid ≤ 99) (block : 0 ≤ (memalloc n w.holes).1) :
    Stacked { stored f (entered (granted n w)) with sched := t } := by
  have seg (q : ℕ) : VM.seg { stored f (entered (granted n w)) with sched := t } q = _ :=
    granted_seg n w q
  have below {k : ℕ} (hk : k ≤ w.nextPid) :
      extent { stored f (entered (granted n w)) with sched := t } k = extent w k := by
    apply extent_congr
    intro p hp
    rw [seg, if_neg (by omega)]
  have bound := h.bound le_rfl
  obtain ⟨single, fits, addr, he⟩ := h.behind hn small block
  have size := limit_size hn fits
  have whole : extent { stored f (entered (granted n w)) with sched := t } (w.nextPid + 1) =
      extent w w.nextPid + n.toNat := by
    rw [extent_succ, below le_rfl, seg, if_pos rfl, size]
  refine ⟨Nat.succ_le_succ room, fun p hp => ?_, fun p hp => ?_, ?_⟩
  · rw [seg]
    split
    · rw [size]
      exact ⟨hn, fits⟩
    · exact h.sizes p (Nat.lt_of_le_of_ne (Nat.le_of_lt_succ hp) (by assumption))
  · rw [seg]
    have hp : p ≤ w.nextPid := Nat.le_of_lt_succ hp
    rw [below hp]
    split
    · rename_i hq
      rw [hq, he]
    · exact h.bases p (by omega)
  · have after : UInt32.ofInt (extent w w.nextPid : ℕ) + UInt32.ofInt n =
        UInt32.ofInt
          (extent { stored f (entered (granted n w)) with sched := t } (w.nextPid + 1) : ℕ) := by
      apply UInt32.toNat_inj.1
      rw [add_ofInt hn (by omega), addr, whole, ofInt_toNat (Int.natCast_nonneg _) (by omega)]
      rfl
    rw [single] at block
    change (memalloc n w.holes).2 = [] ∨ (memalloc n w.holes).2 = _
    rw [single]
    refine (memalloc_single block).imp_right fun he => he.trans ?_
    exact congrArg (fun a => [(⟨a, 10000⟩ : Hole)]) after

theorem load_stacked {pager : Pager} {host : Host} {u : VM T}
    (h : Loads (startState pager host) u) : Stacked u := by
  induction h with
  | start =>
    exact ⟨Nat.zero_le _, fun p hp => absurd hp (Nat.not_lt_zero p),
      fun p hp => absurd hp (Nat.not_lt_zero p), .inr rfl⟩
  | turn w n a b f s t hl hn small room block reset resume ih => exact ih.turn hn small room block

theorem arranged_start (e : Execution T) (fits : extent (e.vm 0) (e.vm 0).nextPid ≤ vaddrSize) :
    Arranged e 0 := by
  have stacked : Stacked (e.vm 0) := by
    obtain ⟨pager, u, fh, -, hu, hm⟩ := e.loads
    obtain ⟨room, sizes, bases, holes⟩ := load_stacked hu
    rw [hm]
    exact ⟨room, sizes, bases, holes⟩
  have size : vaddrSize = 10000 := rfl
  have placed {p b s : ℕ} (h : owns e 0 p b s) :
      p < (e.vm 0).nextPid ∧ b = extent (e.vm 0) p ∧ extent (e.vm 0) (p + 1) = b + s := by
    obtain ⟨⟨hp, -⟩, hb, hs, pos⟩ := h
    have whole := extent_mono (e.vm 0) (show p + 1 ≤ (e.vm 0).nextPid from hp)
    rw [extent_succ, hs] at whole
    rw [stacked.bases p hp, word2int_int2word_small (Int.natCast_nonneg _) (by omega)] at hb
    refine ⟨hp, by omega, ?_⟩
    rw [extent_succ, hs]
    omega
  refine ⟨fun p hp => ?_, fun p b s hp => ?_, fun p q b s c t hne hp hq => ?_,
    fun p b s a hp ha => ?_⟩
  · rw [stacked.bases p hp]
    exact word2int_int2word_nonneg (Int.natCast_nonneg _)
  · obtain ⟨hp, -, he⟩ := placed hp
    have := extent_mono (e.vm 0) (show p + 1 ≤ (e.vm 0).nextPid from hp)
    omega
  · obtain ⟨-, hb, he⟩ := placed hp
    obtain ⟨-, hc, hf⟩ := placed hq
    rcases Nat.lt_or_gt_of_ne hne with lt | lt
    · have := extent_mono (e.vm 0) (show p + 1 ≤ q from lt)
      omega
    · have := extent_mono (e.vm 0) (show q + 1 ≤ p from lt)
      omega
  · obtain ⟨hp, -, he⟩ := placed hp
    have := extent_mono (e.vm 0) (show p + 1 ≤ (e.vm 0).nextPid from hp)
    obtain ⟨x, hx, rfl⟩ := ha
    rcases stacked.holes with none | single
    · rw [none] at hx
      cases hx
    · rw [single, List.mem_singleton] at hx
      right
      rw [hx]
      change b + s ≤ (UInt32.ofInt (extent _ _ : ℕ)).toNat
      rw [ofInt_toNat (Int.natCast_nonneg _) (by omega)]
      omega

theorem arranged (e : Execution T) (roomy : Roomy e) (n : ℕ) (hn : n ≤ e.len) : Arranged e n :=
  e.toRun.invariant (Arranged e) (arranged_start e roomy.load)
    (fun _ hi h => arranged_step hi roomy h) n hn

/-- While every request has room, live processes are isolated at every boundary. -/
theorem isolation (e : Execution T) (roomy : Roomy e) (n : ℕ) (hn : n ≤ e.len) :
    Isolated e n := by
  have packed := arranged e roomy n hn
  exact packed.isolated

def forkRun : Execution ListTree :=
  execution 100 halfWeight bareHost (bytes "BRAIN10\n3\nFK00\nDATA\n") 1
    (by decide +kernel) (by decide +kernel)

theorem forkRun_roomy : Roomy forkRun := by
  have first (i : ℕ) (hi : i < forkRun.len) : i = 0 := Nat.lt_one_iff.1 hi
  refine ⟨by decide +kernel, fun i hi n hn _ h hh => ?_, fun i hi p op a lab hh => ?_⟩
  · obtain rfl := first i hi
    have hn3 : request (forkRun.vm 0) (forkRun.lab 0) = some 3 := by decide +kernel
    obtain rfl : 3 = n := Option.some.inj (hn3.symm.trans hn)
    have hh3 : chosen (UInt32.ofInt 3) (forkRun.vm 0).holes = some ⟨3, 10000⟩ := by decide +kernel
    obtain rfl : ⟨3, 10000⟩ = h := Option.some.inj (hh3.symm.trans hh)
    have alone : (forkRun.vm 0).nextPid = 1 := by decide +kernel
    have base : word2int ((forkRun.vm 0).seg 0).br = 0 := by decide +kernel
    have holes : (forkRun.vm 0).holes = [⟨3, 10000⟩] := by decide +kernel
    refine ⟨by decide, fun p b s hp => .inl ?_, fun c hc => .inl ?_⟩
    · obtain ⟨⟨hp, -⟩, hb, -⟩ := hp
      obtain rfl : p = 0 := by omega
      rw [base] at hb
      change b < 3
      omega
    · obtain ⟨x, hx, rfl⟩ := hc
      rw [holes, List.mem_singleton] at hx
      rw [hx]
  · obtain rfl := first i hi
    obtain ⟨j, hj, -⟩ := hh
    exact absurd hj (Nat.not_lt_zero j)

theorem forkRun_isolated : Isolated forkRun 1 := isolation forkRun forkRun_roomy 1 le_rfl

def crowdRun : Execution ListTree :=
  execution 100 halfWeight bareHost
    (bytes "BRAIN10\n6000\nNP00\nBRAIN10\n6000\nNP00\nBRAIN10\n6000\nNP00\nDATA\n") 0
    (by decide +kernel) (by decide +kernel)

/-- The first and the third process overlap from the start. -/
theorem crowdRun_not_isolated : ¬Isolated crowdRun 0 := by
  intro h
  have alive (p : ℕ) (hp : p < (crowdRun.vm 0).nextPid) : live crowdRun 0 p :=
    ⟨hp, not_halted_zero crowdRun p⟩
  have apart := h.disjoint 0 2 (alive 0 (by decide +kernel)) (alive 2 (by decide +kernel))
    (by decide) (by decide +kernel) (by decide +kernel)
  revert apart
  decide +kernel

end
end BrainMachine.Isolation
