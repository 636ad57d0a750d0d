import BrainMachine.FrameTable

set_option autoImplicit false

namespace BrainMachine.Pinning
open Codec Computations Paging Runs Transparency FrameTable

inductive Call where
  | touch (v : ℕ) (r : Option ℕ)
  | release (addr : ℤ)
  | write

inductive Calls : Pager → Call → Pager → Prop
  | touch (s : Pager) (ops : UInt32) (v : ℕ) (r : Option ℕ) (u : Pager)
      (h : touchPage ops v s = .ok (r, u)) : Calls s (.touch v r) u
  | release (s : Pager) (addr : ℤ) : Calls s (.release addr) (pageReleaseRef addr s)
  | write (s : Pager) (mem pageMem : ℕ → Word) :
      Calls s .write { s with mem := mem, pageMem := pageMem }

def Call.takes (size page : ℕ) : Call → Bool
  | .touch v (some _) => decide (v / size = page)
  | _ => false

def Call.drops (size page : ℕ) : Call → Bool
  | .release addr => decide (0 ≤ addr ∧ addr.toNat / size = page)
  | _ => false

/-- Every valid page has an existing frame of its own, and the free frames are the others. -/
structure Table (s : Pager) : Prop where
  existing : ∀ p < s.pgCount, s.resident p →
    ∃ f < s.frameCount, (s.pgTable p).frameAddr = f * s.pgSize
  apart : ∀ p < s.pgCount, ∀ q < s.pgCount, s.resident p → s.resident q →
    (s.pgTable p).frameAddr = (s.pgTable q).frameAddr → p = q
  free : ∀ f < s.frameCount, s.freeFrames f = true ↔
    ∀ p < s.pgCount, s.resident p → (s.pgTable p).frameAddr ≠ f * s.pgSize

structure Stays (p : ℕ) (s u : Pager) : Prop where
  valid : u.resident p
  frame : (u.pgTable p).frameAddr = (s.pgTable p).frameAddr
  alone : ∀ q, u.resident q → (u.pgTable q).frameAddr = (s.pgTable p).frameAddr → q = p

/-- From the state `i` up to the state `j` not all references to the page are released. -/
def Held (r : Run Calls) (p i j : ℕ) : Prop :=
  ∀ k, i ≤ k → k ≤ j → tallyFrom (fun n => (r.lab n).drops (r.st 0).pgSize p) i k <
    ((r.st i).refs p).toNat + tallyFrom (fun n => (r.lab n).takes (r.st 0).pgSize p) i k

def Countable (r : Run Calls) (p i j : ℕ) : Prop :=
  ∀ k, i ≤ k → k < j → (r.lab k).takes (r.st 0).pgSize p = true →
    ((r.st k).refs p).toNat + 1 < 4294967296

/-- The frame table is sound all along, and pages stay until their references are released. -/
structure Sound (r : Run Calls) : Prop where
  table : ∀ i ≤ r.len, Table (r.st i)
  pinned : ∀ p i j, i ≤ j → j ≤ r.len → (r.st i).refs p ≠ 0 → Held r p i j →
    Stays p (r.st i) (r.st j)

theorem Table.of_tabled {s : Pager} (hs : Tabled s) : Table s := by
  refine ⟨fun p _ hp => ?_, fun p _ q _ hp hq he => hs.frames.apart p q hp hq he,
    fun f hf => ⟨fun free p _ hp ha => ?_, fun none => ?_⟩⟩
  · obtain ⟨-, f, hf, ha, -⟩ := hs.frames.frame p hp
    exact ⟨f, hf, ha⟩
  · obtain ⟨-, g, -, hg, taken⟩ := hs.frames.frame p hp
    obtain rfl := Nat.eq_of_mul_eq_mul_right hs.frames.size_pos (hg.symm.trans ha)
    rw [free] at taken
    cases taken
  · by_contra taken
    obtain ⟨p, hp, ha⟩ := hs.taken f hf (Bool.eq_false_of_not_eq_true taken)
    exact none p (hs.frames.frame p hp).1 hp ha

theorem Stays.refl {s : Pager} (hs : Tabled s) {p : ℕ} (hp : s.refs p ≠ 0) : Stays p s s :=
  ⟨hs.pinned p hp, rfl, fun q hq he => hs.frames.apart q p hq (hs.pinned p hp) he⟩

theorem Stays.trans {s u w : Pager} {p : ℕ} (h : Stays p s u) (k : Stays p u w) : Stays p s w :=
  ⟨k.valid, k.frame.trans h.frame, fun q hq he => k.alone q hq (he.trans h.frame.symm)⟩

theorem Stays.of_kept {s u : Pager} (hu : Tabled u) {p : ℕ}
    (h : u.resident p ∧ (u.pgTable p).frameAddr = (s.pgTable p).frameAddr) : Stays p s u :=
  ⟨h.1, h.2, fun q hq he => hu.frames.apart q p hq h.1 (he.trans h.2.symm)⟩

theorem Calls.tabled {s u : Pager} {b : Call} (hs : Tabled s) (k : Calls s b u) : Tabled u := by
  cases k with
  | touch ops v r u h => exact touchPage_tabled hs h
  | release addr => exact pageReleaseRef_tabled hs addr
  | write mem pageMem => exact hs.write mem pageMem

theorem Calls.size {s u : Pager} {b : Call} (hs : Tabled s) (k : Calls s b u) :
    u.pgSize = s.pgSize := by
  cases k with
  | touch ops v r u h =>
    cases r with
    | none => exact (touchPageBy_missed getRemovalPage_victims hs.frames h).size
    | some a => exact (touchPageBy_touched getRemovalPage_victims hs.frames h).size
  | release addr => exact (pageReleaseRef_sameFrames addr s).size
  | write mem pageMem => rfl

theorem Calls.stays {s u : Pager} {b : Call} (hs : Tabled s) (k : Calls s b u) {p : ℕ}
    (hp : s.refs p ≠ 0) : Stays p s u := by
  apply Stays.of_kept (k.tabled hs)
  have valid := hs.pinned p hp
  cases k with
  | touch ops v r u h =>
    cases r with
    | none => exact (touchPageBy_missed getRemovalPage_victims hs.frames h).kept p valid hp
    | some a => exact (touchPageBy_touched getRemovalPage_victims hs.frames h).kept p valid hp
  | release addr =>
    have same := pageReleaseRef_sameFrames addr s
    exact ⟨(same.valid p).trans valid, same.addr p⟩
  | write mem pageMem => exact ⟨valid, rfl⟩

theorem pageReleaseRef_count {s : Pager} (hs : Tabled s) {p : ℕ} (hp : s.refs p ≠ 0) (a : ℤ) :
    ((pageReleaseRef a s).refs p).toNat + (if (Call.release a).drops s.pgSize p then 1 else 0) =
      (s.refs p).toNat := by
  have pos : 0 < (s.refs p).toNat := Nat.pos_of_ne_zero fun h => hp (UInt32.toNat_inj.1 h)
  have count := (hs.frames.frame p (hs.pinned p hp)).1
  by_cases hd : 0 ≤ a ∧ a.toNat / s.pgSize = p
  · obtain ⟨v, rfl⟩ := Int.eq_ofNat_of_zero_le hd.1
    have page : v / s.pgSize = p := hd.2
    have refs := pageReleaseRef_toNat (s := s) (v := v) (by rwa [page]) p
    rw [if_pos page.symm] at refs
    have drops : (Call.release (v : ℤ)).drops s.pgSize p = true := decide_eq_true hd
    rw [refs, if_pos drops]
    omega
  · rw [if_neg (by simpa [Call.drops] using hd), Nat.add_zero]
    by_cases neg : a < 0
    · rw [pageReleaseRef, if_pos neg]
    · obtain ⟨v, rfl⟩ := Int.eq_ofNat_of_zero_le (not_lt.1 neg)
      have other : p ≠ v / s.pgSize := fun he => hd ⟨by omega, he.symm⟩
      rw [pageReleaseRef_other other]

/-- A touch adds one to the count of its page, a release takes one off. -/
theorem Calls.count {s u : Pager} {b : Call} (hs : Tabled s) (k : Calls s b u) {p : ℕ}
    (hp : s.refs p ≠ 0) (room : b.takes s.pgSize p = true → (s.refs p).toNat + 1 < 4294967296) :
    (u.refs p).toNat + (if b.drops s.pgSize p then 1 else 0) =
      (s.refs p).toNat + if b.takes s.pgSize p then 1 else 0 := by
  cases k with
  | touch ops v r u h =>
    cases r with
    | none =>
      rw [(touchPageBy_missed getRemovalPage_victims hs.frames h).refs]
      simp [Call.drops, Call.takes]
    | some a =>
      rw [(touchPageBy_touched getRemovalPage_victims hs.frames h).refs]
      by_cases page : p = v / s.pgSize
      · have takes : (Call.touch v (some a)).takes s.pgSize p = true := decide_eq_true page.symm
        rw [if_pos page, if_pos takes, toNat_add_one (room takes)]
        simp [Call.drops]
      · have takes : ¬(Call.touch v (some a)).takes s.pgSize p = true := fun h =>
          page (of_decide_eq_true h).symm
        rw [if_neg page, if_neg takes]
        simp [Call.drops]
  | release addr =>
    rw [pageReleaseRef_count hs hp]
    simp [Call.takes]
  | write mem pageMem => simp [Call.drops, Call.takes, Pager.refs]

/-- The frame table of a pager started by `pagemem_init` is sound after any calls, a page with
references keeps its frame over each of them, and until all its references are released. -/
theorem frame_table (r : Run Calls) (n : ℕ) (average : UInt32 → UInt32 → UInt32)
    (start : pagememInit n average = some (r.st 0)) :
    (∀ i ≤ r.len, Table (r.st i)) ∧
    (∀ i < r.len, ∀ p, (r.st i).refs p ≠ 0 → Stays p (r.st i) (r.st (i + 1))) ∧
    ∀ p i j, i ≤ j → j ≤ r.len → (r.st i).refs p ≠ 0 → Countable r p i j → Held r p i j →
      Stays p (r.st i) (r.st j) := by
  have tabled (i : ℕ) (hi : i ≤ r.len) : Tabled (r.st i) :=
    r.invariant (fun i => Tabled (r.st i)) (pagememInit_tabled start)
      (fun i hi h => (r.ok i hi).tabled h) i hi
  have size (i : ℕ) (hi : i ≤ r.len) : (r.st i).pgSize = (r.st 0).pgSize :=
    r.invariant (fun i => (r.st i).pgSize = (r.st 0).pgSize) rfl
      (fun i hi h => ((r.ok i hi).size (tabled i hi.le)).trans h) i hi
  refine ⟨fun i hi => .of_tabled (tabled i hi), fun i hi p hp => (r.ok i hi).stays (tabled i hi.le) hp,
    fun p i j hij hj hp room held => ?_⟩
  -- the count is what was open at `i` with the touches since and without the releases
  have kept (d : ℕ) (hd : i + d ≤ j) : Stays p (r.st i) (r.st (i + d)) ∧
      ((r.st (i + d)).refs p).toNat +
        tallyFrom (fun n => (r.lab n).drops (r.st 0).pgSize p) i (i + d) =
      ((r.st i).refs p).toNat +
        tallyFrom (fun n => (r.lab n).takes (r.st 0).pgSize p) i (i + d) := by
    induction d with
    | zero => exact ⟨.refl (tabled i (by omega)) hp, by simp [tallyFrom_self]⟩
    | succ d ih =>
      obtain ⟨stays, count⟩ := ih (by omega)
      have below := held (i + d) (by omega) (by omega)
      have pos : (r.st (i + d)).refs p ≠ 0 := toNat_ne_zero (by omega)
      have here := tabled (i + d) (by omega)
      have step := r.ok (i + d) (by omega)
      refine ⟨stays.trans (step.stays here pos), ?_⟩
      have next := step.count here pos
      rw [size (i + d) (by omega)] at next
      have next := next (room (i + d) (by omega) (by omega))
      rw [← Nat.add_assoc i d 1, tallyFrom_succ _ (by omega), tallyFrom_succ _ (by omega)]
      omega
  obtain ⟨d, rfl⟩ := Nat.exists_eq_add_of_le hij
  exact (kept d le_rfl).1

def AllPinned (s : Pager) : Prop :=
  ∀ f < s.frameCount, ∃ p < s.pgCount, s.resident p ∧ s.refs p ≠ 0 ∧
    (s.pgTable p).frameAddr = f * s.pgSize

def FailsCleanly (ops : UInt32) (v : ℕ) (s : Pager) : Prop :=
  ∃ u, touchPage ops v s = .ok (none, u) ∧ u.pgTable = s.pgTable ∧
    u.freeFrames = s.freeFrames ∧ u.mem = s.mem ∧ u.pageMem = s.pageMem

theorem AllPinned.full {s : Pager} (hs : Tabled s) (h : AllPinned s) : freeFrame s = none := by
  cases hf : freeFrame s with
  | none => rfl
  | some i =>
    obtain ⟨lt, free⟩ := freeFrame_free hf
    obtain ⟨p, -, hp, -, ha⟩ := h i lt
    obtain ⟨-, g, -, hg, taken⟩ := hs.frames.frame p hp
    obtain rfl := Nat.eq_of_mul_eq_mul_right hs.frames.size_pos (hg.symm.trans ha)
    rw [free] at taken
    cases taken

theorem AllPinned.no_victim {s : Pager} (hs : Tabled s) (h : AllPinned s) :
    getRemovalPage s = none := by
  cases hc : getRemovalPage s with
  | none => rfl
  | some q =>
    obtain ⟨-, hq, h0⟩ := getRemovalPage_victims s q hc
    obtain ⟨-, f, hf, ha, -⟩ := hs.frames.frame q hq
    obtain ⟨p, -, hp, pinned, hpa⟩ := h f hf
    rw [hs.frames.apart p q hp hq (hpa.trans ha.symm)] at pinned
    exact absurd h0 pinned

/-- With every frame pinned no touch of a page that is not resident fails cleanly. -/
theorem full_touch_unclean (r : Run Calls) (n : ℕ) (average : UInt32 → UInt32 → UInt32)
    (start : pagememInit n average = some (r.st 0)) (i : ℕ) (hi : i ≤ r.len)
    (pinned : AllPinned (r.st i)) (ops : UInt32) (v : ℕ) (hv : v < vaddrSize)
    (absent : ¬(r.st i).resident (v / (r.st i).pgSize)) : ¬FailsCleanly ops v (r.st i) := by
  have hs := r.invariant (fun i => Tabled (r.st i)) (pagememInit_tabled start)
    (fun i hi h => (r.ok i hi).tabled h) i hi
  have fault := touchPage_fault hs.frames ops hv absent (pinned.full hs) (pinned.no_victim hs)
  unfold FailsCleanly
  rw [fault]
  intro h
  obtain ⟨u, hu, -⟩ := h
  cases hu

def threeCalls : Run Calls where
  len := 3
  st
    | 0 => onePage
    | 1 => pinned 1
    | 2 => pinned 2
    | _ => pageReleaseRef 0 (pinned 2)
  lab
    | 0 | 1 => .touch 0 (some 0)
    | _ => .release 0
  ok
    | 0, _ => .touch _ 0 0 _ _ onePage_touch
    | 1, _ => .touch _ 0 0 _ _ (pinned_touch 1)
    | 2, _ => .release _ 0

theorem threeCalls_sound :
    (∀ i ≤ 3, Table (threeCalls.st i)) ∧ Stays 0 (pinned 1) (pageReleaseRef 0 (pinned 2)) := by
  obtain ⟨table, -, stays⟩ := frame_table threeCalls 100 _ onePage_accepted
  refine ⟨table, stays 0 1 3 (by decide) (by decide) (by decide) (fun k hk hj _ => ?_)
    (fun k hk hj => ?_)⟩
  · interval_cases k <;> decide
  · interval_cases k <;> decide

theorem threeCalls_pinned : AllPinned (threeCalls.st 1) := by
  intro f hf
  obtain rfl : f = 0 := Nat.lt_one_iff.1 hf
  exact ⟨0, by decide, rfl, by decide, rfl⟩

theorem threeCalls_absent : ¬(threeCalls.st 1).resident (100 / (threeCalls.st 1).pgSize) := by
  change ¬(false = true)
  decide

theorem threeCalls_unclean : ¬FailsCleanly 0 100 (threeCalls.st 1) :=
  full_touch_unclean threeCalls 100 _ onePage_accepted 1 (by decide) threeCalls_pinned 0 100
    (by decide) threeCalls_absent

/-- The claim at the one frame that holds the referenced page 0, and the address 100. -/
theorem onePage_touch_unclean : ∃ (r : Run Calls) (n : ℕ) (average : UInt32 → UInt32 → UInt32),
    pagememInit n average = some (r.st 0) ∧ AllPinned (r.st 1) ∧
      ¬(r.st 1).resident (100 / (r.st 1).pgSize) ∧ ¬FailsCleanly 0 100 (r.st 1) := by
  refine ⟨threeCalls, 100, _, onePage_accepted, threeCalls_pinned, threeCalls_absent, fun h => ?_⟩
  obtain ⟨u, hu, -⟩ := h
  cases hu

/-- Touches of the address 0 until its count is 0 again, and a touch of another page. -/
def wrapCalls (n : ℕ) (pos : 0 < n) (wrap : UInt32.ofNat n = 0) : Run Calls where
  len := n + 1
  st i := (wrapState n i).pager
  lab i := if i < n then .touch 0 (some 0) else .touch 100 (some 0)
  ok i hi := by
    rcases Nat.lt_succ_iff_lt_or_eq.1 hi with h | rfl
    · rw [if_pos h, wrapState_pinned (Nat.succ_pos i) h]
      rcases Nat.eq_zero_or_pos i with rfl | h0
      · exact .touch _ 0 0 _ _ onePage_touch
      · rw [wrapState_pinned h0 h.le, Nat.succ_eq_add_one, UInt32.ofNat_add]
        exact .touch _ 0 0 _ _ (pinned_touch _)
    · rw [if_neg (lt_irrefl i), wrapState_pinned pos le_rfl, wrapState_swapped, wrap]
      exact .touch _ 0 100 _ _ swapped_touch

/-- With 2^32 references to a page and none released the page is tossed. -/
theorem wrapCalls_not_sound :
    ∃ (r : Run Calls) (n : ℕ) (average : UInt32 → UInt32 → UInt32),
      pagememInit n average = some (r.st 0) ∧ ¬Sound r := by
  have run (n : ℕ) (pos : 0 < n) (wrap : UInt32.ofNat n = 0) :
      ∃ (r : Run Calls) (n : ℕ) (average : UInt32 → UInt32 → UInt32),
        pagememInit n average = some (r.st 0) ∧ ¬Sound r := by
    refine ⟨wrapCalls n pos wrap, 100, _, onePage_accepted, fun sound => ?_⟩
    have first : (wrapCalls n pos wrap).st 1 = pinned 1 :=
      congrArg Session.pager (wrapState_pinned Nat.one_pos pos)
    have last : (wrapCalls n pos wrap).st (n + 1) = swapped :=
      congrArg Session.pager (wrapState_swapped n)
    have drops (i k : ℕ) : tallyFrom (fun m => ((wrapCalls n pos wrap).lab m).drops
        ((wrapCalls n pos wrap).st 0).pgSize 0) i k = 0 := by
      have none : (fun m => ((wrapCalls n pos wrap).lab m).drops
          ((wrapCalls n pos wrap).st 0).pgSize 0) = fun _ => false := by
        funext m
        change (if m < n then Call.touch 0 (some 0) else .touch 100 (some 0)).drops _ 0 = false
        split <;> rfl
      rw [none]
      simp [tallyFrom]
    have stays := sound.pinned 0 1 (n + 1) (by omega) le_rfl (by rw [first]; decide)
      fun k _ _ => by
        rw [drops, first]
        exact Nat.lt_of_lt_of_le (show 0 < ((pinned 1).refs 0).toNat by decide)
          (Nat.le_add_right _ _)
    have gone : (swapped.pgTable 0).valid = false := by decide +kernel
    rw [last] at stays
    exact absurd stays.valid (by rw [Pager.resident, gone]; decide)
  exact run 4294967296 (by decide) (by decide)

end BrainMachine.Pinning
