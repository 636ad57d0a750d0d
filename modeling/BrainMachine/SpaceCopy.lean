import BrainMachine.Forking
import BrainMachine.FrameTable

set_option autoImplicit false

namespace BrainMachine.SpaceCopy
open Codec Computations Paging AddressSpace Transparency Runs References Footprints
open Forking FrameTable ProcessImages

/-- Counts are never above the number of open references, not even after one has wrapped. -/
structure Counted (s : Session) : Prop where
  frames : Frames s.pager
  pages : ∀ r ∈ s.held, r.1 / s.pager.pgSize < s.pager.pgCount
  refs : ∀ p, (s.pager.refs p).toNat ≤ openRefs s.pager.pgSize s.held p

theorem Counted.step {s u : Session} {b : Access} (h : Counted s) (k : Accesses s b u) :
    Counted u := by
  cases k with
  | touch choose ops v a u hc ht =>
    have t := touchPageBy_touched hc h.frames ht
    have count : u.pgCount = s.pager.pgCount := by rw [t.frames.count, h.frames.count, t.size]
    refine ⟨t.frames, fun r hr => ?_, fun p => ?_⟩
    · rcases List.mem_cons.1 hr with rfl | hr
      · exact page_count t.frames t.lt
      · rw [t.size, count]
        exact h.pages r hr
    · have before := h.refs p
      rw [t.size, openRefs_cons, t.refs]
      by_cases hp : p = v / s.pager.pgSize
      · rw [if_pos hp, if_pos hp]
        exact (toNat_add_one_le _).trans (Nat.add_le_add_right before 1)
      · rw [if_neg hp, if_neg hp]
        exact before
  | release v a hm =>
    have same := pageReleaseRef_sameFrames v s.pager
    refine ⟨same.frames h.frames, fun r hr => ?_, fun p => ?_⟩
    · rw [same.size, same.count]
      exact h.pages r (List.mem_of_mem_erase hr)
    · have erased := openRefs_erase s.pager.pgSize hm p
      have before := h.refs p
      have page : v / s.pager.pgSize < s.pager.pgCount := h.pages _ hm
      rw [same.size, pageReleaseRef_toNat page]
      dsimp only
      omega
  | write v a w hm => exact ⟨writeMem_frames h.frames a w, h.pages, h.refs⟩
  | read v a hm => exact h

/-- The sessions that touches and releases of open references reach. -/
theorem Counted.run {r : Run Accesses} {n : ℕ} {average : UInt32 → UInt32 → UInt32}
    (start : pagememInit n average = some (r.st 0).pager) (none : (r.st 0).held = []) :
    Counted (r.st r.len) := by
  have first : Counted (r.st 0) := by
    refine ⟨pagememInit_frames n average _ start, fun x hx => ?_, fun p => ?_⟩
    · rw [none] at hx
      cases hx
    · rw [(pagememInit_blank start).2.2 p]
      exact Nat.zero_le _
  exact r.invariant (fun i => Counted (r.st i)) first (fun i hi h => h.step (r.ok i hi)) r.len le_rfl

/-- `dup_mem` has copied every word up to the smaller limit, and nothing else has changed. -/
structure ExactCopy (p q : Seg) (s u : Pager) : Prop where
  copied : ∀ c : ℕ, (c : ℤ) ≤ word2int p.lr → (c : ℤ) ≤ word2int q.lr →
    u.view (cell q c) = s.view (cell p c)
  source : ∀ c : ℕ, (c : ℤ) ≤ word2int p.lr → u.view (cell p c) = s.view (cell p c)
  frame : ∀ v, (∀ c : ℕ, (c : ℤ) ≤ word2int p.lr → (c : ℤ) ≤ word2int q.lr → v ≠ cell q c) →
    u.view v = s.view v
  refs : ∀ page, u.refs page = s.refs page

theorem cell_eq {p : Seg} (hb : 0 ≤ word2int p.br) {c : ℕ} (hc : (c : ℤ) ≤ word2int p.lr) :
    (cell p c : ℤ) = word2int p.br + c := by
  have eq := address_of_range hb (Int.natCast_nonneg c) hc
  rw [cell, eq]
  omega

/-- In every pager state that a session reaches, with fewer than 2^32 - 8 references open to
each page, `dup_mem` copies exactly. -/
theorem dupMem_exact (r : Run Accesses) (n : ℕ) (average : UInt32 → UInt32 → UInt32)
    (start : pagememInit n average = some (r.st 0).pager) (none : (r.st 0).held = [])
    (room : ∀ page, openRefs (r.st r.len).pager.pgSize (r.st r.len).held page + 8 < 4294967296)
    (p q : Seg) (hp : 0 ≤ word2int p.br) (hq : 0 ≤ word2int q.br)
    (apart : ∀ c d : ℕ, (c : ℤ) ≤ word2int p.lr → (d : ℤ) ≤ word2int q.lr →
      word2int p.br + c ≠ word2int q.br + d) (s u : Store)
    (hs : s.pager = (r.st r.len).pager) (k : dupMem p q s = .ok (0, u)) :
    ExactCopy p q s.pager u.pager := by
  have counted := Counted.run start none
  have foot : Footing (fun _ => True) s.pager [] s.pager := .start _ (hs ▸ counted.frames)
  have slack : Slack 8 s.pager := fun page => by
    have := counted.refs page
    have := room page
    rw [hs]
    omega
  obtain ⟨view, -⟩ := dupMem_copies foot slack (Nat.zero_le 4) k
  have words (c : ℕ) (h : c < (min (word2int p.lr + 1) (word2int q.lr + 1)).toNat) :
      (c : ℤ) ≤ word2int p.lr ∧ (c : ℤ) ≤ word2int q.lr := by omega
  have turns (c : ℕ) (h : (c : ℤ) ≤ word2int p.lr) (h' : (c : ℤ) ≤ word2int q.lr) :
      c < (min (word2int p.lr + 1) (word2int q.lr + 1)).toNat := by omega
  have outside (c : ℕ) (hc : (c : ℤ) ≤ word2int p.lr) (d : ℕ) (hd : (d : ℤ) ≤ word2int q.lr) :
      cell p c ≠ cell q d := fun he => by
    have eqp := cell_eq hp hc
    have eqq := cell_eq hq hd
    exact apart c d hc hd (by omega)
  -- the cells that are not written are read, and nothing that is written is read
  have distinct (c : ℕ) (hc : c < (min (word2int p.lr + 1) (word2int q.lr + 1)).toNat) (d : ℕ)
      (hd : d < (min (word2int p.lr + 1) (word2int q.lr + 1)).toNat)
      (he : cell q c = cell q d) : c = d := by
    have eqc := cell_eq hq (words c hc).2
    have eqd := cell_eq hq (words d hd).2
    omega
  obtain ⟨kept, copied⟩ := copyCells_kept (f := s.pager.view)
    (fun v => ∀ c : ℕ, (c : ℤ) ≤ word2int p.lr → (c : ℤ) ≤ word2int q.lr → v ≠ cell q c)
    (fun c hc d _ hd => outside c (words c hc).1 d hd) distinct
    (fun c hc free => absurd rfl (free c (words c hc).1 (words c hc).2))
  rw [← view] at kept copied
  refine ⟨fun c hc hc' => copied c (turns c hc hc'),
    fun c hc => kept _ fun d _ hd => outside c hc d hd, kept, fun page => ?_⟩
  have foot := (dupMem_run foot slack (Nat.zero_le 4) (fun _ _ => trivial) k).1
  exact UInt32.toNat_inj.1 (foot.counted page)

/-- Four words over the pages 0 and 1 of ten words each, and four over the pages 1 and 2. -/
def lowSeg : Seg := ⟨int2word 8, int2word 3, 0⟩
def highSeg : Seg := ⟨int2word 18, int2word 3, 1⟩

def smallPages : Pager := (pagememInit 10 fun _ _ => 0).get rfl

def filling : List Access :=
  [.touch 8, .write 8 ⟨49, 48, 48, 48⟩, .release 8, .touch 9, .write 9 ⟨50, 48, 48, 48⟩,
    .release 9, .touch 10, .write 10 ⟨51, 48, 48, 48⟩, .touch 11, .write 11 ⟨52, 48, 48, 48⟩]

def fillingRun : Run Counting :=
  performed Session.next_counting ⟨smallPages, []⟩ (.touch 0) filling (by decide +kernel)

def filled : Store :=
  { pager := (fillingRun.st fillingRun.len).pager, ops := 0, semTable := fun _ => 1
    shm := fun _ => zeros, stdin := ⟨[], false⟩, stdout := [] }

def copied : Store := ((dupMem lowSeg highSeg filled).toOption.getD (0, filled)).2

theorem copied_ok : dupMem lowSeg highSeg filled = .ok (0, copied) :=
  ok_of_result _ (by decide +kernel)

theorem copied_exact : ExactCopy lowSeg highSeg filled.pager copied.pager := by
  have low : word2int lowSeg.br = 8 ∧ word2int lowSeg.lr = 3 := by decide
  have high : word2int highSeg.br = 18 ∧ word2int highSeg.lr = 3 := by decide
  have two : ∀ page, openRefs (fillingRun.st fillingRun.len).pager.pgSize
      (fillingRun.st fillingRun.len).held page ≤ 2 := fun page =>
    (openRefs_le _ _ page).trans (by decide +kernel)
  refine dupMem_exact (fillingRun.map id fun _ _ _ h => h.1) 10 _ (Option.some_get rfl).symm rfl
    (fun page => (Nat.add_le_add_right (two page) 8).trans_lt (by decide)) lowSeg highSeg
    (by decide) (by decide) (fun c d hc hd => ?_) filled copied rfl copied_ok
  rw [low.2] at hc
  rw [high.2] at hd
  rw [low.1, high.1]
  omega

end BrainMachine.SpaceCopy
