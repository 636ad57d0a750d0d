import Mathlib.Data.Finset.Card
import Mathlib.Data.Finset.Range
import BrainMachine.Transparency

set_option autoImplicit false

namespace BrainMachine.FrameTable
open Codec Computations Paging Runs Transparency

def Taken (s : Pager) : Prop :=
  ∀ f < s.frameCount, s.freeFrames f = false →
    ∃ p, s.resident p ∧ (s.pgTable p).frameAddr = f * s.pgSize

structure Tabled (s : Pager) : Prop where
  frames : Frames s
  taken : Taken s
  pinned : ∀ p, s.refs p ≠ 0 → s.resident p

theorem pagememInit_tabled {n : ℕ} {average : UInt32 → UInt32 → UInt32} {s : Pager}
    (h : pagememInit n average = some s) : Tabled s := by
  refine ⟨pagememInit_frames n average s h, fun f hf free => ?_, fun p hp => ?_⟩
  · unfold pagememInit at h
    split at h
    · cases h
    · split at h
      · cases h
      · obtain rfl := Option.some.inj h
        exact absurd hf (of_decide_eq_false free)
  · exact absurd ((pagememInit_blank h).2.2 p) hp

theorem Taken.same {s u : Pager} (h : SameFrames s u) (hs : Taken s) : Taken u := by
  intro f hf free
  rw [Pager.frameCount, h.size] at hf
  rw [h.free] at free
  obtain ⟨p, hp, ha⟩ := hs f hf free
  refine ⟨p, ?_, ?_⟩
  · rw [Pager.resident, h.valid]
    exact hp
  · rw [h.addr, h.size, ha]

theorem evict_taken {s : Pager} (hs : Frames s) {p : ℕ} (hp : p < s.pgCount) (hr : s.resident p)
    (ht : Taken s) : Taken (evict p s) := by
  obtain ⟨-, g, hg, hpg, -⟩ := hs.frame p hr
  have hdiv : g * s.pgSize / s.pgSize = g := Nat.mul_div_cancel g hs.size_pos
  intro f hf free
  simp only [evict, setPage, storePage_eq hp, Function.update_self, hpg, hdiv,
    Pager.frameCount] at hf free
  have hfg : f ≠ g := by
    rintro rfl
    rw [Function.update_self] at free
    cases free
  rw [Function.update_of_ne hfg] at free
  obtain ⟨q, hq, ha⟩ := ht f hf free
  have hqp : q ≠ p := by
    rintro rfl
    rw [ha] at hpg
    exact hfg (Nat.eq_of_mul_eq_mul_right hs.size_pos hpg)
  refine ⟨q, (evict_resident hp).2 ⟨hqp, hq⟩, ?_⟩
  simpa [evict, setPage, storePage_eq hp, hqp] using ha

theorem fillFrame_taken {s : Pager} {p i : ℕ} (hr : ¬s.resident p) (ht : Taken s) :
    Taken (fillFrame p i s) := by
  intro f hf free
  by_cases hfi : f = i
  · subst f
    exact ⟨p, fillFrame_resident.2 (.inl rfl), by simp [fillFrame]⟩
  · have free : s.freeFrames f = false := by simpa [fillFrame, hfi] using free
    obtain ⟨q, hq, ha⟩ := ht f hf free
    have hqp : q ≠ p := by
      rintro rfl
      exact hr hq
    exact ⟨q, fillFrame_resident.2 (.inr hq), by simpa [fillFrame, hqp] using ha⟩

theorem evict_tabled {s : Pager} (hs : Tabled s) {p : ℕ} (hp : p < s.pgCount) (hr : s.resident p)
    (h0 : s.refs p = 0) : Tabled (evict p s) := by
  have moved := evict_moved hs.frames hp hr h0
  refine ⟨moved.frames, evict_taken hs.frames hp hr hs.taken, fun q hq => ?_⟩
  rw [moved.refs] at hq
  exact (moved.kept q (hs.pinned q hq) hq).1

theorem fillFrame_tabled {s : Pager} (hs : Tabled s) {p i : ℕ} (hp : p < s.pgCount)
    (hr : ¬s.resident p) (hi : freeFrame s = some i) : Tabled (fillFrame p i s) := by
  have moved := fillFrame_moved hs.frames hp hr hi
  refine ⟨moved.frames, fillFrame_taken hr hs.taken, fun q hq => ?_⟩
  rw [moved.refs] at hq
  exact (moved.kept q (hs.pinned q hq) hq).1

theorem freeFrame_isSome {s : Pager} {f : ℕ} (hf : f < s.frameCount)
    (free : s.freeFrames f = true) : ∃ i, freeFrame s = some i := by
  apply Option.isSome_iff_exists.1
  rw [freeFrame, List.find?_isSome]
  exact ⟨f, List.mem_range.2 hf, free⟩

theorem freeFrame_none {s : Pager} (h : freeFrame s = none) {f : ℕ} (hf : f < s.frameCount) :
    s.freeFrames f = false := by
  cases free : s.freeFrames f with
  | false => rfl
  | true =>
    obtain ⟨i, hi⟩ := freeFrame_isSome hf free
    rw [h] at hi
    cases hi

theorem removalStep_some (s : Pager) (j i : ℕ) : ∃ k, removalStep s (some j) i = some k := by
  unfold removalStep
  split
  · exact ⟨j, rfl⟩
  · split
    · rename_i h
      cases h
    · split
      · exact ⟨_, rfl⟩
      · exact ⟨_, rfl⟩

theorem getRemovalPage_isSome {s : Pager} {p : ℕ} (hp : p < s.pgCount) (hr : s.resident p)
    (h0 : s.refs p = 0) : ∃ q, getRemovalPage s = some q := by
  have found (l : List ℕ) (j : ℕ) : ∃ q, l.foldl (removalStep s) (some j) = some q := by
    induction l generalizing j with
    | nil => exact ⟨j, rfl⟩
    | cons i l ih =>
      obtain ⟨k, hk⟩ := removalStep_some s j i
      rw [List.foldl_cons, hk]
      exact ih k
  have here (best : Option ℕ) : ∃ k, removalStep s best p = some k := by
    cases best with
    | some j => exact removalStep_some s j p
    | none =>
      have hv : (s.pgTable p).valid = true := hr
      exact ⟨p, by simp [removalStep, hv, h0]⟩
  have general (l : List ℕ) (best : Option ℕ) (hm : p ∈ l) :
      ∃ q, l.foldl (removalStep s) best = some q := by
    induction l generalizing best with
    | nil => cases hm
    | cons i l ih =>
      rw [List.foldl_cons]
      rcases List.mem_cons.1 hm with rfl | hm
      · obtain ⟨k, hk⟩ := here best
        rw [hk]
        exact found l k
      · exact ih _ hm
  exact general _ none (List.mem_range.2 hp)

/-- Different frames hold different pages, so a full table has as many pages as frames. -/
theorem Tabled.pigeonhole {s : Pager} (hs : Tabled s) (full : freeFrame s = none) (S : Finset ℕ)
    (all : ∀ p, s.resident p → p ∈ S) : s.frameCount ≤ S.card := by
  have holds (f : ℕ) (hf : f < s.frameCount) := hs.taken f hf (freeFrame_none full hf)
  choose! page res addr using holds
  rw [← Finset.card_range s.frameCount]
  apply Finset.card_le_card_of_injOn page
  · intro f hf
    exact all _ (res f (Finset.mem_range.1 hf))
  · intro f hf g hg h
    have hf := addr f (Finset.mem_range.1 hf)
    have hg := addr g (Finset.mem_range.1 hg)
    rw [h, hg] at hf
    exact (Nat.eq_of_mul_eq_mul_right hs.frames.size_pos hf).symm

/-- There is a free frame or a victim while fewer pages are referenced than there are frames. -/
theorem Tabled.victim {s : Pager} (hs : Tabled s) (full : freeFrame s = none) (S : Finset ℕ)
    (pins : ∀ p, s.refs p ≠ 0 → p ∈ S) (room : S.card < s.frameCount) :
    ∃ q, getRemovalPage s = some q := by
  by_contra none
  have pinned (p : ℕ) (hp : s.resident p) : p ∈ S := by
    apply pins
    intro h0
    exact none (getRemovalPage_isSome (hs.frames.frame p hp).1 hp h0)
  exact absurd (hs.pigeonhole full S pinned) (by omega)

theorem evict_freeFrame {s : Pager} (hs : Frames s) {p : ℕ} (hp : p < s.pgCount)
    (hr : s.resident p) : ∃ i, freeFrame (evict p s) = some i := by
  obtain ⟨-, f, hf, hpf, -⟩ := hs.frame p hr
  have hdiv : f * s.pgSize / s.pgSize = f := Nat.mul_div_cancel f hs.size_pos
  apply freeFrame_isSome (f := f)
  · simpa [evict, setPage, Pager.frameCount, storePage_eq hp] using hf
  · simp [evict, setPage, storePage_eq hp, hpf, hdiv]

/-- Without a frame or a victim the source reads in front of the page table. -/
theorem bringIn_fault {s : Pager} {p : ℕ} (absent : ¬s.resident p) (full : freeFrame s = none)
    (none : getRemovalPage s = none) :
    bringIn getRemovalPage p s = .error .undefined := by
  have toss : tossPageBy getRemovalPage s = .error .undefined := by
    simp only [tossPageBy, get_bind, none]
    rfl
  rw [bringIn, get_bind, if_neg (show ¬(s.pgTable p).valid = true from absent)]
  simp only [full]
  change Except.bind (tossPageBy getRemovalPage s) _ = _
  rw [toss]
  rfl

/-- Bringing a page in returns 0 unless the search for a victim fails. -/
theorem bringIn_cases {s : Pager} (hs : Frames s) {p : ℕ} (hp : p < s.pgCount) :
    (∃ u, bringIn getRemovalPage p s = .ok (0, u) ∧ (Tabled s → Tabled u)) ∨
      ¬s.resident p ∧ freeFrame s = none ∧ getRemovalPage s = none := by
  rw [bringIn, get_bind]
  by_cases hv : (s.pgTable p).valid = true
  · rw [if_pos hv]
    exact .inl ⟨s, rfl, fun hs => hs⟩
  · rw [if_neg hv]
    cases hf : freeFrame s with
    | some i =>
      refine .inl ⟨fillFrame p i s, ?_, fun hs => fillFrame_tabled hs hp hv hf⟩
      simp only [pageIn, get_bind, hf]
      rfl
    | none =>
      cases hc : getRemovalPage s with
      | none => exact .inr ⟨hv, rfl, rfl⟩
      | some q =>
        obtain ⟨hq, hr, h0⟩ := getRemovalPage_victims s q hc
        have toss : tossPageBy getRemovalPage s = .ok (0, evict q s) := by
          have hr : (s.pgTable q).valid = true := hr
          simp only [tossPageBy, get_bind, hc, hr]
          rfl
        have gone : ¬(evict q s).resident p := fun h => hv ((evict_resident hq).1 h).2
        have count : p < (evict q s).pgCount := by
          rw [(evict_moved hs hq hr h0).count]
          exact hp
        obtain ⟨i, hi⟩ := evict_freeFrame hs hq hr
        refine .inl ⟨fillFrame p i (evict q s), ?_, fun hs =>
          fillFrame_tabled (evict_tabled hs hq hr h0) count gone hi⟩
        simp only [bind_of_ok toss, pageIn, get_bind, hi]
        rfl

theorem page_count {s : Pager} (hs : Frames s) {v : ℕ} (hv : v < vaddrSize) :
    v / s.pgSize < s.pgCount := by
  have hd : s.pgSize ∣ vaddrSize := hs.size_dvd.trans (by decide)
  rw [hs.count, Nat.div_lt_iff_lt_mul hs.size_pos, Nat.div_mul_cancel hd]
  exact hv

theorem updatePageInfo_tabled {s : Pager} (hs : Tabled s) (ops : UInt32) {p : ℕ}
    (hp : p < s.pgCount) (hr : s.resident p) : Tabled (updatePageInfo ops p s) := by
  have same := updatePageInfo_sameFrames ops p s
  refine ⟨same.frames hs.frames, hs.taken.same same, fun q hq => ?_⟩
  rw [Pager.resident, same.valid]
  rw [updatePageInfo_refs ops hp] at hq
  split at hq
  · rename_i he
    rw [he]
    exact hr
  · exact hs.pinned q hq

theorem touchPage_fault {s : Pager} (hs : Frames s) (ops : UInt32) {v : ℕ} (hv : v < vaddrSize)
    (absent : ¬s.resident (v / s.pgSize)) (full : freeFrame s = none)
    (none : getRemovalPage s = none) : touchPage ops v s = .error .undefined := by
  have hp := page_count hs hv
  rw [touchPage, touchPageBy, get_bind, if_neg (by omega)]
  change Except.bind (bringIn getRemovalPage (v / s.pgSize) s) _ = _
  rw [bringIn_fault absent full none]
  rfl

/-- A touch inside the address space never answers -1: it succeeds, or the search for a
victim fails. -/
theorem touchPage_cases {s : Pager} (hs : Frames s) (ops : UInt32) {v : ℕ} (hv : v < vaddrSize) :
    (∃ a u, touchPage ops v s = .ok (some a, u) ∧ (Tabled s → Tabled u)) ∨
      ¬s.resident (v / s.pgSize) ∧ freeFrame s = none ∧ getRemovalPage s = none := by
  have hp := page_count hs hv
  rw [touchPage, touchPageBy, get_bind, if_neg (by omega)]
  rcases bringIn_cases hs hp with ⟨u, hb, hu⟩ | failed
  · have moved := bringIn_moved getRemovalPage_victims hs hp hb
    have count : v / s.pgSize < u.pgCount := by
      rw [moved.1.count]
      exact hp
    exact .inl ⟨_, _, bind_of_ok hb, fun tabled =>
      updatePageInfo_tabled (hu tabled) ops count (moved.2 (by decide))⟩
  · exact .inr failed

theorem touchPage_answers {s u : Pager} {ops : UInt32} {v : ℕ} {r : Option ℕ} (hs : Frames s)
    (hv : v < vaddrSize) (h : touchPage ops v s = .ok (r, u)) : ∃ a, r = some a := by
  rcases touchPage_cases hs ops hv with ⟨a, w, hw, -⟩ | ⟨absent, full, none⟩
  · exact ⟨a, (Prod.mk.inj (Except.ok.inj (h.symm.trans hw))).1⟩
  · rw [touchPage_fault hs ops hv absent full none] at h
    cases h

theorem touchPage_outside {s : Pager} (hs : Frames s) (ops : UInt32) {v : ℕ}
    (hv : ¬v < vaddrSize) : touchPage ops v s = .ok (none, s) := by
  have hp : ¬v / s.pgSize < s.pgCount := fun h => hv (lt_vaddrSize hs h)
  have hp : v / s.pgSize > s.pgCount - 1 := by
    by_contra h
    exact hp (hs.page_lt h)
  rw [touchPage, touchPageBy, get_bind, if_pos hp]
  rfl

/-- While fewer pages are referenced than there are frames, or the page is one of them, a
touch succeeds. -/
theorem Tabled.touch_total {s : Pager} (hs : Tabled s) (ops : UInt32) {v : ℕ} (hv : v < vaddrSize)
    (S : Finset ℕ) (pins : ∀ p, s.refs p ≠ 0 → p ∈ S)
    (room : (insert (v / s.pgSize) S).card ≤ s.frameCount) :
    ∃ a u, touchPage ops v s = .ok (some a, u) ∧ Tabled u := by
  rcases touchPage_cases hs.frames ops hv with ⟨a, u, h, tabled⟩ | ⟨absent, full, none⟩
  · exact ⟨a, u, h, tabled hs⟩
  · have others (p : ℕ) (hp : s.refs p ≠ 0) : p ∈ S.erase (v / s.pgSize) := by
      refine Finset.mem_erase.2 ⟨?_, pins p hp⟩
      rintro rfl
      exact absent (hs.pinned _ hp)
    have card : (S.erase (v / s.pgSize)).card < s.frameCount := by
      apply Nat.lt_of_lt_of_le _ room
      apply Finset.card_lt_card
      refine ⟨fun p hp => Finset.mem_insert_of_mem (Finset.mem_of_mem_erase hp), fun h => ?_⟩
      exact Finset.notMem_erase _ S (h (Finset.mem_insert_self _ S))
    obtain ⟨q, hq⟩ := hs.victim full _ others card
    rw [none] at hq
    cases hq

theorem touchPage_tabled {s u : Pager} {ops : UInt32} {v : ℕ} {r : Option ℕ} (hs : Tabled s)
    (h : touchPage ops v s = .ok (r, u)) : Tabled u := by
  by_cases hv : v < vaddrSize
  · rcases touchPage_cases hs.frames ops hv with ⟨a, w, hw, tabled⟩ | ⟨absent, full, none⟩
    · obtain ⟨-, rfl⟩ := Prod.mk.inj (Except.ok.inj (hw.symm.trans h))
      exact tabled hs
    · rw [touchPage_fault hs.frames ops hv absent full none] at h
      cases h
  · rw [touchPage_outside hs.frames ops hv] at h
    obtain ⟨-, rfl⟩ := Prod.mk.inj (Except.ok.inj h)
    exact hs

theorem toNat_add_one_le (x : UInt32) : (x + 1).toNat ≤ x.toNat + 1 := by
  have hx : (x + 1).toNat = (x.toNat + 1) % 4294967296 := UInt32.toNat_add x 1
  rw [hx]
  exact Nat.mod_le _ _

theorem pageReleaseRef_zero {s : Pager} {v : ℕ} (h : s.refs (v / s.pgSize) = 0) (p : ℕ) :
    (pageReleaseRef v s).refs p = s.refs p := by
  rw [pageReleaseRef, if_neg (by omega), Int.toNat_natCast]
  dsimp only
  rw [if_pos h, ite_self]

theorem pageReleaseRef_toNat {s : Pager} {v : ℕ} (hp : v / s.pgSize < s.pgCount) (p : ℕ) :
    ((pageReleaseRef v s).refs p).toNat =
      (s.refs p).toNat - if p = v / s.pgSize then 1 else 0 := by
  by_cases h0 : s.refs (v / s.pgSize) = 0
  · rw [pageReleaseRef_zero h0]
    split
    · rename_i he
      rw [he, h0]
      rfl
    · rfl
  · rw [pageReleaseRef_refs hp h0]
    split
    · rename_i he
      have pos : 0 < (s.refs p).toNat :=
        Nat.pos_of_ne_zero fun h => h0 (UInt32.toNat_inj.1 (he ▸ h))
      exact toNat_sub_one pos
    · rfl

theorem pageReleaseRef_tabled {s : Pager} (hs : Tabled s) (a : ℤ) :
    Tabled (pageReleaseRef a s) := by
  have same := pageReleaseRef_sameFrames a s
  refine ⟨same.frames hs.frames, hs.taken.same same, fun p hp => ?_⟩
  rw [Pager.resident, same.valid]
  refine hs.pinned p fun zero => hp (UInt32.toNat_inj.1 (Nat.le_zero.1 ?_))
  exact (pageReleaseRef_le a s p).trans_eq (congrArg UInt32.toNat zero)

theorem Tabled.write {s : Pager} (hs : Tabled s) (mem pageMem : ℕ → Word) :
    Tabled { s with mem := mem, pageMem := pageMem } :=
  ⟨⟨hs.frames.size_pos, hs.frames.size_dvd, hs.frames.count, hs.frames.frame, hs.frames.apart⟩,
    hs.taken, hs.pinned⟩

end BrainMachine.FrameTable
