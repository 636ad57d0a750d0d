import Mathlib.Data.List.Basic
import Mathlib.Tactic.Ring
import BrainMachine.Paging

set_option autoImplicit false

namespace BrainMachine.Paging
open Codec Computations

def Pager.view (s : Pager) (v : ℕ) : Word :=
  if (s.pgTable (v / s.pgSize)).valid then
    s.mem ((s.pgTable (v / s.pgSize)).frameAddr + v % s.pgSize)
  else s.pageMem v

theorem view_resident {s : Pager} {v : ℕ} (h : s.resident (v / s.pgSize)) :
    s.view v = s.mem ((s.pgTable (v / s.pgSize)).frameAddr + v % s.pgSize) := if_pos h

theorem view_absent {s : Pager} {v : ℕ} (h : ¬s.resident (v / s.pgSize)) :
    s.view v = s.pageMem v := if_neg h

structure Frames (s : Pager) : Prop where
  size_pos : 0 < s.pgSize
  size_dvd : s.pgSize ∣ memSize
  count : s.pgCount = vaddrSize / s.pgSize
  frame : ∀ p, s.resident p → p < s.pgCount ∧ ∃ f < s.frameCount,
    (s.pgTable p).frameAddr = f * s.pgSize ∧ s.freeFrames f = false
  apart : ∀ p q, s.resident p → s.resident q →
    (s.pgTable p).frameAddr = (s.pgTable q).frameAddr → p = q

def Victims (choose : Pager → Option ℕ) : Prop :=
  ∀ s p, choose s = some p → p < s.pgCount ∧ s.resident p ∧ s.refs p = 0

theorem removalStep_victim (s : Pager) (best : Option ℕ) (i j : ℕ)
    (h : removalStep s best i = some j) :
    best = some j ∨ j = i ∧ s.resident i ∧ s.refs i = 0 := by
  unfold removalStep at h
  split at h
  · exact .inl h
  · rename_i hc
    have hv : s.resident i ∧ s.refs i = 0 := by
      simp only [not_or, Bool.not_eq_false] at hc
      refine ⟨hc.1, ?_⟩
      have hr := hc.2
      rw [UInt32.lt_iff_toNat_lt] at hr
      exact UInt32.toNat_inj.1 (by simpa using hr)
    split at h
    · exact .inr ⟨(Option.some.inj h).symm, hv⟩
    · split at h
      · exact .inr ⟨(Option.some.inj h).symm, hv⟩
      · exact .inl h

theorem getRemovalPage_victims : Victims getRemovalPage := by
  intro s p h
  have general (l : List ℕ) (best : Option ℕ) (h : l.foldl (removalStep s) best = some p) :
      best = some p ∨ p ∈ l ∧ s.resident p ∧ s.refs p = 0 := by
    induction l generalizing best with
    | nil => exact .inl h
    | cons i l ih =>
      rcases ih _ h with h | ⟨hp, hv⟩
      · rcases removalStep_victim s best i p h with h | ⟨rfl, hv⟩
        · exact .inl h
        · exact .inr ⟨List.mem_cons_self, hv⟩
      · exact .inr ⟨List.mem_cons_of_mem _ hp, hv⟩
  rcases general _ _ h with h | ⟨hp, hv⟩
  · cases h
  · exact ⟨List.mem_range.1 hp, hv⟩

theorem pagememInit_frames (n : ℕ) (average : UInt32 → UInt32 → UInt32) (s : Pager)
    (h : pagememInit n average = some s) : Frames s := by
  unfold pagememInit at h
  split at h
  · cases h
  · split at h
    · cases h
    · rename_i hn hd
      obtain rfl := Option.some.inj h
      have hd : n ∣ memSize := Nat.dvd_of_mod_eq_zero (not_not.1 hd)
      refine ⟨?_, hd, rfl, ?_, ?_⟩
      · exact Nat.pos_of_dvd_of_pos hd (by decide)
      · intro p hp; cases hp
      · intro p q hp; cases hp

theorem pagememInit_blank {n : ℕ} {average : UInt32 → UInt32 → UInt32} {s : Pager}
    (h : pagememInit n average = some s) :
    (∀ v, s.pageMem v = zeros) ∧ (∀ p, ¬s.resident p) ∧ ∀ p, s.refs p = 0 := by
  unfold pagememInit at h
  split at h
  · cases h
  · split at h
    · cases h
    · obtain rfl := Option.some.inj h
      exact ⟨fun _ => rfl, fun _ h => absurd h Bool.false_ne_true, fun _ => rfl⟩

theorem frame_index {s : Pager} (hs : Frames s) (f o : ℕ) (ho : o < s.pgSize) :
    (f * s.pgSize + o) / s.pgSize = f ∧ (f * s.pgSize + o) % s.pgSize = o := by
  rw [Nat.mul_comm, Nat.mul_add_div hs.size_pos, Nat.div_eq_of_lt ho, Nat.mul_add_mod,
    Nat.mod_eq_of_lt ho]
  exact ⟨rfl, rfl⟩

/-- Two resident words share a physical address only when they are the same word. -/
theorem address_inj {s : Pager} (hs : Frames s) (v w : ℕ) (hv : s.resident (v / s.pgSize))
    (hw : s.resident (w / s.pgSize))
    (h : (s.pgTable (v / s.pgSize)).frameAddr + v % s.pgSize =
      (s.pgTable (w / s.pgSize)).frameAddr + w % s.pgSize) : v = w := by
  obtain ⟨-, f, -, hf, -⟩ := hs.frame _ hv
  obtain ⟨-, g, -, hg, -⟩ := hs.frame _ hw
  have mv := Nat.mod_lt v hs.size_pos
  have mw := Nat.mod_lt w hs.size_pos
  rw [hf, hg] at h
  have hd := congrArg (· / s.pgSize) h
  have hm := congrArg (· % s.pgSize) h
  simp only [(frame_index hs f _ mv).1, (frame_index hs g _ mw).1, (frame_index hs f _ mv).2,
    (frame_index hs g _ mw).2] at hd hm
  have hp := hs.apart _ _ hv hw (by rw [hf, hg, hd])
  rw [← Nat.div_add_mod v s.pgSize, ← Nat.div_add_mod w s.pgSize, hp, hm]

theorem storePage_eq {s : Pager} {p : ℕ} (hp : p < s.pgCount) : storePage p s =
    { s with pageMem := fun a =>
      if a / s.pgSize = p then s.mem ((s.pgTable p).frameAddr + a % s.pgSize)
      else s.pageMem a } := by
  rw [storePage, if_neg (by omega)]

theorem evict_resident {s : Pager} {p q : ℕ} (hp : p < s.pgCount) :
    (evict p s).resident q ↔ q ≠ p ∧ s.resident q := by
  by_cases hq : q = p
  · simp [evict, setPage, Pager.resident, hq]
  · simp [evict, setPage, Pager.resident, hq, storePage_eq hp]

theorem evict_view {s : Pager} {p : ℕ} (hp : p < s.pgCount) (hr : s.resident p) (v : ℕ) :
    (evict p s).view v = s.view v := by
  simp only [evict, setPage, Pager.view, storePage_eq hp]
  by_cases hv : v / s.pgSize = p
  · rw [hv, Function.update_self]
    simp only [Bool.false_eq_true, if_false, if_true]
    exact (if_pos hr).symm
  · rw [Function.update_of_ne hv, if_neg hv]

theorem evict_frames {s : Pager} (hs : Frames s) {p : ℕ} (hp : p < s.pgCount)
    (hr : s.resident p) : Frames (evict p s) := by
  obtain ⟨-, f, hf, hpf, -⟩ := hs.frame p hr
  have hdiv : f * s.pgSize / s.pgSize = f := Nat.mul_div_cancel f hs.size_pos
  refine ⟨?_, ?_, ?_, ?_, ?_⟩
  · simpa [evict, setPage, storePage_eq hp] using hs.size_pos
  · simpa [evict, setPage, storePage_eq hp] using hs.size_dvd
  · simpa [evict, setPage, storePage_eq hp] using hs.count
  · intro q hq
    obtain ⟨hqp, hq⟩ := (evict_resident hp).1 hq
    obtain ⟨hqc, g, hg, hqg, hfree⟩ := hs.frame q hq
    have hgf : g ≠ f := by
      rintro rfl
      exact hqp (hs.apart q p hq hr (by rw [hqg, hpf]))
    refine ⟨by simpa [evict, setPage, storePage_eq hp] using hqc, g, ?_, ?_, ?_⟩
    · simpa [evict, setPage, Pager.frameCount, storePage_eq hp] using hg
    · simpa [evict, setPage, storePage_eq hp, hqp] using hqg
    · simpa [evict, setPage, storePage_eq hp, hpf, hdiv, hgf] using hfree
  · intro q r hq hr'
    obtain ⟨hqp, hq⟩ := (evict_resident hp).1 hq
    obtain ⟨hrp, hr'⟩ := (evict_resident hp).1 hr'
    intro h
    exact hs.apart q r hq hr' (by simpa [evict, setPage, storePage_eq hp, hqp, hrp] using h)

theorem freeFrame_free {s : Pager} {i : ℕ} (h : freeFrame s = some i) :
    i < s.frameCount ∧ s.freeFrames i = true := by
  have hm := List.mem_of_find?_eq_some h
  exact ⟨List.mem_range.1 hm, List.find?_some h⟩

theorem fillFrame_resident {s : Pager} {p q i : ℕ} :
    (fillFrame p i s).resident q ↔ q = p ∨ s.resident q := by
  by_cases hq : q = p
  · simp [fillFrame, Pager.resident, hq]
  · simp [fillFrame, Pager.resident, hq]

theorem fillFrame_view {s : Pager} (hs : Frames s) {p i : ℕ} (hp : ¬s.resident p)
    (hi : s.freeFrames i = true) (v : ℕ) : (fillFrame p i s).view v = s.view v := by
  have mv := Nat.mod_lt v hs.size_pos
  have size : (fillFrame p i s).pgSize = s.pgSize := rfl
  by_cases hv : v / s.pgSize = p
  · have hd : p * s.pgSize + v % s.pgSize = v := by rw [← hv, Nat.div_add_mod']
    rw [view_absent (s := s) (by rwa [hv]), view_resident (fillFrame_resident.2 (.inl hv)), size,
      hv]
    simp only [fillFrame, Function.update_self, (frame_index hs i _ mv).1,
      (frame_index hs i _ mv).2, if_true, hd]
  · by_cases hr : s.resident (v / s.pgSize)
    · obtain ⟨-, f, -, hf, hfree⟩ := hs.frame _ hr
      have hfi : f ≠ i := by
        rintro rfl
        rw [hi] at hfree
        cases hfree
      rw [view_resident hr, view_resident (fillFrame_resident.2 (.inr hr)), size]
      simp only [fillFrame, Function.update_of_ne hv, hf, (frame_index hs f _ mv).1, hfi, if_false]
    · rw [view_absent hr, view_absent fun h => (fillFrame_resident.1 h).elim hv hr]
      rfl

theorem fillFrame_frames {s : Pager} (hs : Frames s) {p i : ℕ} (hp : p < s.pgCount)
    (hi : i < s.frameCount) (hfree : s.freeFrames i = true) : Frames (fillFrame p i s) := by
  have taken (q : ℕ) (hq : s.resident q) : (s.pgTable q).frameAddr ≠ i * s.pgSize := by
    obtain ⟨-, f, -, hf, hff⟩ := hs.frame q hq
    rw [hf]
    intro h
    obtain rfl := Nat.eq_of_mul_eq_mul_right hs.size_pos h
    rw [hfree] at hff
    cases hff
  refine ⟨hs.size_pos, hs.size_dvd, hs.count, ?_, ?_⟩
  · intro q hq
    by_cases hqp : q = p
    · subst q
      exact ⟨hp, i, hi, by simp [fillFrame], by simp [fillFrame]⟩
    · obtain ⟨hqc, f, hf, hqf, hff⟩ := hs.frame q ((fillFrame_resident.1 hq).resolve_left hqp)
      have hfi : f ≠ i := by
        rintro rfl
        rw [hfree] at hff
        cases hff
      exact ⟨hqc, f, hf, by simp [fillFrame, hqp, hqf], by simp [fillFrame, hfi, hff]⟩
  · intro q r hq hr h
    by_cases hqp : q = p <;> by_cases hrp : r = p
    · rw [hqp, hrp]
    · subst q
      exact absurd (by simpa [fillFrame, hrp] using h.symm)
        (taken r ((fillFrame_resident.1 hr).resolve_left hrp))
    · subst r
      exact absurd (by simpa [fillFrame, hqp] using h)
        (taken q ((fillFrame_resident.1 hq).resolve_left hqp))
    · exact hs.apart q r ((fillFrame_resident.1 hq).resolve_left hqp)
        ((fillFrame_resident.1 hr).resolve_left hrp) (by simpa [fillFrame, hqp, hrp] using h)

structure SameFrames (s u : Pager) : Prop where
  count : u.pgCount = s.pgCount
  size : u.pgSize = s.pgSize
  mem : u.mem = s.mem
  pageMem : u.pageMem = s.pageMem
  free : u.freeFrames = s.freeFrames
  valid : ∀ p, (u.pgTable p).valid = (s.pgTable p).valid
  addr : ∀ p, (u.pgTable p).frameAddr = (s.pgTable p).frameAddr

theorem SameFrames.frames {s u : Pager} (h : SameFrames s u) (hs : Frames s) : Frames u := by
  have res (p : ℕ) : u.resident p ↔ s.resident p := by simp [Pager.resident, h.valid]
  refine ⟨h.size ▸ hs.size_pos, h.size ▸ hs.size_dvd, ?_, ?_, ?_⟩
  · rw [h.count, h.size, hs.count]
  · intro p hp
    obtain ⟨hc, f, hf, hpf, hff⟩ := hs.frame p ((res p).1 hp)
    rw [h.count, h.size, h.addr, h.free, Pager.frameCount, h.size]
    exact ⟨hc, f, hf, hpf, hff⟩
  · intro p q hp hq he
    rw [h.addr, h.addr] at he
    exact hs.apart p q ((res p).1 hp) ((res q).1 hq) he

theorem SameFrames.view {s u : Pager} (h : SameFrames s u) (v : ℕ) : u.view v = s.view v := by
  simp only [Pager.view, h.size, h.mem, h.pageMem, h.valid, h.addr]

theorem setPage_sameFrames (s : Pager) (p : ℕ) (f : PageEnt → PageEnt)
    (hf : ∀ e, (f e).valid = e.valid ∧ (f e).frameAddr = e.frameAddr) :
    SameFrames s (setPage p f s) := by
  refine ⟨rfl, rfl, rfl, rfl, rfl, fun q => ?_, fun q => ?_⟩ <;> by_cases hq : q = p <;>
    simp [setPage, hq, hf]

theorem updatePageInfo_sameFrames (ops : UInt32) (p : ℕ) (s : Pager) :
    SameFrames s (updatePageInfo ops p s) := by
  unfold updatePageInfo
  split
  · exact ⟨rfl, rfl, rfl, rfl, rfl, fun _ => rfl, fun _ => rfl⟩
  · have h := setPage_sameFrames s p (fun e => { e with refcount := e.refcount + 1 })
      fun _ => ⟨rfl, rfl⟩
    exact ⟨rfl, rfl, rfl, rfl, rfl, h.valid, h.addr⟩

theorem pageReleaseRef_sameFrames (a : ℤ) (s : Pager) : SameFrames s (pageReleaseRef a s) := by
  have same : SameFrames s s := ⟨rfl, rfl, rfl, rfl, rfl, fun _ => rfl, fun _ => rfl⟩
  unfold pageReleaseRef
  split
  · exact same
  · dsimp only
    split
    · exact same
    · split
      · exact same
      · exact setPage_sameFrames s _ _ fun _ => ⟨rfl, rfl⟩

theorem updatePageInfo_refs {s : Pager} (ops : UInt32) {p : ℕ} (hp : p < s.pgCount) (q : ℕ) :
    (updatePageInfo ops p s).refs q = if q = p then s.refs p + 1 else s.refs q := by
  unfold updatePageInfo
  rw [if_neg (by omega)]
  by_cases hq : q = p <;> simp [setPage, Pager.refs, hq]

/-- Pages have moved between the two memories: the view, the reference counts and the
frames of referenced pages are as before, and what was written back is what was in view. -/
structure Moved (s u : Pager) : Prop where
  frames : Frames u
  size : u.pgSize = s.pgSize
  count : u.pgCount = s.pgCount
  view : ∀ v, u.view v = s.view v
  stored : ∀ v, u.pageMem v = s.pageMem v ∨ u.pageMem v = s.view v
  refs : ∀ p, u.refs p = s.refs p
  kept : ∀ p, s.resident p → s.refs p ≠ 0 →
    u.resident p ∧ (u.pgTable p).frameAddr = (s.pgTable p).frameAddr

theorem Moved.refl {s : Pager} (hs : Frames s) : Moved s s :=
  ⟨hs, rfl, rfl, fun _ => rfl, fun _ => .inl rfl, fun _ => rfl, fun _ hp _ => ⟨hp, rfl⟩⟩

theorem Moved.trans {s u w : Pager} (h : Moved s u) (k : Moved u w) : Moved s w := by
  refine ⟨k.frames, k.size.trans h.size, k.count.trans h.count, fun v => (k.view v).trans (h.view v),
    fun v => ?_, fun p => (k.refs p).trans (h.refs p), fun p hp hr => ?_⟩
  · rcases k.stored v with hk | hk
    · rw [hk]
      exact h.stored v
    · exact .inr (hk.trans (h.view v))
  obtain ⟨hu, ha⟩ := h.kept p hp hr
  obtain ⟨hw, hb⟩ := k.kept p hu (by rwa [h.refs])
  exact ⟨hw, hb.trans ha⟩

theorem evict_moved {s : Pager} (hs : Frames s) {p : ℕ} (hp : p < s.pgCount) (hr : s.resident p)
    (h0 : s.refs p = 0) : Moved s (evict p s) := by
  refine ⟨evict_frames hs hp hr, ?_, ?_, evict_view hp hr, fun v => ?_, fun q => ?_,
    fun q hq hn => ?_⟩
  · simp [evict, setPage, storePage_eq hp]
  · simp [evict, setPage, storePage_eq hp]
  · simp only [evict, setPage, storePage_eq hp]
    by_cases hv : v / s.pgSize = p
    · rw [if_pos hv, ← hv]
      exact .inr (view_resident (by rwa [hv])).symm
    · rw [if_neg hv]
      exact .inl rfl
  · by_cases hqp : q = p <;> simp [evict, setPage, Pager.refs, storePage_eq hp, hqp]
  · have hqp : q ≠ p := by
      rintro rfl
      exact hn h0
    refine ⟨(evict_resident hp).2 ⟨hqp, hq⟩, ?_⟩
    simp [evict, setPage, storePage_eq hp, hqp]

theorem fillFrame_moved {s : Pager} (hs : Frames s) {p i : ℕ} (hp : p < s.pgCount)
    (hr : ¬s.resident p) (hi : freeFrame s = some i) : Moved s (fillFrame p i s) := by
  obtain ⟨hlt, hfree⟩ := freeFrame_free hi
  refine ⟨fillFrame_frames hs hp hlt hfree, rfl, rfl, fillFrame_view hs hr hfree,
    fun _ => .inl rfl, fun q => ?_, fun q hq _ => ?_⟩
  · by_cases hqp : q = p <;> simp [fillFrame, Pager.refs, hqp]
  · have hqp : q ≠ p := by
      rintro rfl
      exact hr hq
    refine ⟨fillFrame_resident.2 (.inr hq), ?_⟩
    simp [fillFrame, hqp]

theorem tossPageBy_moved {choose : Pager → Option ℕ} (hc : Victims choose) {s u : Pager} {r : ℤ}
    (hs : Frames s) (h : tossPageBy choose s = .ok (r, u)) :
    Moved s u ∧ ∀ p, ¬s.resident p → ¬u.resident p := by
  simp only [tossPageBy, get_bind] at h
  cases hv : choose s with
  | none =>
    rw [hv] at h
    exact (fault_ok.1 h).elim
  | some p =>
    obtain ⟨hp, hr, h0⟩ := hc s p hv
    simp only [hv, get_bind] at h
    rcases ite_ok.1 h with ⟨-, h⟩ | ⟨-, h⟩
    · obtain ⟨-, rfl⟩ := Prod.mk.inj (pure_ok.1 h)
      exact ⟨.refl hs, fun _ hq => hq⟩
    · obtain ⟨-, rfl⟩ := Prod.mk.inj (pure_ok.1 h)
      exact ⟨evict_moved hs hp hr h0, fun q hq hu => hq ((evict_resident hp).1 hu).2⟩

theorem pageIn_moved {s u : Pager} {p : ℕ} {r : ℤ} (hs : Frames s) (hp : p < s.pgCount)
    (hr : ¬s.resident p) (h : pageIn p s = .ok (r, u)) :
    Moved s u ∧ (r ≠ -1 → u.resident p) := by
  simp only [pageIn, get_bind] at h
  cases hi : freeFrame s with
  | none =>
    rw [hi] at h
    obtain ⟨rfl, rfl⟩ := Prod.mk.inj (pure_ok.1 h)
    exact ⟨.refl hs, fun h => absurd rfl h⟩
  | some i =>
    rw [hi] at h
    obtain ⟨-, rfl⟩ := Prod.mk.inj (pure_ok.1 h)
    exact ⟨fillFrame_moved hs hp hr hi, fun _ => fillFrame_resident.2 (.inl rfl)⟩

theorem bringIn_moved {choose : Pager → Option ℕ} (hc : Victims choose) {s u : Pager} {p : ℕ}
    {r : ℤ} (hs : Frames s) (hp : p < s.pgCount) (h : bringIn choose p s = .ok (r, u)) :
    Moved s u ∧ (r ≠ -1 → u.resident p) := by
  simp only [bringIn, get_bind] at h
  rcases ite_ok.1 h with ⟨hv, h⟩ | ⟨hv, h⟩
  · obtain ⟨-, rfl⟩ := Prod.mk.inj (pure_ok.1 h)
    exact ⟨.refl hs, fun _ => hv⟩
  · cases hf : freeFrame s with
    | some i =>
      rw [hf] at h
      exact pageIn_moved hs hp hv h
    | none =>
      rw [hf] at h
      obtain ⟨_, w, hw, h⟩ := bind_ok.1 h
      obtain ⟨tossed, absent⟩ := tossPageBy_moved hc hs hw
      obtain ⟨filled, res⟩ := pageIn_moved tossed.frames (tossed.count.symm ▸ hp) (absent _ hv) h
      exact ⟨tossed.trans filled, res⟩

structure Touched (s : Pager) (v a : ℕ) (u : Pager) : Prop where
  frames : Frames u
  size : u.pgSize = s.pgSize
  view : ∀ w, u.view w = s.view w
  stored : ∀ w, u.pageMem w = s.pageMem w ∨ u.pageMem w = s.view w
  lt : v < vaddrSize
  resident : u.resident (v / u.pgSize)
  addr : a = (u.pgTable (v / u.pgSize)).frameAddr + v % u.pgSize
  refs : ∀ p, u.refs p = if p = v / s.pgSize then s.refs p + 1 else s.refs p
  kept : ∀ p, s.resident p → s.refs p ≠ 0 →
    u.resident p ∧ (u.pgTable p).frameAddr = (s.pgTable p).frameAddr

theorem lt_vaddrSize {s : Pager} (hs : Frames s) {v : ℕ} (h : v / s.pgSize < s.pgCount) :
    v < vaddrSize := by
  have hd : s.pgSize ∣ vaddrSize := hs.size_dvd.trans (by decide)
  rw [hs.count, Nat.div_lt_iff_lt_mul hs.size_pos, Nat.div_mul_cancel hd] at h
  exact h

theorem Frames.page_lt {s : Pager} (hs : Frames s) {p : ℕ} (hp : ¬p > s.pgCount - 1) :
    p < s.pgCount := by
  have pos : 0 < s.pgCount := by
    rw [hs.count]
    exact Nat.div_pos (Nat.le_of_dvd (by decide) (hs.size_dvd.trans (by decide))) hs.size_pos
  omega

theorem updatePageInfo_touched {s t : Pager} (ops : UInt32) {v : ℕ} (hm : Moved s t)
    (hp : v / s.pgSize < s.pgCount) (hr : t.resident (v / s.pgSize)) :
    Touched s v ((t.pgTable (v / s.pgSize)).frameAddr + v % s.pgSize)
      (updatePageInfo ops (v / s.pgSize) t) := by
  have same := updatePageInfo_sameFrames ops (v / s.pgSize) t
  have size := same.size.trans hm.size
  have count : v / s.pgSize < t.pgCount := hm.count.symm ▸ hp
  refine ⟨same.frames hm.frames, size, fun w => (same.view w).trans (hm.view w), fun w => ?_, ?_,
    ?_, ?_, fun p => ?_, fun p hp hn => ?_⟩
  · rw [same.pageMem]
    exact hm.stored w
  · apply lt_vaddrSize hm.frames
    rwa [hm.size]
  · rw [size, Pager.resident, same.valid]
    exact hr
  · rw [size, same.addr]
  · rw [updatePageInfo_refs ops count, hm.refs, hm.refs]
    split
    · rename_i hq
      rw [hq]
    · rfl
  · obtain ⟨hu, he⟩ := hm.kept p hp hn
    rw [Pager.resident, same.valid, same.addr]
    exact ⟨hu, he⟩

theorem touchPageBy_touched {choose : Pager → Option ℕ} (hc : Victims choose) {s u : Pager}
    {ops : UInt32} {v a : ℕ} (hs : Frames s)
    (h : touchPageBy choose ops v s = .ok (some a, u)) : Touched s v a u := by
  simp only [touchPageBy, get_bind] at h
  rcases ite_ok.1 h with ⟨-, h⟩ | ⟨hp, h⟩
  · cases (Prod.mk.inj (pure_ok.1 h)).1
  · have hp := hs.page_lt hp
    obtain ⟨r, t, hr, h⟩ := bind_ok.1 h
    obtain ⟨moved, res⟩ := bringIn_moved hc hs hp hr
    rcases ite_ok.1 h with ⟨-, h⟩ | ⟨hn, h⟩
    · cases (Prod.mk.inj (pure_ok.1 h)).1
    · simp only [modify_bind, get_bind] at h
      obtain ⟨ha, rfl⟩ := Prod.mk.inj (pure_ok.1 h)
      rw [(updatePageInfo_sameFrames ops (v / s.pgSize) t).addr] at ha
      rw [Option.some.inj ha]
      exact updatePageInfo_touched ops moved hp (res hn)

theorem touchPageBy_resident (choose : Pager → Option ℕ) (ops : UInt32) {s : Pager} {v : ℕ}
    (hp : v / s.pgSize ≤ s.pgCount - 1) (hr : s.resident (v / s.pgSize)) :
    touchPageBy choose ops v s =
      .ok (some (((updatePageInfo ops (v / s.pgSize) s).pgTable (v / s.pgSize)).frameAddr +
        v % s.pgSize), updatePageInfo ops (v / s.pgSize) s) := by
  have hb : bringIn choose (v / s.pgSize) s = .ok (0, s) := by
    rw [bringIn, get_bind, if_pos (show (s.pgTable _).valid = true from hr)]
    rfl
  rw [touchPageBy, get_bind, if_neg (by omega), bind_of_ok hb]
  rfl

theorem touchPageBy_missed {choose : Pager → Option ℕ} (hc : Victims choose) {s u : Pager}
    {ops : UInt32} {v : ℕ} (hs : Frames s) (h : touchPageBy choose ops v s = .ok (none, u)) :
    Moved s u := by
  simp only [touchPageBy, get_bind] at h
  rcases ite_ok.1 h with ⟨-, h⟩ | ⟨hp, h⟩
  · obtain ⟨-, rfl⟩ := Prod.mk.inj (pure_ok.1 h)
    exact .refl hs
  · obtain ⟨r, t, hr, h⟩ := bind_ok.1 h
    have moved := (bringIn_moved hc hs (hs.page_lt hp) hr).1
    rcases ite_ok.1 h with ⟨-, h⟩ | ⟨-, h⟩
    · obtain ⟨-, rfl⟩ := Prod.mk.inj (pure_ok.1 h)
      exact moved
    · cases (Prod.mk.inj (pure_ok.1 h)).1

theorem writeMem_view {s : Pager} (hs : Frames s) {v : ℕ} (hv : s.resident (v / s.pgSize))
    (w : Word) : (writeMem ((s.pgTable (v / s.pgSize)).frameAddr + v % s.pgSize) w s).view =
      Function.update s.view v w := by
  funext x
  by_cases hx : x = v
  · subst x
    rw [Function.update_self, view_resident (s := writeMem _ w s) hv]
    exact Function.update_self _ _ _
  · rw [Function.update_of_ne hx]
    by_cases hr : s.resident (x / s.pgSize)
    · rw [view_resident hr, view_resident (s := writeMem _ w s) hr]
      exact Function.update_of_ne (fun h => hx (address_inj hs x v hr hv h)) _ _
    · rw [view_absent hr, view_absent (s := writeMem _ w s) hr]
      rfl

theorem writeMem_frames {s : Pager} (hs : Frames s) (a : ℕ) (w : Word) :
    Frames (writeMem a w s) := ⟨hs.size_pos, hs.size_dvd, hs.count, hs.frame, hs.apart⟩

end BrainMachine.Paging
