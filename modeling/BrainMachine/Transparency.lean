import BrainMachine.PagingView
import BrainMachine.Runs

set_option autoImplicit false

/-!
# Transparency of demand paging

A reference is an address with the frame address that a touch returned for it. While
references are held their pages stay where they are, so that accesses through them see the
flat memory `view`, for as long as no reference count wraps around.
-/
namespace BrainMachine.Transparency
open Codec Computations Paging Runs

def openRefs (size : ℕ) (held : List (ℕ × ℕ)) (p : ℕ) : ℕ :=
  held.countP fun r => decide (r.1 / size = p)

/-- Held references are counted, and their frame addresses are those of their pages. -/
structure Holding (s : Pager) (held : List (ℕ × ℕ)) : Prop where
  frames : Frames s
  counted : ∀ p, openRefs s.pgSize held p ≤ (s.refs p).toNat
  fixed : ∀ r ∈ held, s.resident (r.1 / s.pgSize) ∧
    r.2 = (s.pgTable (r.1 / s.pgSize)).frameAddr + r.1 % s.pgSize

theorem openRefs_cons (size v a : ℕ) (held : List (ℕ × ℕ)) (p : ℕ) :
    openRefs size ((v, a) :: held) p =
      openRefs size held p + if p = v / size then 1 else 0 := by
  rw [openRefs, List.countP_cons]
  simp only [decide_eq_true_eq, eq_comm (a := p)]
  rfl

theorem openRefs_erase (size : ℕ) {v a : ℕ} {held : List (ℕ × ℕ)} (h : (v, a) ∈ held) (p : ℕ) :
    openRefs size (held.erase (v, a)) p + (if p = v / size then 1 else 0) =
      openRefs size held p := by
  rw [← openRefs_cons, openRefs, openRefs]
  exact ((List.perm_cons_erase h).countP_eq _).symm

theorem openRefs_pos {size : ℕ} {held : List (ℕ × ℕ)} {r : ℕ × ℕ} (h : r ∈ held) :
    0 < openRefs size held (r.1 / size) :=
  List.countP_pos_iff.2 ⟨r, h, decide_eq_true rfl⟩

theorem toNat_add_one {x : UInt32} (h : x.toNat + 1 < 4294967296) :
    (x + 1).toNat = x.toNat + 1 := by
  have hx : (x + 1).toNat = (x.toNat + 1) % 4294967296 := UInt32.toNat_add x 1
  omega

theorem toNat_sub_one {x : UInt32} (h : 0 < x.toNat) : (x - 1).toNat = x.toNat - 1 := by
  have hx : (x - 1).toNat = (4294967296 - 1 + x.toNat) % 4294967296 := UInt32.toNat_sub x 1
  have : x.toNat < 4294967296 := x.toNat_lt
  omega

theorem toNat_ne_zero {x : UInt32} (h : 0 < x.toNat) : x ≠ 0 := by
  rintro rfl
  exact Nat.lt_irrefl 0 h

theorem Holding.touch {choose : Pager → Option ℕ} {ops : UInt32} {s u : Pager} {v a : ℕ}
    {held : List (ℕ × ℕ)} (h : Holding s held) (hc : Victims choose)
    (room : (s.refs (v / s.pgSize)).toNat + 1 < 4294967296)
    (ht : touchPageBy choose ops v s = .ok (some a, u)) : Holding u ((v, a) :: held) := by
  have t := touchPageBy_touched hc h.frames ht
  refine ⟨t.frames, fun p => ?_, fun r hr => ?_⟩
  · have := h.counted p
    rw [t.size, openRefs_cons, t.refs]
    by_cases hp : p = v / s.pgSize
    · rw [if_pos hp, if_pos hp, hp, toNat_add_one room]
      rw [hp] at this
      omega
    · rw [if_neg hp, if_neg hp]
      exact this
  · rcases List.mem_cons.1 hr with rfl | hr
    · exact ⟨t.resident, t.addr⟩
    · have pos : s.refs (r.1 / s.pgSize) ≠ 0 :=
        toNat_ne_zero (Nat.lt_of_lt_of_le (openRefs_pos hr) (h.counted _))
      obtain ⟨res, addr⟩ := h.fixed r hr
      obtain ⟨res', addr'⟩ := t.kept _ res pos
      rw [t.size, addr']
      exact ⟨res', addr⟩

/-- A release of a page that is referenced takes one reference off it. -/
theorem pageReleaseRef_refs {s : Pager} {v : ℕ} (hp : v / s.pgSize < s.pgCount)
    (hr : s.refs (v / s.pgSize) ≠ 0) (q : ℕ) : (pageReleaseRef v s).refs q =
      if q = v / s.pgSize then s.refs q - 1 else s.refs q := by
  rw [pageReleaseRef, if_neg (by omega), Int.toNat_natCast]
  dsimp only
  rw [if_neg (by omega), if_neg hr]
  by_cases hq : q = v / s.pgSize <;> simp [setPage, Pager.refs, hq]

theorem pageReleaseRef_other {s : Pager} {v q : ℕ} (hq : q ≠ v / s.pgSize) :
    (pageReleaseRef v s).refs q = s.refs q := by
  unfold pageReleaseRef
  split
  · rfl
  · dsimp only
    rw [Int.toNat_natCast]
    split
    · rfl
    · split
      · rfl
      · simp [setPage, Pager.refs, hq]

theorem pageReleaseRef_page {s : Pager} {v w : ℕ} (h : v / s.pgSize = w / s.pgSize) :
    pageReleaseRef v s = pageReleaseRef w s := by
  simp only [pageReleaseRef, Int.toNat_natCast, h, Int.natCast_nonneg, Int.not_lt.2, if_false]

theorem pageReleaseRef_le (a : ℤ) (s : Pager) (q : ℕ) :
    ((pageReleaseRef a s).refs q).toNat ≤ (s.refs q).toNat := by
  unfold pageReleaseRef
  split
  · exact le_rfl
  · dsimp only
    split
    · exact le_rfl
    · split
      · exact le_rfl
      · rename_i hr
        by_cases hq : q = a.toNat / s.pgSize
        · have pos : 0 < (s.refs (a.toNat / s.pgSize)).toNat :=
            Nat.pos_of_ne_zero fun h => hr (UInt32.toNat_inj.1 h)
          simp only [setPage, Pager.refs, hq, Function.update_self]
          change ((s.refs (a.toNat / s.pgSize)) - 1).toNat ≤ (s.refs (a.toNat / s.pgSize)).toNat
          rw [toNat_sub_one pos]
          exact Nat.sub_le _ 1
        · simp [setPage, Pager.refs, hq]

theorem Holding.release {s : Pager} {v a : ℕ} {held : List (ℕ × ℕ)} (h : Holding s held)
    (hm : (v, a) ∈ held) : Holding (pageReleaseRef v s) (held.erase (v, a)) := by
  have same := pageReleaseRef_sameFrames v s
  have pos : 0 < (s.refs (v / s.pgSize)).toNat :=
    Nat.lt_of_lt_of_le (openRefs_pos (r := (v, a)) hm) (h.counted _)
  have page := (h.frames.frame _ (h.fixed _ hm).1).1
  refine ⟨same.frames h.frames, fun p => ?_, fun r hr => ?_⟩
  · have he := openRefs_erase s.pgSize hm p
    have hc := h.counted p
    rw [same.size, pageReleaseRef_refs page (toNat_ne_zero pos)]
    by_cases hp : p = v / s.pgSize
    · rw [if_pos hp] at he
      rw [if_pos hp, toNat_sub_one (hp ▸ pos)]
      omega
    · rw [if_neg hp] at he
      rw [if_neg hp]
      omega
  · rw [same.size, Pager.resident, same.valid, same.addr]
    exact h.fixed r (List.mem_of_mem_erase hr)

theorem Holding.write {s : Pager} {a : ℕ} {w : Word} {held : List (ℕ × ℕ)} (h : Holding s held) :
    Holding (writeMem a w s) held := ⟨writeMem_frames h.frames a w, h.counted, h.fixed⟩

theorem Holding.write_view {s : Pager} {v a : ℕ} {held : List (ℕ × ℕ)} (h : Holding s held)
    (hm : (v, a) ∈ held) (w : Word) :
    (writeMem a w s).view = Function.update s.view v w := by
  obtain ⟨res, addr⟩ := h.fixed _ hm
  change a = (s.pgTable (v / s.pgSize)).frameAddr + v % s.pgSize at addr
  rw [addr]
  exact writeMem_view h.frames res w

theorem Holding.read_view {s : Pager} {v a : ℕ} {held : List (ℕ × ℕ)} (h : Holding s held)
    (hm : (v, a) ∈ held) : s.mem a = s.view v := by
  obtain ⟨res, addr⟩ := h.fixed _ hm
  change a = (s.pgTable (v / s.pgSize)).frameAddr + v % s.pgSize at addr
  rw [addr, view_resident res]

structure Session where
  pager : Pager
  held : List (ℕ × ℕ)

inductive Access where
  | touch (v : ℕ)
  | release (v : ℕ)
  | write (v : ℕ) (w : Word)
  | read (v : ℕ) (w : Word)

/-- The successful accesses, with any unreferenced resident page as the victim of a touch. -/
inductive Accesses : Session → Access → Session → Prop
  | touch (s : Session) (choose : Pager → Option ℕ) (ops : UInt32) (v a : ℕ) (u : Pager)
      (hc : Victims choose) (h : touchPageBy choose ops v s.pager = .ok (some a, u)) :
      Accesses s (.touch v) ⟨u, (v, a) :: s.held⟩
  | release (s : Session) (v a : ℕ) (hm : (v, a) ∈ s.held) :
      Accesses s (.release v) ⟨pageReleaseRef v s.pager, s.held.erase (v, a)⟩
  | write (s : Session) (v a : ℕ) (w : Word) (hm : (v, a) ∈ s.held) :
      Accesses s (.write v w) ⟨writeMem a w s.pager, s.held⟩
  | read (s : Session) (v a : ℕ) (hm : (v, a) ∈ s.held) :
      Accesses s (.read v (s.pager.mem a)) s

structure Blank (s : Session) : Prop where
  accepted : ∃ average t, pagememInit s.pager.pgSize average = some t ∧
    t.pgCount = s.pager.pgCount
  absent : ∀ p, ¬s.pager.resident p
  held : s.held = []

def Access.transparent (before after : ℕ → Word) : Access → Prop
  | .touch _ => after = before
  | .release _ => after = before
  | .write v w => after = Function.update before v w
  | .read v w => after = before ∧ w = before v

def Access.writes (v : ℕ) (b : Access) : Prop := ∃ w, b = .write v w

structure Transparent (r : Run Accesses) : Prop where
  step : ∀ i < r.len, (r.lab i).transparent (r.st i).pager.view (r.st (i + 1)).pager.view
  last : ∀ i < r.len, ∀ v w, r.lab i = .read v w → ∀ k x,
    LastBefore (fun j => (r.lab j).writes v) i k → r.lab k = .write v x → w = x
  initial : ∀ i < r.len, ∀ v w, r.lab i = .read v w → (∀ j < i, ¬(r.lab j).writes v) →
    w = (r.st 0).pager.pageMem v

theorem Accesses.holding {s u : Session} {b : Access} (h : Holding s.pager s.held)
    (room : ∀ v, b = .touch v → (s.pager.refs (v / s.pager.pgSize)).toNat + 1 < 4294967296)
    (k : Accesses s b u) : Holding u.pager u.held ∧ b.transparent s.pager.view u.pager.view := by
  cases k with
  | touch choose ops v a u hc ht =>
    refine ⟨h.touch hc (room v rfl) ht, ?_⟩
    funext x
    exact (touchPageBy_touched hc h.frames ht).view x
  | release v a hm =>
    refine ⟨h.release hm, ?_⟩
    funext x
    exact (pageReleaseRef_sameFrames v s.pager).view x
  | write v a w hm => exact ⟨h.write, h.write_view hm w⟩
  | read v a hm => exact ⟨h, rfl, h.read_view hm⟩

theorem Blank.holding {s : Session} (h : Blank s) : Holding s.pager s.held := by
  obtain ⟨average, t, ht, count⟩ := h.accepted
  have frames := pagememInit_frames _ _ t ht
  have size : t.pgSize = s.pager.pgSize := by
    unfold pagememInit at ht
    split at ht
    · cases ht
    · split at ht
      · cases ht
      · rw [← Option.some.inj ht]
  rw [h.held]
  refine ⟨⟨size ▸ frames.size_pos, size ▸ frames.size_dvd, ?_, fun p hp => absurd hp (h.absent p),
    fun p q hp => absurd hp (h.absent p)⟩, fun p => Nat.zero_le _, fun r hr => by cases hr⟩
  rw [← count, frames.count, size]

/-- What the view holds at `v` is what the last write to `v` put there. -/
theorem view_last {r : Run Accesses}
    (step : ∀ i < r.len, (r.lab i).transparent (r.st i).pager.view (r.st (i + 1)).pager.view)
    (v n : ℕ) (hn : n ≤ r.len) :
    (∀ k x, LastBefore (fun j => (r.lab j).writes v) n k → r.lab k = .write v x →
      (r.st n).pager.view v = x) ∧
    ((∀ j < n, ¬(r.lab j).writes v) → (r.st n).pager.view v = (r.st 0).pager.view v) := by
  refine r.invariant (fun n => (∀ k x, LastBefore (fun j => (r.lab j).writes v) n k →
      r.lab k = .write v x → (r.st n).pager.view v = x) ∧
    ((∀ j < n, ¬(r.lab j).writes v) → (r.st n).pager.view v = (r.st 0).pager.view v))
    ⟨fun k x last => absurd last.1 (Nat.not_lt_zero k), fun _ => rfl⟩ (fun n hn ih => ?_) n hn
  have same (h : ¬(r.lab n).writes v) :
      (r.st (n + 1)).pager.view v = (r.st n).pager.view v := by
    have hs := step n hn
    cases hl : r.lab n with
    | touch x =>
      rw [hl] at hs
      exact congrFun hs v
    | release x =>
      rw [hl] at hs
      exact congrFun hs v
    | read x w =>
      rw [hl] at hs
      exact congrFun hs.1 v
    | write x w =>
      rw [hl] at hs h
      have hne : v ≠ x := fun he => h ⟨w, by rw [he]⟩
      exact (congrFun hs v).trans (Function.update_of_ne hne _ _)
  refine ⟨fun k x last hk => ?_, fun none => ?_⟩
  · rcases last.cases with ⟨rfl, -⟩ | ⟨other, last⟩
    · have hs := step k hn
      rw [hk] at hs
      exact (congrFun hs v).trans (Function.update_self _ _ _)
    · rw [same other]
      exact ih.1 k x last hk
  · rw [same (none n (Nat.lt_succ_self n))]
    exact ih.2 fun j hj => none j (Nat.lt_succ_of_lt hj)

/-- Demand paging is transparent while no touch finds the count of its page at the maximum. -/
theorem paging_transparent (r : Run Accesses) (start : Blank (r.st 0))
    (room : ∀ i < r.len, ∀ v, r.lab i = .touch v →
      ((r.st i).pager.refs (v / (r.st i).pager.pgSize)).toNat + 1 < 4294967296) :
    Transparent r := by
  have holding (n : ℕ) (hn : n ≤ r.len) : Holding (r.st n).pager (r.st n).held :=
    r.invariant (fun n => Holding (r.st n).pager (r.st n).held) start.holding
      (fun i hi h => ((r.ok i hi).holding h (room i hi)).1) n hn
  have step (i : ℕ) (hi : i < r.len) :
      (r.lab i).transparent (r.st i).pager.view (r.st (i + 1)).pager.view :=
    ((r.ok i hi).holding (holding i (by omega)) (room i hi)).2
  refine ⟨step, fun i hi v w hr k x last hk => ?_, fun i hi v w hr none => ?_⟩
  · have hs := step i hi
    rw [hr] at hs
    rw [hs.2]
    exact (view_last step v i (by omega)).1 k x last hk
  · have hs := step i hi
    rw [hr] at hs
    rw [hs.2, (view_last step v i (by omega)).2 none]
    exact view_absent (start.absent _)

def onePage : Pager where
  pgCount := 100
  pgSize := 100
  mem := fun _ => zeros
  pageMem := fun _ => zeros
  pgTable := fun _ => ⟨false, 0, 0⟩
  freeFrames := fun i => decide (i < memSize / 100)
  pgPeriod := fun _ => ⟨0, 0⟩
  average := fun _ _ => 0

theorem onePage_accepted : pagememInit 100 (fun _ _ => 0) = some onePage := rfl

def pinned (c : UInt32) : Pager :=
  { onePage with
    pgTable := fun p => if p = 0 then ⟨true, 0, c⟩ else ⟨false, 0, 0⟩
    freeFrames := fun _ => false }

theorem pinned_info (c : UInt32) : updatePageInfo 0 0 (pinned c) = pinned (c + 1) := by
  have table : Function.update (pinned c).pgTable 0 ⟨true, 0, c + 1⟩ =
      (pinned (c + 1)).pgTable := by
    funext p
    by_cases hp : p = 0 <;> simp [pinned, hp]
  have period : Function.update (pinned c).pgPeriod 0 ⟨0, 0⟩ = (pinned c).pgPeriod :=
    Function.update_eq_self 0 (pinned c).pgPeriod
  change { pinned c with
    pgTable := Function.update (pinned c).pgTable 0 ⟨true, 0, c + 1⟩
    pgPeriod := Function.update (pinned c).pgPeriod 0 ⟨0, 0⟩ } = _
  rw [table, period]
  rfl

theorem onePage_fill : fillFrame 0 0 onePage = pinned 0 := by
  have table : Function.update onePage.pgTable 0 ⟨true, 0, 0⟩ = (pinned 0).pgTable := by
    funext p
    by_cases hp : p = 0 <;> simp [pinned, onePage, hp]
  have free : Function.update onePage.freeFrames 0 false = (pinned 0).freeFrames := by
    funext i
    by_cases hi : i = 0 <;> simp [pinned, onePage, memSize, hi]
  have mem : (fillFrame 0 0 onePage).mem = (pinned 0).mem := by
    funext a
    exact ite_self _
  change { onePage with
    pgTable := Function.update onePage.pgTable 0 ⟨true, 0, 0⟩
    mem := (fillFrame 0 0 onePage).mem
    freeFrames := Function.update onePage.freeFrames 0 false } = _
  rw [table, mem, free]
  rfl

theorem onePage_touch : touchPage 0 0 onePage = .ok (some 0, pinned 1) := by
  change Except.ok (some 0, updatePageInfo 0 0 (fillFrame 0 0 onePage)) = _
  rw [onePage_fill, pinned_info]
  rfl

theorem pinned_touch (c : UInt32) : touchPage 0 0 (pinned c) = .ok (some 0, pinned (c + 1)) := by
  have page : 0 / (pinned c).pgSize = 0 := Nat.zero_div _
  have resident : (pinned c).resident (0 / (pinned c).pgSize) := by
    rw [page]
    rfl
  rw [touchPage, touchPageBy_resident getRemovalPage 0 (by omega) resident, page, pinned_info]
  rfl

theorem onePage_blank : Blank ⟨onePage, []⟩ :=
  ⟨⟨fun _ _ => 0, onePage, onePage_accepted, rfl⟩, fun _ hp => (nomatch hp), rfl⟩

def Counting (s : Session) (b : Access) (u : Session) : Prop := Accesses s b u ∧
  ∀ v, b = .touch v → (s.pager.refs (v / s.pager.pgSize)).toNat + 1 < 4294967296

def Session.reference (s : Session) (v : ℕ) : Option (ℕ × ℕ) :=
  s.held.find? fun r => decide (r.1 = v)

theorem Session.reference_mem {s : Session} {v : ℕ} {r : ℕ × ℕ} (h : s.reference v = some r) :
    (v, r.2) ∈ s.held := by
  obtain rfl : r.1 = v := of_decide_eq_true (List.find?_some h :)
  exact List.mem_of_find?_eq_some h

def Session.next (s : Session) : Access → Option Session
  | .touch v =>
    if (s.pager.refs (v / s.pager.pgSize)).toNat + 1 < 4294967296 then
      match touchPage 0 v s.pager with
      | .ok (some a, u) => some ⟨u, (v, a) :: s.held⟩
      | _ => none
    else none
  | .release v => (s.reference v).map fun r => ⟨pageReleaseRef v s.pager, s.held.erase (v, r.2)⟩
  | .write v w => (s.reference v).map fun r => ⟨writeMem r.2 w s.pager, s.held⟩
  | .read v w => (s.reference v).bind fun r => if s.pager.mem r.2 = w then some s else none

theorem Session.next_counting (s : Session) (b : Access) (u : Session) (h : s.next b = some u) :
    Counting s b u := by
  cases b with
  | touch v =>
    rw [Session.next] at h
    split at h
    · rename_i room
      refine ⟨?_, fun x hx => Access.touch.inj hx ▸ room⟩
      split at h
      · obtain rfl := Option.some.inj h
        exact .touch _ _ _ _ _ _ getRemovalPage_victims ‹_›
      · cases h
    · cases h
  | release v =>
    obtain ⟨r, hr, rfl⟩ := Option.map_eq_some_iff.1 h
    exact ⟨.release _ _ _ (reference_mem hr), fun x hx => nomatch hx⟩
  | write v w =>
    obtain ⟨r, hr, rfl⟩ := Option.map_eq_some_iff.1 h
    exact ⟨.write _ _ _ _ (reference_mem hr), fun x hx => nomatch hx⟩
  | read v w =>
    obtain ⟨r, hr, h⟩ := Option.bind_eq_some_iff.1 h
    refine ⟨?_, fun x hx => nomatch hx⟩
    split at h
    · obtain rfl := Option.some.inj h
      subst w
      exact .read _ _ _ (reference_mem hr)
    · cases h

/-- Two references to page 0, a write through one of them, page 1 in its frame once both are given
back, and page 0 again. -/
def tossing : List Access :=
  [.touch 0, .touch 5, .write 5 ⟨49, 48, 48, 48⟩, .read 5 ⟨49, 48, 48, 48⟩, .release 0,
    .release 5, .touch 107, .write 107 ⟨50, 48, 48, 48⟩, .release 107, .touch 5,
    .read 5 ⟨49, 48, 48, 48⟩]

def tossingRun : Run Counting :=
  performed Session.next_counting ⟨onePage, []⟩ (.touch 0) tossing (by decide +kernel)

theorem tossingRun_transparent : ((tossingRun.st 7).pager.pgTable 0).valid = false ∧
    Transparent (tossingRun.map id fun _ _ _ h => h.1) :=
  ⟨by decide +kernel, paging_transparent (tossingRun.map id fun _ _ _ h => h.1) onePage_blank
    fun i hi => (tossingRun.ok i hi).2⟩

def swapped : Pager := ((touchPage 0 100 (pinned 0)).toOption.getD (none, onePage)).2

theorem swapped_touch : touchPage 0 100 (pinned 0) = .ok (some 0, swapped) :=
  ok_of_result _ (by decide +kernel)

def wrapState (n i : ℕ) : Session :=
  if i = 0 then ⟨onePage, []⟩
  else if i ≤ n then ⟨pinned (UInt32.ofNat i), List.replicate i (0, 0)⟩
  else if i = n + 1 then ⟨swapped, (100, 0) :: List.replicate n (0, 0)⟩
  else ⟨writeMem 0 ⟨49, 48, 48, 48⟩ swapped, (100, 0) :: List.replicate n (0, 0)⟩

theorem wrapState_pinned {n i : ℕ} (h0 : 0 < i) (hi : i ≤ n) :
    wrapState n i = ⟨pinned (UInt32.ofNat i), List.replicate i (0, 0)⟩ := by
  rw [wrapState, if_neg (by omega), if_pos hi]

theorem wrapState_swapped (n : ℕ) :
    wrapState n (n + 1) = ⟨swapped, (100, 0) :: List.replicate n (0, 0)⟩ := by
  rw [wrapState, if_neg (by omega), if_neg (by omega), if_pos rfl]

theorem wrapState_written (n : ℕ) : wrapState n (n + 2) =
    ⟨writeMem 0 ⟨49, 48, 48, 48⟩ swapped, (100, 0) :: List.replicate n (0, 0)⟩ := by
  rw [wrapState, if_neg (by omega), if_neg (by omega), if_neg (by omega)]

/-- Touches of the address 0 until its count is 0 again, a touch of another page, and a
write through the first reference. -/
def wrapRun (n : ℕ) (pos : 0 < n) (wrap : UInt32.ofNat n = 0) : Run Accesses where
  len := n + 2
  st := wrapState n
  lab i := if i < n then .touch 0 else if i = n then .touch 100 else .write 0 ⟨49, 48, 48, 48⟩
  ok i hi := by
    rcases Nat.lt_trichotomy i n with h | rfl | h
    · rw [if_pos h, wrapState_pinned (Nat.succ_pos i) h]
      rcases Nat.eq_zero_or_pos i with rfl | h0
      · exact .touch _ getRemovalPage 0 0 0 _ getRemovalPage_victims onePage_touch
      · rw [wrapState_pinned h0 h.le, Nat.succ_eq_add_one, UInt32.ofNat_add]
        exact .touch _ getRemovalPage 0 0 0 _ getRemovalPage_victims (pinned_touch _)
    · rw [if_neg (lt_irrefl i), if_pos rfl, wrapState_pinned pos le_rfl, wrapState_swapped, wrap]
      exact .touch _ getRemovalPage 0 100 0 _ getRemovalPage_victims swapped_touch
    · obtain rfl : i = n + 1 := by omega
      rw [if_neg (by omega), if_neg (by omega), wrapState_swapped, wrapState_written]
      exact .write _ 0 0 _ (List.mem_cons_of_mem _ (List.mem_replicate.2 ⟨by omega, rfl⟩))

/-- With 2^32 references to a page its count is 0 and the page is tossed under them. -/
theorem wrapRun_not_transparent : ∃ r : Run Accesses, Blank (r.st 0) ∧ ¬Transparent r := by
  have run (n : ℕ) (pos : 0 < n) (wrap : UInt32.ofNat n = 0) :
      ∃ r : Run Accesses, Blank (r.st 0) ∧ ¬Transparent r := by
    refine ⟨wrapRun n pos wrap, ?_, fun h => ?_⟩
    · exact onePage_blank
    · have hs := h.step (n + 1) (Nat.lt_succ_self _)
      change ((if n + 1 < n then .touch 0 else if n + 1 = n then .touch 100
        else .write 0 ⟨49, 48, 48, 48⟩ : Access)).transparent (wrapState n (n + 1)).pager.view
        (wrapState n (n + 2)).pager.view at hs
      rw [if_neg (by omega), if_neg (by omega), wrapState_swapped, wrapState_written] at hs
      have hv : (writeMem 0 ⟨49, 48, 48, 48⟩ swapped).view 100 =
          Function.update swapped.view 0 ⟨49, 48, 48, 48⟩ 100 := congrFun hs 100
      exact absurd hv (by decide +kernel)
  exact run 4294967296 (by decide) (by decide)

end BrainMachine.Transparency
