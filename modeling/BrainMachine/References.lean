import BrainMachine.AddressSpace
import BrainMachine.Transparency

set_option autoImplicit false

namespace BrainMachine.References
open Codec Computations Paging AddressSpace Transparency

def Reach (p : Seg) (v : ℕ) : Prop := ∃ a, getGlobalAddress p a = (v : ℤ)

structure Footing (S : ℕ → Prop) (s₀ : Pager) (held : List (ℕ × ℕ)) (s : Pager) : Prop where
  holding : Holding s held
  size : s.pgSize = s₀.pgSize
  counted : ∀ p, (s.refs p).toNat = (s₀.refs p).toNat + openRefs s₀.pgSize held p
  view : ∀ v, ¬S v → s.view v = s₀.view v

def Slack (n : ℕ) (s : Pager) : Prop := ∀ p, (s.refs p).toNat + n < 4294967296

theorem Footing.start (S : ℕ → Prop) {s : Pager} (h : Frames s) : Footing S s [] s :=
  ⟨⟨h, fun _ => Nat.zero_le _, fun _ hr => (nomatch hr)⟩, rfl, fun _ => rfl, fun _ _ => rfl⟩

theorem Footing.swap {S : ℕ → Prop} {s₀ s : Pager} {held : List (ℕ × ℕ)} {r t : ℕ × ℕ}
    (h : Footing S s₀ (r :: t :: held) s) : Footing S s₀ (t :: r :: held) s := by
  have perm : (t :: r :: held).Perm (r :: t :: held) := .swap r t held
  have refs (n p : ℕ) : openRefs n (t :: r :: held) p = openRefs n (r :: t :: held) p :=
    perm.countP_eq _
  refine ⟨⟨h.holding.frames, fun p => ?_, fun x hx => ?_⟩, h.size, fun p => ?_, h.view⟩
  · rw [refs]
    exact h.holding.counted p
  · exact h.holding.fixed x (perm.mem_iff.1 hx)
  · rw [refs]
    exact h.counted p

theorem openRefs_le (size : ℕ) (held : List (ℕ × ℕ)) (p : ℕ) :
    openRefs size held p ≤ held.length := List.countP_le_length

theorem Footing.take {S : ℕ → Prop} {s₀ s u : Pager} {held : List (ℕ × ℕ)} {ops : UInt32}
    {v x : ℕ} (h : Footing S s₀ held s) (slack : Slack 8 s₀) (len : held.length ≤ 6)
    (k : touchPage ops v s = .ok (some x, u)) : Footing S s₀ ((v, x) :: held) u := by
  have room (p : ℕ) : (s.refs p).toNat + 1 < 4294967296 := by
    have := slack p
    have := openRefs_le s₀.pgSize held p
    rw [h.counted]
    omega
  have t := touchPageBy_touched getRemovalPage_victims h.holding.frames k
  refine ⟨h.holding.touch getRemovalPage_victims (room _) k, t.size.trans h.size, fun p => ?_,
    fun w hw => (t.view w).trans (h.view w hw)⟩
  rw [t.refs, openRefs_cons, h.size]
  have := h.counted p
  by_cases hp : p = v / s₀.pgSize
  · rw [← hp, if_pos rfl, if_pos rfl, toNat_add_one (room p)]
    omega
  · rw [if_neg hp, if_neg hp]
    omega

theorem Footing.drop {S : ℕ → Prop} {s₀ s : Pager} {held : List (ℕ × ℕ)} {v x : ℕ}
    (h : Footing S s₀ ((v, x) :: held) s) : Footing S s₀ held (pageReleaseRef v s) := by
  have mem : (v, x) ∈ (v, x) :: held := List.mem_cons_self
  have holding := h.holding.release mem
  rw [List.erase_cons_head] at holding
  have same := pageReleaseRef_sameFrames v s
  have pos : 0 < (s.refs (v / s.pgSize)).toNat :=
    Nat.lt_of_lt_of_le (openRefs_pos (r := (v, x)) mem) (h.holding.counted _)
  have page := (h.holding.frames.frame _ (h.holding.fixed _ mem).1).1
  refine ⟨holding, same.size.trans h.size, fun p => ?_, fun w hw => (same.view w).trans (h.view w hw)⟩
  have hc := h.counted p
  rw [openRefs_cons] at hc
  rw [pageReleaseRef_refs page (toNat_ne_zero pos), h.size]
  rw [h.size] at pos
  by_cases hp : p = v / s₀.pgSize
  · rw [if_pos hp] at hc
    rw [if_pos hp, toNat_sub_one (hp ▸ pos)]
    omega
  · rw [if_neg hp] at hc
    rw [if_neg hp]
    omega

theorem Footing.write {S : ℕ → Prop} {s₀ s : Pager} {held : List (ℕ × ℕ)} {v x : ℕ}
    (h : Footing S s₀ held s) (hm : (v, x) ∈ held) (hv : S v) (w : Word) :
    Footing S s₀ held (writeMem x w s) := by
  refine ⟨h.holding.write, h.size, h.counted, fun y hy => ?_⟩
  rw [h.holding.write_view hm w, Function.update_of_ne]
  · exact h.view y hy
  · rintro rfl
    exact hy hv

theorem getWordref_touch {p : Seg} {a : ℤ} {t u : Store} {x : ℕ}
    (h : getWordref p a t = .ok (some x, u)) : 0 ≤ getGlobalAddress p a ∧
      touchPage t.ops (getGlobalAddress p a).toNat t.pager = .ok (some x, u.pager) := by
  rcases ite_ok.1 h with ⟨-, h⟩ | ⟨hg, h⟩
  · cases (Prod.mk.inj (pure_ok.1 h)).1
  · rw [get_bind] at h
    obtain ⟨y, hy, rfl⟩ := zoom_ok.1 h
    exact ⟨not_lt.1 hg, hy⟩

theorem getWordref_run {p : Seg} {a : ℤ} {s : Store} {r : Option ℕ} {u : Pager}
    (hg : 0 ≤ getGlobalAddress p a)
    (h : touchPage s.ops (getGlobalAddress p a).toNat s.pager = .ok (r, u)) :
    getWordref p a s = .ok (r, { s with pager := u }) := by
  rw [getWordref, if_neg (not_lt.2 hg), get_bind, onPager, zoom, h]

theorem getWordref_word {p : Seg} {a : ℤ} {s t : Store} {x : ℕ} (frames : Frames s.pager)
    (k : getWordref p a s = .ok (some x, t)) :
    t.pager.mem x = s.pager.view (getGlobalAddress p a).toNat := by
  have touched := touchPageBy_touched getRemovalPage_victims frames (getWordref_touch k).2
  rw [touched.addr, ← view_resident touched.resident, touched.view]

/-- A reference to a word of a resident page can be had, and shows the word in view. -/
theorem getWordref_resident {p : Seg} {a : ℤ} {u : Store} (hf : Frames u.pager)
    (hg : 0 ≤ getGlobalAddress p a)
    (hr : u.pager.resident ((getGlobalAddress p a).toNat / u.pager.pgSize)) :
    ∃ x w, getWordref p a u = .ok (some x, w) ∧ SameFrames u.pager w.pager ∧
      w.pager.mem x = u.pager.view (getGlobalAddress p a).toNat := by
  generalize he : (getGlobalAddress p a).toNat = g at hr
  have hp := (hf.frame _ hr).1
  have touch := touchPageBy_resident getRemovalPage u.ops (Nat.le_sub_one_of_lt hp) hr
  have same := updatePageInfo_sameFrames u.ops (g / u.pager.pgSize) u.pager
  rw [same.addr] at touch
  refine ⟨(u.pager.pgTable (g / u.pager.pgSize)).frameAddr + g % u.pager.pgSize,
    { u with pager := updatePageInfo u.ops (g / u.pager.pgSize) u.pager }, ?_, same, ?_⟩
  · rw [getWordref, if_neg (by omega), get_bind, he, onPager, zoom, touchPage, touch]
  · rw [view_resident hr]
    exact congrFun same.mem _

theorem getGlobalAddress_eq {p : Seg} {a : ℤ} (h : 0 ≤ getGlobalAddress p a) :
    getGlobalAddress p a = word2int p.br + a := by
  unfold getGlobalAddress at h ⊢
  split at h
  · omega
  · dsimp only at h ⊢
    split at h
    · omega
    · split at h
      · omega
      · rw [if_neg (by assumption), if_neg (by assumption), if_neg (by assumption)]

theorem getGlobalAddress_inj {p : Seg} {a b : ℤ} (h : 0 ≤ getGlobalAddress p a)
    (he : getGlobalAddress p a = getGlobalAddress p b) : a = b := by
  have ha := getGlobalAddress_eq h
  have hb := getGlobalAddress_eq (he ▸ h)
  omega

theorem reach_address {p : Seg} {a : ℤ} (h : 0 ≤ getGlobalAddress p a) :
    Reach p (getGlobalAddress p a).toNat := ⟨a, by omega⟩

theorem getWordref_footing {S : ℕ → Prop} {s₀ : Pager} {held : List (ℕ × ℕ)} {p : Seg} {a : ℤ}
    {s u : Store} {x : ℕ} (h : Footing S s₀ held s.pager) (slack : Slack 8 s₀)
    (len : held.length ≤ 6) (k : getWordref p a s = .ok (some x, u)) :
    0 ≤ getGlobalAddress p a ∧
      Footing S s₀ (((getGlobalAddress p a).toNat, x) :: held) u.pager := by
  obtain ⟨hg, ht⟩ := getWordref_touch k
  exact ⟨hg, h.take slack len ht⟩

theorem releaseWordref_pager {p : Seg} {a : ℤ} {s u : Store} {r : Unit}
    (hg : 0 ≤ getGlobalAddress p a) (k : releaseWordref p a s = .ok (r, u)) :
    u.pager = pageReleaseRef (getGlobalAddress p a).toNat s.pager := by
  rcases ite_ok.1 k with ⟨hn, -⟩ | ⟨-, k⟩
  · omega
  · obtain ⟨y, hy, rfl⟩ := zoom_ok.1 k
    obtain ⟨-, rfl⟩ := Prod.mk.inj (modify_ok.1 hy)
    rw [Int.toNat_of_nonneg hg]

theorem releaseWordref_footing {S : ℕ → Prop} {s₀ : Pager} {held : List (ℕ × ℕ)} {p : Seg}
    {a : ℤ} {s u : Store} {x : ℕ} {r : Unit} (hg : 0 ≤ getGlobalAddress p a)
    (h : Footing S s₀ (((getGlobalAddress p a).toNat, x) :: held) s.pager)
    (k : releaseWordref p a s = .ok (r, u)) : Footing S s₀ held u.pager := by
  rw [releaseWordref_pager hg k]
  exact h.drop

theorem deref_ok {x : ℕ} {s u : Store} {w : Word} (k : deref x s = .ok (w, u)) :
    u = s ∧ w = s.pager.mem x := (Prod.mk.inj (pure_ok.1 k)).symm

theorem assign_pager {x : ℕ} {w : Word} {s u : Store} {r : Unit}
    (k : assign x w s = .ok (r, u)) : u.pager = writeMem x w s.pager := by
  rw [assign, onPager, zoom_ok] at k
  obtain ⟨y, hy, rfl⟩ := k
  obtain ⟨-, rfl⟩ := Prod.mk.inj (modify_ok.1 hy)
  rfl

theorem pageStore_pager {p : Seg} {src : Word} {a : ℤ} {t u : Store}
    (h : pageStore p src a t = .ok (0, u)) : 0 ≤ getGlobalAddress p a ∧ u.pager =
      { t.pager with
        pageMem := Function.update t.pager.pageMem (getGlobalAddress p a).toNat src } := by
  rcases ite_ok.1 h with ⟨-, h⟩ | ⟨hg, h⟩
  · cases (Prod.mk.inj (pure_ok.1 h)).1
  · rcases ite_ok.1 h with ⟨-, h⟩ | ⟨-, h⟩
    · obtain ⟨c, x, hx, h⟩ := bind_ok.1 h
      obtain ⟨y, hy, rfl⟩ := zoom_ok.1 hx
      obtain ⟨-, rfl⟩ := Prod.mk.inj (modify_ok.1 hy)
      obtain ⟨-, rfl⟩ := Prod.mk.inj (pure_ok.1 h)
      exact ⟨not_lt.1 hg, rfl⟩
    · exact (fault_ok.1 h).elim

theorem view_store {s : Pager} {g x : ℕ} (hx : g ≠ x) (w : Word) :
    Pager.view { s with pageMem := Function.update s.pageMem x w } g = s.view g := by
  by_cases hr : s.resident (g / s.pgSize)
  · rw [view_resident (s := { s with pageMem := Function.update s.pageMem x w }) hr,
      view_resident hr]
  · rw [view_absent (s := { s with pageMem := Function.update s.pageMem x w }) hr,
      view_absent hr]
    exact Function.update_of_ne hx w s.pageMem

theorem Footing.store {S : ℕ → Prop} {s₀ s : Pager} {held : List (ℕ × ℕ)} {g : ℕ}
    (h : Footing S s₀ held s) (hg : S g) (w : Word) :
    Footing S s₀ held { s with pageMem := Function.update s.pageMem g w } := by
  have f := h.holding.frames
  refine ⟨⟨⟨f.size_pos, f.size_dvd, f.count, f.frame, f.apart⟩, h.holding.counted,
    h.holding.fixed⟩, h.size, h.counted, fun v hv => ?_⟩
  rw [view_store]
  · exact h.view v hv
  · rintro rfl
    exact hv hg

end BrainMachine.References
