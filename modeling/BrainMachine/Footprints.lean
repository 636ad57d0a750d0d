import BrainMachine.Dispatch
import BrainMachine.References

set_option autoImplicit false

namespace BrainMachine.Footprints
open Codec Computations Paging Stdio AddressSpace Transparency Instructions Dispatch References

theorem onStore_ok {α : Type} {x : Exec Store α} {c u : Core} {a : α}
    (h : onStore x c = .ok (a, u)) : ∃ t, x c.store = .ok (a, t) ∧ u = { c with store := t } :=
  zoom_ok.1 h

theorem onStore_bind {α β : Type} {x : Exec Store α} {f : α → Exec Core β} {c : Core}
    {r : β × Core} (h : (onStore x >>= f) c = .ok r) :
    ∃ a t, x c.store = .ok (a, t) ∧ f a { c with store := t } = .ok r := by
  obtain ⟨a, u, hx, hf⟩ := bind_ok.1 h
  obtain ⟨t, ht, rfl⟩ := onStore_ok hx
  exact ⟨a, t, ht, hf⟩

theorem setRegs_store {f : Regs → Regs} {c u : Core} {r : Unit} (h : setRegs f c = .ok (r, u)) :
    u.store = c.store := by
  obtain ⟨-, rfl⟩ := Prod.mk.inj (modify_ok.1 h)
  rfl

/-- The instruction keeps the footing of any computation that may write what `p` can refer to. -/
def Tame (p : Seg) (x : Exec Core ℤ) : Prop :=
  ∀ (S : ℕ → Prop) (s₀ : Pager) (held : List (ℕ × ℕ)) (c u : Core), (∀ v, Reach p v → S v) →
    Slack 8 s₀ → held.length ≤ 4 → Footing S s₀ held c.store.pager → x c = .ok (0, u) →
    Footing S s₀ held u.store.pager

def KeepsPager {α : Type} (x : Exec Core α) : Prop :=
  ∀ c u a, x c = .ok (a, u) → u.store.pager = c.store.pager

theorem KeepsPager.tame {x : Exec Core ℤ} (h : KeepsPager x) (p : Seg) : Tame p x := by
  intro S s₀ held c u _ _ _ foot k
  rw [h c u 0 k]
  exact foot

structure Uses (x : ℕ) (f : Exec Core Unit) : Prop where
  done : ∀ c u, f c = .ok ((), u) →
    u.store.pager = c.store.pager ∨ ∃ w, u.store.pager = writeMem x w c.store.pager

theorem withWordref_tame {p : Seg} {addr : ℤ} {use : ℕ → Exec Core Unit}
    (hu : ∀ x, Uses x (use x)) : Tame p (withWordref p addr use) := by
  intro S s₀ held c u reach slack len foot k
  obtain ⟨a, s, hs, k⟩ := onStore_bind k
  cases a with
  | none => cases (Prod.mk.inj (pure_ok.1 k)).1
  | some a =>
    obtain ⟨hg, foot⟩ := getWordref_footing foot slack (by omega) hs
    obtain ⟨_, d, hd, k⟩ := bind_ok.1 k
    obtain ⟨_, t, ht, k⟩ := onStore_bind k
    obtain ⟨-, rfl⟩ := Prod.mk.inj (pure_ok.1 k)
    refine releaseWordref_footing (x := a) hg ?_ ht
    rcases (hu a).done _ d hd with he | ⟨w, he⟩
    · rw [he]
      exact foot
    · rw [he]
      exact foot.write List.mem_cons_self (reach _ (reach_address hg)) w

theorem uses_of_keeps {x : ℕ} {f : Exec Core Unit} (h : KeepsPager f) : Uses x f :=
  ⟨fun c u k => .inl (h c u _ k)⟩

theorem keeps_load (x : ℕ) (f : Word → Regs → Regs) : KeepsPager (do
    let w ← onStore (deref x)
    setRegs (f w)) := by
  intro c u a k
  obtain ⟨w, s, hs, k⟩ := onStore_bind k
  obtain ⟨rfl, -⟩ := deref_ok hs
  rw [setRegs_store k]

theorem loadAll_tame (p : Seg) (a : ℤ) : Tame p (loadAll p a) :=
  withWordref_tame fun x => uses_of_keeps (keeps_load x fun w g => { g with r := w })

theorem loadLow_tame (p : Seg) (a : ℤ) : Tame p (loadLow p a) :=
  withWordref_tame fun x => uses_of_keeps
    (keeps_load x fun w g => { g with r := ⟨g.r.b0, g.r.b1, w.b2, w.b3⟩ })

theorem loadHigh_tame (p : Seg) (a : ℤ) : Tame p (loadHigh p a) :=
  withWordref_tame fun x => uses_of_keeps
    (keeps_load x fun w g => { g with r := ⟨w.b0, w.b1, g.r.b2, g.r.b3⟩ })

theorem storeWord_uses (x : ℕ) (w : Word) : Uses x (onStore (assign x w)) := by
  refine ⟨fun c u k => ?_⟩
  obtain ⟨s, hs, rfl⟩ := onStore_ok k
  exact .inr ⟨w, assign_pager hs⟩

theorem storeRegister_tame (p : Seg) (a : ℤ) : Tame p (storeRegister p a) := by
  refine withWordref_tame fun x => ⟨fun c u k => ?_⟩
  rw [get_bind] at k
  exact (storeWord_uses x c.regs.r).done c u k

theorem keeps_compare (x : ℕ) (f : Word → Word → Bool) : KeepsPager (do
    let w ← onStore (deref x)
    let s ← get
    setFlag (f s.regs.r w)) := by
  intro c u a k
  obtain ⟨w, s, hs, k⟩ := onStore_bind k
  obtain ⟨rfl, -⟩ := deref_ok hs
  rw [get_bind] at k
  rw [setRegs_store k]

theorem cmpEql_tame (p : Seg) (a : ℤ) : Tame p (cmpEql p a) :=
  withWordref_tame fun x => uses_of_keeps (keeps_compare x fun v w => decide (v = w))

theorem cmpLess_tame (p : Seg) (a : ℤ) : Tame p (cmpLess p a) :=
  withWordref_tame fun x => uses_of_keeps (keeps_compare x wordLess)

theorem keeps_setRegs (f : Regs → Regs) : KeepsPager (do
    setRegs f
    pure (0 : ℤ)) := by
  intro c u a k
  obtain ⟨_, d, hd, k⟩ := bind_ok.1 k
  obtain ⟨-, rfl⟩ := Prod.mk.inj (pure_ok.1 k)
  rw [setRegs_store hd]

theorem keeps_pure (r : ℤ) : KeepsPager (pure r) := by
  intro c u a k
  obtain ⟨-, rfl⟩ := Prod.mk.inj (pure_ok.1 k)
  rfl

theorem jmpIf_tame (p : Seg) (a : ℤ) : Tame p (jmpIf p a) := by
  refine KeepsPager.tame (fun c u r k => ?_) p
  rw [jmpIf, get_bind] at k
  rcases ite_ok.1 k with ⟨-, k⟩ | ⟨-, k⟩
  · exact keeps_setRegs _ c u r k
  · exact keeps_pure 0 c u r k

theorem doRegisterOp_tame (op : Char) (p : Seg) (a : ℤ) : Tame p (doRegisterOp op p a) := by
  intro S s₀ held c u reach slack len foot k
  obtain ⟨x, s, hs, k⟩ := onStore_bind k
  cases x with
  | none => cases (Prod.mk.inj (pure_ok.1 k)).1
  | some x =>
    obtain ⟨hg, foot⟩ := getWordref_footing foot slack (by omega) hs
    obtain ⟨w, t, ht, k⟩ := onStore_bind k
    obtain ⟨rfl, -⟩ := deref_ok ht
    rw [get_bind] at k
    rcases ite_ok.1 k with ⟨-, k⟩ | ⟨-, k⟩
    · cases (Prod.mk.inj (pure_ok.1 k)).1
    · obtain ⟨_, y, hy, k⟩ := onStore_bind k
      obtain ⟨_, d, hd, k⟩ := bind_ok.1 k
      obtain ⟨-, rfl⟩ := Prod.mk.inj (pure_ok.1 k)
      rw [setRegs_store hd]
      exact releaseWordref_footing hg foot hy

theorem push_tame (p : Seg) (a : ℤ) : Tame p (push p a) := by
  intro S s₀ held c u reach slack len foot k
  rw [push, get_bind] at k
  rcases ite_ok.1 k with ⟨-, k⟩ | ⟨-, k⟩
  · cases (Prod.mk.inj (pure_ok.1 k)).1
  · obtain ⟨_, d, hd, k⟩ := bind_ok.1 k
    refine withWordref_tame (fun x => ⟨fun c u k => ?_⟩) S s₀ held d u reach slack len ?_ k
    · rw [get_bind] at k
      exact (storeWord_uses x c.regs.r).done c u k
    · rw [setRegs_store hd]
      exact foot

theorem pop_tame (p : Seg) (a : ℤ) : Tame p (pop p a) := by
  intro S s₀ held c u reach slack len foot k
  rw [pop, get_bind] at k
  rcases ite_ok.1 k with ⟨-, k⟩ | ⟨-, k⟩
  · obtain ⟨-, rfl⟩ := Prod.mk.inj (pure_ok.1 k)
    exact foot
  · obtain ⟨x, s, hs, k⟩ := onStore_bind k
    cases x with
    | none => cases (Prod.mk.inj (pure_ok.1 k)).1
    | some x =>
      obtain ⟨hg, foot⟩ := getWordref_footing foot slack (by omega) hs
      obtain ⟨w, t, ht, k⟩ := onStore_bind k
      obtain ⟨rfl, -⟩ := deref_ok ht
      obtain ⟨_, d, hd, k⟩ := bind_ok.1 k
      obtain ⟨_, y, hy, k⟩ := onStore_bind k
      obtain ⟨_, d'', hd'', k⟩ := bind_ok.1 k
      obtain ⟨-, rfl⟩ := Prod.mk.inj (pure_ok.1 k)
      rw [setRegs_store hd'']
      have same : d.store = t := setRegs_store hd
      rw [← same] at foot
      exact releaseWordref_footing hg foot hy

/-- Two references are held at once and given back in the order they were taken. -/
theorem stackOp_tame (op : Char) (p : Seg) (a : ℤ) : Tame p (stackOp op p a) := by
  intro S s₀ held c u reach slack len foot k
  rw [stackOp, get_bind] at k
  rcases ite_ok.1 k with ⟨-, k⟩ | ⟨-, k⟩
  · cases (Prod.mk.inj (pure_ok.1 k)).1
  · obtain ⟨x, s, hs, k⟩ := onStore_bind k
    obtain ⟨y, t, ht, k⟩ := onStore_bind k
    cases x with
    | none => cases (Prod.mk.inj (pure_ok.1 k)).1
    | some x =>
      cases y with
      | none => cases (Prod.mk.inj (pure_ok.1 k)).1
      | some y =>
        obtain ⟨hg, foot⟩ := getWordref_footing foot slack (by omega) hs
        obtain ⟨hg', foot⟩ := getWordref_footing foot slack
          (by rw [List.length_cons]; omega) ht
        obtain ⟨w, s, hs, k⟩ := onStore_bind k
        obtain ⟨rfl, -⟩ := deref_ok hs
        obtain ⟨w', s, hs, k⟩ := onStore_bind k
        obtain ⟨rfl, -⟩ := deref_ok hs
        obtain ⟨_, s, hs, k⟩ := onStore_bind k
        have foot := releaseWordref_footing hg foot.swap hs
        obtain ⟨_, s, hs, k⟩ := onStore_bind k
        have foot := releaseWordref_footing hg' foot hs
        rcases ite_ok.1 k with ⟨-, k⟩ | ⟨-, k⟩
        · cases (Prod.mk.inj (pure_ok.1 k)).1
        · obtain ⟨_, d, hd, k⟩ := bind_ok.1 k
          refine withWordref_tame (fun x => storeWord_uses x _) S s₀ held d u reach slack len ?_ k
          rw [setRegs_store hd]
          exact foot

theorem loop_tame {p : Seg} {body : ℕ → Exec Core ℤ} (hb : ∀ i, Tame p (body i)) (n : ℕ) :
    Tame p (loopFrom body n 0) := by
  intro S s₀ held c u reach slack len foot k
  exact loopFrom_ok (fun _ c => Footing S s₀ held c.store.pager)
    (fun j c u _ _ foot k => hb j S s₀ held c u reach slack len foot k) foot k

theorem keeps_putchars (cs : List UInt8) : KeepsPager (onStore (putchars cs)) := by
  intro c u a k
  obtain ⟨s, hs, rfl⟩ := onStore_ok k
  obtain ⟨-, rfl⟩ := Prod.mk.inj (modify_ok.1 hs)
  rfl

theorem print_tame (p : Seg) (a : ℤ) : Tame p (print p a) := by
  refine loop_tame (fun i => withWordref_tame fun x => uses_of_keeps fun c u r k => ?_) 10
  obtain ⟨w, s, hs, k⟩ := onStore_bind k
  obtain ⟨rfl, -⟩ := deref_ok hs
  exact keeps_putchars _ _ u r k

theorem keeps_nextWord : KeepsPager (onStore nextWord) := by
  intro c u a k
  obtain ⟨s, hs, rfl⟩ := onStore_ok k
  rw [nextWord, get_bind] at hs
  obtain ⟨-, rfl⟩ := Prod.mk.inj (pure_ok.1 hs)
  rfl

theorem read_tame (p : Seg) (a : ℤ) : Tame p (read p a) := by
  refine loop_tame (fun i => ?_) 10
  intro S s₀ held c u reach slack len foot k
  obtain ⟨w, d, hd, k⟩ := bind_ok.1 k
  rw [← keeps_nextWord c d w hd] at foot
  rw [get_bind] at k
  rcases ite_ok.1 k with ⟨-, k⟩ | ⟨-, k⟩
  · cases (Prod.mk.inj (pure_ok.1 k)).1
  · rcases ite_ok.1 k with ⟨-, k⟩ | ⟨-, k⟩
    · cases (Prod.mk.inj (pure_ok.1 k)).1
    · exact withWordref_tame (fun x => storeWord_uses x w) S s₀ held d u reach slack len foot k

theorem keeps_semSet (sem : ℤ) (val : UInt32) : KeepsPager (onStore (semSet sem val)) := by
  intro c u a k
  obtain ⟨s, hs, rfl⟩ := onStore_ok k
  rcases ite_ok.1 hs with ⟨-, hs⟩ | ⟨-, hs⟩
  · obtain ⟨-, rfl⟩ := Prod.mk.inj (pure_ok.1 hs)
    rfl
  · obtain ⟨-, rfl⟩ := Prod.mk.inj (pure_ok.1 hs)
    rfl

theorem setSem_tame (p : Seg) (a : ℤ) : Tame p (setSem p a) := by
  refine KeepsPager.tame (fun c u r k => ?_) p
  rw [setSem, get_bind] at k
  rcases ite_ok.1 k with ⟨-, k⟩ | ⟨-, k⟩
  · exact keeps_pure 1 c u r k
  · rcases ite_ok.1 k with ⟨-, k⟩ | ⟨-, k⟩
    · exact keeps_pure 1 c u r k
    · obtain ⟨b, d, hd, k⟩ := bind_ok.1 k
      rw [← keeps_semSet _ _ c d b hd]
      rcases ite_ok.1 k with ⟨-, k⟩ | ⟨-, k⟩
      · exact keeps_pure 1 d u r k
      · exact keeps_pure 0 d u r k

theorem loadShared_tame (p : Seg) (a : ℤ) : Tame p (loadShared p a) := by
  refine KeepsPager.tame (fun c u r k => ?_) p
  rw [loadShared] at k
  cases h : getShmp a with
  | none =>
    rw [h] at k
    exact keeps_pure 1 c u r k
  | some x =>
    rw [h] at k
    exact keeps_setRegs (fun g => { g with r := c.store.shm x }) c u r k

theorem storeShared_tame (p : Seg) (a : ℤ) : Tame p (storeShared p a) := by
  refine KeepsPager.tame (fun c u r k => ?_) p
  rw [storeShared] at k
  cases h : getShmp a with
  | none =>
    rw [h] at k
    exact keeps_pure 1 c u r k
  | some x =>
    simp only [h, get_bind] at k
    obtain ⟨_, s, hs, k⟩ := onStore_bind k
    obtain ⟨-, rfl⟩ := Prod.mk.inj (modify_ok.1 hs)
    obtain ⟨-, rfl⟩ := Prod.mk.inj (pure_ok.1 k)
    rfl

theorem instruction_tame {op : Op} {i : Instruction} (h : op.instruction = some i) (p : Seg)
    (a : ℤ) : Tame p (i p a) := by
  cases op <;> simp only [Op.instruction, Option.some.injEq, reduceCtorEq] at h <;> subst h
  case LR => exact loadAll_tame p a
  case LL => exact loadLow_tame p a
  case LH => exact loadHigh_tame p a
  case SR => exact storeRegister_tame p a
  case SP => exact (keeps_setRegs _).tame p
  case PS => exact (keeps_setRegs _).tame p
  case PH => exact push_tame p a
  case PP => exact pop_tame p a
  case CE => exact cmpEql_tame p a
  case CL => exact cmpLess_tame p a
  case BT => exact jmpIf_tame p a
  case BU => exact (keeps_setRegs _).tame p
  case GD => exact read_tame p a
  case PD => exact print_tame p a
  case AD => exact doRegisterOp_tame _ p a
  case SU => exact doRegisterOp_tame _ p a
  case MI => exact doRegisterOp_tame _ p a
  case DI => exact doRegisterOp_tame _ p a
  case AS => exact stackOp_tame _ p a
  case SS => exact stackOp_tame _ p a
  case MS => exact stackOp_tame _ p a
  case DS => exact stackOp_tame _ p a
  case NP => exact (keeps_pure 0).tame p
  case SI => exact setSem_tame p a
  case LS => exact loadShared_tame p a
  case ST => exact storeShared_tame p a
  case GP => exact (keeps_setRegs _).tame p

/-- One turn of a copying loop: both references, the copy, both releases. -/
theorem copy_footing {S : ℕ → Prop} {s₀ : Pager} {held : List (ℕ × ℕ)} {p q : Seg} {a b : ℤ}
    {s t u w r o : Store} {x y : ℕ} {i j k : Unit} (foot : Footing S s₀ held s.pager)
    (slack : Slack 8 s₀) (len : held.length ≤ 4) (reach : ∀ v, Reach q v → S v)
    (hx : getWordref p a s = .ok (some x, t)) (hy : getWordref q b t = .ok (some y, u))
    (hw : assign y (u.pager.mem x) u = .ok (i, w)) (hr : releaseWordref p a w = .ok (j, r))
    (ho : releaseWordref q b r = .ok (k, o)) :
    0 ≤ getGlobalAddress p a ∧ 0 ≤ getGlobalAddress q b ∧ Footing S s₀ held o.pager ∧
      o.pager.view = Function.update s.pager.view (getGlobalAddress q b).toNat
        (s.pager.view (getGlobalAddress p a).toNat) := by
  obtain ⟨hp, foot₁⟩ := getWordref_footing foot slack (by omega) hx
  obtain ⟨hq, foot₂⟩ := getWordref_footing foot₁ slack (by rw [List.length_cons]; omega) hy
  have view₁ := (touchPageBy_touched getRemovalPage_victims foot.holding.frames
    (getWordref_touch hx).2).view
  have view₂ := (touchPageBy_touched getRemovalPage_victims foot₁.holding.frames
    (getWordref_touch hy).2).view
  have foot₃ := foot₂.write List.mem_cons_self (reach _ (reach_address hq)) (u.pager.mem x)
  have view₃ := foot₂.holding.write_view List.mem_cons_self (u.pager.mem x)
  rw [← assign_pager hw] at foot₃ view₃
  have foot₄ := releaseWordref_footing hp foot₃.swap hr
  refine ⟨hp, hq, releaseWordref_footing hq foot₄ ho, ?_⟩
  have word : u.pager.mem x = s.pager.view (getGlobalAddress p a).toNat := by
    rw [foot₂.holding.read_view (List.mem_cons_of_mem _ List.mem_cons_self), view₂, view₁]
  funext v
  rw [releaseWordref_pager hq ho, (pageReleaseRef_sameFrames _ _).view,
    releaseWordref_pager hp hr, (pageReleaseRef_sameFrames _ _).view, view₃, word]
  by_cases hv : v = (getGlobalAddress q b).toNat
  · rw [hv, Function.update_self, Function.update_self]
  · rw [Function.update_of_ne hv, Function.update_of_ne hv, view₂, view₁]

structure Copied (S : ℕ → Prop) (s₀ : Pager) (held : List (ℕ × ℕ)) (p q : Seg) (l r : ℤ)
    (s : Pager) (i : ℕ) (c : Pager) : Prop where
  foot : Footing S s₀ held c
  valid : ∀ j : ℕ, j < i → 0 ≤ getGlobalAddress p (l + j) ∧ 0 ≤ getGlobalAddress q (r + j)
  frame : ∀ v, ¬Reach q v → c.view v = s.view v
  words : (∀ v, Reach p v → ¬Reach q v) → ∀ j : ℕ, j < i →
    c.view (getGlobalAddress q (r + j)).toNat = s.view (getGlobalAddress p (l + j)).toNat

theorem Copied.turn {S : ℕ → Prop} {s₀ s c d : Pager} {held : List (ℕ × ℕ)} {p q : Seg} {l r : ℤ}
    {i : ℕ} (h : Copied S s₀ held p q l r s i c) (hp : 0 ≤ getGlobalAddress p (l + i))
    (hq : 0 ≤ getGlobalAddress q (r + i)) (foot : Footing S s₀ held d)
    (view : d.view = Function.update c.view (getGlobalAddress q (r + i)).toNat
      (c.view (getGlobalAddress p (l + i)).toNat)) : Copied S s₀ held p q l r s (i + 1) d := by
  refine ⟨foot, fun j hj => ?_, fun v hv => ?_, fun apart j hj => ?_⟩
  · rcases Nat.lt_succ_iff_lt_or_eq.1 hj with hj | rfl
    · exact h.valid j hj
    · exact ⟨hp, hq⟩
  · rw [view, Function.update_of_ne]
    · exact h.frame v hv
    · rintro rfl
      exact hv (reach_address hq)
  · rw [view]
    rcases Nat.lt_succ_iff_lt_or_eq.1 hj with hj | rfl
    · rw [Function.update_of_ne]
      · exact h.words apart j hj
      · intro he
        have hg : getGlobalAddress q (r + j) = getGlobalAddress q (r + i) := by
          have := (h.valid j hj).2
          omega
        have := getGlobalAddress_inj (h.valid j hj).2 hg
        omega
    · rw [Function.update_self]
      exact h.frame _ (apart _ (reach_address hp))

/-- The words of the sender are read, and written to those of the receiver, one by one. -/
theorem xferWords_copied {S : ℕ → Prop} {s₀ : Pager} {held : List (ℕ × ℕ)} {p q : Seg} {l r : ℤ}
    {s u : Store} (foot : Footing S s₀ held s.pager) (slack : Slack 8 s₀)
    (len : held.length ≤ 4) (reach : ∀ v, Reach q v → S v)
    (k : xferWords p q l r s = .ok (0, u)) : Copied S s₀ held p q l r s.pager 10 u.pager := by
  refine loopFrom_ok (fun i c => Copied S s₀ held p q l r s.pager i c.pager)
    (fun i c d _ _ copied k => ?_)
    ⟨foot, fun j hj => absurd hj (Nat.not_lt_zero j), fun _ _ => rfl,
      fun _ j hj => absurd hj (Nat.not_lt_zero j)⟩ k
  obtain ⟨x, t, ht, k⟩ := bind_ok.1 k
  cases x with
  | none => cases (Prod.mk.inj (pure_ok.1 k)).1
  | some x =>
    obtain ⟨y, w, hw, k⟩ := bind_ok.1 k
    cases y with
    | none => cases (Prod.mk.inj (pure_ok.1 k)).1
    | some y =>
      obtain ⟨v, w', hv, k⟩ := bind_ok.1 k
      obtain ⟨rfl, rfl⟩ := deref_ok hv
      obtain ⟨_, w₁, h₁, k⟩ := bind_ok.1 k
      obtain ⟨_, w₂, h₂, k⟩ := bind_ok.1 k
      obtain ⟨_, w₃, h₃, k⟩ := bind_ok.1 k
      obtain ⟨-, rfl⟩ := Prod.mk.inj (pure_ok.1 k)
      obtain ⟨hp, hq, foot, view⟩ := copy_footing copied.foot slack len reach ht hw h₁ h₂ h₃
      exact copied.turn hp hq foot view

section
variable {α : Type} (src dst : ℕ → ℕ) (f : ℕ → α)

/-- What a loop makes of `f` that copies cell `src i` to cell `dst i` for one `i` after the other,
and so reads what it has written itself where the cells overlap. -/
def copyCells : ℕ → ℕ → α
  | 0 => f
  | n + 1 => Function.update (copyCells n) (dst n) (copyCells n (src n))

variable {src dst f} (owned : ℕ → Prop)

theorem copyCells_kept {n : ℕ} (sources : ∀ i < n, owned (src i))
    (distinct : ∀ i < n, ∀ j < n, dst i = dst j → i = j)
    (same : ∀ i < n, owned (dst i) → f (dst i) = f (src i)) :
    (∀ v, owned v → copyCells src dst f n v = f v) ∧
      ∀ i < n, copyCells src dst f n (dst i) = f (src i) := by
  induction n with
  | zero => exact ⟨fun v _ => rfl, fun i hi => absurd hi (Nat.not_lt_zero i)⟩
  | succ n ih =>
    obtain ⟨kept, copied⟩ := ih (fun i hi => sources i (by omega))
      (fun i hi j hj => distinct i (by omega) j (by omega)) (fun i hi => same i (by omega))
    have word : copyCells src dst f n (src n) = f (src n) := kept _ (sources n (by omega))
    constructor
    · intro v hv
      rw [copyCells, word]
      by_cases hd : v = dst n
      · subst hd
        rw [Function.update_self]
        exact (same n (by omega) hv).symm
      · rw [Function.update_of_ne hd]
        exact kept v hv
    · intro i hi
      rw [copyCells, word]
      by_cases hn : i = n
      · rw [hn, Function.update_self]
      · have apart : dst i ≠ dst n := fun hd => hn (distinct i hi n (by omega) hd)
        rw [Function.update_of_ne apart]
        exact copied i (by omega)

/-- The owned cells are kept and the others become copies exactly when every owned cell that is
written holds already what is written to it. -/
theorem copyCells_iff {n : ℕ} (sources : ∀ i < n, owned (src i))
    (distinct : ∀ i < n, ∀ j < n, dst i = dst j → i = j) :
    ((∀ v, owned v → copyCells src dst f n v = f v) ∧
      ∀ i < n, copyCells src dst f n (dst i) = f (src i)) ↔
      ∀ i < n, owned (dst i) → f (dst i) = f (src i) := by
  constructor
  · rintro ⟨kept, copied⟩ i hi hd
    rw [← kept _ hd, copied i hi]
  · exact copyCells_kept owned sources distinct

end

/-- The words of a process are copied one by one, up to the shorter of the two limits. -/
theorem dupMem_run {S : ℕ → Prop} {s₀ : Pager} {held : List (ℕ × ℕ)} {p q : Seg} {s u : Store}
    (foot : Footing S s₀ held s.pager) (slack : Slack 8 s₀) (len : held.length ≤ 4)
    (reach : ∀ v, Reach q v → S v) (k : dupMem p q s = .ok (0, u)) :
    Footing S s₀ held u.pager ∧
      u.pager.view = copyCells (fun c => (getGlobalAddress p c).toNat)
        (fun c => (getGlobalAddress q c).toNat) s.pager.view
        (min (word2int p.lr + 1) (word2int q.lr + 1)).toNat ∧
      ∀ c < (min (word2int p.lr + 1) (word2int q.lr + 1)).toNat,
        0 ≤ getGlobalAddress p c ∧ 0 ≤ getGlobalAddress q c := by
  have done := loopFrom_ok (fun i (d : Store) => Footing S s₀ held d.pager ∧
    d.pager.view = copyCells (fun c => (getGlobalAddress p c).toNat)
      (fun c => (getGlobalAddress q c).toNat) s.pager.view i ∧
    ∀ c : ℕ, c < i → 0 ≤ getGlobalAddress p c ∧ 0 ≤ getGlobalAddress q c)
    (fun i c d _ _ inv k => ?_) ⟨foot, rfl, fun c hc => absurd hc (Nat.not_lt_zero c)⟩ k
  · rw [Nat.zero_add] at done
    exact done
  · obtain ⟨foot, view, valid⟩ := inv
    obtain ⟨x, t, ht, k⟩ := bind_ok.1 k
    obtain ⟨y, w, hw, k⟩ := bind_ok.1 k
    cases x with
    | none => cases (Prod.mk.inj (pure_ok.1 k)).1
    | some x =>
      cases y with
      | none => cases (Prod.mk.inj (pure_ok.1 k)).1
      | some y =>
        obtain ⟨v, w', hv, k⟩ := bind_ok.1 k
        obtain ⟨rfl, rfl⟩ := deref_ok hv
        obtain ⟨_, w₁, h₁, k⟩ := bind_ok.1 k
        obtain ⟨_, w₂, h₂, k⟩ := bind_ok.1 k
        obtain ⟨_, w₃, h₃, k⟩ := bind_ok.1 k
        obtain ⟨-, rfl⟩ := Prod.mk.inj (pure_ok.1 k)
        obtain ⟨hp, hq, foot, view'⟩ := copy_footing foot slack len reach ht hw h₁ h₂ h₃
        refine ⟨foot, ?_, fun c hc => ?_⟩
        · rw [view', view]
          rfl
        · rcases Nat.lt_succ_iff_lt_or_eq.1 hc with hc | rfl
          · exact valid c hc
          · exact ⟨hp, hq⟩

end BrainMachine.Footprints
