import BrainMachine.FrameTable
import BrainMachine.ProcessImages

set_option autoImplicit false

namespace BrainMachine.Rejections
open Codec Computations Paging AddressSpace Transparency Instructions Dispatch References
open Footprints ProcessImages FrameTable

structure Placed (p : Seg) : Prop where
  base : 0 ≤ word2int p.br
  inside : word2int p.br + word2int p.lr < vaddrSize

/-- Where `x` does not return 0, `f` is undefined on the image and `g` gives what is left. -/
def Rejects (p : Seg) (x : Exec Core ℤ) (f : Image → Option Image) (g : Image → Image) : Prop :=
  ∀ (s₀ : Pager) (held : List (ℕ × ℕ)) (c u : Core) (r : ℤ), Slack 8 s₀ → held.length ≤ 4 →
    Footing (fun _ => True) s₀ held c.store.pager → x c = .ok (r, u) → r ≠ 0 →
    f (image p c) = none ∧ image p u = g (image p c)

section
variable {p : Seg}

theorem getWordref_null (hp : Placed p) {c : Core} {a : ℤ} {t : Store}
    (hs : Frames c.store.pager) (k : getWordref p a c.store = .ok (none, t)) :
    (image p c).get a = none ∧ t = c.store := by
  by_cases hg : getGlobalAddress p a < 0
  · rcases ite_ok.1 k with ⟨-, k⟩ | ⟨hn, -⟩
    · refine ⟨if_neg fun h => ?_, (Prod.mk.inj (pure_ok.1 k)).2⟩
      rw [address_of_range hp.base h.1 h.2] at hg
      have base := hp.base
      omega
    · exact absurd hg hn
  · obtain ⟨-, -, hl, eq⟩ := address_range (not_lt.1 hg)
    have inside := hp.inside
    rcases ite_ok.1 k with ⟨hn, -⟩ | ⟨-, k⟩
    · exact absurd hn hg
    · rw [get_bind] at k
      obtain ⟨y, hy, -⟩ := zoom_ok.1 k
      obtain ⟨x, hx⟩ := touchPage_answers hs (by omega) hy
      cases hx

theorem withWordref_rejects (hp : Placed p) {a : ℤ} {use : ℕ → Exec Core Unit}
    {f : Image → Option Image} (hf : ∀ d, d.get a = none → f d = none) :
    Rejects p (withWordref p a use) f id := by
  intro s₀ held c u r slack len foot k hr
  obtain ⟨x, s, hs, k⟩ := onStore_bind k
  cases x with
  | none =>
    obtain ⟨none, rfl⟩ := getWordref_null hp foot.holding.frames hs
    obtain ⟨-, rfl⟩ := Prod.mk.inj (pure_ok.1 k)
    exact ⟨hf _ none, rfl⟩
  | some x =>
    obtain ⟨_, d, hd, k⟩ := bind_ok.1 k
    obtain ⟨_, d', hd', k⟩ := bind_ok.1 k
    exact absurd (Prod.mk.inj (pure_ok.1 k)).1 hr

theorem loadAll_rejects (hp : Placed p) (a : ℤ) :
    Rejects p (loadAll p a) (load (fun w g => { g with r := w }) a) id :=
  withWordref_rejects hp fun d hd => by rw [load, hd]; rfl

theorem registerOp_rejects (hp : Placed p) (op : Char) (a : ℤ) :
    Rejects p (doRegisterOp op p a) (registerOp op a) id := by
  intro s₀ held c u r slack len foot k hr
  obtain ⟨x, s, hs, k⟩ := onStore_bind k
  cases x with
  | none =>
    obtain ⟨none, rfl⟩ := getWordref_null hp foot.holding.frames hs
    obtain ⟨-, rfl⟩ := Prod.mk.inj (pure_ok.1 k)
    rw [registerOp, none]
    exact ⟨rfl, rfl⟩
  | some x =>
    obtain ⟨word, same, hg, foot⟩ := getWordref_image foot slack (by omega) hs
    obtain ⟨w, t, ht, k⟩ := onStore_bind k
    obtain ⟨rfl, rfl⟩ := deref_ok ht
    rw [get_bind] at k
    rcases ite_ok.1 k with ⟨res, k⟩ | ⟨-, k⟩
    · obtain ⟨-, rfl⟩ := Prod.mk.inj (pure_ok.1 k)
      refine ⟨?_, same⟩
      rw [registerOp, word]
      exact if_pos res
    · obtain ⟨_, d, hd, k⟩ := bind_ok.1 k
      obtain ⟨_, d', hd', k⟩ := bind_ok.1 k
      exact absurd (Prod.mk.inj (pure_ok.1 k)).1 hr

def pushLeft (c : Image) : Image :=
  if word2int c.regs.sp = -1 then c
  else c.setRegs fun g => { g with sp := int2word (word2int c.regs.sp + 1) }

theorem push_rejects (hp : Placed p) (a : ℤ) : Rejects p (push p a) pushWord pushLeft := by
  intro s₀ held c u r slack len foot k hr
  rw [push, get_bind] at k
  rcases ite_ok.1 k with ⟨hsp, k⟩ | ⟨hsp, k⟩
  · obtain ⟨-, rfl⟩ := Prod.mk.inj (pure_ok.1 k)
    exact ⟨if_pos hsp, (if_pos hsp).symm⟩
  · obtain ⟨_, d, hd, k⟩ := bind_ok.1 k
    have sets (b : Image) (hb : b.get (word2int c.regs.sp + 1) = none) (w : Word) :
        b.set (word2int c.regs.sp + 1) w = none := by
      rw [Image.get] at hb
      rw [Image.set]
      split at hb
      · cases hb
      · rename_i h
        exact if_neg h
    have left := withWordref_rejects hp (f := fun b => b.set (word2int c.regs.sp + 1) b.regs.r)
      (fun b hb => sets b hb _) s₀ held d u r slack len (by rw [setRegs_store hd]; exact foot) k hr
    obtain rfl := setRegs_ok hd
    refine ⟨(if_neg hsp).trans left.1, left.2.trans ?_⟩
    rw [pushLeft]
    exact (if_neg hsp).symm

theorem pop_rejects (hp : Placed p) (a : ℤ) : Rejects p (pop p a) popWord id := by
  intro s₀ held c u r slack len foot k hr
  rw [pop, get_bind] at k
  rcases ite_ok.1 k with ⟨hsp, k⟩ | ⟨hsp, k⟩
  · exact absurd (Prod.mk.inj (pure_ok.1 k)).1 hr
  · obtain ⟨x, s, hs, k⟩ := onStore_bind k
    cases x with
    | none =>
      obtain ⟨none, rfl⟩ := getWordref_null hp foot.holding.frames hs
      obtain ⟨-, rfl⟩ := Prod.mk.inj (pure_ok.1 k)
      refine ⟨(if_neg hsp).trans ?_, rfl⟩
      change ((image p c).get (word2int c.regs.sp)).map _ = _
      rw [none]
      rfl
    | some x =>
      obtain ⟨_, d, hd, k⟩ := bind_ok.1 k
      obtain ⟨_, d, hd, k⟩ := bind_ok.1 k
      obtain ⟨_, d, hd, k⟩ := bind_ok.1 k
      obtain ⟨_, d, hd, k⟩ := bind_ok.1 k
      exact absurd (Prod.mk.inj (pure_ok.1 k)).1 hr

theorem stack_rejects (hp : Placed p) (op : Char) (a : ℤ) :
    Rejects p (stackOp op p a) (stackWords op) id := by
  intro s₀ held c u r slack len foot k hr
  rw [stackOp, get_bind] at k
  rcases ite_ok.1 k with ⟨hsp, k⟩ | ⟨hsp, k⟩
  · obtain ⟨-, rfl⟩ := Prod.mk.inj (pure_ok.1 k)
    exact ⟨if_pos hsp, rfl⟩
  · obtain ⟨x, s, hs, k⟩ := onStore_bind k
    obtain ⟨y, t, ht, k⟩ := onStore_bind k
    -- with a word missing nothing is left but the reference to the other one
    have missing (topless : (image p c).get (word2int c.regs.sp) = none ∨
        (image p c).get (word2int c.regs.sp - 1) = none) :
        stackWords op (image p c) = none := by
      rw [stackWords]
      refine (if_neg hsp).trans ?_
      change ((image p c).get (word2int c.regs.sp)).bind _ = _
      cases hx : (image p c).get (word2int c.regs.sp) with
      | none => rfl
      | some top =>
        have hy := topless.resolve_left (by rw [hx]; exact Option.some_ne_none top)
        change ((image p c).get (word2int c.regs.sp - 1)).bind _ = _
        rw [hy]
        rfl
    cases x with
    | none =>
      obtain ⟨none, rfl⟩ := getWordref_null hp foot.holding.frames hs
      obtain ⟨-, rfl⟩ := Prod.mk.inj (pure_ok.1 k)
      refine ⟨missing (.inl none), ?_⟩
      cases y with
      | none =>
        obtain ⟨-, rfl⟩ := getWordref_null hp foot.holding.frames ht
        rfl
      | some y => exact (getWordref_image foot slack (by omega) ht).2.1
    | some x =>
      obtain ⟨-, same, hg, foot₁⟩ := getWordref_image foot slack (by omega) hs
      cases y with
      | none =>
        obtain ⟨none, rfl⟩ := getWordref_null (c := { c with store := s }) hp
          foot₁.holding.frames ht
        rw [same] at none
        obtain ⟨-, rfl⟩ := Prod.mk.inj (pure_ok.1 k)
        exact ⟨missing (.inr none), same⟩
      | some y =>
        obtain ⟨w, w', v, top, next, all, foot, k⟩ := operands_image foot slack len hs ht k
        rcases ite_ok.1 k with ⟨res, k⟩ | ⟨-, k⟩
        · obtain ⟨-, rfl⟩ := Prod.mk.inj (pure_ok.1 k)
          refine ⟨?_, all⟩
          rw [stackWords_some (c := image p c) hsp top next]
          exact if_pos res
        · -- the word below the top had a reference before
          obtain ⟨_, d, hd, k⟩ := bind_ok.1 k
          have lost := withWordref_rejects hp (fun b hb => Option.map_eq_none_iff.2 hb)
            (f := fun b => (b.get (word2int c.regs.sp - 1)).map fun _ => b) s₀ held d u r slack len
            (by rw [setRegs_store hd]; exact foot) k hr
          obtain rfl := setRegs_ok hd
          have found : (image p { c with store := v }).get (word2int c.regs.sp - 1) = none :=
            Option.map_eq_none_iff.1 lost.1
          rw [all, next] at found
          cases found

end
end BrainMachine.Rejections
