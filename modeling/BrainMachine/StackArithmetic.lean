import BrainMachine.StackImages

set_option autoImplicit false

namespace BrainMachine.StackArithmetic
open Codec Computations Paging AddressSpace Transparency Instructions References
open Footprints ProcessImages Rejections StackImages

/-- The instructions one after the other, up to the first one that does not return 0. -/
def inTurn : List (Exec Core ℤ) → Exec Core ℤ
  | [] => pure 0
  | x :: xs => do
    let r ← x
    if r = 0 then inTurn xs else pure r

def viaStack (op : Char) (x : ℤ) (p : Seg) : Exec Core ℤ :=
  inTurn [push p 0, loadAll p x, push p 0, stackOp op p 0, pop p 0]

def through : List (Image → Option Image) → Image → Option Image
  | [], c => some c
  | f :: fs, c => (f c).bind (through fs)

/-- The computation returns 0 where `f` is defined on the image, and then does what `f` does. -/
def Decides (p : Seg) (x : Exec Core ℤ) (f : Image → Option Image) : Prop :=
  ∀ (s₀ : Pager) (held : List (ℕ × ℕ)) (c u : Core) (r : ℤ), Slack 8 s₀ → held.length ≤ 4 →
    Footing (fun _ => True) s₀ held c.store.pager → x c = .ok (r, u) →
    (r = 0 → f (image p c) = some (image p u) ∧ Footing (fun _ => True) s₀ held u.store.pager) ∧
    (r ≠ 0 → f (image p c) = none)

section
variable {p : Seg}

theorem Decides.of {x : Exec Core ℤ} {f : Image → Option Image} {g : Image → Image}
    (h : Refines p x f) (k : Rejects p x f g) : Decides p x f := by
  intro s₀ held c u r slack len foot run
  refine ⟨fun hr => ?_, fun hr => (k s₀ held c u r slack len foot run hr).1⟩
  rw [hr] at run
  exact h s₀ held c u slack len foot run

theorem inTurn_decides {xs : List (Exec Core ℤ)} {fs : List (Image → Option Image)}
    (h : List.Forall₂ (Decides p) xs fs) : Decides p (inTurn xs) (through fs) := by
  induction h with
  | nil =>
    intro s₀ held c u r slack len foot run
    obtain ⟨rfl, rfl⟩ := Prod.mk.inj (pure_ok.1 run)
    exact ⟨fun _ => ⟨rfl, foot⟩, fun hr => absurd rfl hr⟩
  | cons hx _ ih =>
    intro s₀ held c u r slack len foot run
    obtain ⟨r₁, d, hd, run⟩ := bind_ok.1 run
    obtain ⟨first, failed⟩ := hx s₀ held c d r₁ slack len foot hd
    rcases ite_ok.1 run with ⟨h0, run⟩ | ⟨hn, run⟩
    · obtain ⟨eq, foot⟩ := first h0
      rw [through, eq]
      exact ih s₀ held d u r slack len foot run
    · obtain ⟨rfl, rfl⟩ := Prod.mk.inj (pure_ok.1 run)
      refine ⟨fun h0 => absurd h0 hn, fun _ => ?_⟩
      rw [through, failed hn]
      rfl

theorem inTurn_tame {xs : List (Exec Core ℤ)} (h : ∀ x ∈ xs, Tame p x) : Tame p (inTurn xs) := by
  induction xs with
  | nil => exact (keeps_pure 0).tame p
  | cons x xs ih =>
    intro S s₀ held c u reach slack len foot run
    obtain ⟨r, d, hd, run⟩ := bind_ok.1 run
    rcases ite_ok.1 run with ⟨rfl, run⟩ | ⟨hn, run⟩
    · have foot := h x List.mem_cons_self S s₀ held c d reach slack len foot hd
      exact ih (fun y hy => h y (List.mem_cons_of_mem _ hy)) S s₀ held d u reach slack len foot run
    · exact absurd (Prod.mk.inj (pure_ok.1 run)).1.symm hn

def viaImage (op : Char) (x : ℤ) : Image → Option Image :=
  through [pushWord, load (fun w g => { g with r := w }) x, pushWord, stackWords op, popWord]

theorem viaStack_decides (hp : Placed p) (op : Char) (x : ℤ) :
    Decides p (viaStack op x p) (viaImage op x) := by
  apply inTurn_decides
  refine .cons (.of (push_refines 0) (push_rejects hp 0)) (.cons ?_
    (.cons (.of (push_refines 0) (push_rejects hp 0))
      (.cons (.of (stack_refines op 0) (stack_rejects hp op 0))
        (.cons (.of (pop_refines 0) (pop_rejects hp 0)) .nil))))
  exact .of (withWordref_refines (load_handles fun w g => { g with r := w })) (loadAll_rejects hp x)

theorem viaStack_tame (op : Char) (x : ℤ) : Tame p (viaStack op x p) := by
  apply inTurn_tame
  intro y hy
  simp only [List.mem_cons, List.not_mem_nil, or_false] at hy
  rcases hy with rfl | rfl | rfl | rfl | rfl
  · exact push_tame p 0
  · exact loadAll_tame p x
  · exact push_tame p 0
  · exact stackOp_tame op p 0
  · exact pop_tame p 0

end

/-- The detour computes what the register operation computes, and fills two words. -/
theorem viaImage_eq (op : Char) {x n : ℤ} {c : Image} (hsp : word2int c.regs.sp = n) (h0 : 0 ≤ n)
    (hb : c.regs.stackBase.toNat ≤ n) (hl : n + 2 ≤ c.limit) (hn : n + 2 ≤ 9997)
    (hx : 0 ≤ x ∧ x ≤ c.limit) (hne : x ≠ n + 1) :
    viaImage op x c = (registerOp op x c).map fun d => { d with
      words := Function.update (Function.update (Function.update c.words (n + 1).toNat c.regs.r)
        (n + 2).toNat (c.words x.toNat)) (n + 1).toNat d.regs.r } := by
  have one : word2int (int2word (n + 1)) = n + 1 := word2int_digits (by omega) (by omega)
  have two : word2int (int2word (n + 2)) = n + 2 := word2int_digits (by omega) (by omega)
  have back : int2word n = c.regs.sp := by rw [← hsp, int2word_word2int (by omega)]
  have apart : (n + 1).toNat ≠ (n + 2).toNat := by omega
  let w := c.words x.toNat
  let res := doBinop c.regs.r w op
  let words₁ := Function.update c.words (n + 1).toNat c.regs.r
  let words₂ := Function.update words₁ (n + 2).toNat w
  let c₁ : Image := { c with regs := { c.regs with sp := int2word (n + 1) }, words := words₁ }
  let c₂ : Image := { c₁ with regs := { c₁.regs with r := w } }
  let c₃ : Image := { c₂ with regs := { c₂.regs with sp := int2word (n + 2) }, words := words₂ }
  let c₄ : Image := { c₃ with
    regs := { c₃.regs with sp := int2word (n + 1) }
    words := Function.update words₂ (n + 1).toNat (int2word res) }
  have first : pushWord c = some c₁ := pushWord_eq hsp h0 (by omega)
  have second : load (fun w g => { g with r := w }) x c₁ = some c₂ := by
    have word : c₁.get x = some w := by
      refine (if_pos hx).trans ?_
      exact congrArg some (Function.update_of_ne (by omega) _ _)
    rw [load, word]
    rfl
  have third : pushWord c₂ = some c₃ := by
    have next : n + 1 + 1 = n + 2 := by omega
    have push := pushWord_eq (c := c₂) one (by omega) (by rw [next]; exact hl)
    rwa [next] at push
  have fourth : stackWords op c₃ = if res < 0 then none else some c₄ := by
    have below : n + 2 - 1 = n + 1 := by omega
    have top : c₃.words (n + 2).toNat = w := Function.update_self _ _ _
    have next : c₃.words (n + 1).toNat = c.regs.r :=
      (Function.update_of_ne apart _ _).trans (Function.update_self _ _ _)
    have step := stackWords_eq (c := c₃) op two (by change (c.regs.stackBase.toNat : ℤ) < _; omega) hl
    rwa [below, top, next] at step
  have fifth : popWord c₄ = some { c₄ with
      regs := { c.regs with r := int2word res } } := by
    have pop := popWord_eq (c := c₄) one (by change (c.regs.stackBase.toNat : ℤ) < _; omega)
      (by change n + 1 ≤ c.limit; omega)
    have top : c₄.words (n + 1).toNat = int2word res := Function.update_self _ _ _
    rw [top, Int.add_sub_cancel, back] at pop
    exact pop
  have register : registerOp op x c =
      if res < 0 then none else some (c.setRegs fun g => { g with r := int2word res }) := by
    rw [registerOp, Image.get, if_pos hx]
    rfl
  rw [register]
  simp only [viaImage, through, first, second, third, fourth, Option.bind_some]
  split
  · rfl
  · simp only [Option.bind_some, fifth]
    rfl

theorem registerOp_words {op : Char} {x : ℤ} {c d : Image} (h : registerOp op x c = some d) :
    d.words = c.words := by
  obtain ⟨w, -, h⟩ := Option.bind_eq_some_iff.1 h
  split at h
  · cases h
  · rw [← Option.some.inj h]
    rfl

/-- The memory references of the two runs all succeed: the words of the process are in the
virtual address space, the pager finds a frame for each of them, and counts each of them. -/
structure Referable (op : Char) (p : Seg) (x : ℤ) (c : Core) : Prop where
  placed : Placed p
  frames : Frames c.store.pager
  counted : Slack 8 c.store.pager
  stack : ∃ r u, viaStack op x p c = .ok (r, u)
  register : ∃ r v, doRegisterOp op p x c = .ok (r, v)

/-- From the same state the five instructions return 0 exactly when the register instruction
does, and then leave the same registers and the same words but for the two above the stack. -/
theorem stack_register_agree (op : Char) (p : Seg) (x n : ℤ) (c : Core)
    (refs : Referable op p x c) (hsp : word2int c.regs.sp = n) (h0 : 0 ≤ n)
    (hb : c.regs.stackBase.toNat ≤ n) (hl : n + 2 ≤ word2int p.lr) (hn : n + 2 ≤ 9997)
    (hx : 0 ≤ x ∧ x ≤ word2int p.lr) (hne : x ≠ n + 1) :
    ((∃ u, viaStack op x p c = .ok (0, u)) ↔ ∃ v, doRegisterOp op p x c = .ok (0, v)) ∧
    ∀ u v, viaStack op x p c = .ok (0, u) → doRegisterOp op p x c = .ok (0, v) →
      u.regs.r = v.regs.r ∧ u.regs.sp = v.regs.sp ∧ u.regs.stackBase = v.regs.stackBase ∧
      u.regs.c = v.regs.c ∧ ∀ g : ℕ, (g : ℤ) ≠ word2int p.br + (n + 1) →
        (g : ℤ) ≠ word2int p.br + (n + 2) → u.store.pager.view g = v.store.pager.view g := by
  obtain ⟨hp, frames, slack, runs, runs'⟩ := refs
  have foot := Footing.start (fun _ => True) frames
  have detour := viaImage_eq op (c := image p c) hsp h0 hb hl hn hx hne
  have register : Decides p (doRegisterOp op p x) (registerOp op x) :=
    .of (registerOp_refines op x) (registerOp_rejects hp op x)
  have stack := viaStack_decides hp op x
  refine ⟨⟨fun ⟨u, hu⟩ => ?_, fun ⟨v, hv⟩ => ?_⟩, fun u v hu hv => ?_⟩
  · obtain ⟨r, v, hv⟩ := runs'
    have done := ((stack _ [] c u 0 slack (Nat.zero_le 4) foot hu).1 rfl).1
    by_cases hr : r = 0
    · exact ⟨v, by rw [hv, hr]⟩
    · rw [detour, (register _ [] c v r slack (Nat.zero_le 4) foot hv).2 hr] at done
      cases done
  · obtain ⟨r, u, hu⟩ := runs
    have done := ((register _ [] c v 0 slack (Nat.zero_le 4) foot hv).1 rfl).1
    by_cases hr : r = 0
    · exact ⟨u, by rw [hu, hr]⟩
    · have failed := (stack _ [] c u r slack (Nat.zero_le 4) foot hu).2 hr
      rw [detour, done] at failed
      cases failed
  · have done := ((stack _ [] c u 0 slack (Nat.zero_le 4) foot hu).1 rfl).1
    have done' := ((register _ [] c v 0 slack (Nat.zero_le 4) foot hv).1 rfl).1
    rw [detour, done'] at done
    have same := (Option.some.inj done).symm
    have regs : u.regs = v.regs := congrArg Image.regs same
    refine ⟨by rw [regs], by rw [regs], by rw [regs], by rw [regs], fun g h₁ h₂ => ?_⟩
    by_cases reach : Reach p g
    · obtain ⟨a, ha⟩ := reach
      obtain ⟨base, ha0, hal, eq⟩ := address_range (p := p) (a := a) (by omega)
      have nat : g = (word2int p.br).toNat + a.toNat := by omega
      have words := congrFun (congrArg Image.words same) a.toNat
      dsimp only at words
      rw [Function.update_of_ne (by omega), Function.update_of_ne (by omega),
        Function.update_of_ne (by omega), ← registerOp_words done'] at words
      have inside : (a.toNat : ℤ) ≤ word2int p.lr := by omega
      simp only [image, if_pos inside] at words
      rw [nat]
      exact words
    · have kept := Footing.start (Reach p) frames
      have after := viaStack_tame op x _ _ [] c u (fun _ h => h) slack (Nat.zero_le 4) kept hu
      have after' := doRegisterOp_tame op p x _ _ [] c v (fun _ h => h) slack (Nat.zero_le 4) kept hv
      rw [after.view g reach, after'.view g reach]

/-- The stack pointer 0010 over the base 5 in one page of ones, with 0002 in the register. -/
def tenthCore : Core where
  regs := { r := ⟨48, 48, 48, 50⟩, sp := ⟨48, 48, 49, 48⟩, ic := (48, 48), c := 70, stackBase := 5 }
  store :=
    { pager := { onePage with pageMem := fun _ => ⟨48, 48, 48, 49⟩ }, ops := 0
      semTable := fun _ => 1, shm := fun _ => zeros, stdin := ⟨[], false⟩, stdout := [] }

def pageSeg : Seg := ⟨⟨48, 48, 48, 48⟩, ⟨48, 48, 57, 57⟩, 0⟩

theorem tenth_runs : ∃ r u, viaStack '-' 12 pageSeg tenthCore = .ok (r, u) :=
  ⟨0, _, ok_of_result (0, tenthCore) (by decide +kernel)⟩

theorem tenth_referable : Referable '-' pageSeg 12 tenthCore := by
  have f := pagememInit_frames 100 _ _ onePage_accepted
  refine ⟨⟨by decide, by decide⟩, ⟨f.size_pos, f.size_dvd, f.count, f.frame, f.apart⟩,
    fun _ => ?_, tenth_runs, ⟨_, _, rfl⟩⟩
  change (0 : UInt32).toNat + 8 < 4294967296
  decide

theorem tenthCore_agree :
    (∃ u, viaStack '-' 12 pageSeg tenthCore = .ok (0, u)) ↔
      ∃ v, doRegisterOp '-' pageSeg 12 tenthCore = .ok (0, v) :=
  (stack_register_agree '-' pageSeg 12 10 tenthCore tenth_referable (by decide) (by decide)
    (by decide) (by decide) (by decide) (by decide) (by decide)).1

end BrainMachine.StackArithmetic
