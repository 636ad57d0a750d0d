import BrainMachine.ExecSteps
import BrainMachine.Rejections

set_option autoImplicit false

namespace BrainMachine.ExactArithmetic
open Codec Computations Paging AddressSpace Transparency Instructions Dispatch References
open Footprints ProcessImages ExecSteps Rejections

inductive Place where
  | register
  | stack
  deriving DecidableEq, Repr

def compute (place : Place) (op : Char) : Instruction :=
  match place with
  | .register => doRegisterOp op
  | .stack => stackOp op

def meaning (place : Place) (op : Char) (a : ℤ) (c : Image) : Option Image :=
  match place with
  | .register => registerOp op a c
  | .stack => stackWords op c

def arithmetic : Op → Option (Place × Char)
  | .AD => some (.register, '+') | .SU => some (.register, '-')
  | .MI => some (.register, '*') | .DI => some (.register, '/')
  | .AS => some (.stack, '+') | .SS => some (.stack, '-')
  | .MS => some (.stack, '*') | .DS => some (.stack, '/')
  | _ => none

def exactResult (op : Char) (i j : ℤ) : Option ℤ :=
  match op with
  | '+' => some (i + j)
  | '-' => some (i - j)
  | '*' => some (i * j)
  | '/' => if j = 0 then none else some (i.tdiv j)
  | _ => none

def operands (place : Place) (a : ℤ) (c : Image) : Option (Word × Word) :=
  match place with
  | .register => (c.get a).map fun w => (c.regs.r, w)
  | .stack => (c.get (word2int c.regs.sp)).bind fun top =>
      (c.get (word2int c.regs.sp - 1)).map fun next => (next, top)

def destination (place : Place) (c d : Image) : Word :=
  match place with
  | .register => d.regs.r
  | .stack => d.words (word2int c.regs.sp - 1).toNat

/-- If the instruction returns 0, the operands were numeric and the destination word is the
exact result. -/
def Exact (i : Instruction) (place : Place) (op : Char) (p : Seg) (a : ℤ) (c : Core) : Prop :=
  ∀ u, i p a c = .ok (0, u) → ∃ x y v, operands place a (image p c) = some (x, y) ∧
    word2int x ≠ -1 ∧ word2int y ≠ -1 ∧ exactResult op (word2int x) (word2int y) = some v ∧
    word2int (destination place (image p c) (image p u)) = v

def Served (place : Place) (p : Seg) (a : ℤ) (c : Core) : Prop :=
  match place with
  | .register => ∃ x t, getWordref p a c.store = .ok (some x, t)
  | .stack =>
    ¬UInt32.ofInt (word2int c.regs.sp) < c.regs.stackBase + 1 ∧ ∃ x s y t,
      getWordref p (word2int c.regs.sp) c.store = .ok (some x, s) ∧
      getWordref p (word2int c.regs.sp - 1) s = .ok (some y, t)

def FourDigits (place : Place) (op : Char) (a : ℤ) (c : Image) : Prop :=
  ∀ x y v, operands place a c = some (x, y) → word2int x ≠ -1 → word2int y ≠ -1 →
    exactResult op (word2int x) (word2int y) = some v → v ≤ 9999

theorem arithmetic_char {op : Op} {place : Place} {ch : Char}
    (hop : arithmetic op = some (place, ch)) : ch = '+' ∨ ch = '-' ∨ ch = '*' ∨ ch = '/' := by
  cases op <;> simp only [arithmetic, Option.some.injEq, Prod.mk.injEq, reduceCtorEq] at hop <;>
    simp [← hop.2]

theorem arithmetic_run {op : Op} {place : Place} {ch : Char} {i : Instruction}
    (hop : arithmetic op = some (place, ch)) (hi : op.instruction = some i) :
    i = compute place ch := by
  cases op <;> simp only [arithmetic, Option.some.injEq, Prod.mk.injEq, reduceCtorEq] at hop <;>
    obtain ⟨rfl, rfl⟩ := hop <;> exact (Option.some.inj hi).symm

theorem doBinop_exact {ch : Char} (hch : ch = '+' ∨ ch = '-' ∨ ch = '*' ∨ ch = '/') {x y : Word}
    (h : 0 ≤ doBinop x y ch) : word2int x ≠ -1 ∧ word2int y ≠ -1 ∧
      exactResult ch (word2int x) (word2int y) = some (doBinop x y ch) := by
  have numeric : ¬(word2int x = -1 ∨ word2int y = -1) := fun hn => by
    simp [doBinop, hn] at h
  refine ⟨fun hx => numeric (.inl hx), fun hy => numeric (.inr hy), ?_⟩
  unfold doBinop at h ⊢
  rw [if_neg numeric] at h ⊢
  rcases hch with rfl | rfl | rfl | rfl
  · rfl
  · simp only [exactResult] at h ⊢
    split at h
    · omega
    · rename_i hlt
      rw [if_neg hlt]
  · rfl
  · simp only [exactResult] at h ⊢
    split at h
    · omega
    · rename_i hz
      rw [if_neg hz, if_neg hz]

theorem exact_doBinop {ch : Char} (hch : ch = '+' ∨ ch = '-' ∨ ch = '*' ∨ ch = '/') {x y : Word}
    {v : ℤ} (hx : word2int x ≠ -1) (hy : word2int y ≠ -1)
    (h : exactResult ch (word2int x) (word2int y) = some v) (h0 : 0 ≤ v) :
    doBinop x y ch = v := by
  unfold doBinop
  rw [if_neg (not_or.2 ⟨hx, hy⟩)]
  rcases hch with rfl | rfl | rfl | rfl
  · exact Option.some.inj h
  · obtain rfl := Option.some.inj h
    exact if_neg (by omega)
  · exact Option.some.inj h
  · simp only [exactResult] at h ⊢
    split at h
    · cases h
    · rename_i hz
      rw [if_neg hz]
      exact Option.some.inj h

theorem meaning_result {place : Place} {ch : Char} {a : ℤ} {c d : Image}
    (h : meaning place ch a c = some d) : ∃ x y, operands place a c = some (x, y) ∧
      0 ≤ doBinop x y ch ∧ destination place c d = int2word (doBinop x y ch) := by
  cases place with
  | register =>
    obtain ⟨w, hw, h⟩ := Option.bind_eq_some_iff.1 h
    split at h
    · cases h
    · rename_i res
      obtain rfl := Option.some.inj h
      refine ⟨c.regs.r, w, ?_, not_lt.1 res, rfl⟩
      rw [operands, hw]
      rfl
  | stack =>
    simp only [meaning, stackWords] at h
    split at h
    · cases h
    · obtain ⟨top, ht, h⟩ := Option.bind_eq_some_iff.1 h
      obtain ⟨next, hn, h⟩ := Option.bind_eq_some_iff.1 h
      split at h
      · cases h
      · rename_i res
        refine ⟨next, top, ?_, not_lt.1 res, ?_⟩
        · simp only [operands, ht, hn]
          rfl
        · rw [Image.set] at h
          split at h
          · obtain rfl := Option.some.inj h
            exact Function.update_self _ _ _
          · cases h

theorem compute_refines (place : Place) (ch : Char) (p : Seg) (a : ℤ) :
    Refines p (compute place ch p a) (meaning place ch a) := by
  cases place with
  | register => exact registerOp_refines ch a
  | stack => exact stack_refines ch a

theorem exact_of_fourDigits {place : Place} {ch : Char}
    (hch : ch = '+' ∨ ch = '-' ∨ ch = '*' ∨ ch = '/') {p : Seg} {a : ℤ} {c : Core}
    (frames : Frames c.store.pager) (slack : Slack 8 c.store.pager)
    (h : FourDigits place ch a (image p c)) : Exact (compute place ch) place ch p a c := by
  intro u hu
  obtain ⟨done, -⟩ := compute_refines place ch p a c.store.pager [] c u slack (Nat.zero_le 4)
    (.start _ frames) hu
  obtain ⟨x, y, words, res, dest⟩ := meaning_result done
  obtain ⟨hx, hy, exact⟩ := doBinop_exact hch res
  refine ⟨x, y, _, words, hx, hy, exact, ?_⟩
  have small := h x y _ words hx hy exact
  obtain ⟨n, hn⟩ := Int.eq_ofNat_of_zero_le res
  rw [dest, hn, word2int_int2word]
  omega

theorem onStore_run {α : Type} {x : Exec Store α} {c : Core} {a : α} {t : Store}
    (h : x c.store = .ok (a, t)) : onStore x c = .ok (a, { c with store := t }) := by
  rw [onStore, zoom, h]

theorem onStore_deref (x : ℕ) (c : Core) :
    onStore (deref x) c = .ok (c.store.pager.mem x, c) := rfl

theorem onStore_release (p : Seg) (a : ℤ) (c : Core) :
    ∃ t, onStore (releaseWordref p a) c = .ok ((), { c with store := t }) ∧
      SameFrames c.store.pager t.pager := by
  obtain ⟨t, ht, same⟩ := releaseWordref_total p a c.store
  exact ⟨t, onStore_run ht, same⟩

theorem withWordref_run {p : Seg} {a : ℤ} {use : ℕ → Exec Core Unit} {c : Core} {x : ℕ} {t : Store}
    (k : getWordref p a c.store = .ok (some x, t)) (hu : ∀ d, ∃ u, use x d = .ok ((), u)) :
    ∃ u, withWordref p a use c = .ok (0, u) := by
  obtain ⟨d, hd⟩ := hu { c with store := t }
  obtain ⟨v, release, -⟩ := onStore_release p a d
  rw [withWordref, bind_of_ok (onStore_run k)]
  simp only [bind_of_ok hd, bind_of_ok release]
  exact ⟨_, rfl⟩

theorem register_served {p : Seg} {a : ℤ} {c : Core} (frames : Frames c.store.pager)
    (slack : Slack 8 c.store.pager) {x : ℕ} {t : Store}
    (k : getWordref p a c.store = .ok (some x, t)) (ch : Char) :
    ∃ w, (image p c).get a = some w ∧
      (0 ≤ doBinop c.regs.r w ch → ∃ u, doRegisterOp ch p a c = .ok (0, u)) := by
  obtain ⟨word, -, -, -⟩ := getWordref_image (.start _ frames) slack (Nat.zero_le 6) k
  refine ⟨_, word, fun res => ?_⟩
  obtain ⟨v, release, -⟩ := onStore_release p a { c with store := t }
  rw [doRegisterOp, bind_of_ok (onStore_run k)]
  simp only [bind_of_ok (onStore_deref x _), get_bind, if_neg (not_lt.2 res), bind_of_ok release]
  exact ⟨_, rfl⟩

theorem stack_served {p : Seg} {c : Core} (frames : Frames c.store.pager)
    (slack : Slack 8 c.store.pager) (hsp : ¬UInt32.ofInt (word2int c.regs.sp) < c.regs.stackBase + 1)
    {x y : ℕ} {s t : Store} (k : getWordref p (word2int c.regs.sp) c.store = .ok (some x, s))
    (k' : getWordref p (word2int c.regs.sp - 1) s = .ok (some y, t)) (ch : Char) (a : ℤ) :
    ∃ top next, (image p c).get (word2int c.regs.sp) = some top ∧
      (image p c).get (word2int c.regs.sp - 1) = some next ∧
      (0 ≤ doBinop next top ch → ∃ u, stackOp ch p a c = .ok (0, u)) := by
  obtain ⟨-, same, hg, foot⟩ := getWordref_image (.start _ frames) slack (Nat.zero_le 6) k
  obtain ⟨next, same', hg', foot'⟩ := getWordref_image (p := p) (c := { c with store := s }) foot
    slack (by rw [List.length_singleton]; omega) k'
  have top := word_image (c := { c with store := t }) foot' hg
    (List.mem_cons_of_mem _ List.mem_cons_self)
  rw [same', same] at top
  rw [same] at next
  refine ⟨_, _, top, next, fun res => ?_⟩
  obtain ⟨v, release, frames₁⟩ := onStore_release p (word2int c.regs.sp) { c with store := t }
  obtain ⟨w, release', frames₂⟩ := onStore_release p (word2int c.regs.sp - 1) { c with store := v }
  -- the page of the second reference is still there for the third one
  have resident : w.pager.resident
      ((getGlobalAddress p (word2int c.regs.sp - 1)).toNat / w.pager.pgSize) := by
    rw [frames₂.size, frames₁.size, Pager.resident, frames₂.valid, frames₁.valid]
    exact (foot'.holding.fixed _ List.mem_cons_self).1
  obtain ⟨z, q, third, -⟩ := getWordref_resident
    (frames₂.frames (frames₁.frames foot'.holding.frames)) hg' resident
  rw [stackOp, get_bind, if_neg hsp, bind_of_ok (onStore_run k),
    bind_of_ok (onStore_run (c := { c with store := s }) k')]
  simp only [bind_of_ok (onStore_deref _ _), bind_of_ok release, bind_of_ok release',
    if_neg (not_lt.2 res)]
  rw [setRegs, modify_bind]
  exact withWordref_run third fun d => ⟨_, rfl⟩

theorem served_of_ok {place : Place} {ch : Char} {p : Seg} {a : ℤ} {c u : Core}
    (k : compute place ch p a c = .ok (0, u)) : Served place p a c := by
  cases place with
  | register =>
    obtain ⟨x, s, hs, k⟩ := onStore_bind k
    cases x with
    | none => cases (Prod.mk.inj (pure_ok.1 k)).1
    | some x => exact ⟨x, s, hs⟩
  | stack =>
    simp only [compute, stackOp, get_bind] at k
    rcases ite_ok.1 k with ⟨-, k⟩ | ⟨hsp, k⟩
    · cases (Prod.mk.inj (pure_ok.1 k)).1
    · obtain ⟨x, s, hs, k⟩ := onStore_bind k
      obtain ⟨y, t, ht, k⟩ := onStore_bind k
      cases x with
      | none => cases (Prod.mk.inj (pure_ok.1 k)).1
      | some x =>
        cases y with
        | none => cases (Prod.mk.inj (pure_ok.1 k)).1
        | some y => exact ⟨hsp, x, s, y, t, hs, ht⟩

/-- With its operands served the instruction returns 0 when `do_binop` accepts them. -/
theorem compute_served {place : Place} {p : Seg} {a : ℤ} {c : Core} (frames : Frames c.store.pager)
    (slack : Slack 8 c.store.pager) (served : Served place p a c) {x y : Word} {ch : Char}
    (words : operands place a (image p c) = some (x, y)) (res : 0 ≤ doBinop x y ch) :
    ∃ u, compute place ch p a c = .ok (0, u) := by
  cases place with
  | register =>
    obtain ⟨z, t, k⟩ := served
    obtain ⟨w, word, run⟩ := register_served frames slack k ch
    rw [operands, word] at words
    obtain ⟨rfl, rfl⟩ := Prod.mk.inj (Option.some.inj words)
    exact run res
  | stack =>
    obtain ⟨hsp, z, s, z', t, k, k'⟩ := served
    obtain ⟨top, next, ht, hn, run⟩ := stack_served frames slack hsp k k' ch a
    have both : operands .stack a (image p c) = some (next, top) := by
      change ((image p c).get (word2int c.regs.sp)).bind _ = _
      rw [ht]
      change ((image p c).get (word2int c.regs.sp - 1)).map _ = _
      rw [hn]
      rfl
    rw [both] at words
    obtain ⟨rfl, rfl⟩ := Prod.mk.inj (Option.some.inj words)
    exact run res

theorem overflow_not_exact {place : Place} {ch : Char}
    (hch : ch = '+' ∨ ch = '-' ∨ ch = '*' ∨ ch = '/') {p : Seg} {a : ℤ} {c : Core}
    (frames : Frames c.store.pager) (slack : Slack 8 c.store.pager) (served : Served place p a c)
    {x y : Word} {v : ℤ} (words : operands place a (image p c) = some (x, y))
    (hx : word2int x ≠ -1) (hy : word2int y ≠ -1)
    (exact : exactResult ch (word2int x) (word2int y) = some v) (big : 9999 < v) :
    ¬Exact (compute place ch) place ch p a c := by
  intro h
  have res := exact_doBinop hch hx hy exact (by omega)
  obtain ⟨u, hu⟩ := compute_served frames slack served words (res ▸ show 0 ≤ v by omega)
  obtain ⟨x', y', v', words', -, -, exact', stored⟩ := h u hu
  obtain ⟨rfl, rfl⟩ := Prod.mk.inj (Option.some.inj (words.symm.trans words'))
  obtain rfl := Option.some.inj (exact.symm.trans exact')
  have bounds := word2int_bounds (destination place (image p c) (image p u))
  omega

/-- An arithmetic instruction never stores a wrong number, exactly when a result of numeric
operands that it has references to fits a word. -/
theorem exact_iff {op : Op} {place : Place} {ch : Char} {i : Instruction}
    (hop : arithmetic op = some (place, ch)) (hi : op.instruction = some i) (p : Seg) (a : ℤ)
    (c : Core) (frames : Frames c.store.pager) (slack : Slack 8 c.store.pager) :
    Exact i place ch p a c ↔ (Served place p a c → FourDigits place ch a (image p c)) := by
  have hch := arithmetic_char hop
  rw [arithmetic_run hop hi]
  constructor
  · intro h served x y v words hx hy exact
    by_contra big
    exact overflow_not_exact hch frames slack served words hx hy exact (by omega) h
  · intro h u hu
    exact exact_of_fourDigits hch frames slack (h (served_of_ok hu)) u hu

def carryCore : Core where
  regs := { r := ⟨57, 57, 57, 57⟩, sp := zeros, ic := (48, 48), c := 70, stackBase := 0 }
  store :=
    { pager := { onePage with pageMem := fun _ => ⟨48, 48, 48, 49⟩ }, ops := 0
      semTable := fun _ => 1, shm := fun _ => zeros, stdin := ⟨[], false⟩, stdout := [] }

def carrySeg : Seg := ⟨⟨48, 48, 48, 48⟩, ⟨48, 48, 57, 57⟩, 0⟩

theorem carry_frames : Frames carryCore.store.pager := by
  have f := pagememInit_frames 100 _ _ onePage_accepted
  exact ⟨f.size_pos, f.size_dvd, f.count, f.frame, f.apart⟩

theorem carry_slack : Slack 8 carryCore.store.pager := fun _ => by
  change (0 : UInt32).toNat + 8 < 4294967296
  decide

theorem carry_served : Served .register carrySeg 5 carryCore :=
  ⟨_, _, getWordref_run (by decide) rfl⟩

theorem carry_operands : operands .register 5 (image carrySeg carryCore) =
    some (⟨57, 57, 57, 57⟩, ⟨48, 48, 48, 49⟩) := rfl

theorem carry_sum :
    exactResult '+' (word2int ⟨57, 57, 57, 57⟩) (word2int ⟨48, 48, 48, 49⟩) = some 10000 := by
  decide

/-- 9999 - 1 fits a word, 9999 + 1 does not. -/
theorem carryCore_exact : Exact subtract .register '-' carrySeg 5 carryCore ∧
    ¬Exact add .register '+' carrySeg 5 carryCore := by
  have difference : arithmetic .SU = some (.register, '-') := rfl
  have sum : arithmetic .AD = some (.register, '+') := rfl
  constructor
  · refine (exact_iff difference rfl carrySeg 5 carryCore carry_frames carry_slack).2
      fun _ x y v words _ _ exact => ?_
    obtain ⟨rfl, rfl⟩ := Prod.mk.inj (Option.some.inj (carry_operands.symm.trans words))
    have less : exactResult '-' (word2int ⟨57, 57, 57, 57⟩) (word2int ⟨48, 48, 48, 49⟩) =
        some 9998 := by decide
    obtain rfl := Option.some.inj (less.symm.trans exact)
    decide
  · intro h
    have fits := (exact_iff sum rfl carrySeg 5 carryCore carry_frames carry_slack).1 h carry_served
    exact absurd (fits _ _ _ carry_operands (by decide) (by decide) carry_sum) (by decide)

/-- 9999 + 1 is stored as 0000. -/
theorem carryCore_not_exact : ∃ (p : Seg) (a : ℤ) (c : Core), Frames c.store.pager ∧
    Slack 8 c.store.pager ∧ ¬Exact add .register '+' p a c :=
  ⟨carrySeg, 5, carryCore, carry_frames, carry_slack, overflow_not_exact (.inl rfl) carry_frames
    carry_slack carry_served carry_operands (by decide) (by decide) carry_sum (by decide)⟩

end BrainMachine.ExactArithmetic
