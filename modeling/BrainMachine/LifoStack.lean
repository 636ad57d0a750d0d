import BrainMachine.ExactArithmetic
import BrainMachine.StackArithmetic

set_option autoImplicit false

namespace BrainMachine.LifoStack
open Codec Computations Paging AddressSpace Transparency Instructions Dispatch References Runs
open Footprints ProcessImages Rejections StackImages StackArithmetic HoleList

inductive Call where
  | push
  | pop
  | compute (op : Char)
  deriving DecidableEq, Repr

def callOf : Op → Option Call
  | .PH => some .push | .PP => some .pop
  | .AS => some (.compute '+') | .SS => some (.compute '-')
  | .MS => some (.compute '*') | .DS => some (.compute '/')
  | _ => none

def Call.run : Call → Instruction
  | .push => Instructions.push
  | .pop => Instructions.pop
  | .compute op => stackOp op

def Call.meaning : Call → Image → Option Image
  | .push => pushWord
  | .pop => popWord
  | .compute op => stackWords op

theorem callOf_run {op : Op} {k : Call} (h : callOf op = some k) :
    op.instruction = some k.run := by
  cases op <;> simp only [callOf, Option.some.injEq, reduceCtorEq] at h <;> subst h <;> rfl

def Call.next : Call → Word → List Word → List Word
  | .push, r, l => r :: l
  | .pop, _, l => l.tail
  | .compute op, _, top :: next :: l =>
    if doBinop next top op < 0 then top :: next :: l
    else int2word (doBinop next top op) :: l
  | .compute _, _, l => l

def Shows (words : ℕ → Word) (b : ℕ) : List Word → Prop
  | [] => True
  | w :: l => words (b + l.length + 1) = w ∧ Shows words b l

theorem Shows.congr {words words' : ℕ → Word} {b : ℕ} {l : List Word} (h : Shows words b l)
    (same : ∀ a, b < a → a ≤ b + l.length → words' a = words a) : Shows words' b l := by
  induction l with
  | nil => trivial
  | cons w l ih =>
    rw [List.length_cons] at same
    exact ⟨(same _ (by omega) (by omega)).trans h.1, ih h.2 fun a ha hl => same a ha (by omega)⟩

structure Represents (b : ℕ) (c : Image) (l : List Word) : Prop where
  base : c.regs.stackBase.toNat = b
  numeric : b < 10000
  pointer : word2int c.regs.sp = b + l.length
  inside : l ≠ [] → (b + l.length : ℤ) ≤ c.limit
  limit : c.limit < 10000
  shows : Shows c.words b l

/-- What a call makes of an image with that stack, written down with the stack alone. -/
def Call.result (b : ℕ) : Call → List Word → Image → Option Image
  | .push, l, c => some { c with
      regs := { c.regs with sp := int2word (b + l.length + 1 : ℕ) }
      words := Function.update c.words (b + l.length + 1) c.regs.r }
  | .pop, [], c => some c
  | .pop, w :: l, c => some { c with
      regs := { c.regs with r := w, sp := int2word (b + l.length : ℕ) } }
  | .compute op, top :: next :: l, c =>
    if doBinop next top op < 0 then none
    else some { c with
      regs := { c.regs with sp := int2word (b + l.length + 1 : ℕ) }
      words := Function.update c.words (b + l.length + 1) (int2word (doBinop next top op)) }
  | .compute _, _, _ => none

section
variable {b : ℕ} {c : Image} {l : List Word}

theorem Represents.result (h : Represents b c l) (k : Call)
    (room : k = .push → (b + l.length + 1 : ℤ) ≤ c.limit)
    (two : ∀ op, k = .compute op → l.length ≠ 1) : k.meaning c = k.result b l c := by
  have hb := h.base
  have hn := h.numeric
  cases k with
  | push =>
    have hl := room rfl
    rw [Call.meaning, pushWord_eq h.pointer (by omega) hl]
    rfl
  | pop =>
    cases l with
    | nil => exact popWord_empty (n := b) (by simpa using h.pointer) (by omega) (by omega)
    | cons w l =>
      have hl := h.inside (List.cons_ne_nil w l)
      rw [List.length_cons] at hl
      have sp := h.pointer
      rw [List.length_cons] at sp
      rw [Call.meaning, popWord_eq sp (by omega) (by omega)]
      have top : c.words (b + ((l.length + 1 : ℕ) : ℤ)).toNat = w := by
        rw [← h.shows.1]
        congr 1
      have less : (b + ((l.length + 1 : ℕ) : ℤ) - 1) = ((b + l.length : ℕ) : ℤ) := by omega
      rw [top, less]
      rfl
  | compute op =>
    cases l with
    | nil =>
      have empty : word2int c.regs.sp = b := by simpa using h.pointer
      exact stackWords_empty op empty (by omega) (by omega) (by omega)
    | cons w l =>
      cases l with
      | nil => exact absurd rfl (two op rfl)
      | cons v l =>
        have hl := h.inside (List.cons_ne_nil w _)
        have sp := h.pointer
        simp only [List.length_cons] at hl sp
        rw [Call.meaning, stackWords_eq op sp (by omega) (by omega)]
        have top : c.words (b + ((l.length + 1 + 1 : ℕ) : ℤ)).toNat = w := by
          rw [← h.shows.1]
          congr 1
        have less : (b + ((l.length + 1 + 1 : ℕ) : ℤ) - 1) = ((b + l.length + 1 : ℕ) : ℤ) := by omega
        have next : c.words ((b + l.length + 1 : ℕ) : ℤ).toNat = v := h.shows.2.1
        rw [less, top, next]
        rfl

theorem sp_digits {n : ℕ} (h : n < 10000) : word2int (int2word (n : ℕ)) = n :=
  word2int_digits (by omega) (by omega)

theorem Represents.next (h : Represents b c l) {k : Call} {d : Image}
    (room : k = .push → (b + l.length + 1 : ℤ) ≤ c.limit) (hd : k.result b l c = some d) :
    Represents b d (k.next c.regs.r l) := by
  have hb := h.numeric
  have hlim := h.limit
  cases k with
  | push =>
    have hl := room rfl
    obtain rfl := Option.some.inj hd
    have shows : Shows (Function.update c.words (b + l.length + 1) c.regs.r) b l :=
      h.shows.congr fun a _ ha => Function.update_of_ne (by omega) _ _
    refine ⟨h.base, hb, ?_, fun _ => hl, hlim, Function.update_self _ _ _, shows⟩
    exact (sp_digits (by omega)).trans (by rw [Call.next, List.length_cons]; omega)
  | pop =>
    cases l with
    | nil =>
      obtain rfl := Option.some.inj hd
      exact h
    | cons w l =>
      have hl := h.inside (List.cons_ne_nil w l)
      rw [List.length_cons] at hl
      obtain rfl := Option.some.inj hd
      refine ⟨h.base, hb, ?_, fun _ => ?_, hlim, h.shows.2⟩
      · exact (sp_digits (by omega)).trans (by rw [Call.next, List.tail_cons]; omega)
      · rw [Call.next, List.tail_cons]
        change (b + l.length : ℤ) ≤ c.limit
        omega
  | compute op =>
    match l with
    | [] => cases hd
    | [_] => cases hd
    | top :: next :: l =>
      have hl := h.inside (List.cons_ne_nil top _)
      simp only [List.length_cons] at hl
      rw [Call.result] at hd
      split at hd
      · cases hd
      · rename_i res
        obtain rfl := Option.some.inj hd
        rw [Call.next, if_neg res]
        have shows : Shows (Function.update c.words (b + l.length + 1)
            (int2word (doBinop next top op))) b l :=
          h.shows.2.2.congr fun a _ ha => Function.update_of_ne (by omega) _ _
        refine ⟨h.base, hb, ?_, fun _ => ?_, hlim, Function.update_self _ _ _, shows⟩
        · exact (sp_digits (by omega)).trans (by rw [List.length_cons]; omega)
        · rw [List.length_cons]
          change (b + ((l.length + 1 : ℕ) : ℤ)) ≤ c.limit
          omega

theorem Call.result_below {k : Call} {d : Image} (hd : k.result b l c = some d) {a : ℕ}
    (ha : a ≤ b) : d.words a = c.words a := by
  cases k with
  | push =>
    obtain rfl := Option.some.inj hd
    exact Function.update_of_ne (by omega) _ _
  | pop =>
    cases l with
    | nil =>
      obtain rfl := Option.some.inj hd
      rfl
    | cons w l =>
      obtain rfl := Option.some.inj hd
      rfl
  | compute op =>
    match l with
    | [] => cases hd
    | [_] => cases hd
    | top :: next :: l =>
      rw [Call.result] at hd
      split at hd
      · cases hd
      · obtain rfl := Option.some.inj hd
        exact Function.update_of_ne (by omega) _ _

structure Above (b : ℕ) (c d : Image) : Prop where
  regs : d.regs = c.regs
  limit : d.limit = c.limit
  words : ∀ a, b < a → d.words a = c.words a

theorem Above.update {d : Image} (h : Above b c d) (regs : Regs) (i : ℕ) (w : Word) :
    Above b { c with regs := regs, words := Function.update c.words i w }
      { d with regs := regs, words := Function.update d.words i w } := by
  refine ⟨rfl, h.limit, fun a ha => ?_⟩
  by_cases hi : a = i
  · simp [hi]
  · simp [hi, h.words a ha]

/-- What a call does to the words above the base does not depend on the others. -/
theorem Above.result {d : Image} (h : Above b c d) (k : Call) :
    (∃ e f, k.result b l c = some e ∧ k.result b l d = some f ∧ Above b e f) ∨
      k.result b l c = none ∧ k.result b l d = none := by
  cases k with
  | push =>
    refine .inl ⟨_, _, rfl, rfl, ?_⟩
    rw [h.regs]
    exact h.update _ _ _
  | pop =>
    cases l with
    | nil => exact .inl ⟨_, _, rfl, rfl, h⟩
    | cons w l => exact .inl ⟨_, _, rfl, rfl, by rw [h.regs], h.limit, h.words⟩
  | compute op =>
    match l with
    | [] => exact .inr ⟨rfl, rfl⟩
    | [_] => exact .inr ⟨rfl, rfl⟩
    | top :: next :: l =>
      simp only [Call.result]
      split
      · exact .inr ⟨rfl, rfl⟩
      · refine .inl ⟨_, _, rfl, rfl, ?_⟩
        rw [h.regs]
        exact h.update _ _ _

theorem Above.represents {d : Image} (h : Above b c d) (hc : Represents b c l) :
    Represents b d l := by
  refine ⟨?_, hc.numeric, ?_, ?_, ?_, hc.shows.congr fun a ha _ => h.words a ha⟩
  · rw [h.regs, hc.base]
  · rw [h.regs, hc.pointer]
  · rw [h.limit]
    exact hc.inside
  · rw [h.limit]
    exact hc.limit

end

section
variable {p : Seg}

theorem call_decides (hp : Placed p) (k : Call) (a : ℤ) : Decides p (k.run p a) k.meaning := by
  cases k with
  | push => exact .of (push_refines a) (push_rejects hp a)
  | pop => exact .of (pop_refines a) (pop_rejects hp a)
  | compute op => exact .of (stack_refines op a) (stack_rejects hp op a)

/-- One call on the stack `l` does what it does to a stack, writes nothing at the base or
below, and does not depend on what is there. -/
structure Faithful (p : Seg) (b : ℕ) (l : List Word) (k : Call) (code : ℤ) (c u : Core) :
    Prop where
  push : k = .push → code = 0
  pop : k = .pop → code = 0 ∧ (l = [] → u = c) ∧ ∀ w l', l = w :: l' → u.regs.r = w
  accepted : ∀ op top next l', k = .compute op → l = top :: next :: l' →
    0 ≤ doBinop next top op → code = 0
  short : ∀ op, k = .compute op → l.length < 2 → code ≠ 0 ∧ u = c
  kept : ∀ a ≤ b, (image p u).words a = (image p c).words a
  blind : ∀ a c' u' code', Frames c'.store.pager → Slack 8 c'.store.pager →
    Above b (image p c) (image p c') → k.run p a c' = .ok (code', u') →
    (code' = 0 ↔ code = 0) ∧ Above b (image p u) (image p u')

theorem pop_empty {c u : Core} {a code : ℤ} {b : ℕ} (h : Represents b (image p c) [])
    (run : pop p a c = .ok (code, u)) : u = c := by
  have sp : word2int c.regs.sp = b := h.pointer.trans (by simp)
  have base : c.regs.stackBase.toNat = b := h.base
  have below : UInt32.ofInt (word2int c.regs.sp) ≤ c.regs.stackBase :=
    (ofInt_le_base (by omega) (word2int_lt _) _).2 (by omega)
  rw [Instructions.pop, get_bind, if_pos below] at run
  exact (Prod.mk.inj (pure_ok.1 run)).2

theorem stackOp_empty {c u : Core} {a code : ℤ} {b : ℕ} (op : Char)
    (h : Represents b (image p c) []) (run : stackOp op p a c = .ok (code, u)) :
    code ≠ 0 ∧ u = c := by
  have sp : word2int c.regs.sp = b := h.pointer.trans (by simp)
  have base : c.regs.stackBase.toNat = b := h.base
  have hb := h.numeric
  have below : UInt32.ofInt (word2int c.regs.sp) < c.regs.stackBase + 1 :=
    (ofInt_lt_base (by omega) (word2int_lt _) (by omega)).2 (by omega)
  rw [stackOp, get_bind, if_pos below] at run
  obtain ⟨rfl, rfl⟩ := Prod.mk.inj (pure_ok.1 run)
  exact ⟨by decide, rfl⟩

theorem call_outcome (hp : Placed p) {b : ℕ} {l : List Word} {k : Call} {a code : ℤ} {c u : Core}
    (h : Represents b (image p c) l) (frames : Frames c.store.pager) (slack : Slack 8 c.store.pager)
    (room : k = .push → (b + l.length + 1 : ℤ) ≤ word2int p.lr)
    (two : ∀ op, k = .compute op → l.length ≠ 1) (run : k.run p a c = .ok (code, u)) :
    code = 0 ∧ k.result b l (image p c) = some (image p u) ∨
      code ≠ 0 ∧ k.result b l (image p c) = none ∧ image p u = image p c := by
  have decides := call_decides hp k a c.store.pager [] c u code slack (Nat.zero_le 4)
    (.start _ frames) run
  rw [h.result k room two] at decides
  by_cases hc : code = 0
  · exact .inl ⟨hc, (decides.1 hc).1⟩
  · have none := decides.2 hc
    refine .inr ⟨hc, none, ?_⟩
    cases k with
    | push => cases none
    | pop => cases l <;> cases none
    | compute op =>
      exact (stack_rejects hp op a c.store.pager [] c u code slack (Nat.zero_le 4)
        (.start _ frames) run hc).2

/-- A call that meets no single element treats the stack as a stack. -/
theorem call_faithful (hp : Placed p) {b : ℕ} {l : List Word} {k : Call} {a code : ℤ} {c u : Core}
    (h : Represents b (image p c) l) (frames : Frames c.store.pager) (slack : Slack 8 c.store.pager)
    (room : k = .push → (b + l.length + 1 : ℤ) ≤ word2int p.lr)
    (two : ∀ op, k = .compute op → l.length ≠ 1) (run : k.run p a c = .ok (code, u)) :
    Represents b (image p u) (k.next c.regs.r l) ∧ Faithful p b l k code c u := by
  have outcome := call_outcome hp h frames slack room two run
  refine ⟨?_, ?_, ?_, ?_, ?_, ?_, ?_⟩
  · rcases outcome with ⟨-, some⟩ | ⟨-, none, same⟩
    · exact h.next room some
    · rw [same]
      cases k with
      | push => cases none
      | pop => cases l <;> cases none
      | compute op =>
        match l with
        | [] => exact h
        | [_] => exact h
        | top :: next :: l =>
          rw [Call.result] at none
          split at none
          · rename_i res
            rw [Call.next, if_pos res]
            exact h
          · cases none
  · rintro rfl
    rcases outcome with ⟨h0, -⟩ | ⟨-, none, -⟩
    · exact h0
    · cases none
  · rintro rfl
    rcases outcome with ⟨h0, some⟩ | ⟨-, none, -⟩
    · refine ⟨h0, fun hl => ?_, fun w l' hl => ?_⟩
      · subst hl
        exact pop_empty (a := a) h run
      · subst hl
        exact congrArg (fun d : Image => d.regs.r) (Option.some.inj some).symm
    · cases l <;> cases none
  · rintro op top next l' rfl rfl res
    rcases outcome with ⟨h0, -⟩ | ⟨-, none, -⟩
    · exact h0
    · rw [Call.result, if_neg (not_lt.2 res)] at none
      cases none
  · rintro op rfl hl
    have single := two op rfl
    have empty : l = [] := List.length_eq_zero_iff.1 (by omega)
    subst empty
    exact stackOp_empty (a := a) op h run
  · intro i hi
    rcases outcome with ⟨-, some⟩ | ⟨-, -, same⟩
    · exact Call.result_below some hi
    · rw [same]
  · intro a' c' u' code' frames' slack' above run'
    have h' := above.represents h
    have outcome' := call_outcome hp h' frames' slack' room two run'
    rcases above.result (l := l) k with ⟨e, f, he, hf, related⟩ | ⟨he, hf⟩
    · rcases outcome with ⟨h0, some⟩ | ⟨-, none, -⟩
      · rcases outcome' with ⟨h0', some'⟩ | ⟨-, none', -⟩
        · obtain rfl := Option.some.inj (he.symm.trans some)
          obtain rfl := Option.some.inj (hf.symm.trans some')
          exact ⟨⟨fun _ => h0, fun _ => h0'⟩, related⟩
        · rw [hf] at none'
          cases none'
      · rw [he] at none
        cases none
    · rcases outcome with ⟨-, some⟩ | ⟨hn, -, same⟩
      · rw [he] at some
        cases some
      · rcases outcome' with ⟨-, some'⟩ | ⟨hn', -, same'⟩
        · rw [hf] at some'
          cases some'
        · rw [same, same']
          exact ⟨⟨fun h => absurd h hn', fun h => absurd h hn⟩, above⟩

end

inductive Label where
  | stack (op : Op) (code : ℤ)
  | other

inductive Steps (p : Seg) : Core → Label → Core → Prop
  | stack (c u : Core) (op : Op) (k : Call) (i : Instruction) (a code : ℤ)
      (hk : callOf op = some k) (hi : op.instruction = some i) (run : i p a c = .ok (code, u)) :
      Steps p c (.stack op code) u
  | other (c u : Core) (sp : u.regs.sp = c.regs.sp) (base : u.regs.stackBase = c.regs.stackBase)
      (words : ∀ a : ℕ, c.regs.stackBase.toNat < a → (a : ℤ) ≤ word2int c.regs.sp →
        (image p u).words a = (image p c).words a) : Steps p c .other u

section
variable {p : Seg}

def stackAt (r : Run (Steps p)) : ℕ → List Word
  | 0 => []
  | i + 1 => match r.lab i with
    | .stack op _ => match callOf op with
      | some k => k.next (r.st i).regs.r (stackAt r i)
      | none => stackAt r i
    | .other => stackAt r i

/-- The stack pointer stays at the base or above it, the words in between are the abstract
stack, and every call is one on that stack. -/
structure Lifo (b : ℕ) (r : Run (Steps p)) : Prop where
  above : ∀ i ≤ r.len, (b : ℤ) ≤ word2int (r.st i).regs.sp
  shows : ∀ i ≤ r.len, word2int (r.st i).regs.sp = b + (stackAt r i).length ∧
    Shows (image p (r.st i)).words b (stackAt r i)
  calls : ∀ i < r.len, ∀ op code k, r.lab i = .stack op code → callOf op = some k →
    Faithful p b (stackAt r i) k code (r.st i) (r.st (i + 1))

/-- A run that starts when SP has set the base to `b`, pushes within the limit, and finds a
pager that serves the words of the process. -/
structure Admissible (b : ℕ) (r : Run (Steps p)) : Prop where
  start : ∃ a c, setSp p a c = .ok (0, r.st 0) ∧ word2int c.regs.r = b
  room : ∀ i < r.len, ∀ code, r.lab i = .stack .PH code →
    word2int (r.st i).regs.sp + 1 ≤ word2int p.lr
  placed : Placed p
  frames : ∀ i ≤ r.len, Frames (r.st i).store.pager
  slack : ∀ i ≤ r.len, Slack 8 (r.st i).store.pager

def NeverSingle (b : ℕ) (r : Run (Steps p)) : Prop :=
  ∀ i < r.len, ∀ op ch code, r.lab i = .stack op code → callOf op = some (.compute ch) →
    word2int (r.st i).regs.sp ≠ b + 1

theorem setSp_represents {b : ℕ} {a : ℤ} {c u : Core} (run : setSp p a c = .ok (0, u))
    (hb : word2int c.regs.r = b) : Represents b (image p u) [] := by
  obtain ⟨_, d, hd, run⟩ := bind_ok.1 run
  obtain ⟨-, rfl⟩ := Prod.mk.inj (pure_ok.1 run)
  obtain rfl := setRegs_ok hd
  have hn := word2int_lt c.regs.r
  refine ⟨?_, by omega, ?_, fun h => absurd rfl h, word2int_lt p.lr, trivial⟩
  · change (UInt32.ofInt (word2int c.regs.r)).toNat = b
    rw [ofInt_toNat (by omega) (by omega)]
    omega
  · exact hb.trans (by simp)

/-- The stack instructions refine a stack bounded below, in every run in which no arithmetic
stack instruction finds exactly one element. -/
theorem lifo_stack (p : Seg) (b : ℕ) (r : Run (Steps p)) (run : Admissible b r)
    (many : NeverSingle b r) : Lifo b r := by
  have step (i : ℕ) (hi : i < r.len) (h : Represents b (image p (r.st i)) (stackAt r i)) :
      Represents b (image p (r.st (i + 1))) (stackAt r (i + 1)) ∧
        ∀ op code k, r.lab i = .stack op code → callOf op = some k →
          Faithful p b (stackAt r i) k code (r.st i) (r.st (i + 1)) := by
    have sp : word2int (r.st i).regs.sp = b + (stackAt r i).length := h.pointer
    have ok := r.ok i hi
    have room := run.room i hi
    have two := many i hi
    rw [stackAt]
    cases hl : r.lab i with
    | stack op code =>
      rw [hl] at ok
      cases ok with
      | stack _ _ k ins a _ hk hins hrun =>
        obtain rfl := Option.some.inj ((callOf_run hk).symm.trans hins)
        simp only [hk]
        have fits : k = .push → (b + (stackAt r i).length + 1 : ℤ) ≤ word2int p.lr := by
          rintro rfl
          have ph : op = .PH := by
            cases op <;> simp only [callOf, Option.some.injEq, reduceCtorEq] at hk
            rfl
          have := room code (by rw [hl, ph])
          omega
        have single : ∀ ch, k = .compute ch → (stackAt r i).length ≠ 1 := by
          rintro ch rfl
          have := two op ch code hl hk
          omega
        obtain ⟨next, faithful⟩ := call_faithful run.placed h (run.frames i hi.le)
          (run.slack i hi.le) fits single hrun
        refine ⟨next, fun op' code' k' hl' hk' => ?_⟩
        obtain ⟨rfl, rfl⟩ := Label.stack.inj hl'
        obtain rfl := Option.some.inj (hk.symm.trans hk')
        exact faithful
    | other =>
      rw [hl] at ok
      cases ok with
      | other _ hsp hbase words =>
        refine ⟨⟨?_, h.numeric, ?_, h.inside, h.limit, ?_⟩, fun op code k hl => nomatch hl⟩
        · exact (congrArg UInt32.toNat hbase).trans h.base
        · exact (congrArg word2int hsp).trans h.pointer
        · refine h.shows.congr fun a ha hl => words a ?_ (by omega)
          have base : (r.st i).regs.stackBase.toNat = b := h.base
          omega
  have represents (i : ℕ) (hi : i ≤ r.len) : Represents b (image p (r.st i)) (stackAt r i) := by
    obtain ⟨a, c, start, hb⟩ := run.start
    exact r.invariant (fun i => Represents b (image p (r.st i)) (stackAt r i))
      (setSp_represents start hb) (fun i hi h => (step i hi h).1) i hi
  refine ⟨fun i hi => ?_, fun i hi => ⟨(represents i hi).pointer, (represents i hi).shows⟩,
    fun i hi => (step i hi (represents i hi.le)).2⟩
  have sp : word2int (r.st i).regs.sp = b + (stackAt r i).length := (represents i hi).pointer
  omega

end

def leave (x : Exec Core ℤ) (c : Core) : Core := ((x c).toOption.getD (0, c)).2

theorem leave_ok {x : Exec Core ℤ} {c : Core} {r : ℤ}
    (h : (x c).toOption.map Prod.fst = some r) : x c = .ok (r, leave x c) := ok_of_result _ h

def Serving (c : Core) : Prop := Frames c.store.pager ∧ Slack 8 c.store.pager

theorem leave_serving {k : Call} {c : Core}
    (h : (k.run pageSeg 0 c).toOption.map Prod.fst = some 0) (serving : Serving c) :
    Serving (leave (k.run pageSeg 0) c) := by
  obtain ⟨-, foot⟩ := (call_decides ⟨by decide, by decide⟩ k 0 c.store.pager [] c _ 0 serving.2
    (Nat.zero_le 4) (.start _ serving.1) (leave_ok h)).1 rfl
  refine ⟨foot.holding.frames, fun q => ?_⟩
  rw [foot.counted]
  exact serving.2 q

structure Calling (c : Core) (a : Label) (u : Core) : Prop where
  step : Steps pageSeg c a u
  serves : Serving c → Serving u
  room : ∀ code, a = .stack .PH code → word2int c.regs.sp + 1 ≤ word2int pageSeg.lr

def callStep (c : Core) : Label → Option Core
  | .stack op code => (callOf op).bind fun k =>
    if code = 0 ∧ (op = .PH → word2int c.regs.sp + 1 ≤ word2int pageSeg.lr) ∧
      (k.run pageSeg 0 c).toOption.map Prod.fst = some 0 then
      some (leave (k.run pageSeg 0) c)
    else none
  | .other => some { c with regs := { c.regs with r := ⟨48, 48, 48, 55⟩ } }

theorem callStep_calling (c : Core) (a : Label) (u : Core) (h : callStep c a = some u) :
    Calling c a u := by
  cases a with
  | stack op code =>
    obtain ⟨k, hk, step⟩ := Option.bind_eq_some_iff.1 h
    split at step
    · rename_i returns
      obtain ⟨rfl, room, returns⟩ := returns
      obtain rfl := Option.some.inj step
      refine ⟨.stack _ _ _ k _ 0 0 hk (callOf_run hk) (leave_ok returns), leave_serving returns,
        fun code push => room (Label.stack.inj push).1⟩
    · cases step
  | other =>
    obtain rfl := Option.some.inj h
    exact ⟨.other _ _ rfl rfl fun _ _ _ => rfl, id, fun code push => nomatch push⟩

def baseCore : Core :=
  { tenthCore with regs := { tenthCore.regs with
      r := ⟨48, 48, 48, 53⟩, sp := ⟨48, 48, 48, 53⟩, stackBase := 5 } }

def callRun (labels : List Label) (h : (labels.foldlM callStep baseCore).isSome) : Run Calling :=
  performed callStep_calling baseCore .other labels h

theorem callRun_admissible (labels : List Label)
    (h : (labels.foldlM callStep baseCore).isSome) :
    Admissible 5 ((callRun labels h).map id fun _ _ _ k => k.step) := by
  have start : Serving baseCore := ⟨tenth_referable.frames, tenth_referable.counted⟩
  have serving (i : ℕ) (hi : i ≤ (callRun labels h).len) : Serving ((callRun labels h).st i) :=
    (callRun labels h).invariant (fun i => Serving ((callRun labels h).st i)) start
      (fun i hi => ((callRun labels h).ok i hi).serves) i hi
  exact ⟨⟨0, { baseCore with regs := { baseCore.regs with sp := zeros, stackBase := 0 } }, rfl,
    by decide⟩, fun i hi => ((callRun labels h).ok i hi).room, ⟨by decide, by decide⟩,
    fun i hi => (serving i hi).1, fun i hi => (serving i hi).2⟩

def sumCalls : List Label := [.stack .PH 0, .other, .stack .PH 0, .stack .AS 0, .stack .PP 0]

theorem sumCalls_performed : (sumCalls.foldlM callStep baseCore).isSome := by decide +kernel

theorem sumCalls_lifo :
    Lifo 5 ((callRun sumCalls sumCalls_performed).map id fun _ _ _ k => k.step) := by
  refine lifo_stack pageSeg 5 _ (callRun_admissible sumCalls sumCalls_performed)
    fun i hi op ch code lab k => ?_
  match i, hi with
  | 0, _ | 2, _ | 4, _ =>
    obtain ⟨rfl, -⟩ := Label.stack.inj lab
    cases k
  | 1, _ => cases lab
  | 3, _ =>
    have two : word2int ((callRun sumCalls sumCalls_performed).st 3).regs.sp = 7 := by
      decide +kernel
    exact fun single => absurd (two.symm.trans single) (by decide)

def oneCalls : List Label := [.stack .PH 0, .stack .AS 0]

theorem oneCalls_performed : (oneCalls.foldlM callStep baseCore).isSome := by decide +kernel

/-- AS with one element on the stack returns 0. -/
theorem addRun_not_lifo : ∃ (p : Seg) (b : ℕ) (r : Run (Steps p)), Admissible b r ∧ ¬Lifo b r := by
  refine ⟨pageSeg, 5, _, callRun_admissible oneCalls oneCalls_performed, fun h => ?_⟩
  exact ((h.calls 1 (by decide) .AS 0 (.compute '+') rfl rfl).short '+' rfl (by decide)).1 rfl

end BrainMachine.LifoStack
