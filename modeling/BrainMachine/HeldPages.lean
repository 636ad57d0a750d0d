import BrainMachine.Dispatch
import BrainMachine.Finishing
import BrainMachine.FrameTable
import BrainMachine.References

set_option autoImplicit false

namespace BrainMachine.HeldPages
open Codec Computations Paging Stdio AddressSpace Instructions Dispatch Transparency References
open FrameTable

def InStore (p : Seg) (a : ℤ) : Prop :=
  0 ≤ getGlobalAddress p a ∧ getGlobalAddress p a < vaddrSize

instance (p : Seg) (a : ℤ) : Decidable (InStore p a) := inferInstanceAs (Decidable (_ ∧ _))

def place (n : ℕ) (p : Seg) (a : ℤ) : List ℕ :=
  if InStore p a then [(getGlobalAddress p a).toNat / n] else []

def Fits (n : ℕ) (S : Finset ℕ) (held : List ℕ) : Prop := (S ∪ held.toFinset).card ≤ memSize / n

/-- The pages referenced before are among `S`, and the references taken since are those held. -/
structure Grip (n : ℕ) (S : Finset ℕ) (held : List ℕ) (s : Pager) : Prop where
  tabled : Tabled s
  size : s.pgSize = n
  pins : ∀ q, q ∉ S → (s.refs q).toNat ≤ held.count q

theorem Fits.subset {n : ℕ} {S : Finset ℕ} {held more : List ℕ} (h : Fits n S more)
    (sub : held ⊆ more) : Fits n S held := by
  refine (Finset.card_le_card (Finset.union_subset_union_right fun q hq => ?_)).trans h
  exact List.mem_toFinset.2 (sub (List.mem_toFinset.1 hq))

theorem fits_three {n : ℕ} {held : List ℕ} (frames : 3 ≤ memSize / n) (few : held.length ≤ 3) :
    Fits n ∅ held := by
  rw [Fits, Finset.empty_union]
  exact (held.toFinset_card_le.trans few).trans frames

theorem Grip.perm {n : ℕ} {S : Finset ℕ} {held more : List ℕ} {s : Pager} (h : Grip n S held s)
    (perm : held.Perm more) : Grip n S more s :=
  ⟨h.tabled, h.size, fun q hq => (h.pins q hq).trans_eq (perm.count_eq q)⟩

theorem Grip.touch {n : ℕ} {S : Finset ℕ} {held : List ℕ} {s : Pager} (h : Grip n S held s)
    (ops : UInt32) {v : ℕ} (hv : v < vaddrSize) (fits : Fits n S (v / n :: held)) :
    ∃ a u, touchPage ops v s = .ok (some a, u) ∧ Grip n S (v / n :: held) u := by
  have pins (q : ℕ) (hq : s.refs q ≠ 0) : q ∈ S ∪ held.toFinset := by
    by_cases old : q ∈ S
    · exact Finset.mem_union_left _ old
    · have pos : 0 < (s.refs q).toNat := Nat.pos_of_ne_zero fun h => hq (UInt32.toNat_inj.1 h)
      have mem := List.count_pos_iff.1 (Nat.lt_of_lt_of_le pos (h.pins q old))
      exact Finset.mem_union_right _ (List.mem_toFinset.2 mem)
  have room : (insert (v / s.pgSize) (S ∪ held.toFinset)).card ≤ s.frameCount := by
    rw [h.size, Pager.frameCount, h.size, ← Finset.union_insert, ← List.toFinset_cons]
    exact fits
  obtain ⟨a, u, run, tabled⟩ := h.tabled.touch_total ops hv _ pins room
  have t := touchPageBy_touched getRemovalPage_victims h.tabled.frames run
  refine ⟨a, u, run, tabled, t.size.trans h.size, fun q hq => ?_⟩
  have count := h.pins q hq
  rw [t.refs, h.size, List.count_cons]
  by_cases page : q = v / n
  · have succ := toNat_add_one_le (s.refs q)
    rw [if_pos page, page, beq_self_eq_true, if_pos rfl, ← page]
    omega
  · rw [if_neg page]
    omega

theorem Grip.lower {n : ℕ} {S : Finset ℕ} {held : List ℕ} {s : Pager} (h : Grip n S held s)
    (a : ℤ) : Grip n S held (pageReleaseRef a s) := by
  have same := pageReleaseRef_sameFrames a s
  exact ⟨pageReleaseRef_tabled h.tabled a, same.size.trans h.size, fun q hq =>
    (pageReleaseRef_le a s q).trans (h.pins q hq)⟩

theorem Grip.release {n : ℕ} {S : Finset ℕ} {held : List ℕ} {s : Pager} {v : ℕ}
    (h : Grip n S (v / n :: held) s) (hv : v < vaddrSize) :
    Grip n S held (pageReleaseRef v s) := by
  have lower := h.lower v
  refine ⟨lower.tabled, lower.size, fun q hq => ?_⟩
  have count := h.pins q hq
  rw [List.count_cons] at count
  rw [pageReleaseRef_toNat (page_count h.tabled.frames hv), h.size]
  by_cases page : q = v / n
  · rw [page, beq_self_eq_true, if_pos rfl] at count
    rw [if_pos page, page]
    omega
  · have other : (v / n == q) = false := beq_eq_false_iff_ne.2 fun he => page he.symm
    rw [other, if_neg (by decide)] at count
    rw [if_neg page]
    omega

theorem Grip.write {n : ℕ} {S : Finset ℕ} {held : List ℕ} {s : Pager} (h : Grip n S held s)
    (mem pageMem : ℕ → Word) : Grip n S held { s with mem := mem, pageMem := pageMem } :=
  ⟨h.tabled.write mem pageMem, h.size, h.pins⟩

theorem releaseWordref_returns (p : Seg) (a : ℤ) (s : Store) :
    Finishes (releaseWordref p a) (fun _ _ => True) s := by
  rw [releaseWordref]
  exact .ite (fun _ => .pure trivial) fun _ => ⟨_, _, rfl, trivial⟩

section
variable {n : ℕ} {S : Finset ℕ} {held : List ℕ}

theorem getWordref_finishes {p : Seg} {a : ℤ} {s : Store} (h : Grip n S held s.pager)
    (fits : Fits n S (place n p a ++ held)) :
    Finishes (getWordref p a) (fun r u => (r.isSome ↔ InStore p a) ∧
      ∃ t, u = { s with pager := t } ∧ Grip n S (place n p a ++ held) t) s := by
  by_cases hg : getGlobalAddress p a < 0
  · have out : ¬InStore p a := fun h => not_le.2 hg h.1
    rw [place, if_neg out]
    rw [getWordref, if_pos hg]
    exact .pure ⟨iff_of_false (by simp) out, s.pager, rfl, h⟩
  · by_cases top : (getGlobalAddress p a).toNat < vaddrSize
    · have here : InStore p a := ⟨not_lt.1 hg, by omega⟩
      rw [place, if_pos here] at fits ⊢
      obtain ⟨x, u, run, grip⟩ := h.touch s.ops top fits
      exact ⟨_, _, getWordref_run (not_lt.1 hg) run, iff_of_true rfl here, u, rfl, grip⟩
    · have out : ¬InStore p a := fun h => top (by have := h.2; omega)
      rw [place, if_neg out]
      have miss := touchPage_outside h.tabled.frames s.ops top
      exact ⟨_, _, getWordref_run (not_lt.1 hg) miss, iff_of_false (by simp) out, s.pager, rfl, h⟩

theorem releaseWordref_finishes {p : Seg} {a : ℤ} {s : Store}
    (h : Grip n S (place n p a ++ held) s.pager) :
    Finishes (releaseWordref p a) (fun _ u => ∃ t, u = { s with pager := t } ∧ Grip n S held t) s := by
  rw [releaseWordref]
  by_cases here : InStore p a
  · rw [place, if_pos here] at h
    have top : (getGlobalAddress p a).toNat < vaddrSize := by
      have ⟨low, high⟩ := here
      omega
    have released := h.release top
    rw [Int.toNat_of_nonneg here.1] at released
    rw [if_neg (not_lt.2 here.1)]
    exact ⟨_, _, rfl, _, rfl, released⟩
  · rw [place, if_neg here, List.nil_append] at h
    apply Finishes.ite
    · intro _
      exact .pure ⟨s.pager, rfl, h⟩
    · intro _
      exact ⟨_, _, rfl, _, rfl, h.lower _⟩

theorem assign_finishes (x : ℕ) (w : Word) {s : Store} (h : Grip n S held s.pager) :
    Finishes (assign x w) (fun _ u => ∃ t, u = { s with pager := t } ∧ Grip n S held t) s :=
  ⟨_, _, rfl, _, rfl, h.write _ _⟩

theorem refer_finishes {p : Seg} {a : ℤ} {c : Core} (h : Grip n S held c.store.pager)
    (fits : Fits n S (place n p a ++ held)) :
    Finishes (onStore (getWordref p a)) (fun r d => (r.isSome ↔ InStore p a) ∧
      Grip n S (place n p a ++ held) d.store.pager ∧ d.store.stdin = c.store.stdin) c := by
  refine (getWordref_finishes h fits).zoom fun r u post => ?_
  obtain ⟨some, t, rfl, grip⟩ := post
  exact ⟨some, grip, rfl⟩

theorem release_finishes {p : Seg} {a : ℤ} {c : Core}
    (h : Grip n S (place n p a ++ held) c.store.pager) :
    Finishes (onStore (releaseWordref p a)) (fun _ d => Grip n S held d.store.pager ∧
      d.store.stdin = c.store.stdin) c := by
  refine (releaseWordref_finishes h).zoom fun _ u post => ?_
  obtain ⟨t, rfl, grip⟩ := post
  exact ⟨grip, rfl⟩

omit n S held in
theorem release_returns (p : Seg) (a : ℤ) (c : Core) :
    Finishes (onStore (releaseWordref p a)) (fun _ _ => True) c :=
  (releaseWordref_returns p a c.store).zoom fun _ _ _ => trivial

theorem withWordref_finishes {p : Seg} {a : ℤ} {use : ℕ → Exec Core Unit} {c : Core}
    (h : Grip n S held c.store.pager) (fits : Fits n S (place n p a ++ held))
    (k : ∀ x d, Grip n S (place n p a ++ held) d.store.pager →
      d.store.stdin = c.store.stdin → Finishes (use x) (fun _ e =>
        Grip n S (place n p a ++ held) e.store.pager ∧ e.store.stdin = c.store.stdin) d) :
    Finishes (withWordref p a use) (fun r e => (r = 0 → InStore p a) ∧
      Grip n S held e.store.pager ∧ e.store.stdin = c.store.stdin) c := by
  apply (refer_finishes h fits).bind
  rintro (_ | x) d ⟨some, grip, stdin⟩
  · have out : ¬InStore p a := fun h => Bool.noConfusion (some.2 h)
    rw [place, if_neg out] at grip
    exact .pure ⟨fun zero => absurd zero (by decide), grip, stdin⟩
  · apply (k x d grip stdin).bind
    rintro _ e ⟨grip, stdin⟩
    apply (release_finishes grip).bind
    rintro _ v ⟨grip, stdin'⟩
    exact .pure ⟨fun _ => some.1 rfl, grip, stdin'.trans stdin⟩

theorem doRegisterOp_finishes {p : Seg} {a : ℤ} {c : Core} (op : Char)
    (h : Grip n S held c.store.pager) (fits : Fits n S (place n p a ++ held)) :
    Finishes (doRegisterOp op p a) (fun _ _ => True) c := by
  apply (refer_finishes h fits).bind
  rintro (_ | x) d -
  · exact .pure trivial
  · refine .bind (Q := fun _ _ => True) ⟨_, _, rfl, trivial⟩ fun w e _ => ?_
    refine .get_bind (.ite (fun _ => .pure trivial) fun _ => ?_)
    exact (release_returns p a e).bind fun _ v _ => ⟨_, _, rfl, trivial⟩

theorem push_finishes {p : Seg} (a : ℤ) {c : Core} (h : Grip n S held c.store.pager)
    (fits : word2int c.regs.sp ≠ -1 → Fits n S (place n p (word2int c.regs.sp + 1) ++ held)) :
    Finishes (push p a) (fun _ _ => True) c := by
  refine .get_bind (.ite (fun _ => .pure trivial) fun numeric => .modify_bind ?_)
  refine (withWordref_finishes (by exact h) (fits numeric) ?_).mono fun _ _ _ => trivial
  intro x d grip stdin
  exact ⟨_, _, rfl, grip.write _ _, stdin⟩

theorem pop_finishes {p : Seg} (a : ℤ) {c : Core} (h : Grip n S held c.store.pager)
    (fits : ¬UInt32.ofInt (word2int c.regs.sp) ≤ c.regs.stackBase →
      Fits n S (place n p (word2int c.regs.sp) ++ held)) :
    Finishes (pop p a) (fun _ _ => True) c := by
  refine .get_bind (.ite (fun _ => .pure trivial) fun filled => ?_)
  apply (refer_finishes h (fits filled)).bind
  rintro (_ | x) d -
  · exact .pure trivial
  · refine .bind (Q := fun _ _ => True) ⟨_, _, rfl, trivial⟩ fun w e _ => .modify_bind ?_
    exact (release_returns p _ _).bind fun _ v _ => ⟨_, _, rfl, trivial⟩

theorem stackOp_finishes {p : Seg} (a : ℤ) {c : Core} (op : Char)
    (h : Grip n S held c.store.pager)
    (fits : ¬UInt32.ofInt (word2int c.regs.sp) < c.regs.stackBase + 1 →
      Fits n S (place n p (word2int c.regs.sp - 1) ++ (place n p (word2int c.regs.sp) ++ held))) :
    Finishes (stackOp op p a) (fun _ _ => True) c := by
  refine .get_bind (.ite (fun _ => .pure trivial) fun filled => ?_)
  have fits := fits filled
  have first : Fits n S (place n p (word2int c.regs.sp) ++ held) :=
    fits.subset (List.subset_append_right _ _)
  have last : Fits n S (place n p (word2int c.regs.sp - 1) ++ held) := by
    refine fits.subset fun q hq => ?_
    rcases List.mem_append.1 hq with hq | hq
    · exact List.mem_append_left _ hq
    · exact List.mem_append_right _ (List.mem_append_right _ hq)
  apply (refer_finishes h first).bind
  rintro word1 d ⟨-, grip, -⟩
  apply (refer_finishes grip fits).bind
  rintro word2 e ⟨-, grip, -⟩
  match word1, word2 with
  | none, _ => exact .pure trivial
  | some _, none => exact .pure trivial
  | some x, some y =>
    refine .bind (Q := fun _ v => e = v) ⟨_, _, rfl, rfl⟩ ?_
    rintro top _ rfl
    refine .bind (Q := fun _ v => e = v) ⟨_, _, rfl, rfl⟩ ?_
    rintro next _ rfl
    apply (release_finishes (grip.perm (List.perm_append_comm_assoc _ _ _))).bind
    rintro _ v ⟨grip, -⟩
    apply (release_finishes grip).bind
    rintro _ v ⟨grip, -⟩
    refine .ite (fun _ => .pure trivial) fun _ => .modify_bind ?_
    refine (withWordref_finishes (by exact grip) last ?_).mono fun _ _ _ => trivial
    intro z w grip stdin
    exact ⟨_, _, rfl, grip.write _ _, stdin⟩

theorem print_finishes {p : Seg} {a : ℤ} {c : Core} (h : Grip n S held c.store.pager)
    (fits : ∀ i : ℕ, i < 10 → (∀ j : ℕ, j < i → InStore p (a + j)) →
      Fits n S (place n p (a + i) ++ held)) :
    Finishes (print p a) (fun _ _ => True) c := by
  refine (Finishes.loopFrom (fun i d => (∀ j < i, InStore p (a + j)) ∧
    Grip n S held d.store.pager) ?_ ⟨fun j hj => absurd hj (Nat.not_lt_zero j), h⟩).mono
      fun _ _ _ => trivial
  rintro i d - hi ⟨before, grip⟩
  refine (withWordref_finishes grip (fits i (by omega) before) ?_).mono ?_
  · intro x e grip stdin
    exact ⟨_, _, rfl, grip, stdin⟩
  · rintro r e ⟨here, grip, -⟩ zero
    refine ⟨fun j hj => ?_, grip⟩
    rcases Nat.lt_succ_iff_lt_or_eq.1 hj with hj | rfl
    · exact before j hj
    · exact here zero

end

def inputAt (s : Stream) : ℕ → Stream
  | 0 => s
  | i + 1 => (readWord (inputAt s i)).2

def Supplies (s : Stream) (i : ℕ) : Prop :=
  isEnd (readWord (inputAt s i)).1 = false ∧ (inputAt s (i + 1)).eof = false

section
variable {n : ℕ} {S : Finset ℕ} {held : List ℕ}

omit n S held in
theorem nextWord_finishes (c : Core) : Finishes (onStore nextWord) (fun w d =>
    w = (readWord c.store.stdin).1 ∧ d.store.stdin = (readWord c.store.stdin).2 ∧
      d.store.pager = c.store.pager) c := by
  refine .zoom (P := fun w t => w = (readWord c.store.stdin).1 ∧
    t.stdin = (readWord c.store.stdin).2 ∧ t.pager = c.store.pager) ?_ fun _ _ post => post
  apply Finishes.get_bind
  generalize readWord c.store.stdin = r
  exact .modify_bind (.pure ⟨rfl, rfl, rfl⟩)

theorem read_finishes {p : Seg} {a : ℤ} {c : Core} (h : Grip n S held c.store.pager)
    (fits : ∀ i : ℕ, i < 10 → (∀ j : ℕ, j < i → InStore p (a + j)) →
      (∀ j : ℕ, j ≤ i → Supplies c.store.stdin j) → Fits n S (place n p (a + i) ++ held)) :
    Finishes (read p a) (fun _ _ => True) c := by
  refine (Finishes.loopFrom (fun i d => (∀ j < i, InStore p (a + j) ∧ Supplies c.store.stdin j) ∧
    d.store.stdin = inputAt c.store.stdin i ∧ Grip n S held d.store.pager) ?_
      ⟨fun j hj => absurd hj (Nat.not_lt_zero j), rfl, h⟩).mono fun _ _ _ => trivial
  rintro i d - hi ⟨before, stdin, grip⟩
  apply (nextWord_finishes d).bind
  rintro w e ⟨rfl, next, same⟩
  rw [stdin] at next ⊢
  rw [← same] at grip
  refine .get_bind (.ite (fun _ => .pure fun zero => absurd zero (by decide)) fun data => ?_)
  refine .ite (fun _ => .pure fun zero => absurd zero (by decide)) fun more => ?_
  have here : Supplies c.store.stdin i := by
    rw [next] at more
    exact ⟨Bool.eq_false_of_not_eq_true data, Bool.eq_false_of_not_eq_true more⟩
  have fits := fits i (by omega) (fun j hj => (before j hj).1) fun j hj => by
    rcases Nat.lt_or_eq_of_le hj with hj | rfl
    · exact (before j hj).2
    · exact here
  refine (withWordref_finishes grip fits ?_).mono ?_
  · intro x v grip stdin
    exact ⟨_, _, rfl, grip.write _ _, stdin⟩
  · rintro r v ⟨inside, grip, same⟩ zero
    refine ⟨fun j hj => ?_, same.trans next, grip⟩
    rcases Nat.lt_succ_iff_lt_or_eq.1 hj with hj | rfl
    · exact before j hj
    · exact ⟨inside zero, here⟩

end

def Affords (n : ℕ) (S : Finset ℕ) (held : List ℕ) (p : Seg) (a : ℤ) (c : Core) : Op → Prop
  | .LR | .LL | .LH | .SR | .CE | .CL | .AD | .SU | .MI | .DI => Fits n S (place n p a ++ held)
  | .PH => word2int c.regs.sp ≠ -1 → Fits n S (place n p (word2int c.regs.sp + 1) ++ held)
  | .PP => ¬UInt32.ofInt (word2int c.regs.sp) ≤ c.regs.stackBase →
      Fits n S (place n p (word2int c.regs.sp) ++ held)
  | .AS | .SS | .MS | .DS => ¬UInt32.ofInt (word2int c.regs.sp) < c.regs.stackBase + 1 →
      Fits n S (place n p (word2int c.regs.sp - 1) ++ (place n p (word2int c.regs.sp) ++ held))
  | .PD => ∀ i : ℕ, i < 10 → (∀ j : ℕ, j < i → InStore p (a + j)) →
      Fits n S (place n p (a + i) ++ held)
  | .GD => ∀ i : ℕ, i < 10 → (∀ j : ℕ, j < i → InStore p (a + j)) →
      (∀ j : ℕ, j ≤ i → Supplies c.store.stdin j) → Fits n S (place n p (a + i) ++ held)
  | _ => True

section
variable {n : ℕ} {S : Finset ℕ} {held : List ℕ}

theorem load_finishes {p : Seg} {a : ℤ} {c : Core} (g : Word → Regs → Regs)
    (h : Grip n S held c.store.pager) (fits : Fits n S (place n p a ++ held)) :
    Finishes (withWordref p a fun x => do
      let w ← onStore (deref x)
      setRegs (g w)) (fun _ _ => True) c := by
  refine (withWordref_finishes h fits ?_).mono fun _ _ _ => trivial
  intro x d grip stdin
  exact ⟨_, _, rfl, grip, stdin⟩

/-- An instruction on one process finishes when its pages have frames. -/
theorem instruction_finishes {op : Op} {i : Instruction} (is : op.instruction = some i) {p : Seg}
    {a : ℤ} {c : Core} (h : Grip n S held c.store.pager) (fits : Affords n S held p a c op) :
    Finishes (i p a) (fun _ _ => True) c := by
  cases op <;> simp only [Op.instruction, Option.some.injEq, reduceCtorEq] at is <;> subst is
  case LR => exact load_finishes (fun w g => { g with r := w }) h fits
  case LL => exact load_finishes (fun w g => { g with r := ⟨g.r.b0, g.r.b1, w.b2, w.b3⟩ }) h fits
  case LH => exact load_finishes (fun w g => { g with r := ⟨w.b0, w.b1, g.r.b2, g.r.b3⟩ }) h fits
  case SR | CE | CL =>
    refine (withWordref_finishes h fits ?_).mono fun _ _ _ => trivial
    intro x d grip stdin
    first
      | exact ⟨_, _, rfl, grip, stdin⟩
      | exact ⟨_, _, rfl, grip.write _ _, stdin⟩
  case AD | SU | MI | DI => exact doRegisterOp_finishes _ h fits
  case PH => exact push_finishes a h fits
  case PP => exact pop_finishes a h fits
  case AS | SS | MS | DS => exact stackOp_finishes a _ h fits
  case PD => exact print_finishes h fits
  case GD => exact read_finishes h fits
  case SP | PS | BU | NP | GP => exact ⟨_, _, rfl, trivial⟩
  case BT => exact .get_bind (.ite (fun _ => ⟨_, _, rfl, trivial⟩) fun _ => .pure trivial)
  case LS | ST =>
    first
      | unfold loadShared
      | unfold storeShared
    cases getShmp a with
    | none => exact .pure trivial
    | some b => exact ⟨_, _, rfl, trivial⟩
  case SI =>
    refine .get_bind (.ite (fun _ => .pure trivial) fun _ => .ite (fun _ => .pure trivial) fun _ => ?_)
    refine .bind (Q := fun _ _ => True) ?_ fun r d _ => ?_
    · refine Finishes.zoom (P := fun _ _ => True) ?_ fun _ _ _ => trivial
      exact .ite (fun _ => .pure trivial) fun _ => ⟨_, _, rfl, trivial⟩
    · exact .ite (fun _ => .pure trivial) fun _ => .pure trivial

end

def AffordsCopy (n : ℕ) (S : Finset ℕ) (held : List ℕ) (p q : Seg) : Prop :=
  ∀ i : ℕ, i < (min (word2int p.lr + 1) (word2int q.lr + 1)).toNat →
    (∀ j : ℕ, j < i → InStore p j ∧ InStore q j) →
      Fits n S (place n q i ++ (place n p i ++ held))

/-- The pages that a message from `l` of the sender to `k` of the receiver holds at once have frames;
the destination is not looked up when there is no source. -/
def AffordsMessage (n : ℕ) (S : Finset ℕ) (held : List ℕ) (p q : Seg) (l k : ℤ) : Prop :=
  ∀ i : ℕ, i < 10 → (∀ j : ℕ, j < i → InStore p (l + j) ∧ InStore q (k + j)) →
    Fits n S (place n p (l + i) ++ held) ∧
      (InStore p (l + i) → Fits n S (place n q (k + i) ++ (place n p (l + i) ++ held)))

section
variable {n : ℕ} {S : Finset ℕ} {held : List ℕ}

theorem copy_finishes {p q : Seg} {a b : ℤ} {x y : ℕ} {s : Store}
    (h : Grip n S (place n q b ++ (place n p a ++ held)) s.pager) :
    Finishes (do
      let w ← deref x
      assign y w
      releaseWordref p a
      releaseWordref q b
      pure (0 : ℤ)) (fun _ u => Grip n S held u.pager) s := by
  refine .bind (Q := fun _ u => s = u) ⟨_, _, rfl, rfl⟩ ?_
  rintro w _ rfl
  apply (assign_finishes y w h).bind
  rintro _ _ ⟨t, rfl, grip⟩
  apply (releaseWordref_finishes (grip.perm (List.perm_append_comm_assoc _ _ _))).bind
  rintro _ _ ⟨t, rfl, grip⟩
  apply (releaseWordref_finishes grip).bind
  rintro _ _ ⟨t, rfl, grip⟩
  exact .pure grip

theorem dupMem_finishes {p q : Seg} {s : Store} (h : Grip n S held s.pager)
    (fits : AffordsCopy n S held p q) : Finishes (dupMem p q) (fun _ _ => True) s := by
  refine (Finishes.loopFrom (fun i u => (∀ j : ℕ, j < i → InStore p j ∧ InStore q j) ∧
    Grip n S held u.pager) ?_ ⟨fun j hj => absurd hj (Nat.not_lt_zero j), h⟩).mono
      fun _ _ _ => trivial
  rintro i u - hi ⟨before, grip⟩
  have fits := fits i (by omega) before
  apply (getWordref_finishes grip (fits.subset (List.subset_append_right _ _))).bind
  rintro src _ ⟨here, t, rfl, grip⟩
  apply (getWordref_finishes (by exact grip) fits).bind
  rintro dest _ ⟨here', t, rfl, grip⟩
  match src, dest with
  | none, _ => exact .pure fun zero => absurd zero (by decide)
  | some _, none => exact .pure fun zero => absurd zero (by decide)
  | some x, some y =>
    have copied := copy_finishes (x := x) (y := y) (s := { u with pager := t }) grip
    refine copied.mono fun r v grip zero => ⟨fun j hj => ?_, grip⟩
    rcases Nat.lt_succ_iff_lt_or_eq.1 hj with hj | rfl
    · exact before j hj
    · exact ⟨here.1 rfl, here'.1 rfl⟩

theorem xferWords_finishes {p q : Seg} {l k : ℤ} {s : Store} (h : Grip n S held s.pager)
    (fits : AffordsMessage n S held p q l k) :
    Finishes (xferWords p q l k) (fun _ _ => True) s := by
  refine (Finishes.loopFrom (fun i u => (∀ j : ℕ, j < i → InStore p (l + j) ∧ InStore q (k + j)) ∧
    Grip n S held u.pager) ?_ ⟨fun j hj => absurd hj (Nat.not_lt_zero j), h⟩).mono
      fun _ _ _ => trivial
  rintro i u - hi ⟨before, grip⟩
  obtain ⟨one, two⟩ := fits i (by omega) before
  apply (getWordref_finishes grip one).bind
  rintro (_ | x) _ ⟨here, t, rfl, grip⟩
  · exact .pure fun zero => absurd zero (by decide)
  · apply (getWordref_finishes (by exact grip) (two (here.1 rfl))).bind
    rintro (_ | y) _ ⟨here', t, rfl, grip⟩
    · exact .pure fun zero => absurd zero (by decide)
    · have copied := copy_finishes (x := x) (y := y) (s := { u with pager := t }) grip
      refine copied.mono fun r v grip zero => ⟨fun j hj => ?_, grip⟩
      rcases Nat.lt_succ_iff_lt_or_eq.1 hj with hj | rfl
      · exact before j hj
      · exact ⟨here.1 rfl, here'.1 rfl⟩

theorem printMem_finishes {p : Seg} {c : Core} (h : Grip n S held c.store.pager)
    (all : ∀ i : ℕ, i < 100 → InStore p i ∧ Fits n S (place n p i ++ held)) :
    Finishes (printMem p) (fun _ _ => True) c := by
  refine (Finishes.loop_keeps (fun d => Grip n S held d.store.pager) ?_ h).mono
    fun _ _ _ => trivial
  intro i d hi grip
  refine .bind (Q := fun _ e => Grip n S held e.store.pager) ⟨_, _, rfl, grip⟩ fun _ e grip => ?_
  refine .bind (Finishes.loop_keeps (fun d => Grip n S held d.store.pager) ?_ grip) ?_
  · intro j v hj grip
    obtain ⟨inside, fits⟩ := all (10 * i + j) (by omega)
    rw [Int.natCast_add, Int.natCast_mul] at inside fits
    apply (refer_finishes grip fits).bind
    rintro (_ | x) w ⟨here, grip, -⟩
    · exact absurd (here.2 inside) (by decide)
    · refine .bind (Q := fun _ v => Grip n S _ v.store.pager) ⟨_, _, rfl, grip⟩ fun w v grip => ?_
      refine .bind (Q := fun _ v => Grip n S _ v.store.pager) ⟨_, _, rfl, grip⟩ fun _ v grip => ?_
      apply (release_finishes grip).bind
      rintro _ v ⟨grip, -⟩
      exact .pure grip
  · intro _ v grip
    exact ⟨_, _, rfl, grip⟩

end
end BrainMachine.HeldPages
