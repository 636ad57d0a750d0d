import Mathlib.Data.List.TakeDrop
import BrainMachine.Loader

set_option autoImplicit false

namespace BrainMachine.ProgramText
open Codec Stdio Loader

def Blank (s : List UInt8) : Prop := ∀ c ∈ s, isspace c = true
def Solid (s : List UInt8) : Prop := ∀ c ∈ s, isspace c = false

def Inline (s : List UInt8) : Prop := (10 : UInt8) ∉ s

instance (s : List UInt8) : Decidable (Blank s) := List.decidableBAll _ s
instance (s : List UInt8) : Decidable (Solid s) := List.decidableBAll _ s
instance (s : List UInt8) : Decidable (Inline s) := inferInstanceAs (Decidable (¬_))

structure Remark (s : List UInt8) : Prop where
  inline : Inline s
  apart : ∀ c ∈ s.head?, isspace c = true

structure Token (tok : List UInt8) : Prop where
  solid : Solid tok
  long : 4 ≤ tok.length
  header : ¬brain10 <+: tok
  data : ¬dataMark <+: tok

inductive Lines : List UInt8 → List (List UInt8) → Prop
  | done : Lines [] []
  | blank (pad rest : List UInt8) (toks : List (List UInt8)) (space : Blank pad)
      (inline : Inline pad) (h : Lines rest toks) : Lines (pad ++ 10 :: rest) toks
  | code (pad tok remark rest : List UInt8) (toks : List (List UInt8)) (space : Blank pad)
      (inline : Inline pad) (token : Token tok) (after : Remark remark) (h : Lines rest toks) :
      Lines (pad ++ (tok ++ (remark ++ 10 :: rest))) (tok :: toks)

structure Program where
  size : ℕ
  code : List (List UInt8)

inductive Body : List UInt8 → Program → Prop
  | mk (pad digits behind lines : List UInt8) (p : Program) (space : Blank pad)
      (inline : Inline pad) (some : digits ≠ []) (numeric : ∀ c ∈ digits, isdigit c = true)
      (value : decimal digits = p.size) (pos : 1 ≤ p.size) (space' : Blank behind)
      (inline' : Inline behind) (code : Lines lines p.code) (fits : p.code.length ≤ p.size) :
      Body (pad ++ (digits ++ (behind ++ 10 :: lines))) p

inductive Block : List UInt8 → Program → Prop
  | mk (comment body : List UInt8) (p : Program) (inline : Inline comment) (h : Body body p) :
      Block (brain10 ++ (comment ++ 10 :: body)) p

inductive Programs : List UInt8 → List Program → Prop
  | last (text comment : List UInt8) (p : Program) (h : Block text p) (inline : Inline comment) :
      Programs (text ++ (dataMark ++ (comment ++ [10]))) [p]
  | more (text rest : List UInt8) (p : Program) (ps : List Program) (h : Block text p)
      (k : Programs rest ps) : Programs (text ++ rest) (p :: ps)

theorem Lines.length_le {text : List UInt8} {toks : List (List UInt8)} (h : Lines text toks) :
    toks.length ≤ text.length := by
  induction h with
  | done => exact Nat.le_refl 0
  | blank pad rest toks space inline h ih =>
    rw [List.length_append, List.length_cons]
    omega
  | code pad tok remark rest toks space inline token after h ih =>
    simp only [List.length_append, List.length_cons]
    omega

theorem isspace_newline : isspace 10 = true := by decide

theorem Blank.nil : Blank [] := fun _ hc => absurd hc List.not_mem_nil

theorem Blank.line {pad : List UInt8} (h : Blank pad) : Blank (pad ++ [10]) := by
  intro c hc
  rcases List.mem_append.1 hc with hc | hc
  · exact h c hc
  · rw [List.mem_singleton.1 hc]
    exact isspace_newline

theorem Blank.append {s t : List UInt8} (h : Blank s) (k : Blank t) : Blank (s ++ t) := by
  intro c hc
  rcases List.mem_append.1 hc with hc | hc
  · exact h c hc
  · exact k c hc

theorem Solid.inline {s : List UInt8} (h : Solid s) : Inline s := by
  intro hc
  have := h 10 hc
  rw [isspace_newline] at this
  cases this

theorem Inline.append {s t : List UInt8} (h : Inline s) (k : Inline t) : Inline (s ++ t) :=
  fun hc => (List.mem_append.1 hc).elim h k

theorem skipLine_inline {s : List UInt8} (h : Inline s) (rest : List UInt8) :
    skipLine (s ++ 10 :: rest) = some rest := by
  induction s with
  | nil => rfl
  | cons c s ih =>
    have hc : c ≠ 10 := fun hc => h (hc ▸ List.mem_cons_self)
    rw [List.cons_append, skipLine, if_neg hc]
    exact ih fun hm => h (List.mem_cons_of_mem c hm)

theorem dropWhile_blank {s : List UInt8} (h : Blank s) (rest : List UInt8) :
    (s ++ rest).dropWhile isspace = rest.dropWhile isspace := by
  induction s with
  | nil => rfl
  | cons c s ih =>
    rw [List.cons_append, List.dropWhile_cons_of_pos (h c List.mem_cons_self)]
    exact ih fun d hd => h d (List.mem_cons_of_mem c hd)

theorem dropWhile_solid {s : List UInt8} (h : Solid s) (some : s ≠ []) (rest : List UInt8) :
    (s ++ rest).dropWhile isspace = s ++ rest := by
  cases s with
  | nil => exact absurd rfl some
  | cons c s =>
    rw [List.cons_append, List.dropWhile_cons_of_neg]
    rw [h c List.mem_cons_self]
    decide

theorem takeWhile_solid {s : List UInt8} (h : Solid s) (rest : List UInt8) :
    (s ++ rest).takeWhile (fun c => !isspace c) = s ++ rest.takeWhile fun c => !isspace c :=
  List.takeWhile_append_of_pos fun c hc => by rw [h c hc]; rfl

theorem takeWhile_line (s rest : List UInt8) :
    (s ++ 10 :: rest).takeWhile (fun c => !isspace c) = s.takeWhile fun c => !isspace c := by
  induction s with
  | nil => rfl
  | cons c s ih =>
    by_cases hc : isspace c
    · rw [List.cons_append, List.takeWhile_cons_of_neg (by simp [hc]),
        List.takeWhile_cons_of_neg (by simp [hc])]
    · rw [List.cons_append, List.takeWhile_cons_of_pos (by simp [hc]),
        List.takeWhile_cons_of_pos (by simp [hc]), ih]

/-- Scanning a line that starts with `mark` after blanks gives at most seven characters of
its first token, and the line is then skipped to its end. -/
theorem scan_line {pad mark comment : List UInt8} (space : Blank pad) (solid : Solid mark)
    (some : mark ≠ []) (inline : Inline comment) (rest : List UInt8) :
    ∃ left, scanToken 7 ⟨pad ++ (mark ++ (comment ++ 10 :: rest)), false⟩ =
        (Option.some ((mark ++ comment.takeWhile fun c => !isspace c).take 7), ⟨left, false⟩) ∧
      skipLine left = Option.some rest := by
  generalize htok : (mark ++ comment.takeWhile fun c => !isspace c).take 7 = tok
  have whole : ((mark ++ (comment ++ 10 :: rest)).takeWhile fun c => !isspace c).take 7 = tok := by
    rw [takeWhile_solid solid, takeWhile_line, htok]
  have short : tok.length ≤ (mark ++ comment).length := by
    have h1 : tok.length ≤ (mark ++ comment.takeWhile fun c => !isspace c).length := by
      rw [← htok]
      exact List.length_take_le' _ _
    have h2 := (List.takeWhile_sublist (fun c => !isspace c) (l := comment)).length_le
    rw [List.length_append] at h1 ⊢
    omega
  have left : (mark ++ (comment ++ 10 :: rest)).drop tok.length =
      (mark ++ comment).drop tok.length ++ 10 :: rest := by
    rw [← List.append_assoc, List.drop_append_of_le_length short]
  refine ⟨(mark ++ comment).drop tok.length ++ 10 :: rest, ?_, ?_⟩
  · rw [scanToken]
    simp only [dropWhile_blank space, dropWhile_solid solid some, whole, left]
    have nonempty : (mark ++ (comment ++ 10 :: rest)).isEmpty = false := by simp
    rw [nonempty]
    simp
  · apply skipLine_inline
    intro hc
    exact (solid.inline.append inline) (List.mem_of_mem_drop hc)

theorem isdigit_not_space {c : UInt8} (h : isdigit c = true) : isspace c = false := by
  simp only [isdigit, Bool.and_eq_true, decide_eq_true_eq, UInt8.le_iff_toNat_le] at h
  have lo : 48 ≤ c.toNat := h.1
  simp only [isspace, Bool.or_eq_false_iff, decide_eq_false_iff_not, Bool.and_eq_false_iff,
    ← UInt8.toNat_inj, UInt8.le_iff_toNat_le]
  change ¬c.toNat = 32 ∧ (¬9 ≤ c.toNat ∨ ¬c.toNat ≤ 13)
  omega

theorem isspace_not_digit {c : UInt8} (h : isspace c = true) : isdigit c = false := by
  by_contra hd
  rw [Bool.not_eq_false] at hd
  rw [isdigit_not_space hd] at h
  cases h

theorem takeWhile_digits {digits rest : List UInt8} (h : ∀ c ∈ digits, isdigit c = true)
    (stop : ∀ c ∈ rest.head?, isdigit c = false) : (digits ++ rest).takeWhile isdigit = digits := by
  rw [List.takeWhile_append_of_pos h]
  cases rest with
  | nil => simp
  | cons c rest =>
    have := stop c rfl
    rw [List.takeWhile_cons_of_neg (by simp [this]), List.append_nil]

theorem scan_number {pad digits behind : List UInt8} (space : Blank pad) (some : digits ≠ [])
    (numeric : ∀ c ∈ digits, isdigit c = true) (small : decimal digits < 4294967296)
    (space' : Blank behind) (rest : List UInt8) :
    scanUnsigned ⟨pad ++ (digits ++ (behind ++ 10 :: rest)), false⟩ =
      (Option.some (UInt32.ofNat (decimal digits)), ⟨behind ++ 10 :: rest, false⟩) := by
  have solid : Solid digits := fun c hc => isdigit_not_space (numeric c hc)
  have stop : ∀ c ∈ (behind ++ 10 :: rest).head?, isdigit c = false := by
    intro c hc
    apply isspace_not_digit
    cases behind with
    | nil =>
      obtain rfl : 10 = c := Option.some.inj hc
      exact isspace_newline
    | cons d behind =>
      obtain rfl : d = c := Option.some.inj hc
      exact space' d List.mem_cons_self
  have taken := takeWhile_digits numeric stop
  rw [scanUnsigned]
  simp only [dropWhile_blank space, dropWhile_solid solid some]
  cases digits with
  | nil => exact absurd rfl some
  | cons c digits =>
    have hc := numeric c List.mem_cons_self
    have minus : c ≠ 45 := by
      rintro rfl
      exact absurd hc (by decide)
    have plus : c ≠ 43 := by
      rintro rfl
      exact absurd hc (by decide)
    rw [List.cons_append] at taken ⊢
    simp only [minus, plus, if_false, taken]
    have value : unsignedValue false (c :: digits) = UInt32.ofNat (decimal (c :: digits)) := by
      rw [unsignedValue, if_neg (by omega)]
      rfl
    rw [value]
    simp

theorem loadHeader_body {pad digits behind : List UInt8} (space : Blank pad) (some : digits ≠ [])
    (numeric : ∀ c ∈ digits, isdigit c = true) (small : decimal digits ≤ 10000)
    (space' : Blank behind) (rest : List UInt8) :
    loadHeader ⟨pad ++ (digits ++ (behind ++ 10 :: rest)), false⟩ =
      ((decimal digits : ℤ), ⟨behind ++ 10 :: rest, false⟩) := by
  rw [loadHeader, scan_number space some numeric (by omega) space']
  have value : (UInt32.ofNat (decimal digits)).toBitVec.toInt = (decimal digits : ℤ) := by
    have nat : (UInt32.ofNat (decimal digits)).toBitVec.toNat = decimal digits := by
      change (UInt32.ofNat (decimal digits)).toNat = decimal digits
      rw [UInt32.toNat_ofNat']
      omega
    rw [BitVec.toInt_eq_toNat_cond, nat, if_pos (by omega)]
  simp only [value]

theorem brain10_solid : Solid brain10 := by decide
theorem dataMark_solid : Solid dataMark := by decide

end BrainMachine.ProgramText
