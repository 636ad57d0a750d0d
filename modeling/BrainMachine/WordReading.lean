import Mathlib.Data.List.TakeWhile
import BrainMachine.Stdio

set_option autoImplicit false

namespace BrainMachine.WordReading
open Codec Stdio

def letters (text : List UInt8) : List UInt8 := text.filter fun c => !isspace c

def behind : ℕ → List UInt8 → List UInt8
  | 0, text => text
  | _ + 1, [] => []
  | n + 1, c :: cs => if isspace c then behind (n + 1) cs else behind n cs

def readWords : ℕ → Stream → List Word × Stream
  | 0, s => ([], s)
  | k + 1, s =>
    let r := readWord s
    let rs := readWords k r.2
    (r.1 :: rs.1, rs.2)

def word (l : List UInt8) : Word := ⟨l.getD 0 0, l.getD 1 0, l.getD 2 0, l.getD 3 0⟩

def groups : ℕ → List UInt8 → List Word
  | 0, _ => []
  | k + 1, l => word l :: groups k (l.drop 4)

section
variable {text cs : List UInt8} {c : UInt8}

theorem letters_space (blank : isspace c = true) (cs : List UInt8) :
    letters (c :: cs) = letters cs := by
  simp [letters, blank]

theorem letters_letter (letter : isspace c = false) (cs : List UInt8) :
    letters (c :: cs) = c :: letters cs := by
  simp [letters, letter]

theorem letters_append (l t : List UInt8) : letters (l ++ t) = letters l ++ letters t :=
  List.filter_append l t

theorem behind_zero (text : List UInt8) : behind 0 text = text := by
  cases text <;> rfl

theorem behind_space (blank : isspace c = true) (n : ℕ) (cs : List UInt8) :
    behind (n + 1) (c :: cs) = behind (n + 1) cs := by
  rw [behind, if_pos blank]

theorem behind_letter (letter : isspace c = false) (n : ℕ) (cs : List UInt8) :
    behind (n + 1) (c :: cs) = behind n cs := by
  rw [behind, letter]
  rfl

theorem letters_behind (n : ℕ) (text : List UInt8) :
    letters (behind n text) = (letters text).drop n := by
  induction text generalizing n with
  | nil => cases n <;> rfl
  | cons c cs ih =>
    cases n with
    | zero => rfl
    | succ n =>
      cases blank : isspace c with
      | true => rw [behind_space blank, letters_space blank, ih]
      | false => rw [behind_letter blank, letters_letter blank, ih, List.drop_succ_cons]

theorem behind_behind (m n : ℕ) (text : List UInt8) :
    behind m (behind n text) = behind (n + m) text := by
  induction text generalizing n with
  | nil => cases n <;> cases m <;> rfl
  | cons c cs ih =>
    cases n with
    | zero => rw [Nat.zero_add]; rfl
    | succ n =>
      cases blank : isspace c with
      | true => rw [behind_space blank, ih, Nat.succ_add, behind_space blank]
      | false => rw [behind_letter blank, ih, Nat.succ_add, behind_letter blank]

theorem mem_behind {n : ℕ} (hc : c ∈ behind n text) : c ∈ text := by
  induction text generalizing n with
  | nil => cases n <;> cases hc
  | cons d cs ih =>
    cases n with
    | zero => exact hc
    | succ n =>
      rw [behind] at hc
      split at hc
      · exact List.mem_cons_of_mem _ (ih hc)
      · exact List.mem_cons_of_mem _ (ih hc)

theorem letters_dropWhile (text : List UInt8) :
    letters (text.dropWhile isspace) = letters text := by
  induction text with
  | nil => rfl
  | cons c cs ih =>
    cases blank : isspace c with
    | true => rw [List.dropWhile_cons_of_pos blank, ih, letters_space blank]
    | false => rw [List.dropWhile_cons_of_neg (by simp [blank])]

theorem behind_dropWhile (n : ℕ) (text : List UInt8) :
    behind (n + 1) (text.dropWhile isspace) = behind (n + 1) text := by
  induction text with
  | nil => rfl
  | cons c cs ih =>
    cases blank : isspace c with
    | true => rw [List.dropWhile_cons_of_pos blank, ih, behind_space blank]
    | false => rw [List.dropWhile_cons_of_neg (by simp [blank])]

theorem letters_self {tok : List UInt8} (h : ∀ c ∈ tok, isspace c = false) : letters tok = tok :=
  List.filter_eq_self.2 fun c hc => by simp [h c hc]

theorem behind_token {tok : List UInt8} (h : ∀ c ∈ tok, isspace c = false) (n : ℕ)
    (left : List UInt8) : behind (tok.length + n) (tok ++ left) = behind n left := by
  induction tok with
  | nil => rw [List.length_nil, Nat.zero_add, List.nil_append]
  | cons c tok ih =>
    rw [List.length_cons, Nat.succ_add, List.cons_append,
      behind_letter (h c List.mem_cons_self), ih fun d hd => h d (List.mem_cons_of_mem _ hd)]

/-- The loop fills the buffer from `len` on with the letters that follow. -/
theorem pullChars_run {buf : List UInt8} {len : ℕ} (short : len < 4) (room : buf.length = 5)
    (enough : 4 ≤ len + (letters text).length) :
    pullChars buf len false text =
      (buf.take len ++ ((letters text).take (4 - len) ++ buf.drop 4),
        ⟨behind (4 - len) text, false⟩) := by
  induction text generalizing buf len with
  | nil =>
    rw [show letters [] = [] from rfl, List.length_nil] at enough
    omega
  | cons c cs ih =>
    obtain ⟨m, hm⟩ : ∃ m, 4 - len = m + 1 := ⟨3 - len, by omega⟩
    rw [pullChars]
    cases blank : isspace c with
    | true =>
      rw [letters_space blank] at enough ⊢
      rw [if_pos rfl, ih short room enough, hm, behind_space blank]
    | false =>
      rw [letters_letter blank, List.length_cons] at enough
      have put : buf.set len c = buf.take len ++ c :: buf.drop (len + 1) := by
        rw [List.set_eq_take_append_cons_drop, if_pos (by omega)]
      have filled : (buf.set len c).take (len + 1) = buf.take len ++ [c] := by
        rw [put, List.take_append, List.take_of_length_le (by simp)]
        simp [room, Nat.min_eq_left (Nat.le_of_lt (Nat.lt_succ_of_lt short))]
      rw [if_neg Bool.false_ne_true, letters_letter blank, hm, behind_letter blank,
        List.take_succ_cons]
      split
      · rename_i next
        rw [ih next (by rw [List.length_set, room]) (by omega), filled,
          List.drop_set_of_lt short, show 4 - (len + 1) = m by omega, List.append_assoc]
        rfl
      · obtain rfl : len = 3 := by omega
        obtain rfl : m = 0 := by omega
        rw [put, List.take_zero, behind_zero]
        rfl

theorem strlen_self {tok : List UInt8} (h : (0 : UInt8) ∉ tok) : strlen tok = tok.length := by
  rw [strlen, List.takeWhile_eq_self_iff.2]
  intro c hc
  simpa using fun zero : c = 0 => h (zero ▸ hc)

/-- The token is the part of the next word in front of white space. -/
theorem scanToken_run (inhabited : letters text ≠ []) :
    ∃ tok left, text.dropWhile isspace = tok ++ left ∧ (∀ c ∈ tok, isspace c = false) ∧
      tok.length ≤ 4 ∧ scanToken 4 ⟨text, false⟩ =
        (some tok, ⟨left, left.isEmpty && decide (tok.length < 4)⟩) := by
  have start : text.dropWhile isspace ≠ [] := by
    intro none
    rw [← letters_dropWhile, none] at inhabited
    exact inhabited rfl
  have front := (List.take_prefix 4 _).trans
    (List.takeWhile_prefix (l := text.dropWhile isspace) fun c => !isspace c)
  refine ⟨_, _, (List.prefix_iff_eq_append.1 front).symm, fun c hc => ?_,
    List.length_take_le _ _, ?_⟩
  · simpa using List.mem_takeWhile_imp (List.mem_of_mem_take hc)
  · rw [scanToken]
    simp only [List.isEmpty_iff, start, if_false, Bool.false_or]

theorem word_take {l : List UInt8} (enough : 4 ≤ l.length) (t : List UInt8) :
    word (l.take 4 ++ t) = word l := by
  have same (i : ℕ) (hi : i < 4) : (l.take 4 ++ t).getD i 0 = l.getD i 0 := by
    have inside : i < (l.take 4).length := by
      rw [List.length_take]
      omega
    rw [List.getD_eq_getElem?_getD, List.getD_eq_getElem?_getD,
      List.getElem?_append_left inside, List.getElem?_take_of_lt hi]
  rw [word, word, same 0 (by decide), same 1 (by decide), same 2 (by decide), same 3 (by decide)]

theorem readWord_run (zeros : (0 : UInt8) ∉ text) (enough : 4 ≤ (letters text).length) :
    readWord ⟨text, false⟩ = (word (letters text), ⟨behind 4 text, false⟩) := by
  have inhabited : letters text ≠ [] := by
    intro none
    rw [none] at enough
    exact absurd enough (by decide)
  obtain ⟨tok, left, split, solid, short, scan⟩ := scanToken_run inhabited
  have clean : (0 : UInt8) ∉ tok := fun h => zeros <|
    (List.dropWhile_suffix isspace).subset (split ▸ List.mem_append_left _ h)
  have text_letters : letters text = tok ++ letters left := by
    rw [← letters_dropWhile, split, letters_append, letters_self solid]
  have text_behind : behind 4 text = behind (4 - tok.length) left := by
    have token := behind_token solid (4 - tok.length) left
    rw [Nat.add_sub_cancel' short] at token
    rw [← behind_dropWhile, split, token]
  have first_four : (letters text).take 4 = tok ++ (letters left).take (4 - tok.length) := by
    rw [text_letters, List.take_append, List.take_of_length_le short]
  let buf := (tok ++ [0, 0, 0, 0, 0]).take 5
  have room : buf.length = 5 := by simp [buf]
  have start : buf.take tok.length = tok := by
    rw [List.take_take, Nat.min_eq_left (Nat.le_succ_of_le short), List.take_left]
  have filled : (if tok.length < 4
      then pullChars buf tok.length (left.isEmpty && decide (tok.length < 4)) left
      else (buf, ⟨left, left.isEmpty && decide (tok.length < 4)⟩)) =
        ((letters text).take 4 ++ buf.drop 4, ⟨behind 4 text, false⟩) := by
    rw [first_four, text_behind, List.append_assoc]
    split
    · rename_i part
      have more : 4 ≤ tok.length + (letters left).length := by
        rw [text_letters, List.length_append] at enough
        exact enough
      have some : left.isEmpty = false := by
        cases left with
        | nil => exact absurd (Nat.lt_of_lt_of_le part more) (Nat.lt_irrefl _)
        | cons c left => rfl
      rw [some, Bool.false_and, pullChars_run part room more, start]
    · have whole : tok.length = 4 := by omega
      rw [whole] at start
      rw [whole, Nat.sub_self, List.take_zero, behind_zero, List.nil_append]
      conv_lhs => rw [← List.take_append_drop 4 buf, start]
      simp
  have result := congrArg (fun r : List UInt8 × Stream => (word r.1, r.2)) filled
  rw [word_take enough] at result
  rw [readWord, scan]
  simp only [Option.getD_some, strlen_self clean]
  exact result

theorem readWords_run (k : ℕ) (zeros : (0 : UInt8) ∉ text)
    (enough : 4 * k ≤ (letters text).length) :
    readWords k ⟨text, false⟩ = (groups k (letters text), ⟨behind (4 * k) text, false⟩) := by
  induction k generalizing text with
  | zero => rw [Nat.mul_zero, behind_zero, readWords, groups]
  | succ k ih =>
    have rest : 4 * k ≤ (letters (behind 4 text)).length := by
      rw [letters_behind, List.length_drop]
      omega
    have later := ih (fun h => zeros (mem_behind h)) rest
    rw [letters_behind, behind_behind, Nat.add_comm 4, ← Nat.mul_succ] at later
    rw [readWords, readWord_run zeros (by omega), later, groups]

/-- Words are read independently of layout: as long as there are enough letters, `k` calls
return the first `4 * k` of them in groups of four and leave what is behind the last one.
Texts with the same letters give the same words. -/
theorem readWords_groups (text : List UInt8) (k : ℕ) (zeros : (0 : UInt8) ∉ text)
    (enough : 4 * k ≤ (letters text).length) :
    readWords k ⟨text, false⟩ = (groups k (letters text), ⟨behind (4 * k) text, false⟩) ∧
      ∀ other, (0 : UInt8) ∉ other → letters other = letters text →
        (readWords k ⟨other, false⟩).1 = (readWords k ⟨text, false⟩).1 := by
  refine ⟨readWords_run k zeros enough, fun other zeros' same => ?_⟩
  rw [readWords_run k zeros enough, readWords_run k zeros' (same ▸ enough), same]

/-- Two words, with blanks and line ends inside. -/
theorem readWords_groups_split :
    (readWords 2 ⟨bytes "AB C\nD 12\n 34\nrest", false⟩).1 =
      (readWords 2 ⟨bytes "ABCD1234 rest", false⟩).1 := by
  have run := readWords_groups (bytes "ABCD1234 rest") 2 (by decide) (by decide)
  exact run.2 (bytes "AB C\nD 12\n 34\nrest") (by decide) (by decide)

end
end BrainMachine.WordReading
