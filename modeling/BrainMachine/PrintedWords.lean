import BrainMachine.BootedPrograms
import BrainMachine.FlatRefinement
import BrainMachine.WordReading

set_option autoImplicit false

namespace BrainMachine.PrintedWords
open Codec Stdio Paging AddressSpace Instructions RunQueue Machine Dispatch Effects Runs MachineRuns
open SortedTree References MachineMemory ReferenceBalance ProcessImages TickSteps FlatMachine
open FlatRefinement Simulations Loader ProgramText ProgramReading LoaderFormat
open BootedPrograms

def lines (ws : List Word) : List UInt8 := ws.flatMap fun w => wordBytes w ++ [10]

structure Readable (w : Word) : Prop where
  letters : ∀ c ∈ wordBytes w, isspace c = false
  nonzero : ∀ c ∈ wordBytes w, c ≠ 0
  more : isEnd w = false

instance (w : Word) : Decidable (Readable w) :=
  decidable_of_iff ((wordBytes w).all (fun c => !isspace c && c != 0) = true ∧ isEnd w = false)
    ⟨fun h => by
      have each := List.all_eq_true.1 h.1
      simp only [Bool.and_eq_true, Bool.not_eq_true', bne_iff_ne] at each
      exact ⟨fun c hc => (each c hc).1, fun c hc => (each c hc).2, h.2⟩,
    fun h => ⟨List.all_eq_true.2 fun c hc => by simp [h.letters c hc, h.nonzero c hc], h.more⟩⟩

section
variable {w : Word} {lead rest : List UInt8}

theorem lines_cons (w : Word) (ws : List Word) :
    lines (w :: ws) = wordBytes w ++ 10 :: lines ws := by
  simp [lines]

theorem lines_append (ws us : List Word) : lines (ws ++ us) = lines ws ++ lines us :=
  List.flatMap_append

theorem scanToken_line (h : Readable w) (blank : Blank lead) :
    scanToken 4 ⟨lead ++ (wordBytes w ++ 10 :: rest), false⟩ =
      (some (wordBytes w), ⟨10 :: rest, false⟩) := by
  have solid (c : UInt8) (hc : c ∈ wordBytes w) : (!isspace c) = true := by
    rw [h.letters c hc]
    rfl
  have start : (lead ++ (wordBytes w ++ 10 :: rest)).dropWhile isspace =
      wordBytes w ++ 10 :: rest := by
    rw [List.dropWhile_append_of_pos blank]
    exact List.dropWhile_cons_of_neg (by simp [h.letters w.b0 (by simp [wordBytes])])
  have token : (wordBytes w ++ 10 :: rest).takeWhile (fun c => !isspace c) = wordBytes w := by
    rw [List.takeWhile_append_of_pos solid, List.takeWhile_cons_of_neg (by decide),
      List.append_nil]
  have four : (wordBytes w).take 4 = wordBytes w := rfl
  have behind : (wordBytes w ++ 10 :: rest).drop (wordBytes w).length = 10 :: rest :=
    List.drop_left
  rw [scanToken, start]
  simp only [token, four, behind]
  rfl

/-- `read_word` takes the word and stops at the end of its line. -/
theorem readWord_line (h : Readable w) (blank : Blank lead) :
    readWord ⟨lead ++ (wordBytes w ++ 10 :: rest), false⟩ = (w, ⟨10 :: rest, false⟩) := by
  have full : strlen (wordBytes w) = 4 := WordReading.strlen_self fun zero => h.nonzero 0 zero rfl
  rw [readWord, scanToken_line h blank]
  simp only [full]
  rfl

end

section
variable {c d : Image} {a : ℤ}

def wordsAt (f : ℕ → Word) : ℤ → ℕ → List Word
  | _, 0 => []
  | a, n + 1 => f a.toNat :: wordsAt f (a + 1) n

theorem get_some {w : Word} (h : c.get a = some w) :
    0 ≤ a ∧ a ≤ c.limit ∧ c.words a.toNat = w := by
  rw [Image.get] at h
  split at h
  · rename_i inside
    exact ⟨inside.1, inside.2, Option.some.inj h⟩
  · cases h

theorem set_some {w : Word} (h : c.set a w = some d) :
    0 ≤ a ∧ a ≤ c.limit ∧ d = { c with words := Function.update c.words a.toNat w } := by
  rw [Image.set] at h
  split at h
  · rename_i inside
    exact ⟨inside.1, inside.2, (Option.some.inj h).symm⟩
  · cases h

theorem wordsAt_congr {f g : ℕ → Word} (n : ℕ)
    (same : ∀ v : ℤ, a ≤ v → v < a + n → f v.toNat = g v.toNat) :
    wordsAt f a n = wordsAt g a n := by
  induction n generalizing a with
  | zero => rfl
  | succ n ih =>
    rw [wordsAt, wordsAt, same a le_rfl (by omega), ih fun v h0 h1 => same v (by omega) (by omega)]

/-- The words of the printed range go to the output, each on a line. -/
theorem print_lines (n i : ℕ) (h : turns (printTurn a) n i c = some d) :
    d.stdin = c.stdin ∧ d.stdout = c.stdout ++ lines (wordsAt c.words (a + i) n) ∧
      ∀ v : ℤ, a + i ≤ v → v < a + i + n → 0 ≤ v ∧ v ≤ c.limit := by
  induction n generalizing i c with
  | zero =>
    obtain rfl := Option.some.inj h
    exact ⟨rfl, (List.append_nil _).symm, fun v h0 h1 => by omega⟩
  | succ n ih =>
    rw [turns] at h
    obtain ⟨b, hb, h⟩ := Option.bind_eq_some_iff.1 h
    obtain ⟨w, hw, rfl⟩ := Option.map_eq_some_iff.1 hb
    obtain ⟨stdin, stdout, range⟩ := ih (i + 1) h
    obtain ⟨low, high, here⟩ := get_some hw
    refine ⟨stdin, stdout.trans ?_, fun v h0 h1 => ?_⟩
    · rw [wordsAt, here, lines_cons, Nat.cast_succ, ← add_assoc, List.append_assoc,
        List.append_assoc]
      rfl
    · by_cases first : v = a + i
      · subst first
        exact ⟨low, high⟩
      · exact range v (by omega) (by omega)

/-- The words that are read come from the lines, one after the other. -/
theorem read_lines {lead rest : List UInt8} {ws : List Word} (i : ℕ) (blank : Blank lead)
    (readable : ∀ w ∈ ws, Readable w) (stdin : c.stdin = ⟨lead ++ (lines ws ++ rest), false⟩)
    (h : turns (readTurn a) ws.length i c = some d) :
    (∃ lead, Blank lead ∧ d.stdin = ⟨lead ++ rest, false⟩) ∧
      wordsAt d.words (a + i) ws.length = ws ∧
      (∀ v : ℕ, (v : ℤ) < a + i → d.words v = c.words v) ∧
      ∀ v : ℤ, a + i ≤ v → v < a + i + ws.length → 0 ≤ v ∧ v ≤ c.limit := by
  induction ws generalizing i lead c with
  | nil =>
    obtain rfl := Option.some.inj h
    refine ⟨⟨lead, blank, stdin⟩, rfl, fun _ _ => rfl, fun v h0 h1 => ?_⟩
    rw [List.length_nil] at h1
    omega
  | cons w ws ih =>
    have first := readable w List.mem_cons_self
    rw [lines_cons, List.append_assoc, List.cons_append] at stdin
    have word : readWord c.stdin = (w, ⟨10 :: (lines ws ++ rest), false⟩) := by
      rw [stdin]
      exact readWord_line first blank
    rw [List.length_cons, turns] at h
    obtain ⟨b, hb, h⟩ := Option.bind_eq_some_iff.1 h
    rw [readTurn, word] at hb
    simp only [first.more, Bool.false_eq_true, if_false] at hb
    obtain ⟨low, high, rfl⟩ := set_some hb
    have newline : Blank [10] := by decide
    obtain ⟨left, later, kept, range⟩ := ih (i + 1) newline
      (fun u hu => readable u (List.mem_cons_of_mem w hu)) rfl h
    have next : a + i + 1 = a + (i + 1 : ℕ) := by
      rw [Nat.cast_succ, add_assoc]
    refine ⟨left, ?_, fun v hv => ?_, fun v h0 h1 => ?_⟩
    · rw [List.length_cons, wordsAt, next, later, kept _ (by omega)]
      exact congrArg (· :: ws) (Function.update_self ..)
    · rw [kept v (by omega)]
      exact Function.update_of_ne (by omega) ..
    · rw [List.length_cons] at h1
      by_cases here : v = a + i
      · subst here
        exact ⟨low, high⟩
      · exact range v (by omega) (by omega)

theorem read_silent (n i : ℕ) (h : turns (readTurn a) n i c = some d) : d.stdout = c.stdout := by
  induction n generalizing i c with
  | zero =>
    obtain rfl := Option.some.inj h
    rfl
  | succ n ih =>
    rw [turns] at h
    obtain ⟨b, hb, h⟩ := Option.bind_eq_some_iff.1 h
    have turn : b.stdout = c.stdout := by
      rw [readTurn] at hb
      split at hb
      · cases hb
      · split at hb
        · cases hb
        · obtain ⟨-, -, rfl⟩ := set_some hb
          rfl
    exact (ih (i + 1) h).trans turn

def Silent (f : Image → Option Image) : Prop := ∀ c d, f c = some d →
  d.stdin = c.stdin ∧ d.stdout = c.stdout

theorem silent_regs (f : Regs → Regs) : Silent fun c => some (c.setRegs f) := by
  intro c d h
  obtain rfl := Option.some.inj h
  exact ⟨rfl, rfl⟩

theorem silent_load (f : Word → Regs → Regs) (a : ℤ) : Silent (load f a) := by
  intro c d h
  obtain ⟨w, -, rfl⟩ := Option.map_eq_some_iff.1 h
  exact ⟨rfl, rfl⟩

theorem silent_registerOp (op : Char) (a : ℤ) : Silent (registerOp op a) := by
  intro c d h
  obtain ⟨w, -, h⟩ := Option.bind_eq_some_iff.1 h
  split at h
  · cases h
  · obtain rfl := Option.some.inj h
    exact ⟨rfl, rfl⟩

theorem silent_stackWords (op : Char) : Silent (stackWords op) := by
  intro c d h
  rw [stackWords] at h
  split at h
  · cases h
  · obtain ⟨top, -, h⟩ := Option.bind_eq_some_iff.1 h
    obtain ⟨next, -, h⟩ := Option.bind_eq_some_iff.1 h
    split at h
    · cases h
    · obtain ⟨-, -, rfl⟩ := set_some h
      exact ⟨rfl, rfl⟩

theorem silent_push : Silent pushWord := by
  intro c d h
  rw [pushWord] at h
  split at h
  · cases h
  · obtain ⟨-, -, rfl⟩ := set_some h
    exact ⟨rfl, rfl⟩

theorem silent_pop : Silent popWord := by
  intro c d h
  rw [popWord] at h
  split at h
  · obtain rfl := Option.some.inj h
    exact ⟨rfl, rfl⟩
  · obtain ⟨w, -, rfl⟩ := Option.map_eq_some_iff.1 h
    exact ⟨rfl, rfl⟩

theorem silent_step {op : Op} (read : op ≠ .GD) (print : op ≠ .PD) (pid : ℕ) (a : ℤ) :
    Silent (step op pid a) := by
  cases op
  case SD | RC | PE | VE | FK | EX | HA =>
    intro c d h
    cases h
  case GD => exact absurd rfl read
  case PD => exact absurd rfl print
  case LR | LL | LH | CE | CL => exact silent_load _ a
  case SP | PS | BU | GP => exact silent_regs _
  case AD | SU | MI | DI => exact silent_registerOp _ a
  case AS | SS | MS | DS => exact silent_stackWords _
  case PH => exact silent_push
  case PP => exact silent_pop
  case SR =>
    intro c d h
    obtain ⟨-, -, rfl⟩ := set_some h
    exact ⟨rfl, rfl⟩
  case BT =>
    intro c d h
    obtain rfl := Option.some.inj h
    split <;> exact ⟨rfl, rfl⟩
  case NP =>
    intro c d h
    obtain rfl := Option.some.inj h
    exact ⟨rfl, rfl⟩
  case SI =>
    intro c d h
    rw [step] at h
    split at h
    · cases h
    · obtain rfl := Option.some.inj h
      exact ⟨rfl, rfl⟩
  case LS | ST =>
    intro c d h
    obtain ⟨x, -, rfl⟩ := Option.map_eq_some_iff.1 h
    exact ⟨rfl, rfl⟩

end

section
variable {T : Type} {p : ℕ} {a : ℤ} {m u : Flat T}

def Mute (m u : Flat T) : Prop := u.stdin = m.stdin ∧ u.stdout = m.stdout

theorem copyWords_mute {q r : Seg} {l k : ℤ} {n : ℕ} (h : m.copyWords q r l k n = some u) :
    Mute m u := by
  rw [Flat.copyWords] at h
  split at h
  · obtain rfl := Option.some.inj h
    exact ⟨rfl, rfl⟩
  · cases h

theorem fetched_words (q : ℕ) (s : Sched T) :
    (({ m.setRegs q advance with sched := s } : Flat T).image q).words = (m.image q).words := by
  have seg : ({ m.setRegs q advance with sched := s } : Flat T).seg q = m.seg q :=
    setRegs_seg q q advance m
  funext v
  simp only [Flat.image, seg]
  rfl

theorem setImage_words {c : Image} {v : ℕ} (h : (v : ℤ) ≤ word2int (m.seg p).lr) :
    ((m.setImage p c).image p).words v = c.words v := by
  have seg : (m.setImage p c).seg p = m.seg p := setRegs_seg p p (fun _ => c.regs) m
  have inside : Inside (m.seg p) ((word2int (m.seg p).br).toNat + v) := by
    constructor <;> omega
  simp only [Flat.image, seg, h, if_true]
  exact (if_pos inside).trans (congrArg c.words (Nat.add_sub_cancel_left ..))

variable [RedBlackTree T]

theorem send_mute (h : m.send p a = some u) : Mute m u := by
  rw [Flat.send] at h
  split at h
  · cases h
  · obtain ⟨s, -, h⟩ := Option.bind_eq_some_iff.1 h
    split at h
    · obtain ⟨t, -, rfl⟩ := Option.map_eq_some_iff.1 h
      exact ⟨rfl, rfl⟩
    · obtain rfl := Option.some.inj h
      exact ⟨rfl, rfl⟩

theorem receive_mute (h : m.receive p a = some u) : Mute m u := by
  rw [Flat.receive] at h
  split at h
  · cases h
  · split at h
    · obtain ⟨t, -, rfl⟩ := Option.map_eq_some_iff.1 h
      exact ⟨rfl, rfl⟩
    · obtain ⟨c, copy, h⟩ := Option.bind_eq_some_iff.1 h
      obtain ⟨t, -, rfl⟩ := Option.map_eq_some_iff.1 h
      exact (copyWords_mute copy :)

theorem down_mute (h : m.down p a = some u) : Mute m u := by
  simp only [Flat.down] at h
  split at h
  · cases h
  · split at h
    · obtain ⟨t, -, rfl⟩ := Option.map_eq_some_iff.1 h
      exact ⟨rfl, rfl⟩
    · obtain rfl := Option.some.inj h
      exact ⟨rfl, rfl⟩

theorem up_mute (h : m.up a = some u) : Mute m u := by
  simp only [Flat.up] at h
  split at h
  · cases h
  · split at h
    · obtain rfl := Option.some.inj h
      exact ⟨rfl, rfl⟩
    · obtain ⟨t, -, rfl⟩ := Option.map_eq_some_iff.1 h
      exact ⟨rfl, rfl⟩

theorem fork_mute (h : m.fork p = some u) : Mute m u := by
  rw [Flat.fork] at h
  split at h
  · cases h
  · obtain ⟨c, copy, h⟩ := Option.bind_eq_some_iff.1 h
    obtain ⟨s, -, h⟩ := Option.bind_eq_some_iff.1 h
    obtain ⟨t, -, rfl⟩ := Option.map_eq_some_iff.1 h
    exact (copyWords_mute copy :)

theorem halt_mute (h : m.halt p = some u) : Mute m u := by
  rw [Flat.halt] at h
  obtain ⟨s, -, h⟩ := Option.bind_eq_some_iff.1 h
  obtain ⟨t, -, rfl⟩ := Option.map_eq_some_iff.1 h
  exact ⟨rfl, rfl⟩

theorem execute_mute {op : Op} (read : op ≠ .GD) (print : op ≠ .PD)
    (h : m.execute op p a = some u) : Mute m u := by
  cases hop : op.instruction with
  | some i =>
    rw [execute_instruction hop] at h
    obtain ⟨c, done, rfl⟩ := Option.map_eq_some_iff.1 h
    exact silent_step read print _ a _ _ done
  | none =>
    cases op <;> cases hop
    case none.SD.refl => exact send_mute h
    case none.RC.refl => exact receive_mute h
    case none.PE.refl => exact down_mute h
    case none.VE.refl => exact up_mute h
    case none.FK.refl => exact fork_mute h
    case none.EX.refl => cases h
    case none.HA.refl => exact halt_mute h

theorem tick_executes {q : ℕ} {op : Op} (h : m.tick = some (.instr q op a, u)) :
    (({ m.setRegs q advance with sched := account m.sched } : Flat T).execute op q a) = some u := by
  rw [Flat.tick] at h
  split at h
  · obtain ⟨w, -, h⟩ := Option.bind_eq_some_iff.1 h
    obtain ⟨o, -, h⟩ := Option.bind_eq_some_iff.1 h
    obtain ⟨v, done, same⟩ := Option.map_eq_some_iff.1 h
    obtain ⟨lab, rfl⟩ := Prod.mk.inj same
    obtain ⟨rfl, rfl, rfl⟩ := Label.instr.inj lab
    exact done
  · cases h

theorem tick_prints (h : m.tick = some (.instr p .PD a, u)) : u.stdin = m.stdin ∧
    u.stdout = m.stdout ++ lines (wordsAt (m.image p).words a 10) := by
  obtain ⟨c, done, rfl⟩ := Option.map_eq_some_iff.1 (tick_executes h)
  obtain ⟨stdin, stdout, -⟩ := print_lines 10 0 done
  rw [Nat.cast_zero, add_zero, fetched_words] at stdout
  exact ⟨stdin, stdout⟩

/-- The words that GD stores, when the input has ten lines of readable words to come. -/
theorem tick_reads {lead rest : List UInt8} {ws : List Word} (blank : Blank lead)
    (readable : ∀ w ∈ ws, Readable w) (ten : ws.length = 10)
    (stdin : m.stdin = ⟨lead ++ (lines ws ++ rest), false⟩)
    (h : m.tick = some (.instr p .GD a, u)) :
    (∃ lead, Blank lead ∧ u.stdin = ⟨lead ++ rest, false⟩) ∧
      wordsAt (u.image p).words a 10 = ws := by
  obtain ⟨c, done, rfl⟩ := Option.map_eq_some_iff.1 (tick_executes h)
  have loop := done
  rw [ProcessImages.step, ← ten] at loop
  obtain ⟨left, words, -, range⟩ := read_lines 0 blank readable stdin loop
  refine ⟨left, ?_⟩
  rw [Nat.cast_zero, add_zero, ten] at words range
  rw [← words]
  refine wordsAt_congr 10 fun v h0 h1 => setImage_words ?_
  obtain ⟨low, high⟩ := range v h0 h1
  rwa [Int.toNat_of_nonneg low]

theorem tick_silent (h : m.tick = some (.instr p .GD a, u)) : u.stdout = m.stdout := by
  obtain ⟨c, done, rfl⟩ := Option.map_eq_some_iff.1 (tick_executes h)
  exact read_silent 10 0 done

theorem tick_mute {op : Op} (read : op ≠ .GD) (print : op ≠ .PD)
    (h : m.tick = some (.instr p op a, u)) : Mute m u :=
  (execute_mute read print (tick_executes h) :)

theorem next_instr {c d : Boundary T} {op : Op} (h : next c = some (.instr p op a, d)) :
    c.machine.tick = some (.instr p op a, d.machine) := by
  rw [FlatMachine.next] at h
  split at h
  · cases h
  · split at h
    · obtain ⟨r, tick, same⟩ := Option.map_eq_some_iff.1 h
      obtain ⟨lab, rfl⟩ := Prod.mk.inj same
      rw [tick, ← lab]
    · obtain ⟨s, -, same⟩ := Option.map_eq_some_iff.1 h
      cases same

theorem next_slice {c d : Boundary T} (h : next c = some (.slice, d)) :
    Mute c.machine d.machine := by
  rw [FlatMachine.next] at h
  split at h
  · cases h
  · split at h
    · obtain ⟨⟨l, u⟩, tick, same⟩ := Option.map_eq_some_iff.1 h
      obtain ⟨lab, -⟩ := Prod.mk.inj same
      rw [Flat.tick] at tick
      split at tick
      · obtain ⟨w, -, tick⟩ := Option.bind_eq_some_iff.1 tick
        obtain ⟨o, -, tick⟩ := Option.bind_eq_some_iff.1 tick
        obtain ⟨v, -, same⟩ := Option.map_eq_some_iff.1 tick
        cases (Prod.mk.inj same).1.trans lab
      · cases tick
    · obtain ⟨s, -, same⟩ := Option.map_eq_some_iff.1 h
      obtain ⟨-, rfl⟩ := Prod.mk.inj same
      exact ⟨rfl, rfl⟩

end

section
variable {T : Type} [RedBlackTree T]

def spoken (m : VM T) : Label → List Word
  | .instr p .PD a => wordsAt (picture m p).words a 10
  | _ => []

def said (e : Execution T) : ℕ → List Word
  | 0 => []
  | n + 1 => said e n ++ spoken (e.vm n) (e.lab n)

def asked (e : Execution T) : ℕ → ℕ
  | 0 => 0
  | n + 1 => asked e n + if executed (e.lab n) = some .GD then 1 else 0

omit [RedBlackTree T] in
theorem spoken_other (m : VM T) {op : Op} (h : op ≠ .PD) (p : ℕ) (a : ℤ) :
    spoken m (.instr p op a) = [] := by
  cases op
  case PD => exact absurd rfl h
  all_goals rfl

theorem loads_stdout {m u : VM T} (h : Loads m u) : u.store.stdout = m.store.stdout := by
  induction h with
  | start => rfl
  | turn w n a b f s t h hn pos room block reset resume ih => exact ih

theorem output {e : Execution T} (closed : Closed e) (n : ℕ) (hn : n ≤ e.len) :
    (e.vm n).store.stdout = lines (said e n) := by
  induction n with
  | zero =>
    obtain ⟨pager, u, fh, -, loads, start⟩ := e.loads
    rw [start]
    exact loads_stdout loads
  | succ n ih =>
    have turn := closed.refines n hn
    have before : (flat (e.st n)).machine.stdout = lines (said e n) := ih (by omega)
    rw [said, lines_append, ← before]
    cases lab : e.lab n with
    | slice =>
      rw [lab] at turn
      exact (next_slice turn).2.trans (List.append_nil _).symm
    | instr p op a =>
      rw [lab] at turn
      have tick := next_instr turn
      by_cases print : op = .PD
      · subst print
        exact (tick_prints tick).2
      · rw [spoken_other (e.vm n) print p a]
        refine Eq.trans ?_ (List.append_nil _).symm
        by_cases read : op = .GD
        · subst read
          exact tick_silent tick
        · exact (tick_mute read print tick).2

def toCome (f : Execution T) (ws : List Word) (n : ℕ) : List Word := ws.drop (10 * asked f n)

theorem keeps_input {f : Execution T} (closed : Closed f) {n : ℕ} (hn : n < f.len)
    (other : executed (f.lab n) ≠ some .GD) :
    (f.vm (n + 1)).store.stdin = (f.vm n).store.stdin := by
  have turn := closed.refines n hn
  cases lab : f.lab n with
  | slice =>
    rw [lab] at turn
    exact (next_slice turn).1
  | instr p op a =>
    rw [lab] at turn other
    have read : op ≠ .GD := fun h => other (congrArg some h)
    by_cases print : op = .PD
    · subst print
      exact (tick_prints (next_instr turn)).1
    · exact (tick_mute read print (next_instr turn)).1

/-- A GD with ten words to come stores them, and goes behind them. -/
theorem takes_ten {f : Execution T} (closed : Closed f) {ws : List Word} {lead rest : List UInt8}
    {n q : ℕ} {b : ℤ} (readable : ∀ w ∈ ws, Readable w) (blank : Blank lead)
    (stdin : (f.vm n).store.stdin = ⟨lead ++ (lines ws ++ rest), false⟩) (hn : n < f.len)
    (lab : f.lab n = .instr q .GD b) (ten : 10 ≤ ws.length) :
    (∃ lead, Blank lead ∧
      (f.vm (n + 1)).store.stdin = ⟨lead ++ (lines (ws.drop 10) ++ rest), false⟩) ∧
      wordsAt (picture (f.vm (n + 1)) q).words b 10 = ws.take 10 := by
  have turn := closed.refines n hn
  rw [lab] at turn
  have split : lines ws ++ rest = lines (ws.take 10) ++ (lines (ws.drop 10) ++ rest) := by
    rw [← List.append_assoc, ← lines_append, List.take_append_drop]
  rw [split] at stdin
  exact tick_reads blank (fun w hw => readable w (List.mem_of_mem_take hw))
    (by rw [List.length_take]; omega) stdin (next_instr turn)

/-- What is left of an input that starts with lines of readable words, after some steps. -/
theorem input {f : Execution T} (closed : Closed f) {ws : List Word} {lead rest : List UInt8}
    (readable : ∀ w ∈ ws, Readable w) (blank : Blank lead)
    (start : (f.vm 0).store.stdin = ⟨lead ++ (lines ws ++ rest), false⟩) (n : ℕ) (hn : n ≤ f.len)
    (enough : 10 * asked f n ≤ ws.length) : ∃ lead, Blank lead ∧
      (f.vm n).store.stdin = ⟨lead ++ (lines (toCome f ws n) ++ rest), false⟩ := by
  induction n with
  | zero => exact ⟨lead, blank, start⟩
  | succ n ih =>
    by_cases read : executed (f.lab n) = some .GD
    · have more : asked f (n + 1) = asked f n + 1 := by rw [asked, if_pos read]
      obtain ⟨lead, blank, stdin⟩ := ih (by omega) (by omega)
      have later : toCome f ws (n + 1) = (toCome f ws n).drop 10 := by
        rw [toCome, toCome, List.drop_drop, more, Nat.mul_succ]
      rw [later]
      cases lab : f.lab n with
      | slice =>
        rw [lab] at read
        cases read
      | instr q op b =>
        rw [lab] at read
        obtain rfl := Option.some.inj read
        refine (takes_ten closed (fun w hw => readable w (List.mem_of_mem_drop hw)) blank stdin hn
          lab ?_).1
        rw [List.length_drop]
        omega
    · have same : asked f (n + 1) = asked f n := by rw [asked, if_neg read, Nat.add_zero]
      rw [same] at enough
      obtain ⟨lead, blank, stdin⟩ := ih (by omega) enough
      refine ⟨lead, blank, ?_⟩
      rw [keeps_input closed hn read, stdin, toCome, toCome, same]

variable [LawfulTree T]

/-- One run reads what another one has printed. Its programs are followed by the output of the
other run, and ten words go where each GD asks for them, in the order of the output, whatever the
programs of both are and however their processes take turns. -/
theorem output_read_back (e f : Execution T) (closed : Closed e) (closed' : Closed f) (n : ℕ)
    (hn : n ≤ e.len) (readable : ∀ w ∈ said e n, Readable w) (text lead rest : List UInt8)
    (ps : List Program) (format : Programs text ps) (few : ps.length ≤ procs)
    (fits : total ps ≤ vaddrSize) (blank : Blank lead)
    (input : f.input = text ++ (lead ++ ((e.vm n).store.stdout ++ rest)))
    (j q : ℕ) (b : ℤ) (hj : j < f.len) (read : f.lab j = .instr q .GD b)
    (enough : 10 * (asked f j + 1) ≤ (said e n).length) :
    wordsAt (picture (f.vm (j + 1)) q).words b 10 =
      ((said e n).drop (10 * asked f j)).take 10 := by
  have booted := f.booted
  rw [input, output closed n hn] at booted
  have start : (f.vm 0).store.stdin = ⟨lead ++ (lines (said e n) ++ rest), false⟩ :=
    boot_stdin format few fits booted
  obtain ⟨lead, blank, here⟩ :=
    PrintedWords.input closed' readable blank start j hj.le (by omega)
  refine (takes_ten closed' (fun w hw => readable w (List.mem_of_mem_drop hw)) blank here hj
    read ?_).2
  rw [List.length_drop]
  omega

end

def printRun : Execution ListTree :=
  execution 100 halfWeight bareHost (bytes "BRAIN10\n12\nPD00\nHA00\nDATA\n") 1
    (by decide +kernel) (by decide +kernel)

def readProgram : Program := ⟨12, [bytes "GD02", bytes "HA00"]⟩

def readText : List UInt8 := listing readProgram (bytes "12") ++ (dataMark ++ ([] ++ [10]))

theorem readText_programs : Programs readText [readProgram] := by
  have tokens : ∀ tok ∈ readProgram.code, Solid tok ∧ 4 ≤ tok.length ∧ ¬brain10 <+: tok ∧
      ¬dataMark <+: tok := by decide
  have token (tok : List UInt8) (h : tok ∈ readProgram.code) : Token tok :=
    ⟨(tokens tok h).1, (tokens tok h).2.1, (tokens tok h).2.2.1, (tokens tok h).2.2.2⟩
  have numeric : ∀ c ∈ bytes "12", isdigit c = true := List.all_eq_true.1 (by decide)
  exact .last _ [] _ (listing_block (by decide) numeric rfl (by decide) token (by decide))
    List.not_mem_nil

def readRun : Execution ListTree :=
  execution 100 halfWeight bareHost
    (readText ++ ([] ++ ((printRun.vm 1).store.stdout ++ []))) 1 (by decide +kernel) (by decide +kernel)

theorem readRun_reads : wordsAt (picture (readRun.vm 1) 0).words 2 10 =
    ((said printRun 1).drop 0).take 10 :=
  output_read_back printRun readRun (by decide +kernel) (by decide +kernel) 1 le_rfl
    (by decide +kernel) readText [] [] [readProgram] readText_programs (by decide) (by decide)
    (by decide) rfl 0 0 2 (by decide +kernel) (by decide +kernel) (by decide +kernel)

end BrainMachine.PrintedWords
