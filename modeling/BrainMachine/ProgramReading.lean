import BrainMachine.Loader
import BrainMachine.References
import BrainMachine.TickSteps

set_option autoImplicit false

namespace BrainMachine.ProgramReading
open Codec Computations Paging Stdio AddressSpace Instructions HoleList RunQueue Machine Loader
open Effects References ProcessImages MachineMemory

def writeWords (a : ℕ) : List Word → (ℕ → Word) → ℕ → Word
  | [], f => f
  | w :: ws, f => writeWords (a + 1) ws (Function.update f a w)

theorem writeWords_below {a v : ℕ} (ws : List Word) (f : ℕ → Word) (h : v < a) :
    writeWords a ws f v = f v := by
  induction ws generalizing a f with
  | nil => rfl
  | cons w ws ih => rw [writeWords, ih _ (by omega), Function.update_of_ne (by omega)]

theorem writeWords_at (a k : ℕ) (ws : List Word) (f : ℕ → Word) :
    writeWords a ws f (a + k) = ws[k]?.getD (f (a + k)) := by
  induction ws generalizing a k f with
  | nil => simp [writeWords]
  | cons w ws ih =>
    rw [writeWords]
    cases k with
    | zero =>
      rw [writeWords_below _ _ (show a + 0 < a + 1 from Nat.lt_succ_self a)]
      exact Function.update_self a w f
    | succ k =>
      have step : a + (k + 1) = a + 1 + k := by omega
      rw [step, ih, Function.update_of_ne (by omega), List.getElem?_cons_succ]

/-- How the loop of `load_code` ends and the words that it stores, when there is room. -/
def readCode : ℕ → List UInt8 → Stream → Option (ℤ × List Word)
  | 0, _, _ => none
  | n + 1, buf, fh =>
    match scanToken 7 fh with
    | (none, _) => some (-1, [])
    | (some tok, fh) =>
      match skipLine fh.rest with
      | none => none
      | some rest =>
        if tok = brain10 then some (0, [])
        else if tok.take 4 = dataMark then some (1, [])
        else (readCode n (fillBuffer buf tok) ⟨rest, fh.eof⟩).map fun r =>
          (r.1, bufferWord (fillBuffer buf tok) :: r.2)

/-- A program that is read without an error, by a `load_code` that finds `buf` in its buffer: its
size, how its code ends, and the words. -/
structure Reads (buf : List UInt8) (fh : Stream) (n code : ℤ) (ws : List Word) : Prop where
  size : (loadHeader fh).1 = n
  pos : 0 ≤ n
  words : readCode ((loadHeader fh).2.rest.length + 1) buf (loadHeader fh).2 = some (code, ws)
  complete : code ≠ -1

theorem fillBuffer_getD (buf tok : List UInt8) (i : ℕ) : (fillBuffer buf tok).getD i 0 =
    if i < tok.length then tok.getD i 0 else if i = tok.length then 0 else buf.getD i 0 := by
  simp only [List.getD_eq_getElem?_getD, fillBuffer]
  by_cases inside : i < tok.length
  · rw [if_pos inside, List.getElem?_append_left inside]
  · rw [if_neg inside, List.getElem?_append_right (not_lt.1 inside)]
    by_cases last : i = tok.length
    · rw [if_pos last, last, Nat.sub_self]
      rfl
    · obtain ⟨k, rfl⟩ : ∃ k, i = tok.length + 1 + k := ⟨i - (tok.length + 1), by omega⟩
      have later : tok.length + 1 + k - tok.length = k + 1 := by omega
      rw [if_neg last, later, List.getElem?_cons_succ, List.getElem?_drop]

theorem bufferWord_congr {buf buf' : List UInt8}
    (same : ∀ i < 4, buf.getD i 0 = buf'.getD i 0) : bufferWord buf = bufferWord buf' := by
  rw [bufferWord, bufferWord, same 0 (by omega), same 1 (by omega), same 2 (by omega),
    same 3 (by omega)]

theorem readCode_congr {k : ℕ} {buf buf' : List UInt8} (fh : Stream)
    (same : ∀ i < 4, buf.getD i 0 = buf'.getD i 0) : readCode k buf fh = readCode k buf' fh := by
  induction k generalizing buf buf' fh with
  | zero => rfl
  | succ k ih =>
    rw [readCode, readCode]
    rcases scanToken 7 fh with ⟨_ | tok, fh'⟩
    · rfl
    · have filled : ∀ i < 4, (fillBuffer buf tok).getD i 0 = (fillBuffer buf' tok).getD i 0 := by
        intro i hi
        rw [fillBuffer_getD, fillBuffer_getD, same i hi]
      simp only [bufferWord_congr filled, ih _ filled]

/-- A first line of code of three letters or more leaves nothing of what was in the buffer. -/
theorem readCode_long {k : ℕ} (buf buf' : List UInt8) {fh s : Stream} {tok : List UInt8}
    (scanned : scanToken 7 fh = (some tok, s)) (long : 3 ≤ tok.length) :
    readCode k buf fh = readCode k buf' fh := by
  cases k with
  | zero => rfl
  | succ k =>
    have filled : ∀ i < 4, (fillBuffer buf tok).getD i 0 = (fillBuffer buf' tok).getD i 0 := by
      intro i hi
      rw [fillBuffer_getD, fillBuffer_getD]
      split
      · rfl
      · rw [if_pos (by omega), if_pos (by omega)]
    rw [readCode, readCode, scanned]
    simp only [bufferWord_congr filled, readCode_congr _ filled]

theorem Reads.long {buf : List UInt8} {fh s : Stream} {n code : ℤ} {ws : List Word}
    {tok : List UInt8} (h : Reads buf fh n code ws) (buf' : List UInt8)
    (scanned : scanToken 7 (loadHeader fh).2 = (some tok, s)) (long : 3 ≤ tok.length) :
    Reads buf' fh n code ws :=
  ⟨h.size, h.pos, (readCode_long buf' buf scanned long).trans h.words, h.complete⟩

section
variable {T : Type}

def base (m : VM T) (pid : ℕ) : ℕ := (word2int (m.seg pid).br).toNat

theorem pageStore_ok {pid a : ℕ} {w : Word} {m u : VM T}
    (h : onMemory (pageStore (m.seg pid) w a) m = .ok (0, u)) :
    0 ≤ getGlobalAddress (m.seg pid) a ∧
      u = stored (Function.update m.store.pager.pageMem (base m pid + a) w) m := by
  obtain ⟨t, ht, rfl⟩ := zoom_ok.1 h
  rcases ite_ok.1 ht with ⟨-, ht⟩ | ⟨hg, ht⟩
  · cases (Prod.mk.inj (pure_ok.1 ht)).1
  · obtain ⟨pos, -, -, here⟩ := address_range (not_lt.1 hg)
    have place : (getGlobalAddress (m.seg pid) a).toNat = base m pid + a := by
      rw [base]
      omega
    rcases ite_ok.1 ht with ⟨-, ht⟩ | ⟨-, ht⟩
    · obtain ⟨_, x, hx, ht⟩ := bind_ok.1 ht
      obtain ⟨y, hy, rfl⟩ := zoom_ok.1 hx
      obtain ⟨-, rfl⟩ := Prod.mk.inj (modify_ok.1 hy)
      obtain ⟨-, rfl⟩ := Prod.mk.inj (pure_ok.1 ht)
      rw [← place]
      exact ⟨not_lt.1 hg, rfl⟩
    · exact (fault_ok.1 ht).elim

/-- A loop that ends without an error has stored the words that it read. -/
theorem loadCodeLoop_read {pid k a : ℕ} {buf : List UInt8} {fh rest : Stream} {code : ℤ}
    {m u : VM T} (h : loadCodeLoop pid k buf a fh m = .ok ((code, rest), u)) (ok : code ≠ -1) :
    ∃ ws, readCode k buf fh = some (code, ws) ∧
      (∀ i < ws.length, 0 ≤ getGlobalAddress (m.seg pid) (a + i : ℕ)) ∧
      u = stored (writeWords (base m pid + a) ws m.store.pager.pageMem) m := by
  induction k generalizing buf a fh m with
  | zero => exact (fault_ok.1 h).elim
  | succ k ih =>
    rw [loadCodeLoop] at h
    rw [readCode]
    rcases hs : scanToken 7 fh with ⟨_ | tok, fh'⟩
    · simp only [hs] at h
      exact absurd (Prod.mk.inj (Prod.mk.inj (pure_ok.1 h)).1).1 ok
    · simp only [hs] at h
      dsimp only
      cases hl : skipLine fh'.rest with
      | none =>
        simp only [hl] at h
        exact (fault_ok.1 h).elim
      | some line =>
        simp only [hl] at h
        dsimp only
        rcases ite_ok.1 h with ⟨header, h⟩ | ⟨header, h⟩
        · obtain ⟨he, rfl⟩ := Prod.mk.inj (pure_ok.1 h)
          obtain ⟨rfl, -⟩ := Prod.mk.inj he
          exact ⟨[], if_pos header, fun i hi => absurd hi (Nat.not_lt_zero i), rfl⟩
        · rw [if_neg header]
          rcases ite_ok.1 h with ⟨data, h⟩ | ⟨data, h⟩
          · obtain ⟨he, rfl⟩ := Prod.mk.inj (pure_ok.1 h)
            obtain ⟨rfl, -⟩ := Prod.mk.inj he
            exact ⟨[], if_pos data, fun i hi => absurd hi (Nat.not_lt_zero i), rfl⟩
          · rw [if_neg data]
            rw [get_bind] at h
            obtain ⟨r, w, hw, h⟩ := bind_ok.1 h
            rcases ite_ok.1 h with ⟨-, h⟩ | ⟨hr, h⟩
            · exact absurd (Prod.mk.inj (Prod.mk.inj (pure_ok.1 h)).1).1 ok
            · obtain rfl := not_not.1 hr
              obtain ⟨valid, rfl⟩ := pageStore_ok hw
              obtain ⟨ws, read, inside, rfl⟩ := ih h
              refine ⟨bufferWord (fillBuffer buf tok) :: ws, ?_, fun i hi => ?_, rfl⟩
              · rw [read]
                rfl
              · cases i with
                | zero => exact valid
                | succ i =>
                  have inner : i < ws.length := by simpa using hi
                  have step : a + (i + 1) = a + 1 + i := by omega
                  rw [step]
                  exact inside i inner

theorem pageStore_done {pid a : ℕ} {m : VM T} (valid : 0 ≤ getGlobalAddress (m.seg pid) a)
    (top : base m pid + a < vaddrSize) (w : Word) :
    onMemory (pageStore (m.seg pid) w a) m =
      .ok (0, stored (Function.update m.store.pager.pageMem (base m pid + a) w) m) := by
  obtain ⟨pos, -, -, here⟩ := address_range valid
  have place : (getGlobalAddress (m.seg pid) a).toNat = base m pid + a := by
    rw [base]
    omega
  rw [onMemory, zoom, pageStore, if_neg (not_lt.2 valid), place, if_pos top]
  rfl

theorem loadCodeLoop_stores {p k a : ℕ} {buf : List UInt8} {fh : Stream} {code : ℤ}
    {ws : List Word} {m : VM T} (read : readCode k buf fh = some (code, ws))
    (inside : ∀ i < ws.length, 0 ≤ getGlobalAddress (m.seg p) (a + i : ℕ) ∧
      base m p + (a + i) < vaddrSize) :
    ∃ rest, loadCodeLoop p k buf a fh m =
      .ok ((code, rest), stored (writeWords (base m p + a) ws m.store.pager.pageMem) m) := by
  induction k generalizing buf a fh ws m with
  | zero => cases read
  | succ k ih =>
    rw [loadCodeLoop]
    rw [readCode] at read
    rcases hs : scanToken 7 fh with ⟨_ | tok, fh'⟩
    · simp only [hs, Option.some.injEq, Prod.mk.injEq] at read
      obtain ⟨rfl, rfl⟩ := read
      exact ⟨fh', rfl⟩
    · simp only [hs] at read
      dsimp only
      cases hl : skipLine fh'.rest with
      | none =>
        simp only [hl] at read
        cases read
      | some line =>
        simp only [hl] at read
        dsimp only
        by_cases header : tok = brain10
        · rw [if_pos header] at read ⊢
          obtain ⟨rfl, rfl⟩ := Prod.mk.inj (Option.some.inj read)
          exact ⟨_, rfl⟩
        · rw [if_neg header] at read ⊢
          by_cases data : tok.take 4 = dataMark
          · rw [if_pos data] at read ⊢
            obtain ⟨rfl, rfl⟩ := Prod.mk.inj (Option.some.inj read)
            exact ⟨_, rfl⟩
          · rw [if_neg data] at read ⊢
            obtain ⟨⟨c, ws'⟩, read', he⟩ := Option.map_eq_some_iff.1 read
            obtain ⟨rfl, rfl⟩ := Prod.mk.inj he
            have first := inside 0 (Nat.zero_lt_succ _)
            rw [Nat.add_zero] at first
            obtain ⟨rest, run⟩ := ih (m := stored (Function.update m.store.pager.pageMem
              (base m p + a) (bufferWord (fillBuffer buf tok))) m) read' fun i hi => by
                have inner := inside (i + 1) (Nat.succ_lt_succ hi)
                have step : a + (i + 1) = a + 1 + i := by omega
                rw [step] at inner
                exact inner
            refine ⟨rest, ?_⟩
            rw [get_bind, bind_of_ok (pageStore_done first.1 first.2 _), if_neg (by simp)]
            exact run

end
end BrainMachine.ProgramReading
