import BrainMachine.FlatRefinement

set_option autoImplicit false

namespace BrainMachine.PageSizes
open Codec Computations Paging Stdio AddressSpace Instructions HoleList RunQueue Machine Loader
open Dispatch Effects Runs MachineRuns SortedTree FlatMachine FlatRefinement Simulations

section
variable {T : Type}

/-- Two machines that differ in their pagers and files only, with no page in a frame. What
`load_code` finds in its buffer is the same. -/
structure Alike (m u : VM T) : Prop where
  flat : flatten m = flatten u
  buffers : m.host.buffers = u.host.buffers
  left : ∀ q, ¬m.store.pager.resident q
  right : ∀ q, ¬u.store.pager.resident q

/-- A change that leaves the pager alone, and that the flat machine can make. -/
theorem modify_agrees {f : VM T → VM T} (g : Flat T → Flat T)
    (commutes : ∀ m, flatten (f m) = g (flatten m))
    (pager : ∀ m, (f m).store.pager = m.store.pager) (host : ∀ m, (f m).host = m.host) :
    Agrees Alike (modify f : Exec (VM T) PUnit) (modify f) := by
  refine .modify fun m u h => ⟨?_, ?_, ?_, ?_⟩
  · rw [commutes, commutes, h.flat]
  · rw [host, host]
    exact h.buffers
  · rw [pager]
    exact h.left
  · rw [pager]
    exact h.right

theorem view_blank {m : VM T} (absent : ∀ q, ¬m.store.pager.resident q) :
    m.store.pager.view = m.store.pager.pageMem := funext fun _ => view_absent (absent _)

theorem Alike.pageMem {m u : VM T} (h : Alike m u) :
    m.store.pager.pageMem = u.store.pager.pageMem := by
  rw [← view_blank h.left, ← view_blank h.right]
  exact congrArg Flat.words h.flat

theorem stored_flat {m : VM T} (absent : ∀ q, ¬m.store.pager.resident q) (f : ℕ → Word) :
    flatten (stored f m) = { flatten m with words := f } :=
  congrArg (fun w => { flatten m with words := w }) (view_blank (m := stored f m) absent)

theorem Alike.stored {m u : VM T} (h : Alike m u) (f : ℕ → Word) :
    Alike (stored f m) (stored f u) := by
  refine ⟨?_, h.buffers, h.left, h.right⟩
  rw [stored_flat h.left, stored_flat h.right, h.flat]

theorem onSched_agrees {α : Type} (x : Exec (Sched T) α) :
    Agrees Alike (onSched x) (onSched x) := by
  refine .zoom x (fun _ _ h => congrArg Flat.sched h.flat) fun m u t h =>
    ⟨?_, h.buffers, h.left, h.right⟩
  exact congrArg (fun c : Flat T => { c with sched := t }) h.flat

theorem procalloc_agrees (n : ℤ) : Agrees (Alike (T := T)) (procalloc n) (procalloc n) := by
  refine Agrees.get fun m u h => ?_
  have pid : u.nextPid = m.nextPid := congrArg Flat.nextPid h.flat.symm
  have holes : u.holes = m.holes := congrArg Flat.holes h.flat.symm
  rw [pid, holes]
  generalize m.nextPid = i
  generalize memalloc n m.holes = block
  refine Agrees.ite (fun _ => .pure none) (fun _ => ?_) m u h
  refine Agrees.bind
    (modify_agrees (fun c => { c with holes := block.2 }) (fun _ => rfl) (fun _ => rfl)
      fun _ => rfl) fun _ => .ite (fun _ => .pure none) fun _ => ?_
  refine Agrees.bind (modify_agrees (fun c => { c with
    proc := Function.update c.proc c.nextPid
      { r := zeros, sp := zeros, ic := (48, 48), c := 70, stackBase := 0
        br := int2word block.1, lr := int2word (n - 1), pid := i }
    nextPid := c.nextPid + 1 }) (fun _ => rfl) (fun _ => rfl) fun _ => rfl) fun _ => .pure _

theorem pageStore_eq (q : Seg) (w : Word) (a : ℤ) (m : VM T) :
    onMemory (pageStore q w a) m =
      if getGlobalAddress q a < 0 then .ok (-1, m)
      else if (getGlobalAddress q a).toNat < vaddrSize then
        .ok (0, stored (Function.update m.store.pager.pageMem (getGlobalAddress q a).toNat w) m)
      else .error .undefined := by
  rw [onMemory, zoom, pageStore]
  by_cases invalid : getGlobalAddress q a < 0
  · simp only [invalid, if_true]
    rfl
  · by_cases inside : (getGlobalAddress q a).toNat < vaddrSize
    · simp only [invalid, inside, if_true, if_false]
      rfl
    · simp only [invalid, inside, if_false]
      rfl

theorem pageStore_agrees (q : Seg) (w : Word) (a : ℤ) :
    Agrees (Alike (T := T)) (onMemory (pageStore q w a)) (onMemory (pageStore q w a)) := by
  intro m u h
  rw [pageStore_eq, pageStore_eq, h.pageMem]
  split
  · exact .ok _ _ _ h
  · split
    · exact .ok _ _ _ (h.stored _)
    · exact .error _

theorem loadCodeLoop_agrees (p n : ℕ) (buf : List UInt8) (addr : ℕ) (fh : Stream) :
    Agrees (Alike (T := T)) (loadCodeLoop p n buf addr fh) (loadCodeLoop p n buf addr fh) := by
  induction n generalizing buf addr fh with
  | zero => exact .fault _
  | succ n ih =>
    rw [loadCodeLoop]
    rcases scanToken 7 fh with ⟨_ | tok, fh'⟩
    · exact .pure _
    · dsimp only
      cases skipLine fh'.rest with
      | none => exact .fault _
      | some rest =>
        refine .ite (fun _ => .pure _) fun _ => .ite (fun _ => .pure _) fun _ => ?_
        refine Agrees.get fun m u h => ?_
        have seg : u.seg p = m.seg p := congrArg (fun c : Flat T => c.seg p) h.flat.symm
        rw [seg]
        exact ((pageStore_agrees _ _ _).bind fun _ => .ite (fun _ => .pure _) fun _ => ih _ _ _)
          m u h

theorem Alike.entered {m u : VM T} (h : Alike m u) : Alike (entered m) (entered u) :=
  ⟨h.flat, congrArg (fun b n => b (n + 1)) h.buffers, h.left, h.right⟩

theorem loadCode_agrees (fh : Stream) (p : ℕ) :
    Agrees (Alike (T := T)) (loadCode fh p) (loadCode fh p) := by
  intro m u h
  have buffer : m.host.buffer = u.host.buffer := by
    rw [Host.buffer, h.buffers]
    rfl
  rw [loadCode_eq, loadCode_eq, buffer]
  exact loadCodeLoop_agrees _ _ _ _ _ _ _ h.entered

variable [RedBlackTree T]

theorem loadFileLoop_agrees (n : ℕ) (fh : Stream) :
    Agrees (Alike (T := T)) (loadFileLoop n fh) (loadFileLoop n fh) := by
  induction n generalizing fh with
  | zero => exact .fault _
  | succ n ih =>
    rw [loadFileLoop]
    refine .ite (fun _ => .pure _) fun _ => (procalloc_agrees _).bind fun p => ?_
    cases p with
    | none => exact .pure _
    | some p =>
      refine (loadCode_agrees _ _).bind fun code => .ite (fun _ => .pure _) fun _ => ?_
      refine (onSched_agrees _).bind fun _ => (onSched_agrees _).bind fun _ => ?_
      exact .ite (fun _ => ih _) fun _ => .pure _

theorem loadFile_agrees (fh : Stream) :
    Agrees (Alike (T := T)) (loadFile fh) (loadFile fh) := by
  rw [loadFile]
  rcases scanToken 7 fh with ⟨_ | tok, fh'⟩
  · exact .pure _
  · refine .ite (fun _ => .pure _) fun _ => ?_
    cases skipLine fh'.rest with
    | none => exact .fault _
    | some rest => exact loadFileLoop_agrees _ _

theorem start_alike {n k : ℕ} {average average' : UInt32 → UInt32 → UInt32} {s t : Pager}
    (hs : pagememInit n average = some s) (ht : pagememInit k average' = some t)
    {host host' : Host} (buffers : host.buffers = host'.buffers) :
    Alike (startState (T := T) s host) (startState t host') := by
  obtain ⟨blank, absent, -⟩ := pagememInit_blank hs
  obtain ⟨blank', absent', -⟩ := pagememInit_blank ht
  refine ⟨?_, buffers, absent, absent'⟩
  have words : s.view = t.view := by
    funext v
    rw [view_absent (absent _), view_absent (absent' _), blank, blank']
  exact congrArg (fun w => { flatten (startState (T := T) t host') with words := w }) words

/-- The text, and what `load_code` finds in its buffer, decide what the machine starts with. -/
theorem boot_flat {n k : ℕ} {average average' : UInt32 → UInt32 → UInt32}
    {host host' : Host} (buffers : host.buffers = host'.buffers) {input : List UInt8} {m u : VM T}
    (h : boot n average host input = some m) (h' : boot k average' host' input = some u) :
    flatten m = flatten u := by
  rw [boot] at h h'
  cases hs : pagememInit n average with
  | none => simp [hs] at h
  | some s =>
    cases ht : pagememInit k average' with
    | none => simp [ht] at h'
    | some t =>
      simp only [hs] at h
      simp only [ht] at h'
      split at h
      · rename_i fh w hw
        obtain ⟨w', hw', alike⟩ :=
          (loadFile_agrees _).ok (start_alike hs ht buffers) hw
        rw [hw'] at h'
        rw [← Option.some.inj h, ← Option.some.inj h']
        exact congrArg (fun c : Flat T => { c with stdin := fh }) alike.flat
      · cases h

/-- Two runs of one text without EX, on pages of any two sizes and with any two averages, whose
loaders find the same in their buffers, show the same at every step that both of them reach. -/
theorem page_size_unseen (e f : Execution T) (input : e.input = f.input)
    (buffers : e.host.buffers = f.host.buffers) (he : Closed e) (hf : Closed f) (n : ℕ)
    (hn : n ≤ e.len) (hn' : n ≤ f.len) :
    flat (e.st n) = flat (f.st n) ∧ ∀ i < n, e.lab i = f.lab i := by
  refine he.refines.agree hf.refines ?_ n hn hn'
  have booted := f.booted
  rw [← input] at booted
  rw [flat, flat, e.slice, f.slice, boot_flat buffers e.booted booted]

def narrowPages : Execution ListTree :=
  execution 2 halfWeight bareHost (bytes "BRAIN10\n10\nSD01\nBRAIN10\n10\nRC00\nDATA\n") 2
    (by decide +kernel) (by decide +kernel)

theorem narrowPages_unseen : flat (widePages.st 2) = flat (narrowPages.st 2) ∧
    ∀ i < 2, widePages.lab i = narrowPages.lab i :=
  page_size_unseen widePages narrowPages rfl rfl (by decide +kernel) (by decide +kernel) 2 le_rfl
    le_rfl

end
end BrainMachine.PageSizes
