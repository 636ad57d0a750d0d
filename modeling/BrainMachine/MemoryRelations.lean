import BrainMachine.MachineMemory
import BrainMachine.ProcessImages

set_option autoImplicit false

/-!
# What every access to memory respects

All instructions are made of the same few accesses to the store. What relates the stores before
and after each of these accesses also relates the stores before and after an instruction,
whether it succeeds or not. The table of semaphores is left to the instructions that write it.
-/
namespace BrainMachine.MemoryRelations
open Codec Computations Paging Stdio AddressSpace Instructions HoleList RunQueue Machine Loader
open Dispatch Effects MachineRuns References MachineMemory ProcessImages

/-- A preorder of stores that the accesses to the words of a process and the stores of the
loader respect, and in which stores of one pager and one table of semaphores are related. -/
class MemoryRelation (R : Store → Store → Prop) : Prop extends IsPreorder Store R where
  touches : ∀ p a, Respects R (getWordref p a)
  releases : ∀ p a, Respects R (releaseWordref p a)
  assigns : ∀ x w, Respects R (assign x w)
  codes : ∀ s f, R s { s with pager := { s.pager with pageMem := f } }
  rest : ∀ s u, u.pager = s.pager → u.semTable = s.semTable → R s u

/-- What relates the pagers before and after a touch relates the stores around a reference. -/
theorem respects_getWordref {P : Pager → Pager → Prop} (same : ∀ s, P s s)
    (touch : ∀ ops v, Respects P (touchPage ops v)) (p : Seg) (a : ℤ) :
    Respects (Order.Preimage Store.pager P) (getWordref p a) := by
  intro s u x h
  rcases ite_ok.1 h with ⟨-, h⟩ | ⟨-, h⟩
  · rw [(Prod.mk.inj (pure_ok.1 h)).2]
    exact same s.pager
  · rw [get_bind] at h
    obtain ⟨y, hy, rfl⟩ := zoom_ok.1 h
    exact touch _ _ _ _ _ hy

theorem respects_releaseWordref {P : Pager → Pager → Prop} (same : ∀ s, P s s)
    (release : ∀ a s, P s (pageReleaseRef a s)) (p : Seg) (a : ℤ) :
    Respects (Order.Preimage Store.pager P) (releaseWordref p a) := by
  intro s u r h
  by_cases hg : getGlobalAddress p a < 0
  · rw [releaseWordref_invalid hg h]
    exact same s.pager
  · rw [Order.Preimage, releaseWordref_pager (not_lt.1 hg) h]
    exact release _ _

section
variable {R : Store → Store → Prop} [MemoryRelation R]
open MemoryRelation Order

theorem respects_deref (x : ℕ) : Respects R (deref x) := Respects.get.bind fun _ => .pure _

omit [MemoryRelation R] in
theorem respects_onStore {α : Type} {x : Exec Store α} (h : Respects R x) :
    Respects (Preimage Core.store R) (onStore x) := h.zoom fun _ _ k => k

theorem respects_regs (f : Regs → Regs) : Respects (Preimage Core.store R) (setRegs f) := by
  apply Respects.modify
  intro c
  exact refl c.store

theorem respects_release (p : Seg) (a : ℤ) :
    Respects (Preimage Core.store R) (onStore (releaseWordref p a)) := respects_onStore (releases p a)

/-- The reference of a word is taken, and used when there is one. -/
theorem respects_take {p : Seg} {a : ℤ} {α : Type} {f : Option ℕ → Exec Core α}
    (none : Respects (Preimage Core.store R) (f none))
    (some : ∀ x, Respects (Preimage Core.store R) (f (some x))) :
    Respects (Preimage Core.store R) (onStore (getWordref p a) >>= f) := by
  refine (respects_onStore (touches p a)).bind fun r => ?_
  cases r with
  | none => exact none
  | some x => exact some x

theorem respects_withWordref (p : Seg) (a : ℤ) {use : ℕ → Exec Core Unit}
    (h : ∀ x, Respects (Preimage Core.store R) (use x)) :
    Respects (Preimage Core.store R) (withWordref p a use) :=
  respects_take (.pure _) fun x => (h x).bind fun _ => (respects_release p a).bind fun _ => .pure _

theorem respects_read (x : ℕ) {α : Type} (f : Word → Exec Core α)
    (h : ∀ w, Respects (Preimage Core.store R) (f w)) :
    Respects (Preimage Core.store R) (onStore (deref x) >>= f) :=
  (respects_onStore (respects_deref x)).bind h

theorem respects_write (x : ℕ) (w : Word) :
    Respects (Preimage Core.store R) (onStore (assign x w)) := respects_onStore (assigns x w)

theorem respects_storeRegister (x : ℕ) : Respects (Preimage Core.store R) (do
    let s ← get
    onStore (assign x s.regs.r)) := Respects.get.bind fun s => respects_write x s.regs.r

theorem respects_registerOp (op : Char) (p : Seg) (a : ℤ) :
    Respects (Preimage Core.store R) (doRegisterOp op p a) :=
  respects_take (.pure _) fun x => respects_read x _ fun _ => Respects.get.bind fun _ =>
    .ite (.pure _) ((respects_release p a).bind fun _ => (respects_regs _).bind fun _ => .pure _)

theorem respects_push (p : Seg) (a : ℤ) : Respects (Preimage Core.store R) (push p a) :=
  Respects.get.bind fun _ => .ite (.pure _)
    ((respects_regs _).bind fun _ => respects_withWordref p _ respects_storeRegister)

theorem respects_pop (p : Seg) (a : ℤ) : Respects (Preimage Core.store R) (pop p a) := by
  refine Respects.get.bind fun s => .ite (.pure _) (respects_take (.pure _) fun x => ?_)
  exact respects_read x _ fun _ => (respects_regs _).bind fun _ =>
    (respects_release p _).bind fun _ => (respects_regs _).bind fun _ => .pure _

theorem respects_stackOp (op : Char) (p : Seg) (a : ℤ) :
    Respects (Preimage Core.store R) (stackOp op p a) := by
  refine Respects.get.bind fun s => .ite (.pure _) ?_
  refine (respects_onStore (touches p _)).bind fun r =>
    (respects_onStore (touches p _)).bind fun t => ?_
  cases r with
  | none => exact .pure _
  | some x =>
    cases t with
    | none => exact .pure _
    | some y =>
      refine respects_read x _ fun w => respects_read y _ fun v =>
        (respects_release p _).bind fun _ => (respects_release p _).bind fun _ => .ite (.pure _) ?_
      exact (respects_regs _).bind fun _ => respects_withWordref p _ fun x => respects_write x _

theorem respects_putchars (cs : List UInt8) : Respects R (putchars cs) := by
  apply Respects.modify
  intro s
  exact rest _ _ rfl rfl

theorem respects_print (p : Seg) (a : ℤ) : Respects (Preimage Core.store R) (print p a) :=
  .loopFrom (fun _ => respects_withWordref p _ fun x => respects_read x _ fun _ =>
    respects_onStore (respects_putchars _)) 10 0

theorem respects_nextWord : Respects R nextWord := by
  intro s u w h
  rw [(nextWord_ok h).2]
  exact rest _ _ rfl rfl

theorem respects_input (p : Seg) (a : ℤ) : Respects (Preimage Core.store R) (read p a) :=
  .loopFrom (fun _ => (respects_onStore respects_nextWord).bind fun w => Respects.get.bind fun _ =>
    .ite (.pure _) (.ite (.pure _) (respects_withWordref p _ fun x => respects_write x w))) 10 0

theorem respects_instruction {op : Op} {i : Instruction} (h : op.instruction = some i)
    (other : op ≠ .SI) (p : Seg) (a : ℤ) : Respects (Preimage Core.store R) (i p a) := by
  cases op <;> simp only [Op.instruction, Option.some.injEq, reduceCtorEq] at h <;> subst h
  case LR => exact respects_withWordref p a fun x => respects_read x _ fun _ => respects_regs _
  case LL => exact respects_withWordref p a fun x => respects_read x _ fun _ => respects_regs _
  case LH => exact respects_withWordref p a fun x => respects_read x _ fun _ => respects_regs _
  case SR => exact respects_withWordref p a respects_storeRegister
  case SP => exact (respects_regs _).bind fun _ => .pure _
  case PS => exact (respects_regs _).bind fun _ => .pure _
  case PH => exact respects_push p a
  case PP => exact respects_pop p a
  case CE =>
    exact respects_withWordref p a fun x => respects_read x _ fun _ =>
      Respects.get.bind fun _ => respects_regs _
  case CL =>
    exact respects_withWordref p a fun x => respects_read x _ fun _ =>
      Respects.get.bind fun _ => respects_regs _
  case BT => exact Respects.get.bind fun _ => .ite ((respects_regs _).bind fun _ => .pure _) (.pure _)
  case BU => exact (respects_regs _).bind fun _ => .pure _
  case GD => exact respects_input p a
  case PD => exact respects_print p a
  case AD => exact respects_registerOp _ p a
  case SU => exact respects_registerOp _ p a
  case MI => exact respects_registerOp _ p a
  case DI => exact respects_registerOp _ p a
  case AS => exact respects_stackOp _ p a
  case SS => exact respects_stackOp _ p a
  case MS => exact respects_stackOp _ p a
  case DS => exact respects_stackOp _ p a
  case NP => exact .pure _
  case SI => exact absurd rfl other
  case LS =>
    rw [loadShared]
    cases getShmp a with
    | none => exact .pure _
    | some x => exact Respects.get.bind fun _ => (respects_regs _).bind fun _ => .pure _
  case ST =>
    rw [storeShared]
    cases getShmp a with
    | none => exact .pure _
    | some x =>
      have put (w : Word) : Respects R
          (modify fun t : Store => { t with shm := Function.update t.shm x w }) := by
        apply Respects.modify
        intro t
        exact rest _ _ rfl rfl
      exact Respects.get.bind fun c => (respects_onStore (put _)).bind fun _ => .pure _
  case GP => exact (respects_regs _).bind fun _ => .pure _

theorem respects_copy (p q : Seg) (a b : ℤ) (x y : ℕ) : Respects R (do
    let w ← deref x
    assign y w
    releaseWordref p a
    releaseWordref q b
    pure (0 : ℤ)) :=
  (respects_deref x).bind fun w => (assigns y w).bind fun _ => (releases p a).bind fun _ =>
    (releases q b).bind fun _ => .pure _

theorem respects_xferWords (p q : Seg) (l r : ℤ) : Respects R (xferWords p q l r) := by
  refine .loopFrom (fun i => ?_) 10 0
  refine (touches p _).bind fun x => ?_
  cases x with
  | none => exact .pure _
  | some x =>
    refine (touches q _).bind fun y => ?_
    cases y with
    | none => exact .pure _
    | some y => exact respects_copy p q _ _ x y

theorem respects_dupMem (p q : Seg) : Respects R (dupMem p q) := by
  refine .loopFrom (fun i => ?_) _ 0
  refine (touches p i).bind fun x => (touches q i).bind fun y => ?_
  cases x with
  | none => exact .pure _
  | some x =>
    cases y with
    | none => exact .pure _
    | some y => exact respects_copy p q i i x y

variable {T : Type}

omit [MemoryRelation R] in
theorem respects_onMemory {α : Type} {x : Exec Store α} (h : Respects R x) :
    Respects (Preimage (VM.store (T := T)) R) (onMemory x) := h.zoom fun _ _ k => k

omit [MemoryRelation R] in
theorem respects_onCore {α : Type} {p : ℕ} {x : Exec Core α}
    (h : Respects (Preimage Core.store R) x) :
    Respects (Preimage (VM.store (T := T)) R) (onCore p x) := h.zoom fun _ _ k => k

theorem respects_onSched {α : Type} (x : Exec (Sched T) α) :
    Respects (Preimage VM.store R) (onSched x) := by
  have any : Respects (fun _ _ => True) x := fun _ _ _ _ => trivial
  exact any.zoom fun m _ _ => refl m.store

theorem respects_setProc (p : ℕ) (f : Proc → Proc) :
    Respects (Preimage (VM.store (T := T)) R) (modify fun m => m.setProc p f) := by
  apply Respects.modify
  intro m
  exact refl m.store

/-- The reference of a word of a process, for the instructions on the whole machine. -/
theorem respects_fetchWord {p : Seg} {a : ℤ} {α : Type} {f : Option ℕ → Exec (VM T) α}
    (none : Respects (Preimage VM.store R) (f none))
    (some : ∀ x, Respects (Preimage VM.store R) (f (some x))) :
    Respects (Preimage VM.store R) (onMemory (getWordref p a) >>= f) := by
  refine (respects_onMemory (touches p a)).bind fun r => ?_
  cases r with
  | none => exact none
  | some x => exact some x

theorem respects_fetch (p : ℕ) : Respects (Preimage (VM.store (T := T)) R) (fetch p) :=
  Respects.get.bind fun _ => .ite (.pure _) (respects_fetchWord (.pure _) fun x =>
    (respects_onCore (respects_regs _)).bind fun _ =>
      (respects_onMemory (respects_deref x)).bind fun _ => .pure _)

theorem respects_host (f : VM T → Host) :
    Respects (Preimage (VM.store (T := T)) R) (modify fun m => { m with host := f m }) :=
  .modify fun m => refl m.store

theorem respects_getExecFh (p : ℕ) : Respects (Preimage (VM.store (T := T)) R) (getExecFh p) :=
  Respects.get.bind fun _ => .ite (.pure _) (respects_fetchWord (.pure _) fun x =>
    (respects_onMemory (respects_deref x)).bind fun _ =>
      (respects_onMemory (releases _ _)).bind fun _ =>
        Respects.get.bind fun _ => (respects_host _).bind fun _ => .pure _)

theorem respects_procalloc (n : ℤ) : Respects (Preimage (VM.store (T := T)) R) (procalloc n) := by
  intro m u q h
  rw [procalloc, get_bind] at h
  rcases ite_ok.1 h with ⟨-, h⟩ | ⟨-, h⟩
  · rw [(Prod.mk.inj (pure_ok.1 h)).2]
    exact refl m.store
  · simp only [modify_bind] at h
    rcases ite_ok.1 h with ⟨-, h⟩ | ⟨-, h⟩
    · rw [(Prod.mk.inj (pure_ok.1 h)).2]
      exact refl m.store
    · rw [(Prod.mk.inj (pure_ok.1 h)).2]
      exact refl m.store

theorem respects_resizeProc (p : ℕ) (n : ℤ) :
    Respects (Preimage (VM.store (T := T)) R) (resizeProc p n) := by
  intro m u r h
  obtain ⟨-, -, rfl⟩ | ⟨-, -, rfl⟩ := resizeProc_ok h
  · exact refl m.store
  · rw [Preimage, resized_store]
    exact refl m.store

theorem respects_loadCodeLoop (p n : ℕ) (buf : List UInt8) (addr : ℕ) (fh : Stream) :
    Respects (Preimage (VM.store (T := T)) R) (loadCodeLoop p n buf addr fh) := by
  intro m u r h
  obtain ⟨f, rfl⟩ := loadCodeLoop_stored n h
  exact codes m.store f

theorem respects_loadCode (p : ℕ) (fh : Stream) :
    Respects (Preimage (VM.store (T := T)) R) (loadCode fh p) :=
  Respects.get.bind fun _ => (respects_host _).bind fun _ => respects_loadCodeLoop p _ _ _ _

theorem respects_fclose : Respects (Preimage (VM.store (T := T)) R) fclose := respects_host _

theorem respects_execFile (p : ℕ) (fh : Stream) :
    Respects (Preimage (VM.store (T := T)) R) (execFile p fh) := by
  have failed : Respects (Preimage (VM.store (T := T)) R) (do fclose; pure (-1) : Exec _ ℤ) :=
    respects_fclose.bind fun _ => .pure _
  rw [execFile]
  rcases scanToken 7 fh with ⟨_ | tok, fh'⟩
  · exact failed
  · refine .ite failed (.ite failed ((respects_resizeProc p _).bind fun _ =>
      .ite ((respects_onCore (respects_regs _)).bind fun _ => .pure _) ?_))
    exact (respects_loadCode p _).bind fun _ => .ite failed
      ((respects_onCore (respects_regs _)).bind fun _ => respects_fclose.bind fun _ => .pure _)

theorem respects_execProc (p : ℕ) (a : ℤ) :
    Respects (Preimage (VM.store (T := T)) R) (execProc p a) := by
  refine (respects_getExecFh p).bind fun f => ?_
  cases f with
  | none => exact .pure _
  | some fh => exact respects_execFile p fh

theorem respects_retry (p : ℕ) : Respects (Preimage (VM.store (T := T)) R) (onCore p retryOp) :=
  respects_onCore (Respects.get.bind fun _ => .ite (.pure _) ((respects_regs _).bind fun _ => .pure _))

theorem respects_updateRecvWq (i : ℕ) (f : List ℕ → ℤ × List ℕ) :
    Respects (Preimage (VM.store (T := T)) R) (updateRecvWq i f) := by
  intro m u r h
  rw [(updateRecvWq_ok h).2]
  exact refl m.store

theorem respects_updateSendWq (i : ℕ) (f : List ℕ → ℤ × List ℕ) :
    Respects (Preimage (VM.store (T := T)) R) (updateSendWq i f) := by
  intro m u r h
  rw [(updateSendWq_ok h).2]
  exact refl m.store

variable [RedBlackTree T]

theorem respects_forkProc (p : ℕ) (a : ℤ) :
    Respects (Preimage (VM.store (T := T)) R) (forkProc p a) := by
  refine Respects.get.bind fun m => .ite (.pure _) ((respects_procalloc _).bind fun q => ?_)
  cases q with
  | none => exact (respects_setProc p _).bind fun _ => .fault _
  | some q =>
    refine (respects_setProc p _).bind fun _ => (respects_setProc q _).bind fun _ =>
      Respects.get.bind fun u => (respects_onMemory (respects_dupMem _ _)).bind fun r => ?_
    exact .ite (.pure _) ((respects_onSched _).bind fun _ => (respects_onSched _).bind fun _ => .pure _)

theorem respects_recv (p : ℕ) (a : ℤ) : Respects (Preimage (VM.store (T := T)) R) (recv p a) := by
  refine .ite (.pure _) (Respects.get.bind fun m => ?_)
  cases m.waitingSender p a with
  | none =>
    exact (respects_retry p).bind fun _ => .ite (.pure _) ((respects_updateRecvWq _ _).bind fun _ =>
      .ite (.pure _) ((respects_onSched _).bind fun _ => .pure _))
  | some s =>
    have xfer : Respects (Preimage (VM.store (T := T)) R) (xferMsg s p) :=
      Respects.get.bind fun _ => respects_onMemory (respects_xferWords _ _ _ _)
    exact xfer.bind fun _ => .ite (.pure _) ((respects_updateSendWq _ _).bind fun _ =>
      .ite (.pure _) ((respects_onSched _).bind fun _ => .pure _))

/-- Every instruction but those on semaphores respects the relation. -/
theorem respects_run {op : Op} {p : ℕ} {a : ℤ} {m u : VM T} (hsi : op ≠ .SI) (hpe : op ≠ .PE)
    (hve : op ≠ .VE) (h : op.run p a m = .ok (0, u)) : R m.store u.store := by
  cases hi : op.instruction with
  | some i =>
    rw [run_instr hi, instr, get_bind] at h
    exact respects_onCore (respects_instruction hi hsi _ _) m u 0 h
  | none =>
    cases op <;> cases hi
    case none.SD.refl =>
      rw [(send_same h).1]
      exact refl m.store
    case none.RC.refl => exact respects_recv p a m u 0 h
    case none.PE.refl => exact absurd rfl hpe
    case none.VE.refl => exact absurd rfl hve
    case none.FK.refl => exact respects_forkProc p a m u 0 h
    case none.EX.refl => exact respects_execProc p a m u 0 h
    case none.HA.refl =>
      rw [halt_store (a := a) h]
      exact refl m.store

section
variable (paged : ∀ s u : Store, u.pager = s.pager → R s u)
include paged

omit [RedBlackTree T] in
theorem respects_setSem (p : Seg) (a : ℤ) : Respects (Preimage Core.store R) (setSem p a) := by
  have set (val : UInt32) : Respects R (semSet a val) := by
    refine .ite (.pure _) (Respects.bind (.modify fun s => ?_) fun _ => .pure _)
    exact paged _ _ rfl
  exact Respects.get.bind fun _ => .ite (.pure _) (.ite (.pure _)
    ((respects_onStore (set _)).bind fun _ => .ite (.pure _) (.pure _)))

/-- A relation that does not look at the semaphores is respected by every instruction. -/
theorem respects_runs {op : Op} {p : ℕ} {a : ℤ} {m u : VM T} (h : op.run p a m = .ok (0, u)) :
    R m.store u.store := by
  by_cases hsi : op = .SI
  · subst hsi
    rw [run_instr (i := setSem) rfl, instr, get_bind] at h
    exact respects_onCore (respects_setSem paged _ a) m u 0 h
  · by_cases hpe : op = .PE
    · subst hpe
      exact paged _ _ (semDown_pager h)
    · by_cases hve : op = .VE
      · subst hve
        exact paged _ _ (semUp_pager (p := p) h)
      · exact respects_run hsi hpe hve h

theorem respects_tick {m u : VM T} {p : ℕ} {op : Op} {a : ℤ} (k : Ticked m u p op a) :
    R m.store u.store := by
  obtain ⟨f, w, v, hf, -, -, hv, x, hx, rfl⟩ := k.parts
  obtain ⟨t, ht, rfl⟩ := onMemory_ok hx
  have fetched : R m.store w.store := (respects_fetch (R := R) p _ _ _ hf :)
  have released : R v.store t := releases _ _ _ _ _ ht
  have counted : R t { t with ops := t.ops + 1 } := paged _ _ rfl
  exact trans_of R (trans_of R fetched (respects_runs paged hv)) (trans_of R released counted)

end
end

/-- Stores of which the second one has its frame table in order if the first one has. -/
def FramesKept : Store → Store → Prop := Order.Preimage (fun s => Frames s.pager) (· ≤ ·)

instance : IsPreorder Store FramesKept :=
  inferInstanceAs (IsPreorder Store (Order.Preimage (fun s : Store => Frames s.pager) (· ≤ ·)))

theorem touchPage_frames {ops : UInt32} {v : ℕ} {s u : Pager} {r : Option ℕ} (frames : Frames s)
    (h : touchPage ops v s = .ok (r, u)) : Frames u := by
  cases r with
  | none => exact (touchPageBy_missed getRemovalPage_victims frames h).frames
  | some x => exact (touchPageBy_touched getRemovalPage_victims frames h).frames

theorem getWordref_frames {p : Seg} {a : ℤ} {s u : Store} {x : Option ℕ} (frames : Frames s.pager)
    (h : getWordref p a s = .ok (x, u)) : Frames u.pager :=
  respects_getWordref (P := fun s u => Frames s → Frames u) (fun _ frames => frames)
    (fun _ _ _ _ _ touch frames => touchPage_frames frames touch) p a s u x h frames

theorem FramesKept.of_pager {s u : Store} (h : u.pager = s.pager) : FramesKept s u := by
  intro frames
  rw [h]
  exact frames

instance : MemoryRelation FramesKept where
  touches p a s u x h frames := getWordref_frames frames h
  releases := respects_releaseWordref (P := fun s u => Frames s → Frames u) (fun _ frames => frames)
    fun a s frames => (pageReleaseRef_sameFrames a s).frames frames
  assigns x w s u r h frames := by
    change Frames u.pager
    rw [assign_pager h]
    exact writeMem_frames frames x w
  codes s f frames := ⟨frames.size_pos, frames.size_dvd, frames.count, frames.frame, frames.apart⟩
  rest s u h _ := .of_pager h

variable {T : Type} [RedBlackTree T]

theorem tick_frames {m u : VM T} {p : ℕ} {op : Op} {a : ℤ} (k : Ticked m u p op a) :
    FramesKept m.store u.store := respects_tick (fun _ _ => .of_pager) k

theorem execution_frames (e : Execution T) (n : ℕ) (hn : n ≤ e.len) :
    Frames (e.vm n).store.pager := by
  refine e.invariant (fun m => Frames m.store.pager) (fun pager u fh hp hu => ?_)
    (fun m s _ frames _ => frames) (fun m u op a _ frames k => tick_frames k frames) n hn
  exact (load_pager hp hu).1

end BrainMachine.MemoryRelations
