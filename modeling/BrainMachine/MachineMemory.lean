import BrainMachine.Footprints
import BrainMachine.MachineRuns

set_option autoImplicit false

namespace BrainMachine.MachineMemory
open Codec Computations Paging Stdio AddressSpace Transparency Instructions HoleList RunQueue
open Machine Loader Dispatch Effects MachineRuns References Footprints

section
variable {T : Type}

/-- What a step of `p` from `m` to `u` may write, unless it is an SD: the words of `p`, before
and after, and those of a process that it started. -/
def Writes (m u : VM T) (p : ℕ) (op : Op) (v : ℕ) : Prop := op ≠ .SD ∧
  (Reach (m.seg p) v ∨ Reach (u.seg p) v ∨ m.nextPid < u.nextPid ∧ Reach (u.seg m.nextPid) v)

def word (m : VM T) (p : ℕ) (a : ℤ) : Word :=
  m.store.pager.view (getGlobalAddress (m.seg p) a).toNat

theorem word_absent {m : VM T} (absent : ∀ q, ¬m.store.pager.resident q) (p : ℕ) (a : ℤ) :
    word m p a = m.store.pager.pageMem (getGlobalAddress (m.seg p) a).toNat :=
  view_absent (absent _)

theorem onCore_tame {S : ℕ → Prop} {s₀ : Pager} {held : List (ℕ × ℕ)} {q : Seg} {p : ℕ}
    {x : Exec Core ℤ} {m u : VM T} (tame : Tame q x) (foot : Footing S s₀ held m.store.pager)
    (slack : Slack 8 s₀) (len : held.length ≤ 4) (reach : ∀ v, Reach q v → S v)
    (k : onCore p x m = .ok (0, u)) : Footing S s₀ held u.store.pager := by
  obtain ⟨c, hc, rfl⟩ := zoom_ok.1 k
  exact tame S s₀ held (m.core p) c reach slack len foot hc

theorem onCore_pager {α : Type} {p : ℕ} {x : Exec Core α} {m u : VM T} {a : α}
    (keeps : KeepsPager x) (k : onCore p x m = .ok (a, u)) : u.store.pager = m.store.pager := by
  obtain ⟨c, hc, rfl⟩ := zoom_ok.1 k
  exact keeps (m.core p) c a hc

theorem keeps_retryOp : KeepsPager retryOp := by
  intro c u a k
  rw [retryOp, get_bind] at k
  rcases ite_ok.1 k with ⟨-, k⟩ | ⟨-, k⟩
  · exact keeps_pure 1 c u a k
  · exact keeps_setRegs _ c u a k

theorem onMemory_ok {α : Type} {x : Exec Store α} {m u : VM T} {a : α}
    (k : onMemory x m = .ok (a, u)) : ∃ t, x m.store = .ok (a, t) ∧ u = { m with store := t } :=
  zoom_ok.1 k

theorem onMemory_bind {α β : Type} {x : Exec Store α} {f : α → Exec (VM T) β} {m : VM T}
    {r : β × VM T} (k : (onMemory x >>= f) m = .ok r) :
    ∃ a t, x m.store = .ok (a, t) ∧ f a { m with store := t } = .ok r := by
  obtain ⟨a, u, hx, hf⟩ := bind_ok.1 k
  obtain ⟨t, ht, rfl⟩ := onMemory_ok hx
  exact ⟨a, t, ht, hf⟩

theorem semP_pager {sem r : ℤ} {s t : Store} (h : semP sem s = .ok (r, t)) :
    t.pager = s.pager := by
  rw [semP, get_bind] at h
  rcases ite_ok.1 h with ⟨-, h⟩ | ⟨-, h⟩
  · obtain ⟨-, rfl⟩ := Prod.mk.inj (pure_ok.1 h)
    rfl
  · rcases ite_ok.1 h with ⟨-, h⟩ | ⟨-, h⟩
    · obtain ⟨-, rfl⟩ := Prod.mk.inj (pure_ok.1 h)
      rfl
    · obtain ⟨-, rfl⟩ := Prod.mk.inj (pure_ok.1 h)
      rfl

theorem semV_pager {sem r : ℤ} {s t : Store} (h : semV sem s = .ok (r, t)) :
    t.pager = s.pager := by
  rcases ite_ok.1 h with ⟨-, h⟩ | ⟨-, h⟩
  · obtain ⟨-, rfl⟩ := Prod.mk.inj (pure_ok.1 h)
    rfl
  · obtain ⟨-, rfl⟩ := Prod.mk.inj (pure_ok.1 h)
    rfl

theorem resized_store (p : ℕ) (n : ℤ) (m : VM T) : (resized p n m).store = m.store := by
  rw [resized, freeSpace_eq]
  rfl

theorem getExecFh_footing {S : ℕ → Prop} {s₀ : Pager} {held : List (ℕ × ℕ)} {p : ℕ}
    {m u : VM T} {f : Stream} (foot : Footing S s₀ held m.store.pager) (slack : Slack 8 s₀)
    (len : held.length ≤ 4) (k : getExecFh p m = .ok (some f, u)) :
    Footing S s₀ held u.store.pager := by
  rw [getExecFh, get_bind] at k
  rcases ite_ok.1 k with ⟨-, k⟩ | ⟨-, k⟩
  · cases (Prod.mk.inj (pure_ok.1 k)).1
  · obtain ⟨x, s, hs, k⟩ := onMemory_bind k
    cases x with
    | none => cases (Prod.mk.inj (pure_ok.1 k)).1
    | some x =>
      obtain ⟨hg, foot⟩ := getWordref_footing foot slack (by omega) hs
      obtain ⟨w, t, ht, k⟩ := onMemory_bind k
      obtain ⟨rfl, -⟩ := deref_ok ht
      obtain ⟨_, y, hy, k⟩ := onMemory_bind k
      obtain ⟨-, rfl⟩ := Prod.mk.inj (pure_ok.1 k)
      exact releaseWordref_footing hg foot hy

theorem loadCodeLoop_footing {S : ℕ → Prop} {s₀ : Pager} {held : List (ℕ × ℕ)} {p : ℕ} (n : ℕ)
    {buf : List UInt8} {addr : ℕ} {fh : Stream} {r : ℤ × Stream} {m u : VM T}
    (foot : Footing S s₀ held m.store.pager) (reach : ∀ v, Reach (m.seg p) v → S v)
    (k : loadCodeLoop p n buf addr fh m = .ok (r, u)) (hr : r.1 ≠ -1) :
    Footing S s₀ held u.store.pager := by
  induction n generalizing buf addr fh m with
  | zero => exact (fault_ok.1 k).elim
  | succ n ih =>
    rw [loadCodeLoop] at k
    rcases hs : scanToken 7 fh with ⟨_ | tok, fh'⟩
    · simp only [hs] at k
      obtain ⟨rfl, -⟩ := Prod.mk.inj (pure_ok.1 k)
      exact absurd rfl hr
    · simp only [hs] at k
      cases hl : skipLine fh'.rest with
      | none =>
        simp only [hl] at k
        exact (fault_ok.1 k).elim
      | some rest =>
        simp only [hl] at k
        rcases ite_ok.1 k with ⟨-, k⟩ | ⟨-, k⟩
        · obtain ⟨-, rfl⟩ := Prod.mk.inj (pure_ok.1 k)
          exact foot
        · rcases ite_ok.1 k with ⟨-, k⟩ | ⟨-, k⟩
          · obtain ⟨-, rfl⟩ := Prod.mk.inj (pure_ok.1 k)
            exact foot
          · rw [get_bind] at k
            obtain ⟨a, t, ht, k⟩ := onMemory_bind k
            rcases ite_ok.1 k with ⟨-, k⟩ | ⟨ha, k⟩
            · obtain ⟨rfl, -⟩ := Prod.mk.inj (pure_ok.1 k)
              exact absurd rfl hr
            · obtain rfl := not_not.1 ha
              obtain ⟨hg, hp⟩ := pageStore_pager ht
              refine ih (m := { m with store := t }) ?_ reach k
              change Footing S s₀ held t.pager
              rw [hp]
              exact foot.store (reach _ (reach_address hg)) _

theorem loadCode_footing {S : ℕ → Prop} {s₀ : Pager} {held : List (ℕ × ℕ)} {p : ℕ} {fh : Stream}
    {r : ℤ × Stream} {m u : VM T} (foot : Footing S s₀ held m.store.pager)
    (reach : ∀ v, Reach (m.seg p) v → S v) (k : loadCode fh p m = .ok (r, u)) (hr : r.1 ≠ -1) :
    Footing S s₀ held u.store.pager := by
  rw [loadCode_eq] at k
  exact loadCodeLoop_footing _ (m := entered m) foot reach k hr

theorem execProc_footing {S : ℕ → Prop} {s₀ : Pager} {held : List (ℕ × ℕ)} {p : ℕ} {a : ℤ}
    {m u : VM T} (foot : Footing S s₀ held m.store.pager) (slack : Slack 8 s₀)
    (len : held.length ≤ 4) (reach : ∀ v, Reach (u.seg p) v → S v)
    (k : execProc p a m = .ok (0, u)) : Footing S s₀ held u.store.pager := by
  obtain ⟨f, w, hw, k⟩ := bind_ok.1 k
  cases f with
  | none => cases (Prod.mk.inj (pure_ok.1 k)).1
  | some fh =>
    have foot := getExecFh_footing foot slack len hw
    change execFile p fh w = .ok (0, u) at k
    rw [execFile] at k
    rcases hs : scanToken 7 fh with ⟨_ | tok, fh'⟩
    · simp only [hs] at k
      cases (Prod.mk.inj (pure_ok.1 k)).1
    · simp only [hs] at k
      rcases ite_ok.1 k with ⟨-, k⟩ | ⟨-, k⟩
      · cases (Prod.mk.inj (pure_ok.1 k)).1
      · rcases ite_ok.1 k with ⟨-, k⟩ | ⟨-, k⟩
        · cases (Prod.mk.inj (pure_ok.1 k)).1
        · obtain ⟨r, x, hx, k⟩ := bind_ok.1 k
          rcases ite_ok.1 k with ⟨hr, k⟩ | ⟨hr, k⟩
          · obtain ⟨_, y, hy, k⟩ := bind_ok.1 k
            obtain ⟨-, rfl⟩ := Prod.mk.inj (pure_ok.1 k)
            rw [onCore_pager (fun c u a h => by rw [setRegs_store h]) hy]
            rcases resizeProc_ok hx with ⟨-, -, rfl⟩ | ⟨rfl, -⟩
            · exact foot
            · exact absurd rfl hr
          · obtain ⟨code, y, hy, k⟩ := bind_ok.1 k
            rcases ite_ok.1 k with ⟨-, k⟩ | ⟨hc, k⟩
            · cases (Prod.mk.inj (pure_ok.1 k)).1
            · obtain ⟨_, z, hz, k⟩ := bind_ok.1 k
              obtain ⟨-, rfl⟩ := Prod.mk.inj (pure_ok.1 k)
              have seg : z.seg p = x.seg p := by
                obtain ⟨f, rfl⟩ := loadCode_stored hy
                exact (onCore_local hz).seg p
              change Footing S s₀ held z.store.pager
              rw [onCore_pager (fun c u a h => by rw [setRegs_store h]) hz]
              refine loadCode_footing ?_ (fun v hv => reach v (seg ▸ hv)) hy hc
              rcases resizeProc_ok hx with ⟨rfl, -⟩ | ⟨-, -, rfl⟩
              · exact absurd (by decide) hr
              · rw [resized_store]
                exact foot

variable [RedBlackTree T]

theorem send_same {p : ℕ} {a : ℤ} {m u : VM T} (k : send p a m = .ok (0, u)) :
    u.store = m.store ∧ u.proc = m.proc := by
  rw [send] at k
  rcases ite_ok.1 k with ⟨-, k⟩ | ⟨-, k⟩
  · cases (Prod.mk.inj (pure_ok.1 k)).1
  · obtain ⟨c, s, -, k⟩ := onSched_bind k
    obtain ⟨r, x, hx, k⟩ := bind_ok.1 k
    obtain ⟨-, rfl⟩ := updateSendWq_ok hx
    rcases ite_ok.1 k with ⟨-, k⟩ | ⟨-, k⟩
    · cases (Prod.mk.inj (pure_ok.1 k)).1
    · rw [get_bind] at k
      rcases ite_ok.1 k with ⟨-, k⟩ | ⟨-, k⟩
      · obtain ⟨r, y, hy, k⟩ := bind_ok.1 k
        obtain ⟨-, rfl⟩ := removeReceiver_ok hy
        rcases ite_ok.1 k with ⟨-, k⟩ | ⟨-, k⟩
        · cases (Prod.mk.inj (pure_ok.1 k)).1
        · obtain ⟨d, t, -, k⟩ := onSched_bind k
          obtain ⟨-, rfl⟩ := Prod.mk.inj (pure_ok.1 k)
          exact ⟨rfl, rfl⟩
      · obtain ⟨-, rfl⟩ := Prod.mk.inj (pure_ok.1 k)
        exact ⟨rfl, rfl⟩

theorem halt_store {p : ℕ} {a : ℤ} {m u : VM T} (k : halt p a m = .ok (0, u)) :
    u.store = m.store := by
  rw [halt, modify_bind] at k
  obtain ⟨c, s, -, k⟩ := onSched_bind k
  obtain ⟨d, t, -, k⟩ := onSched_bind k
  obtain ⟨-, rfl⟩ := Prod.mk.inj (pure_ok.1 k)
  rw [freeSpace_eq]

theorem semDown_pager {p : ℕ} {a : ℤ} {m u : VM T} (k : semDown p a m = .ok (0, u)) :
    u.store.pager = m.store.pager := by
  rw [semDown] at k
  rcases ite_ok.1 k with ⟨-, k⟩ | ⟨-, k⟩
  · cases (Prod.mk.inj (pure_ok.1 k)).1
  · obtain ⟨r, t, ht, k⟩ := onMemory_bind k
    have down : t.pager = m.store.pager := semP_pager ht
    rcases ite_ok.1 k with ⟨-, k⟩ | ⟨-, k⟩
    · obtain ⟨-, rfl⟩ := Prod.mk.inj (pure_ok.1 k)
      exact down
    · rcases ite_ok.1 k with ⟨-, k⟩ | ⟨-, k⟩
      · obtain ⟨c, x, hx, k⟩ := bind_ok.1 k
        have retry : x.store.pager = t.pager := onCore_pager keeps_retryOp hx
        rcases ite_ok.1 k with ⟨-, k⟩ | ⟨-, k⟩
        · cases (Prod.mk.inj (pure_ok.1 k)).1
        · obtain ⟨d, s, -, k⟩ := onSched_bind k
          obtain ⟨e, z, hz, k⟩ := bind_ok.1 k
          obtain ⟨-, rfl⟩ := updateSemWq_ok hz
          rcases ite_ok.1 k with ⟨-, k⟩ | ⟨-, k⟩
          · cases (Prod.mk.inj (pure_ok.1 k)).1
          · obtain ⟨-, rfl⟩ := Prod.mk.inj (pure_ok.1 k)
            exact retry.trans down
      · cases (Prod.mk.inj (pure_ok.1 k)).1

theorem semUp_pager {p : ℕ} {a : ℤ} {m u : VM T} (k : semUp p a m = .ok (0, u)) :
    u.store.pager = m.store.pager := by
  rw [semUp] at k
  rcases ite_ok.1 k with ⟨-, k⟩ | ⟨-, k⟩
  · cases (Prod.mk.inj (pure_ok.1 k)).1
  · obtain ⟨r, t, ht, k⟩ := onMemory_bind k
    have up : t.pager = m.store.pager := semV_pager ht
    rcases ite_ok.1 k with ⟨-, k⟩ | ⟨-, k⟩
    · cases (Prod.mk.inj (pure_ok.1 k)).1
    · rw [get_bind] at k
      cases hq : m.semWq a.toNat with
      | nil =>
        simp only [hq] at k
        obtain ⟨-, rfl⟩ := Prod.mk.inj (pure_ok.1 k)
        exact up
      | cons q l =>
        simp only [hq] at k
        obtain ⟨c, s, -, k⟩ := onSched_bind k
        obtain ⟨e, z, hz, k⟩ := bind_ok.1 k
        obtain ⟨-, rfl⟩ := updateSemWq_ok hz
        rcases ite_ok.1 k with ⟨-, k⟩ | ⟨-, k⟩
        · cases (Prod.mk.inj (pure_ok.1 k)).1
        · obtain ⟨-, rfl⟩ := Prod.mk.inj (pure_ok.1 k)
          exact up

theorem recv_copied {S : ℕ → Prop} {s₀ : Pager} {held : List (ℕ × ℕ)} {p s : ℕ} {a : ℤ}
    {m u : VM T} (foot : Footing S s₀ held m.store.pager) (slack : Slack 8 s₀)
    (len : held.length ≤ 4) (reach : ∀ v, Reach (m.seg p) v → S v)
    (some : m.waitingSender p a = some s) (k : recv p a m = .ok (0, u)) :
    Copied S s₀ held (m.seg s) (m.seg p) (word2int (m.regs s).r) (word2int (m.regs p).r)
      m.store.pager 10 u.store.pager := by
  rw [recv] at k
  rcases ite_ok.1 k with ⟨-, k⟩ | ⟨-, k⟩
  · cases (Prod.mk.inj (pure_ok.1 k)).1
  · simp only [get_bind, some] at k
    obtain ⟨r, w, hw, k⟩ := bind_ok.1 k
    rw [xferMsg, get_bind] at hw
    obtain ⟨t, ht, rfl⟩ := onMemory_ok hw
    rcases ite_ok.1 k with ⟨-, k⟩ | ⟨hr, k⟩
    · cases (Prod.mk.inj (pure_ok.1 k)).1
    · obtain rfl := not_not.1 hr
      obtain ⟨r, x, hx, k⟩ := bind_ok.1 k
      obtain ⟨-, rfl⟩ := updateSendWq_ok hx
      rcases ite_ok.1 k with ⟨-, k⟩ | ⟨-, k⟩
      · cases (Prod.mk.inj (pure_ok.1 k)).1
      · obtain ⟨c, t, -, k⟩ := onSched_bind k
        obtain ⟨-, rfl⟩ := Prod.mk.inj (pure_ok.1 k)
        exact xferWords_copied foot slack len reach ht

theorem recv_footing {S : ℕ → Prop} {s₀ : Pager} {held : List (ℕ × ℕ)} {p : ℕ} {a : ℤ}
    {m u : VM T} (foot : Footing S s₀ held m.store.pager) (slack : Slack 8 s₀)
    (len : held.length ≤ 4) (reach : ∀ v, Reach (m.seg p) v → S v)
    (k : recv p a m = .ok (0, u)) : Footing S s₀ held u.store.pager := by
  cases hs : m.waitingSender p a with
  | some s => exact (recv_copied foot slack len reach hs k).foot
  | none =>
    rw [recv] at k
    rcases ite_ok.1 k with ⟨-, k⟩ | ⟨-, k⟩
    · cases (Prod.mk.inj (pure_ok.1 k)).1
    · simp only [get_bind, hs] at k
      obtain ⟨r, w, hw, k⟩ := bind_ok.1 k
      have retry := onCore_pager keeps_retryOp hw
      rcases ite_ok.1 k with ⟨-, k⟩ | ⟨-, k⟩
      · cases (Prod.mk.inj (pure_ok.1 k)).1
      · obtain ⟨r, x, hx, k⟩ := bind_ok.1 k
        obtain ⟨-, rfl⟩ := updateRecvWq_ok hx
        rcases ite_ok.1 k with ⟨-, k⟩ | ⟨-, k⟩
        · cases (Prod.mk.inj (pure_ok.1 k)).1
        · obtain ⟨c, t, -, k⟩ := onSched_bind k
          obtain ⟨-, rfl⟩ := Prod.mk.inj (pure_ok.1 k)
          change Footing S s₀ held w.store.pager
          rw [retry]
          exact foot

theorem forkProc_footing {S : ℕ → Prop} {s₀ : Pager} {held : List (ℕ × ℕ)} {p : ℕ} {a : ℤ}
    {m u : VM T} (foot : Footing S s₀ held m.store.pager) (slack : Slack 8 s₀)
    (len : held.length ≤ 4)
    (reach : ∀ v, m.nextPid < u.nextPid ∧ Reach (u.seg m.nextPid) v → S v)
    (k : forkProc p a m = .ok (0, u)) : Footing S s₀ held u.store.pager := by
  rw [forkProc, get_bind] at k
  rcases ite_ok.1 k with ⟨-, k⟩ | ⟨-, k⟩
  · cases (Prod.mk.inj (pure_ok.1 k)).1
  · obtain ⟨q, w, hw, k⟩ := bind_ok.1 k
    rcases procalloc_ok hw with ⟨rfl, -⟩ | ⟨rfl, -, -, rfl⟩
    · simp only [modify_bind] at k
      exact (fault_ok.1 k).elim
    · simp only [modify_bind, get_bind] at k
      obtain ⟨r, x, hx, k⟩ := bind_ok.1 k
      have hl := onMemory_local p hx
      obtain ⟨t, ht, rfl⟩ := onMemory_ok hx
      rcases ite_ok.1 k with ⟨-, k⟩ | ⟨hr, k⟩
      · cases (Prod.mk.inj (pure_ok.1 k)).1
      · obtain rfl := not_not.1 hr
        obtain ⟨c, s, -, k⟩ := onSched_bind k
        obtain ⟨d, t', -, k⟩ := onSched_bind k
        obtain ⟨-, rfl⟩ := Prod.mk.inj (pure_ok.1 k)
        exact (dupMem_run foot slack len (fun v hv => reach v ⟨Nat.lt_succ_self _, hv⟩) ht).1

theorem run_instr {op : Op} {i : Instruction} (h : op.instruction = some i) (p : ℕ) (a : ℤ) :
    op.run (T := T) p a = instr i p a := by
  cases op <;> cases h <;> rfl

/-- Every instruction that returned 0 has given back the references that it took, and has
written to words of its process and of the process that it started. -/
theorem run_footing {S : ℕ → Prop} {s₀ : Pager} {held : List (ℕ × ℕ)} {p : ℕ} {op : Op} {a : ℤ}
    {m u : VM T} (foot : Footing S s₀ held m.store.pager) (slack : Slack 8 s₀)
    (len : held.length ≤ 4) (reach : ∀ v, Writes m u p op v → S v)
    (k : op.run p a m = .ok (0, u)) : Footing S s₀ held u.store.pager := by
  cases h : op.instruction with
  | some i =>
    rw [run_instr h, instr, get_bind] at k
    have hop : op ≠ .SD := by
      rintro rfl
      cases h
    exact onCore_tame (instruction_tame h _ _) foot slack len
      (fun v hv => reach v ⟨hop, .inl hv⟩) k
  | none =>
    cases op <;> cases h
    case none.SD.refl => exact (send_same k).1 ▸ foot
    case none.RC.refl => exact recv_footing foot slack len (fun v hv => reach v ⟨by decide, .inl hv⟩) k
    case none.PE.refl => exact (semDown_pager k) ▸ foot
    case none.VE.refl => exact (semUp_pager (p := p) k) ▸ foot
    case none.FK.refl =>
      exact forkProc_footing (a := a) foot slack len
        (fun v hv => reach v ⟨by decide, .inr (.inr hv)⟩) k
    case none.EX.refl =>
      exact execProc_footing (a := a) foot slack len
        (fun v hv => reach v ⟨by decide, .inr (.inl hv)⟩) k
    case none.HA.refl => exact (halt_store (a := a) k) ▸ foot

structure Executed (m v : VM T) (p : ℕ) (op : Op) (ic : ℤ) (x : ℕ) : Prop where
  fetched : 0 ≤ getGlobalAddress (m.seg p) ic
  foot : Footing (Writes m v p op) m.store.pager [((getGlobalAddress (m.seg p) ic).toNat, x)]
    v.store.pager

omit [RedBlackTree T] in
/-- A fetch that reads a word moves the counter on and holds a reference to the word. -/
theorem fetch_run {p : ℕ} {f : Fetched} {m u : VM T} (k : fetch p m = .ok (some f, u)) :
    ∃ x s, getWordref (m.seg p) (word2int (icWord (m.regs p).ic)) m.store = .ok (some x, s) ∧
      f = ⟨word2int (icWord (m.regs p).ic), opcode (s.pager.mem x).b0 (s.pager.mem x).b1,
        word2int ⟨48, 48, (s.pager.mem x).b2, (s.pager.mem x).b3⟩⟩ ∧
      u = m.setCore p ⟨{ m.regs p with
        ic := lowHalf (int2word (word2int (icWord (m.regs p).ic) + 1)) }, s⟩ := by
  simp only [fetch, get_bind] at k
  rcases ite_ok.1 k with ⟨-, k⟩ | ⟨-, k⟩
  · cases (Prod.mk.inj (pure_ok.1 k)).1
  · obtain ⟨x, s, hs, k⟩ := onMemory_bind k
    cases x with
    | none => cases (Prod.mk.inj (pure_ok.1 k)).1
    | some x =>
      obtain ⟨_, y, hy, k⟩ := bind_ok.1 k
      obtain ⟨w, t, ht, k⟩ := onMemory_bind k
      obtain ⟨c, hc, rfl⟩ := zoom_ok.1 hy
      obtain ⟨-, rfl⟩ := Prod.mk.inj (modify_ok.1 hc)
      obtain ⟨rfl, rfl⟩ := deref_ok ht
      obtain ⟨hf, rfl⟩ := Prod.mk.inj (pure_ok.1 k)
      exact ⟨x, t, hs, Option.some.inj hf, rfl⟩

omit [RedBlackTree T] in
theorem fetch_ok {p : ℕ} {f : Fetched} {m u : VM T} (k : fetch p m = .ok (some f, u)) :
    f.ic = word2int (icWord (m.regs p).ic) ∧ ∃ x s,
      getWordref (m.seg p) f.ic m.store = .ok (some x, s) ∧ u.store = s ∧
        (u.regs p).r = (m.regs p).r := by
  obtain ⟨x, s, hs, rfl, rfl⟩ := fetch_run k
  refine ⟨rfl, x, s, hs, rfl, ?_⟩
  simp [VM.regs, VM.setCore, VM.setProc]

/-- The reference of the fetch is still held when the instruction is done, and is released
under the registers of that moment. -/
theorem tick_executed {m u : VM T} {p : ℕ} {op : Op} {a : ℤ} (k : Ticked m u p op a)
    (frames : Frames m.store.pager) (slack : Slack 8 m.store.pager) :
    ∃ v x, Executed m v p op (word2int (icWord (m.regs p).ic)) x ∧ (∀ q, u.seg q = v.seg q) ∧
      u.nextPid = v.nextPid ∧ ∃ t, releaseWordref (v.seg p) (word2int (icWord (m.regs p).ic))
        v.store = .ok ((), t) ∧ u.store.pager = t.pager := by
  obtain ⟨f, w, v, hf, -, -, hv, x, hx, rfl⟩ := k.parts
  have hl := fetch_local hf
  obtain ⟨ic, y, s, hy, hs, -⟩ := fetch_ok hf
  obtain ⟨t, ht, rfl⟩ := onMemory_ok hx
  change f.ic = word2int (icWord (m.regs p).ic) at ic
  change getWordref (m.seg p) f.ic m.store = _ at hy
  rw [ic] at hy ht
  have writes (z : ℕ) (hz : Writes w v p op z) : Writes m v p op z := by
    rw [Writes, hl.seg, hl.nextPid] at hz
    exact hz
  obtain ⟨hg, foot⟩ := getWordref_footing (Footing.start (Writes m v p op) frames) slack
    (Nat.zero_le _) hy
  rw [← hs] at foot
  exact ⟨v, y, ⟨hg, run_footing foot slack (Nat.le_add_left 1 3) writes hv⟩, fun _ => rfl, rfl, t,
    ht, rfl⟩

def counter (m : VM T) (p : ℕ) : ℤ := word2int (icWord (m.regs p).ic)

structure Paged (m u : VM T) (p : ℕ) (op : Op) : Prop where
  frames : Frames u.store.pager
  size : u.store.pager.pgSize = m.store.pager.pgSize
  view : ∀ v, ¬Writes m u p op v → u.store.pager.view v = m.store.pager.view v
  refs : ∀ q, (u.store.pager.refs q).toNat ≤ (m.store.pager.refs q).toNat + 1

theorem releaseWordref_invalid {p : Seg} {a : ℤ} {s u : Store} {r : Unit}
    (hg : getGlobalAddress p a < 0) (k : releaseWordref p a s = .ok (r, u)) : u = s := by
  rcases ite_ok.1 k with ⟨-, k⟩ | ⟨hn, -⟩
  · exact (Prod.mk.inj (pure_ok.1 k)).2
  · exact absurd hg hn

theorem releaseWordref_view {p : Seg} {a : ℤ} {s u : Store} {r : Unit}
    (k : releaseWordref p a s = .ok (r, u)) : u.pager.view = s.pager.view := by
  funext v
  by_cases hg : getGlobalAddress p a < 0
  · rw [releaseWordref_invalid hg k]
  · rw [releaseWordref_pager (not_lt.1 hg) k]
    exact (pageReleaseRef_sameFrames _ s.pager).view v

theorem tick_paged {m u : VM T} {p : ℕ} {op : Op} {a : ℤ} (k : Ticked m u p op a)
    (frames : Frames m.store.pager) (slack : Slack 8 m.store.pager) : Paged m u p op := by
  obtain ⟨v, x, ⟨-, foot⟩, seg, next, t, ht, ht'⟩ := tick_executed k frames slack
  have writes (z : ℕ) (hz : ¬Writes m u p op z) : ¬Writes m v p op z := by
    rw [Writes, seg, seg, next] at hz
    exact hz
  have refs (q : ℕ) : (v.store.pager.refs q).toNat ≤ (m.store.pager.refs q).toNat + 1 := by
    rw [foot.counted]
    exact Nat.add_le_add_left (openRefs_le _ _ q) _
  by_cases hg : getGlobalAddress (v.seg p) (word2int (icWord (m.regs p).ic)) < 0
  · have same : u.store.pager = v.store.pager := by rw [ht', releaseWordref_invalid hg ht]
    refine ⟨?_, ?_, fun z hz => ?_, fun q => ?_⟩
    · exact same ▸ foot.holding.frames
    · exact same ▸ foot.size
    · rw [same]
      exact foot.view z (writes z hz)
    · rw [same]
      exact refs q
  · rw [releaseWordref_pager (by omega) ht] at ht'
    have same := ht' ▸ pageReleaseRef_sameFrames
      (getGlobalAddress (v.seg p) (word2int (icWord (m.regs p).ic))).toNat v.store.pager
    refine ⟨same.frames foot.holding.frames, same.size.trans foot.size, fun z hz => ?_,
      fun q => ?_⟩
    · exact (same.view z).trans (foot.view z (writes z hz))
    · rw [ht']
      exact (pageReleaseRef_le _ _ q).trans (refs q)

/-- The word at the counter of `p` lies on the same page under `q` as under the registers
of `p`. -/
def SamePage (m : VM T) (p : ℕ) (q : Seg) : Prop :=
  0 ≤ getGlobalAddress q (counter m p) ∧
    (getGlobalAddress q (counter m p)).toNat / m.store.pager.pgSize =
      (getGlobalAddress (m.seg p) (counter m p)).toNat / m.store.pager.pgSize

/-- The reference counts after a tick are those before it exactly when the registers of that
moment place the word of the instruction on the same page. -/
theorem tick_refs {m u : VM T} {p : ℕ} {op : Op} {a : ℤ} (k : Ticked m u p op a)
    (frames : Frames m.store.pager) (slack : Slack 8 m.store.pager) :
    (∀ q, u.store.pager.refs q = m.store.pager.refs q) ↔ SamePage m p (u.seg p) := by
  obtain ⟨v, x, ⟨hg, foot⟩, seg, -, t, ht, ht'⟩ := tick_executed k frames slack
  change getGlobalAddress (m.seg p) (counter m p) ≥ 0 at hg
  rw [SamePage, seg]
  have page : (v.store.pager.refs
      ((getGlobalAddress (m.seg p) (counter m p)).toNat / m.store.pager.pgSize)).toNat =
      (m.store.pager.refs
        ((getGlobalAddress (m.seg p) (counter m p)).toNat / m.store.pager.pgSize)).toNat + 1 := by
    have one := openRefs_cons m.store.pager.pgSize
      (getGlobalAddress (m.seg p) (counter m p)).toNat x []
      ((getGlobalAddress (m.seg p) (counter m p)).toNat / m.store.pager.pgSize)
    rw [if_pos rfl] at one
    rw [foot.counted]
    exact congrArg _ one
  constructor
  · intro same
    by_contra other
    -- the page of the fetch keeps the reference
    have kept : u.store.pager.refs
        ((getGlobalAddress (m.seg p) (counter m p)).toNat / m.store.pager.pgSize) =
        v.store.pager.refs
        ((getGlobalAddress (m.seg p) (counter m p)).toNat / m.store.pager.pgSize) := by
      by_cases hn : getGlobalAddress (v.seg p) (counter m p) < 0
      · rw [ht', releaseWordref_invalid hn ht]
      · rw [ht', releaseWordref_pager (not_lt.1 hn) ht]
        refine pageReleaseRef_other fun he => other ⟨not_lt.1 hn, ?_⟩
        rw [foot.size] at he
        exact he.symm
    rw [← kept, same] at page
    omega
  · rintro ⟨hn, same⟩ q
    have drop := foot.drop
    rw [← foot.size] at same
    rw [ht', releaseWordref_pager hn ht]
    rw [pageReleaseRef_page same]
    exact UInt32.toNat_inj.1 (drop.counted q)

theorem tick_send {m u : VM T} {p : ℕ} {a : ℤ} (k : Ticked m u p .SD a) :
    (u.regs p).r = (m.regs p).r := by
  obtain ⟨f, w, v, hf, -, -, hv, x, hx, rfl⟩ := k.parts
  obtain ⟨-, -, -, -, -, hr⟩ := fetch_ok hf
  have same : v.proc = w.proc := (send_same hv).2
  obtain ⟨t, -, rfl⟩ := onMemory_ok hx
  exact (congrArg (fun c : ℕ → Proc => (c p).r) same).trans hr

/-- The step of a receiver that takes a sender copies ten words. -/
theorem tick_recv {m u : VM T} {p s : ℕ} {a : ℤ} (k : Ticked m u p .RC a)
    (frames : Frames m.store.pager) (slack : Slack 8 m.store.pager) (hs : s ≠ p)
    (some : m.waitingSender p a = some s)
    (apart : ∀ v, Reach (m.seg s) v → ¬Reach (m.seg p) v) (j : ℕ) (hj : j < 10) :
    0 ≤ getGlobalAddress (m.seg s) (word2int (m.regs s).r + j) ∧
    0 ≤ getGlobalAddress (m.seg p) (word2int (m.regs p).r + j) ∧
    u.store.pager.view (getGlobalAddress (m.seg p) (word2int (m.regs p).r + j)).toNat =
      m.store.pager.view (getGlobalAddress (m.seg s) (word2int (m.regs s).r + j)).toNat := by
  obtain ⟨f, w, v, hf, -, -, hv, x, hx, rfl⟩ := k.parts
  have hl := fetch_local hf
  obtain ⟨-, y, t, hy, ht, hr⟩ := fetch_ok hf
  change getWordref (m.seg p) f.ic m.store = _ at hy
  change (w.regs p).r = (m.regs p).r at hr
  have view : w.store.pager.view = m.store.pager.view := by
    rw [ht]
    exact funext (touchPageBy_touched getRemovalPage_victims frames (getWordref_touch hy).2).view
  have waits : w.waitingSender p a = Option.some s := by
    rw [VM.waitingSender, hl.sendWq]
    exact some
  obtain ⟨-, foot⟩ := getWordref_footing (Footing.start (fun _ => True) frames) slack
    (Nat.zero_le _) hy
  rw [← ht] at foot
  have copied := recv_copied foot slack (Nat.le_add_left 1 3) (fun _ _ => trivial) waits hv
  have seg (q : ℕ) : w.seg q = m.seg q := hl.seg q
  have regs : w.regs s = m.regs s := hl.regs s hs
  rw [seg, seg, regs, hr] at copied
  obtain ⟨z, hz, rfl⟩ := onMemory_ok hx
  obtain ⟨hp, hq⟩ := copied.valid j hj
  refine ⟨hp, hq, ?_⟩
  rw [← view, ← copied.words apart j hj]
  exact congrFun (releaseWordref_view hz) _

theorem load_pager {pgSize : ℕ} {average : UInt32 → UInt32 → UInt32} {pager : Pager}
    {host : Host} {u : VM T}
    (hp : pagememInit pgSize average = some pager) (h : Loads (startState pager host) u) :
    Frames u.store.pager ∧ ∀ q, u.store.pager.refs q = 0 := by
  induction h with
  | start => exact ⟨pagememInit_frames _ _ _ hp, (pagememInit_blank hp).2.2⟩
  | turn w n a b f s t hl hn small room block reset resume ih =>
    obtain ⟨frames, refs⟩ := ih
    exact ⟨⟨frames.size_pos, frames.size_dvd, frames.count, frames.frame, frames.apart⟩, refs⟩

end
end BrainMachine.MachineMemory
