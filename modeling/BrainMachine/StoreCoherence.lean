import BrainMachine.References

set_option autoImplicit false

namespace BrainMachine.StoreCoherence
open Codec Computations Paging AddressSpace Runs Transparency References

/-- What a pager can be asked to do: accesses, touches that fail, and loader stores. -/
inductive Move where
  | access (b : Access)
  | miss
  | store (v : ℕ) (w : Word)

inductive Moves : Session → Move → Session → Prop
  | access (s : Session) (b : Access) (u : Session) (h : Accesses s b u)
      (room : ∀ v, b = .touch v → (s.pager.refs (v / s.pager.pgSize)).toNat + 1 < 4294967296) :
      Moves s (.access b) u
  | miss (s : Session) (choose : Pager → Option ℕ) (ops : UInt32) (v : ℕ) (u : Pager)
      (hc : Victims choose) (h : touchPageBy choose ops v s.pager = .ok (none, u)) :
      Moves s .miss ⟨u, s.held⟩
  | store (s : Session) (t u : Store) (ht : t.pager = s.pager) (q : Seg) (w : Word) (b : ℤ)
      (h : pageStore q w b t = .ok (0, u)) :
      Moves s (.store (getGlobalAddress q b).toNat w) ⟨u.pager, s.held⟩

def Move.writes (v : ℕ) : Move → Prop
  | .access b => b.writes v
  | .miss => False
  | .store x _ => x = v

def Reached (s : Session) : Prop := ∃ r : Run Moves, Blank (r.st 0) ∧ r.st r.len = s

/-- From `s` on, as long as nothing is written to the address `a` of `p`, a reference to it
that can be had shows `src`, and secondary storage holds `src` there. -/
structure Coherent (s : Session) (p : Seg) (src : Word) (a : ℤ) : Prop where
  reads : ∀ r : Run Moves, r.st 0 = s →
    (∀ i < r.len, ¬(r.lab i).writes (getGlobalAddress p a).toNat) →
    ∀ (t u : Store) (x : ℕ), t.pager = (r.st r.len).pager →
      getWordref p a t = .ok (some x, u) → u.pager.mem x = src
  kept : ∀ r : Run Moves, r.st 0 = s →
    (∀ i < r.len, ¬(r.lab i).writes (getGlobalAddress p a).toNat) →
    (r.st r.len).pager.pageMem (getGlobalAddress p a).toNat = src

theorem Moves.holding {s u : Session} {b : Move} (h : Holding s.pager s.held)
    (k : Moves s b u) : Holding u.pager u.held := by
  cases k with
  | access b u k room => exact (k.holding h room).1
  | miss choose ops v u hc k =>
    have moved := touchPageBy_missed hc h.frames k
    refine ⟨moved.frames, fun p => ?_, fun r hr => ?_⟩
    · rw [moved.size, moved.refs]
      exact h.counted p
    · obtain ⟨res, addr⟩ := h.fixed r hr
      have pos := toNat_ne_zero (Nat.lt_of_lt_of_le (openRefs_pos hr) (h.counted _))
      obtain ⟨res', addr'⟩ := moved.kept _ res pos
      rw [moved.size, addr']
      exact ⟨res', addr⟩
  | store t u ht q w b k =>
    obtain ⟨-, hu⟩ := pageStore_pager k
    rw [hu, ht]
    exact ⟨⟨h.frames.size_pos, h.frames.size_dvd, h.frames.count, h.frames.frame,
      h.frames.apart⟩, h.counted, h.fixed⟩

theorem Reached.holding {s : Session} (h : Reached s) : Holding s.pager s.held := by
  obtain ⟨r, blank, rfl⟩ := h
  exact r.invariant (fun n => Holding (r.st n).pager (r.st n).held) blank.holding
    (fun i hi hi' => (r.ok i hi).holding hi') r.len le_rfl

structure Settled (s : Session) (g : ℕ) (src : Word) : Prop where
  holding : Holding s.pager s.held
  stored : s.pager.pageMem g = src
  view : s.pager.view g = src

theorem Settled.step {s u : Session} {b : Move} {g : ℕ} {src : Word} (h : Settled s g src)
    (k : Moves s b u) (other : ¬b.writes g) : Settled u g src := by
  have kept : u.pager.pageMem g = src ∧ u.pager.view g = src := by
    cases k with
    | access b u k room =>
      cases k with
      | touch choose ops v a u hc k =>
        have touched := touchPageBy_touched hc h.holding.frames k
        refine ⟨?_, (touched.view g).trans h.view⟩
        rcases touched.stored g with hs | hs
        · exact hs.trans h.stored
        · exact hs.trans h.view
      | release v a hm =>
        have same := pageReleaseRef_sameFrames v s.pager
        exact ⟨(congrFun same.pageMem g).trans h.stored, (same.view g).trans h.view⟩
      | write v a w hm =>
        have hv : g ≠ v := fun hv => other ⟨w, by rw [hv]⟩
        refine ⟨h.stored, ?_⟩
        rw [h.holding.write_view hm w, Function.update_of_ne hv]
        exact h.view
      | read v a hm => exact ⟨h.stored, h.view⟩
    | miss choose ops v u hc k =>
      have moved := touchPageBy_missed hc h.holding.frames k
      refine ⟨?_, (moved.view g).trans h.view⟩
      rcases moved.stored g with hs | hs
      · exact hs.trans h.stored
      · exact hs.trans h.view
    | store t u ht q w b k =>
      have hg : g ≠ (getGlobalAddress q b).toNat := fun hg => other hg.symm
      obtain ⟨-, hu⟩ := pageStore_pager k
      rw [hu, ht]
      exact ⟨(Function.update_of_ne hg w _).trans h.stored, (view_store hg w).trans h.view⟩
  exact ⟨k.holding h.holding, kept.1, kept.2⟩

theorem Settled.run {r : Run Moves} {g : ℕ} {src : Word} (h : Settled (r.st 0) g src)
    (other : ∀ i < r.len, ¬(r.lab i).writes g) : Settled (r.st r.len) g src :=
  r.invariant (fun n => Settled (r.st n) g src) h
    (fun i hi hi' => hi'.step (r.ok i hi) (other i hi)) r.len le_rfl

theorem Settled.coherent {s : Session} {p : Seg} {src : Word} {a : ℤ}
    (h : Settled s (getGlobalAddress p a).toNat src) : Coherent s p src a := by
  refine ⟨fun r hr other t u x ht k => ?_, fun r hr other => ?_⟩
  · subst hr
    have settled := h.run other
    have hf : Frames t.pager := ht ▸ settled.holding.frames
    rw [getWordref_word hf k, ht]
    exact settled.view
  · subst hr
    exact (h.run other).stored

def idle (s : Session) : Run Moves where
  len := 0
  st _ := s
  lab _ := .miss
  ok i hi := absurd hi (Nat.not_lt_zero i)

/-- A successful loader store is coherent exactly when the page of its address is not
resident, or the word is there already. -/
theorem store_coherent_iff {s : Session} (reached : Reached s) {t u : Store}
    (ht : t.pager = s.pager) {p : Seg} {src : Word} {a : ℤ}
    (h : pageStore p src a t = .ok (0, u)) : Coherent ⟨u.pager, s.held⟩ p src a ↔
      (s.pager.resident ((getGlobalAddress p a).toNat / s.pager.pgSize) →
        s.pager.view (getGlobalAddress p a).toNat = src) := by
  have holding : Holding u.pager s.held :=
    (Moves.store s t u ht p src a h).holding reached.holding
  obtain ⟨hg, hu⟩ := pageStore_pager h
  rw [ht] at hu
  have frame (g : ℕ) (hr : s.pager.resident (g / s.pager.pgSize)) :
      u.pager.view g = s.pager.view g := by
    rw [hu, view_resident hr]
    exact view_resident (s := { s.pager with pageMem := _ }) hr
  refine ⟨fun coherent hr => ?_, fun same => Settled.coherent ⟨holding, ?_, ?_⟩⟩
  · obtain ⟨x, w, read, -, word⟩ := getWordref_resident holding.frames hg (by rw [hu]; exact hr)
    rw [← frame _ hr, ← word]
    exact coherent.reads (idle _) rfl (fun i hi => absurd hi (Nat.not_lt_zero i)) u w x rfl read
  · rw [hu]
    exact Function.update_self _ src s.pager.pageMem
  · by_cases hr : s.pager.resident ((getGlobalAddress p a).toNat / s.pager.pgSize)
    · exact (frame _ hr).trans (same hr)
    · rw [hu, view_absent]
      · exact Function.update_self _ src s.pager.pageMem
      · exact hr

def storeOf (s : Pager) : Store where
  pager := s
  ops := 0
  semTable := fun _ => 1
  shm := fun _ => zeros
  stdin := ⟨[], false⟩
  stdout := []

/-- The block that EX takes for one word when another process has the word before it. -/
def oneWord : Seg := ⟨int2word 1, int2word 0, 0⟩

def haltWord : Word := ⟨72, 65, 48, 48⟩

def loadedPager (s : Pager) : Pager :=
  { s with pageMem := Function.update s.pageMem 1 haltWord }

theorem Reached.of_run (r : Run Counting) (start : Blank (r.st 0)) : Reached (r.st r.len) :=
  ⟨r.map .access fun _ _ _ h => .access _ _ _ h.1 h.2, start, rfl⟩

def tossed : Session := tossingRun.st tossingRun.len

def farWord : Seg := ⟨int2word 107, int2word 0, 0⟩
def nearWord : Seg := ⟨int2word 5, int2word 0, 0⟩

def storedAt (g : ℕ) (w : Word) (s : Pager) : Pager :=
  { s with pageMem := Function.update s.pageMem g w }

/-- New code for the page that has been tossed, and the word that is in the frame for page 0. -/
theorem tossed_coherent :
    Coherent ⟨storedAt 107 haltWord tossed.pager, tossed.held⟩ farWord haltWord 0 ∧
      Coherent ⟨storedAt 5 ⟨49, 48, 48, 48⟩ tossed.pager, tossed.held⟩ nearWord
        ⟨49, 48, 48, 48⟩ 0 := by
  have reached : Reached tossed := .of_run tossingRun onePage_blank
  constructor
  · refine (store_coherent_iff (t := storeOf tossed.pager)
      (u := storeOf (storedAt 107 haltWord tossed.pager)) reached rfl rfl).2 fun h => ?_
    have gone : ((tossed.pager.pgTable
        ((getGlobalAddress farWord 0).toNat / tossed.pager.pgSize)).valid) = false := by
      decide +kernel
    exact absurd (gone.symm.trans h) (by decide)
  · refine (store_coherent_iff (t := storeOf tossed.pager)
      (u := storeOf (storedAt 5 ⟨49, 48, 48, 48⟩ tossed.pager)) reached rfl rfl).2 fun _ => ?_
    decide +kernel

def fetchRun : Run Moves where
  len := 1
  st
    | 0 => ⟨onePage, []⟩
    | _ => ⟨pinned 1, [(0, 0)]⟩
  lab _ := .access (.touch 0)
  ok
    | 0, _ => .access _ _ _
        (.touch _ getRemovalPage 0 0 0 _ getRemovalPage_victims onePage_touch) fun v h => by
          obtain rfl : 0 = v := Access.touch.inj h
          decide

/-- The first fetch has brought the page in, and the new code goes past its frame. -/
theorem fetchRun_not_coherent : ∃ (s : Session) (t u : Store), Reached s ∧ t.pager = s.pager ∧
    pageStore oneWord haltWord 0 t = .ok (0, u) ∧
    ¬Coherent ⟨u.pager, s.held⟩ oneWord haltWord 0 := by
  have reached : Reached ⟨pinned 1, [(0, 0)]⟩ := ⟨fetchRun, onePage_blank, rfl⟩
  refine ⟨_, storeOf (pinned 1), storeOf (loadedPager (pinned 1)), reached, rfl, rfl,
    fun coherent => ?_⟩
  have frames : Frames (loadedPager (pinned 1)) :=
    let f := reached.holding.frames
    ⟨f.size_pos, f.size_dvd, f.count, f.frame, f.apart⟩
  obtain ⟨x, w, read, -, word⟩ := getWordref_resident (p := oneWord) (a := 0)
    (u := storeOf (loadedPager (pinned 1))) frames (by decide) rfl
  have old := coherent.reads (idle _) rfl (fun i hi => absurd hi (Nat.not_lt_zero i))
    (storeOf (loadedPager (pinned 1))) w x rfl read
  rw [word] at old
  exact absurd old (by decide)

end BrainMachine.StoreCoherence
