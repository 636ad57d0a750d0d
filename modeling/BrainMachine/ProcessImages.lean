import BrainMachine.Footprints

set_option autoImplicit false

/-!
# Processes without a pager

The image of a process is what its own instructions see: registers, a flat array of words
behind addresses from 0 to the limit, and the shared tables. `step` is the meaning of the
instructions on images, and every instruction that returned 0 refines it.
-/
namespace BrainMachine.ProcessImages
open Codec Computations Paging Stdio AddressSpace Transparency Instructions Dispatch References
open Footprints

structure Image where
  regs : Regs
  limit : ℤ
  words : ℕ → Word
  semTable : ℕ → UInt32
  shm : ℕ → Word
  stdin : Stream
  stdout : List UInt8

def Image.get (c : Image) (a : ℤ) : Option Word :=
  if 0 ≤ a ∧ a ≤ c.limit then some (c.words a.toNat) else none

def Image.set (c : Image) (a : ℤ) (w : Word) : Option Image :=
  if 0 ≤ a ∧ a ≤ c.limit then some { c with words := Function.update c.words a.toNat w } else none

def Image.setRegs (f : Regs → Regs) (c : Image) : Image := { c with regs := f c.regs }

def load (f : Word → Regs → Regs) (a : ℤ) (c : Image) : Option Image :=
  (c.get a).map fun w => c.setRegs (f w)

def registerOp (op : Char) (a : ℤ) (c : Image) : Option Image :=
  (c.get a).bind fun w =>
    if doBinop c.regs.r w op < 0 then none
    else some (c.setRegs fun g => { g with r := int2word (doBinop c.regs.r w op) })

def pushWord (c : Image) : Option Image :=
  let addr := word2int c.regs.sp
  if addr = -1 then none
  else (c.setRegs fun g => { g with sp := int2word (addr + 1) }).set (addr + 1) c.regs.r

def popWord (c : Image) : Option Image :=
  let addr := word2int c.regs.sp
  if UInt32.ofInt addr ≤ c.regs.stackBase then some c
  else (c.get addr).map fun w => c.setRegs fun g => { g with r := w, sp := int2word (addr - 1) }

def stackWords (op : Char) (c : Image) : Option Image :=
  let addr := word2int c.regs.sp
  if UInt32.ofInt addr < c.regs.stackBase + 1 then none
  else (c.get addr).bind fun top => (c.get (addr - 1)).bind fun next =>
    if doBinop next top op < 0 then none
    else (c.setRegs fun g => { g with sp := int2word (addr - 1) }).set (addr - 1)
      (int2word (doBinop next top op))

def turns (f : ℕ → Image → Option Image) : ℕ → ℕ → Image → Option Image
  | 0, _, c => some c
  | n + 1, i, c => (f i c).bind (turns f n (i + 1))

def printTurn (a : ℤ) (i : ℕ) (c : Image) : Option Image :=
  (c.get (a + i)).map fun w => { c with stdout := c.stdout ++ (wordBytes w ++ [10]) }

def readTurn (a : ℤ) (i : ℕ) (c : Image) : Option Image :=
  let r := readWord c.stdin
  if isEnd r.1 then none
  else if r.2.eof then none
  else ({ c with stdin := r.2 } : Image).set (a + i) r.1

def step (op : Op) (pid : ℕ) (a : ℤ) (c : Image) : Option Image :=
  match op with
  | .LR => load (fun w g => { g with r := w }) a c
  | .LL => load (fun w g => { g with r := ⟨g.r.b0, g.r.b1, w.b2, w.b3⟩ }) a c
  | .LH => load (fun w g => { g with r := ⟨w.b0, w.b1, g.r.b2, g.r.b3⟩ }) a c
  | .SR => c.set a c.regs.r
  | .SP => some (c.setRegs fun g =>
      { g with stackBase := UInt32.ofInt (word2int g.r), sp := g.r })
  | .PS => some (c.setRegs fun g => { g with r := g.sp })
  | .PH => pushWord c
  | .PP => popWord c
  | .CE => load (fun w g => { g with c := if g.r = w then 84 else 70 }) a c
  | .CL => load (fun w g => { g with c := if wordLess g.r w then 84 else 70 }) a c
  | .BT => some (if c.regs.c = 84 then
      c.setRegs fun g => { g with ic := lowHalf (int2word a) } else c)
  | .BU => some (c.setRegs fun g => { g with ic := lowHalf (int2word a) })
  | .GD => turns (readTurn a) 10 0 c
  | .PD => turns (printTurn a) 10 0 c
  | .AD => registerOp '+' a c
  | .SU => registerOp '-' a c
  | .MI => registerOp '*' a c
  | .DI => registerOp '/' a c
  | .AS => stackWords '+' c
  | .SS => stackWords '-' c
  | .MS => stackWords '*' c
  | .DS => stackWords '/' c
  | .NP => some c
  | .SI =>
    if word2int c.regs.r < 0 ∨ a < 0 ∨ a > 99 then none
    else
      let val := UInt32.ofInt (word2int c.regs.r)
      some { c with semTable := Function.update c.semTable a.toNat val }
  | .LS => (getShmp a).map fun x => c.setRegs fun g => { g with r := c.shm x }
  | .ST => (getShmp a).map fun x => { c with shm := Function.update c.shm x c.regs.r }
  | .GP => some (c.setRegs fun g => { g with r := int2word pid })
  | .SD | .RC | .PE | .VE | .FK | .EX | .HA => none

def image (p : Seg) (c : Core) : Image where
  regs := c.regs
  limit := word2int p.lr
  words k := if (k : ℤ) ≤ word2int p.lr then
    c.store.pager.view ((word2int p.br).toNat + k) else zeros
  semTable := c.store.semTable
  shm := c.store.shm
  stdin := c.store.stdin
  stdout := c.store.stdout

theorem image_store {p : Seg} {c : Core} {t : Store} (rest : t = { c.store with pager := t.pager })
    (view : t.pager.view = c.store.pager.view) : image p { c with store := t } = image p c := by
  rw [rest]
  simp only [image, view]

theorem getWordref_rest {p : Seg} {a : ℤ} {s t : Store} {x : Option ℕ}
    (k : getWordref p a s = .ok (x, t)) : t = { s with pager := t.pager } := by
  rcases ite_ok.1 k with ⟨-, k⟩ | ⟨-, k⟩
  · obtain ⟨-, rfl⟩ := Prod.mk.inj (pure_ok.1 k)
    rfl
  · rw [get_bind] at k
    obtain ⟨y, -, rfl⟩ := zoom_ok.1 k
    rfl

theorem releaseWordref_rest {p : Seg} {a : ℤ} {s t : Store} {r : Unit}
    (k : releaseWordref p a s = .ok (r, t)) : t = { s with pager := t.pager } := by
  rcases ite_ok.1 k with ⟨-, k⟩ | ⟨-, k⟩
  · obtain ⟨-, rfl⟩ := Prod.mk.inj (pure_ok.1 k)
    rfl
  · obtain ⟨y, -, rfl⟩ := zoom_ok.1 k
    rfl

theorem assign_rest {x : ℕ} {w : Word} {s t : Store} {r : Unit}
    (k : assign x w s = .ok (r, t)) : t = { s with pager := t.pager } := by
  rw [assign, onPager, zoom_ok] at k
  obtain ⟨y, -, rfl⟩ := k
  rfl

theorem releaseWordref_sameView {p : Seg} {a : ℤ} {s t : Store} {r : Unit}
    (k : releaseWordref p a s = .ok (r, t)) : t.pager.view = s.pager.view := by
  funext v
  by_cases hg : getGlobalAddress p a < 0
  · rcases ite_ok.1 k with ⟨-, k⟩ | ⟨hn, -⟩
    · rw [(Prod.mk.inj (pure_ok.1 k)).2]
    · exact absurd hg hn
  · rw [releaseWordref_pager (not_lt.1 hg) k]
    exact (pageReleaseRef_sameFrames _ s.pager).view v

section
variable {p : Seg}

/-- An address that the process can form lies between 0 and the limit. -/
theorem address_range {a : ℤ} (h : 0 ≤ getGlobalAddress p a) :
    0 ≤ word2int p.br ∧ 0 ≤ a ∧ a ≤ word2int p.lr ∧
      getGlobalAddress p a = word2int p.br + a := by
  have eq := getGlobalAddress_eq h
  unfold getGlobalAddress at h
  split at h
  · omega
  · dsimp only at h
    split at h
    · omega
    · split at h
      · omega
      · omega

theorem address_of_range {a : ℤ} (hb : 0 ≤ word2int p.br) (h0 : 0 ≤ a)
    (hl : a ≤ word2int p.lr) : getGlobalAddress p a = word2int p.br + a := by
  rw [getGlobalAddress, if_neg (by omega)]
  dsimp only
  rw [if_neg (by omega), if_neg (by omega)]

variable {s₀ : Pager} {held : List (ℕ × ℕ)}

theorem word_image {c : Core} {a : ℤ} {x : ℕ}
    (foot : Footing (fun _ => True) s₀ held c.store.pager) (hg : 0 ≤ getGlobalAddress p a)
    (mem : ((getGlobalAddress p a).toNat, x) ∈ held) :
    (image p c).get a = some (c.store.pager.mem x) := by
  obtain ⟨hb, h0, hl, eq⟩ := address_range hg
  have nat : (getGlobalAddress p a).toNat = (word2int p.br).toNat + a.toNat := by omega
  have inside : (a.toNat : ℤ) ≤ word2int p.lr := by omega
  rw [foot.holding.read_view mem, nat]
  simp only [Image.get, image, h0, hl, and_self, if_true, inside]

theorem getWordref_image {c : Core} {a : ℤ} {t : Store} {x : ℕ}
    (foot : Footing (fun _ => True) s₀ held c.store.pager) (slack : Slack 8 s₀)
    (len : held.length ≤ 6) (k : getWordref p a c.store = .ok (some x, t)) :
    (image p c).get a = some (t.pager.mem x) ∧ image p { c with store := t } = image p c ∧
      0 ≤ getGlobalAddress p a ∧
      Footing (fun _ => True) s₀ (((getGlobalAddress p a).toNat, x) :: held) t.pager := by
  obtain ⟨hg, foot'⟩ := getWordref_footing foot slack len k
  have view : t.pager.view = c.store.pager.view :=
    funext (touchPageBy_touched getRemovalPage_victims foot.holding.frames
      (getWordref_touch k).2).view
  have same := image_store (p := p) (getWordref_rest k) view
  refine ⟨?_, same, hg, foot'⟩
  rw [← same]
  exact word_image (c := { c with store := t }) foot' hg List.mem_cons_self

theorem assign_image {c : Core} {a : ℤ} {t : Store} {x : ℕ} {w : Word} {r : Unit}
    (foot : Footing (fun _ => True) s₀ held c.store.pager) (hg : 0 ≤ getGlobalAddress p a)
    (mem : ((getGlobalAddress p a).toNat, x) ∈ held) (k : assign x w c.store = .ok (r, t)) :
    (image p c).set a w = some (image p { c with store := t }) ∧
      Footing (fun _ => True) s₀ held t.pager := by
  obtain ⟨hb, h0, hl, eq⟩ := address_range hg
  have nat : (getGlobalAddress p a).toNat = (word2int p.br).toNat + a.toNat := by omega
  have view := foot.holding.write_view mem w
  have foot' := foot.write mem trivial w
  rw [← assign_pager k] at view foot'
  refine ⟨?_, foot'⟩
  rw [assign_rest k, Image.set, if_pos ⟨h0, hl⟩]
  simp only [image, view, nat, Option.some.injEq, Image.mk.injEq, and_self, and_true, true_and]
  funext v
  by_cases hv : v = a.toNat
  · have inside : (a.toNat : ℤ) ≤ word2int p.lr := by omega
    rw [hv, Function.update_self, if_pos inside, Function.update_self]
  · rw [Function.update_of_ne hv, Function.update_of_ne (by omega)]

theorem release_image {c : Core} {a : ℤ} {t : Store} {x : ℕ} {r : Unit}
    (foot : Footing (fun _ => True) s₀ (((getGlobalAddress p a).toNat, x) :: held) c.store.pager)
    (hg : 0 ≤ getGlobalAddress p a) (k : releaseWordref p a c.store = .ok (r, t)) :
    image p { c with store := t } = image p c ∧ Footing (fun _ => True) s₀ held t.pager :=
  ⟨image_store (releaseWordref_rest k) (releaseWordref_sameView k),
    releaseWordref_footing hg foot k⟩

end

def Refines (p : Seg) (x : Exec Core ℤ) (f : Image → Option Image) : Prop :=
  ∀ (s₀ : Pager) (held : List (ℕ × ℕ)) (c u : Core), Slack 8 s₀ → held.length ≤ 4 →
    Footing (fun _ => True) s₀ held c.store.pager → x c = .ok (0, u) →
    f (image p c) = some (image p u) ∧ Footing (fun _ => True) s₀ held u.store.pager

section
variable {p : Seg}

theorem setRegs_ok {f : Regs → Regs} {c u : Core} {r : Unit} (h : setRegs f c = .ok (r, u)) :
    u = { c with regs := f c.regs } := (Prod.mk.inj (modify_ok.1 h)).2

theorem nextWord_ok {s t : Store} {w : Word} (h : nextWord s = .ok (w, t)) :
    w = (readWord s.stdin).1 ∧ t = { s with stdin := (readWord s.stdin).2 } :=
  Prod.mk.inj (pure_ok.1 h)

structure Handles (p : Seg) (a : ℤ) (use : ℕ → Exec Core Unit) (f : Image → Option Image) :
    Prop where
  done : ∀ (s₀ : Pager) (held : List (ℕ × ℕ)) (c u : Core) (x : ℕ),
    0 ≤ getGlobalAddress p a → ((getGlobalAddress p a).toNat, x) ∈ held →
    Footing (fun _ => True) s₀ held c.store.pager →
    (image p c).get a = some (c.store.pager.mem x) → use x c = .ok ((), u) →
    f (image p c) = some (image p u) ∧ Footing (fun _ => True) s₀ held u.store.pager

theorem withWordref_refines {a : ℤ} {use : ℕ → Exec Core Unit} {f : Image → Option Image}
    (h : Handles p a use f) : Refines p (withWordref p a use) f := by
  intro s₀ held c u slack len foot k
  obtain ⟨x, s, hs, k⟩ := onStore_bind k
  cases x with
  | none => cases (Prod.mk.inj (pure_ok.1 k)).1
  | some x =>
    obtain ⟨word, same, hg, foot⟩ := getWordref_image foot slack (by omega) hs
    obtain ⟨_, d, hd, k⟩ := bind_ok.1 k
    obtain ⟨_, t, ht, k⟩ := onStore_bind k
    obtain ⟨-, rfl⟩ := Prod.mk.inj (pure_ok.1 k)
    rw [← same] at word
    obtain ⟨done, foot⟩ := h.done s₀ _ _ d x hg List.mem_cons_self foot word hd
    obtain ⟨rel, foot⟩ := release_image foot hg ht
    rw [← same, rel]
    exact ⟨done, foot⟩

theorem load_handles {a : ℤ} (f : Word → Regs → Regs) : Handles p a (fun x => do
    let w ← onStore (deref x)
    setRegs (f w)) (load f a) := by
  constructor
  intro s₀ held c u x hg mem foot word k
  obtain ⟨w, s, hs, k⟩ := onStore_bind k
  obtain ⟨rfl, rfl⟩ := deref_ok hs
  obtain rfl := setRegs_ok k
  rw [load, word]
  exact ⟨rfl, foot⟩

theorem compare_handles {a : ℤ} (f : Word → Word → Bool) : Handles p a (fun x => do
    let w ← onStore (deref x)
    let s ← get
    setFlag (f s.regs.r w)) (load (fun w g => { g with c := if f g.r w then 84 else 70 }) a) := by
  constructor
  intro s₀ held c u x hg mem foot word k
  obtain ⟨w, s, hs, k⟩ := onStore_bind k
  obtain ⟨rfl, rfl⟩ := deref_ok hs
  rw [get_bind] at k
  obtain rfl := setRegs_ok k
  rw [load, word]
  exact ⟨rfl, foot⟩

theorem store_handles {a : ℤ} : Handles p a (fun x => do
    let s ← get
    onStore (assign x s.regs.r)) (fun c => c.set a c.regs.r) := by
  constructor
  intro s₀ held c u x hg mem foot word k
  rw [get_bind] at k
  obtain ⟨s, hs, rfl⟩ := onStore_ok k
  exact assign_image foot hg mem hs

theorem assign_handles {a : ℤ} (w : Word) :
    Handles p a (fun x => onStore (assign x w)) (fun c => c.set a w) := by
  constructor
  intro s₀ held c u x hg mem foot word k
  obtain ⟨s, hs, rfl⟩ := onStore_ok k
  exact assign_image foot hg mem hs

theorem regs_refines (f : Regs → Regs) : Refines p (do
    setRegs f
    pure 0) (fun c => some (c.setRegs f)) := by
  intro s₀ held c u slack len foot k
  obtain ⟨_, d, hd, k⟩ := bind_ok.1 k
  obtain ⟨-, rfl⟩ := Prod.mk.inj (pure_ok.1 k)
  obtain rfl := setRegs_ok hd
  exact ⟨rfl, foot⟩

theorem registerOp_refines (op : Char) (a : ℤ) :
    Refines p (doRegisterOp op p a) (registerOp op a) := by
  intro s₀ held c u slack len foot k
  obtain ⟨x, s, hs, k⟩ := onStore_bind k
  cases x with
  | none => cases (Prod.mk.inj (pure_ok.1 k)).1
  | some x =>
    obtain ⟨word, same, hg, foot⟩ := getWordref_image foot slack (by omega) hs
    obtain ⟨w, t, ht, k⟩ := onStore_bind k
    obtain ⟨rfl, rfl⟩ := deref_ok ht
    rw [get_bind] at k
    rcases ite_ok.1 k with ⟨-, k⟩ | ⟨res, k⟩
    · cases (Prod.mk.inj (pure_ok.1 k)).1
    · obtain ⟨_, y, hy, k⟩ := onStore_bind k
      obtain ⟨_, d, hd, k⟩ := bind_ok.1 k
      obtain ⟨-, rfl⟩ := Prod.mk.inj (pure_ok.1 k)
      obtain rfl := setRegs_ok hd
      obtain ⟨rel, foot⟩ := release_image foot hg hy
      refine ⟨?_, foot⟩
      have step : registerOp op a (image p c) = some ((image p c).setRegs fun g =>
          { g with r := int2word (doBinop c.regs.r (t.pager.mem x) op) }) := by
        rw [registerOp, word]
        exact if_neg res
      rw [step, ← rel.trans same]
      rfl

theorem push_refines (a : ℤ) : Refines p (push p a) pushWord := by
  intro s₀ held c u slack len foot k
  rw [push, get_bind] at k
  rcases ite_ok.1 k with ⟨-, k⟩ | ⟨hsp, k⟩
  · cases (Prod.mk.inj (pure_ok.1 k)).1
  · obtain ⟨_, d, hd, k⟩ := bind_ok.1 k
    have done := withWordref_refines store_handles s₀ held d u slack len
      (by rw [setRegs_store hd]; exact foot) k
    obtain rfl := setRegs_ok hd
    rw [pushWord]
    exact ⟨(if_neg hsp).trans done.1, done.2⟩

theorem pop_refines (a : ℤ) : Refines p (pop p a) popWord := by
  intro s₀ held c u slack len foot k
  rw [pop, get_bind] at k
  rcases ite_ok.1 k with ⟨hsp, k⟩ | ⟨hsp, k⟩
  · obtain ⟨-, rfl⟩ := Prod.mk.inj (pure_ok.1 k)
    exact ⟨if_pos hsp, foot⟩
  · obtain ⟨x, s, hs, k⟩ := onStore_bind k
    cases x with
    | none => cases (Prod.mk.inj (pure_ok.1 k)).1
    | some x =>
      obtain ⟨word, same, hg, foot⟩ := getWordref_image foot slack (by omega) hs
      obtain ⟨w, t, ht, k⟩ := onStore_bind k
      obtain ⟨rfl, rfl⟩ := deref_ok ht
      obtain ⟨_, d, hd, k⟩ := bind_ok.1 k
      obtain rfl := setRegs_ok hd
      obtain ⟨_, y, hy, k⟩ := onStore_bind k
      obtain ⟨_, d'', hd'', k⟩ := bind_ok.1 k
      obtain ⟨-, rfl⟩ := Prod.mk.inj (pure_ok.1 k)
      obtain rfl := setRegs_ok hd''
      obtain ⟨rel, foot⟩ := release_image foot hg hy
      refine ⟨?_, foot⟩
      have regs : image p { c with store := y } = image p c :=
        (congrArg (fun d : Image => { d with regs := c.regs }) rel).trans same
      rw [popWord]
      refine (if_neg hsp).trans ?_
      change ((image p c).get (word2int c.regs.sp)).map _ = _
      rw [word]
      exact congrArg (fun d : Image => some { d with regs := { c.regs with
        r := t.pager.mem x, sp := int2word (word2int c.regs.sp - 1) } }) regs.symm

theorem operands_image {s₀ : Pager} {held : List (ℕ × ℕ)} {a b : ℤ} {x y : ℕ} {c : Core}
    {s t : Store} {f : Word → Word → Exec Core ℤ} {r : ℤ × Core}
    (foot : Footing (fun _ => True) s₀ held c.store.pager) (slack : Slack 8 s₀)
    (len : held.length ≤ 4) (hs : getWordref p a c.store = .ok (some x, s))
    (ht : getWordref p b s = .ok (some y, t))
    (k : (do
      let w ← onStore (deref x)
      let w' ← onStore (deref y)
      onStore (releaseWordref p a)
      onStore (releaseWordref p b)
      f w w') { c with store := t } = .ok r) :
    ∃ w w' v, (image p c).get a = some w ∧ (image p c).get b = some w' ∧
      image p { c with store := v } = image p c ∧ Footing (fun _ => True) s₀ held v.pager ∧
      f w w' { c with store := v } = .ok r := by
  obtain ⟨-, same, hg, foot⟩ := getWordref_image foot slack (by omega) hs
  obtain ⟨next, same', hg', foot⟩ := getWordref_image (p := p)
    (c := { c with store := s }) foot slack (by rw [List.length_cons]; omega) ht
  -- the first reference still shows its word after the second one was taken
  have top : (image p c).get a = some (t.pager.mem x) := by
    rw [← same, ← same']
    exact word_image (c := { c with store := t }) foot hg
      (List.mem_cons_of_mem _ List.mem_cons_self)
  rw [same] at next
  obtain ⟨w, v, hv, k⟩ := onStore_bind k
  obtain ⟨rfl, hw⟩ := deref_ok hv
  obtain ⟨w', v, hv, k⟩ := onStore_bind k
  obtain ⟨rfl, hw'⟩ := deref_ok hv
  rw [← hw] at top
  rw [← hw'] at next
  obtain ⟨_, y₁, h₁, k⟩ := onStore_bind k
  obtain ⟨rel, foot⟩ := release_image (c := { c with store := _ }) foot.swap hg h₁
  obtain ⟨_, y₂, h₂, k⟩ := onStore_bind k
  obtain ⟨rel', foot⟩ := release_image (c := { c with store := y₁ }) foot hg' h₂
  exact ⟨w, w', y₂, top, next, rel'.trans (rel.trans (same'.trans same)), foot, k⟩

theorem stackWords_some {op : Char} {c : Image} {top next : Word}
    (above : ¬UInt32.ofInt (word2int c.regs.sp) < c.regs.stackBase + 1)
    (ht : c.get (word2int c.regs.sp) = some top)
    (hn : c.get (word2int c.regs.sp - 1) = some next) :
    stackWords op c = if doBinop next top op < 0 then none
      else (c.setRegs fun g => { g with sp := int2word (word2int c.regs.sp - 1) }).set
        (word2int c.regs.sp - 1) (int2word (doBinop next top op)) := by
  rw [stackWords]
  refine (if_neg above).trans ?_
  rw [ht, Option.bind_some, hn, Option.bind_some]

theorem stack_refines (op : Char) (a : ℤ) : Refines p (stackOp op p a) (stackWords op) := by
  intro s₀ held c u slack len foot k
  rw [stackOp, get_bind] at k
  rcases ite_ok.1 k with ⟨-, k⟩ | ⟨hsp, k⟩
  · cases (Prod.mk.inj (pure_ok.1 k)).1
  · obtain ⟨x, s, hs, k⟩ := onStore_bind k
    obtain ⟨y, t, ht, k⟩ := onStore_bind k
    cases x with
    | none => cases (Prod.mk.inj (pure_ok.1 k)).1
    | some x =>
      cases y with
      | none => cases (Prod.mk.inj (pure_ok.1 k)).1
      | some y =>
        obtain ⟨w, w', v, top, next, all, foot, k⟩ := operands_image foot slack len hs ht k
        rcases ite_ok.1 k with ⟨-, k⟩ | ⟨res, k⟩
        · cases (Prod.mk.inj (pure_ok.1 k)).1
        · obtain ⟨_, d, hd, k⟩ := bind_ok.1 k
          have done := withWordref_refines (assign_handles _) s₀ held d u slack len
            (by rw [setRegs_store hd]; exact foot) k
          obtain rfl := setRegs_ok hd
          refine ⟨?_, done.2⟩
          have start := (stackWords_some (c := image p c) hsp top next).trans (if_neg res)
          rw [start, ← all]
          exact done.1

theorem loop_refines {body : ℕ → Exec Core ℤ} {f : ℕ → Image → Option Image}
    (h : ∀ i, Refines p (body i) (f i)) (n i : ℕ) : Refines p (loopFrom body n i) (turns f n i) := by
  induction n generalizing i with
  | zero =>
    intro s₀ held c u slack len foot k
    obtain ⟨-, rfl⟩ := Prod.mk.inj (pure_ok.1 k)
    exact ⟨rfl, foot⟩
  | succ n ih =>
    intro s₀ held c u slack len foot k
    obtain ⟨r, d, hd, k⟩ := bind_ok.1 k
    rcases ite_ok.1 k with ⟨rfl, k⟩ | ⟨hr, k⟩
    · obtain ⟨first, foot⟩ := h i s₀ held c d slack len foot hd
      obtain ⟨rest, foot⟩ := ih (i + 1) s₀ held d u slack len foot k
      refine ⟨?_, foot⟩
      rw [turns, first]
      exact rest
    · exact absurd (Prod.mk.inj (pure_ok.1 k)).1.symm hr

theorem printTurn_refines (a : ℤ) (i : ℕ) : Refines p (withWordref p (a + i) fun x => do
    let w ← onStore (deref x)
    onStore (putchars (wordBytes w ++ [10]))) (printTurn a i) := by
  refine withWordref_refines ⟨fun s₀ held c u x hg mem foot word k => ?_⟩
  obtain ⟨w, s, hs, k⟩ := onStore_bind k
  obtain ⟨rfl, rfl⟩ := deref_ok hs
  obtain ⟨t, ht, rfl⟩ := onStore_ok k
  obtain ⟨-, rfl⟩ := Prod.mk.inj (modify_ok.1 ht)
  rw [printTurn, word]
  exact ⟨rfl, foot⟩

theorem print_refines (a : ℤ) : Refines p (print p a) (turns (printTurn a) 10 0) :=
  loop_refines (printTurn_refines a) 10 0

theorem readTurn_refines (a : ℤ) (i : ℕ) : Refines p (do
    let w ← onStore nextWord
    let s ← get
    if isEnd w then pure (-1)
    else if s.store.stdin.eof then pure (-1)
    else withWordref p (a + i) fun x => onStore (assign x w)) (readTurn a i) := by
  intro s₀ held c u slack len foot k
  obtain ⟨w, s, hs, k⟩ := onStore_bind k
  obtain ⟨hw, hs⟩ := nextWord_ok hs
  rw [get_bind] at k
  rcases ite_ok.1 k with ⟨-, k⟩ | ⟨more, k⟩
  · cases (Prod.mk.inj (pure_ok.1 k)).1
  · rcases ite_ok.1 k with ⟨-, k⟩ | ⟨left, k⟩
    · cases (Prod.mk.inj (pure_ok.1 k)).1
    · obtain ⟨done, foot⟩ :=
        withWordref_refines (assign_handles w) s₀ held _ u slack len (by rw [hs]; exact foot) k
      refine ⟨?_, foot⟩
      rw [hs] at left done
      rw [hw] at more done
      rw [readTurn]
      exact (if_neg more).trans ((if_neg left).trans done)

theorem read_refines (a : ℤ) : Refines p (read p a) (turns (readTurn a) 10 0) :=
  loop_refines (readTurn_refines a) 10 0

theorem setSem_refines (a : ℤ) : Refines p (setSem p a) (step .SI p.pid a) := by
  intro s₀ held c u slack len foot k
  rw [setSem, get_bind] at k
  rcases ite_ok.1 k with ⟨-, k⟩ | ⟨hr, k⟩
  · cases (Prod.mk.inj (pure_ok.1 k)).1
  · rcases ite_ok.1 k with ⟨-, k⟩ | ⟨ha, k⟩
    · cases (Prod.mk.inj (pure_ok.1 k)).1
    · obtain ⟨b, t, ht, k⟩ := onStore_bind k
      rcases ite_ok.1 ht with ⟨-, ht⟩ | ⟨hs, ht⟩
      · obtain ⟨rfl, rfl⟩ := Prod.mk.inj (pure_ok.1 ht)
        cases (Prod.mk.inj (pure_ok.1 k)).1
      · obtain ⟨rfl, rfl⟩ := Prod.mk.inj (pure_ok.1 ht)
        obtain ⟨-, rfl⟩ := Prod.mk.inj (pure_ok.1 k)
        refine ⟨?_, foot⟩
        have inside : ¬(word2int (image p c).regs.r < 0 ∨ a < 0 ∨ a > 99) := by
          change ¬(word2int c.regs.r < 0 ∨ a < 0 ∨ a > 99)
          omega
        rw [step]
        exact if_neg inside

/-- Every instruction on one process refines its meaning on images. -/
theorem instruction_refines {op : Op} {i : Instruction} (h : op.instruction = some i) (a : ℤ) :
    Refines p (i p a) (step op p.pid a) := by
  cases op <;> simp only [Op.instruction, Option.some.injEq, reduceCtorEq] at h <;> subst h
  case LR => exact withWordref_refines (load_handles fun w g => { g with r := w })
  case LL =>
    exact withWordref_refines (load_handles fun w g => { g with r := ⟨g.r.b0, g.r.b1, w.b2, w.b3⟩ })
  case LH =>
    exact withWordref_refines (load_handles fun w g => { g with r := ⟨w.b0, w.b1, g.r.b2, g.r.b3⟩ })
  case SR => exact withWordref_refines store_handles
  case SP => exact regs_refines _
  case PS => exact regs_refines _
  case PH => exact push_refines a
  case PP => exact pop_refines a
  case CE =>
    intro s₀ held c u slack len foot k
    have done := withWordref_refines (compare_handles fun v w => decide (v = w)) s₀ held c u slack
      len foot k
    simp only [decide_eq_true_eq] at done
    exact done
  case CL => exact withWordref_refines (compare_handles wordLess)
  case BT =>
    intro s₀ held c u slack len foot k
    rw [jmpIf, get_bind] at k
    rw [step]
    rcases ite_ok.1 k with ⟨hc, k⟩ | ⟨hc, k⟩
    · refine ⟨?_, (regs_refines (p := p) _ s₀ held c u slack len foot k).2⟩
      rw [if_pos (show (image p c).regs.c = 84 from hc)]
      exact (regs_refines _ s₀ held c u slack len foot k).1
    · obtain ⟨-, rfl⟩ := Prod.mk.inj (pure_ok.1 k)
      rw [if_neg (show ¬(image p _).regs.c = 84 from hc)]
      exact ⟨rfl, foot⟩
  case BU => exact regs_refines _
  case GD => exact read_refines a
  case PD => exact print_refines a
  case AD => exact registerOp_refines _ a
  case SU => exact registerOp_refines _ a
  case MI => exact registerOp_refines _ a
  case DI => exact registerOp_refines _ a
  case AS => exact stack_refines _ a
  case SS => exact stack_refines _ a
  case MS => exact stack_refines _ a
  case DS => exact stack_refines _ a
  case NP =>
    intro s₀ held c u slack len foot k
    obtain ⟨-, rfl⟩ := Prod.mk.inj (pure_ok.1 k)
    exact ⟨rfl, foot⟩
  case SI => exact setSem_refines a
  case LS =>
    intro s₀ held c u slack len foot k
    rw [loadShared] at k
    rw [step]
    cases h : getShmp a with
    | none =>
      rw [h] at k
      cases (Prod.mk.inj (pure_ok.1 k)).1
    | some x =>
      rw [h] at k
      exact regs_refines (fun g => { g with r := c.store.shm x }) s₀ held c u slack len foot k
  case ST =>
    intro s₀ held c u slack len foot k
    rw [storeShared] at k
    rw [step]
    cases h : getShmp a with
    | none =>
      rw [h] at k
      cases (Prod.mk.inj (pure_ok.1 k)).1
    | some x =>
      simp only [h, get_bind] at k
      obtain ⟨_, s, hs, k⟩ := onStore_bind k
      obtain ⟨-, rfl⟩ := Prod.mk.inj (modify_ok.1 hs)
      obtain ⟨-, rfl⟩ := Prod.mk.inj (pure_ok.1 k)
      exact ⟨rfl, foot⟩
  case GP => exact regs_refines _

end
end BrainMachine.ProcessImages
