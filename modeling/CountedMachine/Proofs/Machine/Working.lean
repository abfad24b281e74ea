import CountedMachine.Machine.Run
import CountedMachine.Proofs.Machine.Frames

/-! # The machine at work

`Working` is the invariant of a machine at work: the heap is good for the references of all frames,
the argument stack, the constants and what else there is outside (`B`), the current frame rests in an
environment in which its place is reached, and the callers wait for results. `Holds` is what a step
leaves behind: a machine at work, or one that is idle, with the value it hands out.

`Working.go` is a step that stays in the frame. -/

namespace CountedMachine

open Heap

/-- The references of several frames. -/
noncomputable def framesRefs (p : Program) (fs : List Frame) : Multiset ObjId :=
  (fs.map (Frame.refs p)).sum

@[simp] theorem framesRefs_nil (p : Program) : framesRefs p [] = 0 := rfl

@[simp] theorem framesRefs_cons (p : Program) (f : Frame) (fs : List Frame) :
    framesRefs p (f :: fs) = f.refs p + framesRefs p fs := rfl

@[simp] theorem framesRefs_append (p : Program) (fs gs : List Frame) :
    framesRefs p (fs ++ gs) = framesRefs p fs + framesRefs p gs := by
  simp [framesRefs]

@[simp] theorem framesRefs_reverse (p : Program) (fs : List Frame) :
    framesRefs p fs.reverse = framesRefs p fs := by
  simp [framesRefs]

/-- **The frames that wait for a result**, the innermost first; `ret` is where the result goes. -/
inductive Waiting (p : Program) [p.Origin] (h : Heap) : List Frame → Option Reg → Prop
  | host (ret : Option Reg) : Waiting p h [] ret
  | caller {f : Frame} {fs : List Frame} {dst func : Reg} {nargs : Nat} {checked : Bool} {w : World}
      {pc : Nat} {ρ : Env} : f.Parked p h (.call dst func nargs checked) w pc ρ →
      Waiting p h fs f.ret → Waiting p h (f :: fs) (some dst)

/-- The constants have been loaded. -/
def Loaded (p : Program) (h : Heap) (consts : Array Value) : Prop :=
  ∀ (k : Nat) (c : Constant), p.consts[k]? = some c → ∃ v, consts[k]? = some v ∧
    ((∀ tag, c ≠ .undefined tag) → Has h v (.ofConstant c))

/-- The references of a machine at work. -/
noncomputable def Running.refs (p : Program) (s : Running) : Multiset ObjId :=
  s.cur.refs p + (framesRefs p s.callers.toList + (refsOf s.machine.stack +
    refsOf s.machine.consts.toList))

/-- **The invariant of a machine at work.** -/
structure Working (p : Program) [p.Origin] (B : Multiset ObjId) (s : Running) (w : World) (ρ : Env) : Prop where
  good : Good p s.machine.heap (s.refs p + B) (s.cur.shells ρ)
  rests : s.cur.Rests p s.machine.heap w ρ
  waiting : Waiting p s.machine.heap s.callers.toList.reverse s.cur.ret
  loaded : Loaded p s.machine.heap s.machine.consts
  pushed : s.machine.stack.length = ρ.pushed

/-- **The invariant of an idle machine.** -/
structure Idle (p : Program) [p.Origin] (B : Multiset ObjId) (m : Machine) : Prop where
  good : Good p m.heap (refsOf m.consts.toList + B) ∅
  loaded : Loaded p m.heap m.consts
  stack : m.stack = []

/-- **A chain that has yielded**, the frame that yielded first. -/
inductive Asleep (p : Program) [p.Origin] (h : Heap) : List Frame → Prop
  | chain {f : Frame} {fs : List Frame} {src : Reg} {w : World} {pc : Nat} {ρ : Env} :
    f.Parked p h (.yield src) w pc ρ → ρ.pushed = 0 → Waiting p h fs f.ret → Asleep p h (f :: fs)

/-- **What a step from the heap `h` leaves behind.** -/
def Progress.Holds (p : Program) [p.Origin] (B : Multiset ObjId) (h : Heap) : Progress → Prop
  | .more s => (∃ w ρ, Working p B s w ρ) ∧ Respects B h s.machine.heap
  | .stop m (.returned v) => Idle p (refsOf [v] + B) m ∧ Respects B h m.heap
  | .stop m (.yielded v s) => Idle p (refsOf [v] + (framesRefs p s.frames.toList + B)) m ∧
    Asleep p m.heap s.frames.toList.reverse ∧ Respects B h m.heap

/-- **What a step leaves behind** when the closures without code are `P`: those that the current frame
has afterwards were among them, or are new. -/
def Progress.Carries (p : Program) [p.Origin] (B : Multiset ObjId) (P : Set ObjId) (h : Heap) : Progress → Prop
  | .more s => (∃ w ρ, Working p B s w ρ ∧ ∀ x ∈ s.cur.shells ρ, x ∈ P ∨ h.slot? x = none) ∧
    Respects B h s.machine.heap
  | q => q.Holds p B h

theorem Progress.Carries.holds {p : Program} [p.Origin] {B : Multiset ObjId} {P : Set ObjId} {h : Heap}
    {q : Progress} (hq : q.Carries p B P h) : q.Holds p B h := by
  cases q with
  | more s =>
    obtain ⟨⟨w, ρ, hw, -⟩, hr⟩ := hq
    exact ⟨⟨w, ρ, hw⟩, hr⟩
  | stop m o => exact hq

section
variable {p : Program} [p.Origin] {B E S : Multiset ObjId} {h h' : Heap} {fs : List Frame} {ret : Option Reg}
  {consts : Array Value}

theorem Waiting.respects (hw : Waiting p h fs ret) (hr : Respects E h h') (hE : framesRefs p fs ≤ E) :
    Waiting p h' fs ret := by
  induction hw with
  | host ret => exact .host ret
  | caller hp _ ih =>
    rw [framesRefs_cons] at hE
    exact .caller (hp.respects hr ((Multiset.le_add_right _ _).trans hE))
      (ih ((Multiset.le_add_left _ _).trans hE))

theorem Asleep.respects (hw : Asleep p h fs) (hr : Respects E h h') (hE : framesRefs p fs ≤ E) :
    Asleep p h' fs := by
  cases hw with
  | chain hp h0 hrest =>
    rw [framesRefs_cons] at hE
    exact .chain (hp.respects hr ((Multiset.le_add_right _ _).trans hE)) h0
      (hrest.respects hr ((Multiset.le_add_left _ _).trans hE))

omit [p.Origin] in
theorem Loaded.respects (hl : Loaded p h consts) (hr : Respects E h h')
    (hE : refsOf consts.toList ≤ E) : Loaded p h' consts := by
  intro k c hk
  obtain ⟨v, hv, hhas⟩ := hl k c hk
  refine ⟨v, hv, fun hu => hr.has ?_ (hhas hu) (Kind.ofConstant_ne_shell c)⟩
  exact (refsOf_le_of_mem (by simpa using Array.mem_of_getElem? hv)).trans hE

end

namespace Working

variable {p : Program} [p.Origin] {B S : Multiset ObjId} {s : Running} {w : World} {ρ ρ' : Env}
  {i : Instr Nat} {pc' : Nat} {h' : Heap} {f' : Frame} {stack' : List Value} {stats' : CallCounts}

/-- The code of the current frame. -/
abbrev code (p : Program) (s : Running) : Array (Instr Nat) := p.codeOf s.cur.unit

variable (hw : Working p B s w ρ) (hi : (code p s)[s.cur.pc]? = some i)
include hw hi

theorem safe : w.Safe ρ i := by
  obtain ⟨i', hi', hs⟩ := hw.rests.home.vetted.safe hw.rests.reached
  obtain rfl := Option.some.inj (hi.symm.trans hi')
  exact hs

theorem input {r : Reg} (hr : r ∈ i.inputs) : ∃ κ, ρ.regs r = .val κ ∧
    Has s.machine.heap (s.cur.get r) κ ∧ (κ = .shell → i.finishes = true) :=
  hw.rests.stocked.input hw.rests.home.vetted hw.rests.reached hi hr

theorem input_of {r : Reg} {κ : Kind} (hr : r ∈ i.inputs) (hκ : ρ.regs r = .val κ) :
    Has s.machine.heap (s.cur.get r) κ :=
  hw.rests.stocked.input_of hw.rests.home.vetted hw.rests.reached hi hr hκ

omit hw hi in
theorem parts_le {a b c d B S : Multiset ObjId} (h : a + (b + (c + d)) + B ≤ S) :
    a ≤ S ∧ b ≤ S ∧ d ≤ S ∧ B ≤ S := by
  have hsum : ∀ {x y : Multiset ObjId}, x + y = a + (b + (c + d)) + B → x ≤ S := fun {x y} e =>
    (Multiset.le_add_right x y).trans (e ▸ h)
  exact ⟨hsum (y := b + (c + d) + B) (by abel), hsum (y := a + (c + d) + B) (by abel),
    hsum (y := a + b + c + B) (by abel), hsum (y := a + (b + (c + d))) (by abel)⟩

/-- **A step that stays in the frame.** -/
theorem go (hgo : w.Goes ρ i (some (s.cur.pc + 1)) ρ' pc') (hfol : Frame.Follows i pc' s.cur f')
    (hgood : Good p h' (f'.refs p + (framesRefs p s.callers.toList + (refsOf stack' +
      refsOf s.machine.consts.toList)) + B) (f'.shells ρ'))
    (hresp : Respects S s.machine.heap h')
    (hS : s.refs p + B ≤ S ∨ f'.refs p + (framesRefs p s.callers.toList + (refsOf stack' +
      refsOf s.machine.consts.toList)) + B ≤ S)
    (hkeep : ∀ {q κ}, i.fills ≠ some q → refsOf [s.cur.get q] ≤ S →
      Has s.machine.heap (s.cur.get q) κ → (κ = .shell → ρ.regs q = .val .shell) →
      Has h' (s.cur.get q) κ)
    (hfill : ∀ q, i.fills = some q → q.index < s.cur.regs.size ∧
      f'.Sits w h' (code p s) q (ρ'.regs q))
    (hadj : ∀ op q, i = .adjust op q → f'.Sits w h' (code p s) q (ρ'.regs q))
    (hnew : ∀ q x, i = .allocClosure q → f'.get q = .obj x → s.machine.heap.slot? x = none)
    (hapart : ∀ {q r x}, i.fills = some q → ρ.regs r = .val .shell → r ≠ q → s.cur.get r = .obj x →
      f'.get q ≠ .obj x)
    (hscope : Frame.Opened h' ρ'.scope f'.scopes) (hpushed : stack'.length = ρ'.pushed) :
    (Progress.more ⟨⟨h', s.machine.consts, stack', stats'⟩, s.callers, f'⟩).Carries p B
      (s.cur.shells ρ) s.machine.heap := by
  have hr := hw.rests
  have hparts : (s.cur.refs p ≤ S ∨ f'.refs p ≤ S) ∧ refsOf s.cur.closure.toList ≤ S ∧
      framesRefs p s.callers.toList ≤ S ∧ refsOf s.machine.consts.toList ≤ S ∧ B ≤ S := by
    rcases hS with hS | hS
    · obtain ⟨hcur, hrest⟩ := parts_le hS
      exact ⟨Or.inl hcur, (Frame.refsOf_closure_le p s.cur).trans hcur, hrest⟩
    · obtain ⟨hcur, hrest⟩ := parts_le hS
      exact ⟨Or.inr hcur, (hfol.closure ▸ Frame.refsOf_closure_le p f').trans hcur, hrest⟩
  obtain ⟨hcur, hclosure, hcallers, hconsts, hB⟩ := hparts
  have hstocked : f'.Stocked w h' (code p s) ρ' := by
    refine hr.stocked.step hr.home.vetted hr.reached hi hgo hfol.place hfol.size hfol.get ?_ hkeep hfill
      hadj hnew hapart
    refine hcur.imp (Frame.regRefs_le_refs p s.cur).trans fun h => ?_
    have := Frame.regRefs_le_refs p f'
    rw [hfol.unit] at this
    exact this.trans h
  have hshells : ∀ x ∈ f'.shells ρ', x ∈ s.cur.shells ρ ∨ s.machine.heap.slot? x = none := by
    rintro x ⟨q, hq, hx⟩
    rcases hr.home.vetted.shell_back hr.reached hgo hq with e | ⟨hfills, hq'⟩
    · exact Or.inr (hnew q x e hx)
    · exact Or.inl ⟨q, hq', (hfol.get q hfills).symm.trans hx⟩
  refine ⟨⟨w, ρ', ⟨hgood, ⟨?_, ?_, ?_, hscope⟩, ?_, ?_, hpushed⟩, hshells⟩, hresp.mono hB⟩
  · exact (hr.home.congr hfol.unit hfol.closure).respects hresp (hfol.closure ▸ hclosure)
  · exact hfol.unit ▸ hfol.place ▸ hr.reached.step hi hgo
  · rw [hfol.unit]
    exact hstocked
  · rw [hfol.ret]
    exact hw.waiting.respects hresp (by simpa using hcallers)
  · exact hw.loaded.respects hresp hconsts

/-- What the current frame owns stays the same when the registers do. -/
theorem refs_same (hgo : w.Goes ρ i (some (s.cur.pc + 1)) ρ' pc') (hfill : i.fills = none)
    (hadj : ∀ op q, i ≠ .adjust op q) (gs : List ScopeId) :
    Frame.refs p { s.cur with pc := pc', scopes := gs } = s.cur.refs p :=
  hw.rests.refs_same hi hgo (Frame.follows_of_regs i pc' s.cur gs) hfill hadj

/-- **An instruction that leaves the registers alone.** -/
theorem quiet (hgo : w.Goes ρ i (some (s.cur.pc + 1)) ρ pc') (hfill : i.fills = none)
    (hadj : ∀ op q, i ≠ .adjust op q) (hgood : Good p h' (s.refs p + B) (s.cur.shells ρ))
    (hp : Preserves (s.refs p + B) s.machine.heap h') :
    (Progress.more ⟨⟨h', s.machine.consts, s.machine.stack, stats'⟩, s.callers,
      { s.cur with pc := pc' }⟩).Carries p B (s.cur.shells ρ) s.machine.heap := by
  have hrefs := hw.refs_same hi hgo hfill hadj s.cur.scopes
  refine hw.go hi hgo (Frame.follows_of_regs i pc' s.cur s.cur.scopes) ?_ hp.toRespects (Or.inl le_rfl)
    (fun _ hle hh _ => hp.has hle hh) (fun q hq => ?_) (fun op q e => absurd e (hadj op q))
    (fun q x e => ?_) (fun hq => by rw [hfill] at hq; cases hq) (hw.rests.scope.preserves hp) hw.pushed
  · rw [hrefs]
    exact hgood
  · rw [hfill] at hq
    cases hq
  · rw [e] at hfill
    cases hfill

/-- **An instruction that creates a register** that owns nothing yet. -/
theorem create {dst : Reg} {v : Value} {κ : Kind} (hcr : i.creates = some dst)
    (hown : i.createsOwner = false)
    (hgo : w.Goes ρ i (some (s.cur.pc + 1)) (ρ.set dst (.val κ)) (s.cur.pc + 1))
    (hgood : Good p h' (s.refs p + B) (s.cur.shells ρ))
    (hp : Preserves (s.refs p + B) s.machine.heap h') (hv : Has h' v κ)
    (hplain : (∀ r, ρ.regs r ≠ .val .shell) ∨ v.asObj? = none)
    (hset : Frame.Sets { s.cur with pc := s.cur.pc + 1 } f' dst v) :
    (Progress.more ⟨⟨h', s.machine.consts, s.machine.stack, stats'⟩, s.callers, f'⟩).Carries p B
      (s.cur.shells ρ) s.machine.heap := by
  have hr := hw.rests
  have hvet := hr.home.vetted
  have hfills := Instr.fills_of_creates hcr
  have hfol := hset.follows hfills
  have hne : ∀ op q, i ≠ .adjust op q := by
    rintro op q rfl
    cases hcr
  have hshare : f'.share (code p s) dst = 0 := by
    by_cases hu : w.Uncounted dst
    · obtain ⟨i', -, hs'⟩ := hvet.safe (hr.reached.step hi hgo)
      refine Frame.share_of_refsOf ?_
      rw [hset.self]
      exact hv.refsOf_eq (hs'.modest dst κ (by simp [Status.kind?]) hu)
    · have hwalk : Walk (code p s) dst (s.cur.pc + 1) ⟨if i.createsOwner then 1 else 0, false⟩ :=
        .born hi hcr (by simp [Instr.exits_of_creates hcr])
      rw [Frame.share, hfol.place, hvet.owned_of_walk hu hwalk, hown]
      exact zero_nsmul _
  have hbefore := hr.stocked.share_created hvet hr.reached hi hcr (fun q e => by
    rw [e] at hown
    cases hown)
  have hrefs : f'.refs p = s.cur.refs p := by
    have := hr.refs_touch hi hgo hfol (d := dst) (by
      rintro q (e | ⟨op, e⟩)
      · exact Option.some.inj (e.symm.trans hfills)
      · exact absurd e (hne op q))
    rwa [hbefore, hshare, add_zero, add_zero] at this
  have hshells : f'.shells (ρ.set dst (.val κ)) = s.cur.shells ρ := by
    refine Frame.Stocked.shells_step hvet hr.reached hi hgo (fun q e => ?_) (fun q u c e => ?_) hfol.get
    · rw [e] at hown
      cases hown
    · rw [e] at hcr
      cases hcr
  refine hw.go hi hgo hfol ?_ hp.toRespects (Or.inl le_rfl) (fun _ hle hh _ => hp.has hle hh)
    (fun q hq => ?_) (fun op q e => absurd e (hne op q)) (fun q x e => ?_) (fun {q r x} hq hr _ _ hx => ?_) ?_
    hw.pushed
  · rw [hrefs, hshells]
    exact hgood
  · obtain rfl := Option.some.inj (hfills.symm.trans hq)
    refine ⟨hset.within, ?_⟩
    rw [Env.set_self]
    intro _
    rw [hset.self]
    exact hv
  · rw [e] at hown
    cases hown
  · obtain rfl := Option.some.inj (hfills.symm.trans hq)
    rw [hset.self] at hx
    subst hx
    rcases hplain with hs | hs
    · exact hs r hr
    · cases hs
  · rw [hset.scopes]
    exact hw.rests.scope.preserves hp

end Working

end CountedMachine
