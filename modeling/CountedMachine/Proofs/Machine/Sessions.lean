import CountedMachine.Machine.Host
import CountedMachine.Proofs.Machine.Calls

/-! # Sessions

A session is a machine and what the host holds: the values it was handed and has not released, and
the chains that have yielded and have not been resumed. The host runs, calls functions with values it
holds or makes, resumes and releases; while the machine is at work it takes one instruction after the
other. So the states of a session are those between two instructions.

`Session.Ok` is an invariant of sessions (`Session.Ok.act`), and it holds once the program is loaded
(`ok_load`). -/

namespace CountedMachine

open Heap

/-- What the machine is doing. -/
inductive Scene
  | idle (m : Machine)
  | busy (s : Running)

/-- The machine. -/
def Scene.machine : Scene → Machine
  | .idle m => m
  | .busy s => s.machine

/-- **A machine, the values the host holds and the chains that have yielded.** -/
structure Session where
  scene : Scene
  values : Array Value
  chains : Array Suspension

/-- What happens next: the host does something, or the machine carries out an instruction. -/
inductive Event
  | run
  | call (f : HostValue) (args : List HostValue)
  | resume (handle : Nat)
  | release (handle : Nat)
  | tick

namespace Session

/-- The session in which nothing has happened yet. -/
def fresh (m : Machine) : Session := ⟨.idle m, #[], #[]⟩

/-- The heap. -/
abbrev heap (S : Session) : Heap := S.scene.machine.heap

/-- Take in what running came to. -/
def settle (values : Array Value) (chains : Array Suspension) (m : Machine) : Outcome → Session
  | .returned v => ⟨.idle m, values.push v, chains⟩
  | .yielded v s => ⟨.idle m, values.push v, chains.push s⟩

/-- **The next state.** The host acts when the machine is idle. -/
def act (p : Program) (limits : Limits) : Session → Event → Except HostFailure Session
  | ⟨.idle m, values, chains⟩, .run => do
    let cur ← Host.faulting (p.frame p.entry [] none none)
    return ⟨.busy ⟨m.noteDepth 1, #[], cur⟩, values, chains⟩
  | ⟨.idle m, values, chains⟩, .call f args => do
    let (m, f) ← Host.pass values m f
    let (m, args) ← Host.passAll values m args
    match ← Host.faulting (p.resolveCall m.heap f args.length) with
    | .error _ => return ⟨.idle m, values, chains⟩
    | .ok unit =>
      let m ← Host.faulting (m.overHeap (·.incAll (f :: args)))
      let cur ← Host.faulting (p.frame unit args (some f) none)
      return ⟨.busy ⟨m.noteCall.noteDepth 1, #[], cur⟩, values, chains⟩
  | ⟨.idle m, values, chains⟩, .resume handle =>
    match chains[handle]? with
    | none => .error .unknownHandle
    | some s =>
      match s.frames.back? with
      | none => .error (.fault .emptySuspension)
      | some cur => .ok ⟨.busy ⟨m, s.frames.pop, cur⟩, values, chains.eraseIdxIfInBounds handle⟩
  | ⟨.idle m, values, chains⟩, .release handle => do
    let v ← Host.held values handle
    return ⟨.idle (← Host.faulting (m.release v)), values.eraseIdxIfInBounds handle, chains⟩
  | ⟨.busy s, values, chains⟩, .tick => do
    match ← Host.faulting (s.step p limits.frames) with
    | .more s => return ⟨.busy s, values, chains⟩
    | .stop m o => return settle values chains m o
  | _, _ => .error .unknownHandle

/-- The state after some events. -/
def acts (p : Program) (limits : Limits) (S : Session) (events : List Event) :
    Except HostFailure Session :=
  events.foldlM (act p limits) S

/-! ## References -/

/-- The references of chains that have yielded. -/
noncomputable def chainsRefs (p : Program) (chains : List Suspension) : Multiset ObjId :=
  (chains.map fun c => framesRefs p c.frames.toList).sum

/-- The references of the host: its values and the chains that have yielded. -/
noncomputable def hostRefs (p : Program) (S : Session) : Multiset ObjId :=
  refsOf S.values.toList + chainsRefs p S.chains.toList

/-- **All references from outside the heap**: the constants, the arguments on the stack, the frames of
the chain that runs and of those that have yielded, and the values of the host. -/
noncomputable def refs (p : Program) (S : Session) : Multiset ObjId :=
  match S.scene with
  | .idle m => refsOf m.stack + refsOf m.consts.toList + S.hostRefs p
  | .busy s => s.refs p + S.hostRefs p

end Session

/-- What is known of the machine, with the references `B` of the host. -/
def Scene.Fine (p : Program) [p.Origin] (B : Multiset ObjId) : Scene → Prop
  | .idle m => Idle p B m
  | .busy s => ∃ w ρ, Working p B s w ρ

/-- **The invariant of a session.** -/
structure Session.Ok (p : Program) [p.Origin] (S : Session) : Prop where
  scene : S.scene.Fine p (S.hostRefs p)
  asleep : ∀ c ∈ S.chains, Asleep p S.heap c.frames.toList.reverse

/-! ## Faults of the host -/

theorem Host.faulting_ok {α : Type} {x : Except Fault α} {v : α} (e : Host.faulting x = .ok v) : x = .ok v := by
  cases x with
  | error f => cases e
  | ok a => exact congrArg Except.ok (Except.ok.inj e)

/-- The host names something it does not hold, or there is a fault that is excused. -/
def HostFailure.Excused (crowded : Prop) : HostFailure → Prop
  | .unknownHandle => True
  | .fault f => f.Excused crowded

/-- **The action ends as said**, or with a failure that is excused. -/
def Assures (crowded : Prop) {α : Type} (x : Except HostFailure α) (Q : α → Prop) : Prop :=
  match x with
  | .ok a => Q a
  | .error e => e.Excused crowded

namespace Assures

variable {crowded : Prop} {α β : Type} {Q : α → Prop} {S : β → Prop}

theorem ok {a : α} (h : Q a) : Assures crowded (.ok a) Q := h

theorem bind {x : Except HostFailure α} {f : α → Except HostFailure β} (hx : Assures crowded x Q)
    (hf : ∀ a, Q a → Assures crowded (f a) S) : Assures crowded (x >>= f) S := by
  cases x with
  | ok a => exact hf a hx
  | error e => exact hx

theorem of_ensures {x : Except Fault α} (hx : Ensures crowded x Q) :
    Assures crowded (Host.faulting x) Q := by
  cases x with
  | ok a => exact hx
  | error e => exact hx

end Assures

namespace Session

variable {crowded : Prop} {p : Program} [p.Origin] {limits : Limits} {S : Session} {m m' : Machine}
  {values : Array Value} {chains : Array Suspension} {B E : Multiset ObjId} {v : Value}

@[simp] theorem chainsRefs_nil (p : Program) : chainsRefs p [] = 0 := rfl

@[simp] theorem chainsRefs_cons (p : Program) (c : Suspension) (cs : List Suspension) :
    chainsRefs p (c :: cs) = framesRefs p c.frames.toList + chainsRefs p cs := rfl

@[simp] theorem chainsRefs_append (p : Program) (cs ds : List Suspension) :
    chainsRefs p (cs ++ ds) = chainsRefs p cs + chainsRefs p ds := by
  simp [chainsRefs]

theorem refsOf_append (vs ws : List Value) : refsOf (vs ++ ws) = refsOf vs + refsOf ws := by
  simp [refsOf]

omit [p.Origin] in
theorem chainsRefs_mem {c : Suspension} {cs : List Suspension} (hc : c ∈ cs) :
    framesRefs p c.frames.toList ≤ chainsRefs p cs := by
  obtain ⟨as, bs, rfl⟩ := List.append_of_mem hc
  rw [chainsRefs_append, chainsRefs_cons]
  exact (Multiset.le_add_right _ _).trans (Multiset.le_add_left _ _)

/-- Chains that have yielded are not disturbed. -/
theorem asleep_respects {h h' : Heap} (ha : ∀ c ∈ chains, Asleep p h c.frames.toList.reverse)
    (hr : Respects E h h') (hE : chainsRefs p chains.toList ≤ E) :
    ∀ c ∈ chains, Asleep p h' c.frames.toList.reverse := fun c hc =>
  (ha c hc).respects hr (by simpa using (chainsRefs_mem (by simpa using hc)).trans hE)

/-! ## Handing over values -/

/-- Something can be allocated at will. -/
structure Passes (p : Program) [p.Origin] (B : Multiset ObjId) (m m' : Machine) : Prop where
  idle : Idle p B m'
  live : ∀ {v}, m.heap.Live v → m'.heap.Live v
  preserves : ∀ E, Preserves E m.heap m'.heap

theorem Passes.trans {m₁ m₂ : Machine} (a : Passes p B m m₁) (b : Passes p B m₁ m₂) :
    Passes p B m m₂ :=
  ⟨b.idle, fun hv => b.live (a.live hv), fun E => (a.preserves E).trans (b.preserves E)⟩

theorem assures_held (values : Array Value) (handle : Nat) :
    Assures crowded (Host.held values handle) fun v => values[handle]? = some v := by
  unfold Host.held
  cases hv : values[handle]? with
  | none => exact trivial
  | some v => exact rfl

/-- **A value that is passed is live.** -/
theorem assures_pass (hm : Idle p B m) (hB : refsOf values.toList ≤ B) (a : HostValue) :
    Assures crowded (Host.pass values m a) fun q => Passes p B m q.1 ∧ q.1.heap.Live q.2 := by
  have hsame : Passes p B m m := ⟨hm, fun hv => hv, fun E => .refl E _⟩
  cases a with
  | nil => exact ⟨hsame, nofun⟩
  | bool b => exact ⟨hsame, nofun⟩
  | num x => exact ⟨hsame, nofun⟩
  | fresh s =>
    obtain ⟨r, hv, hg', hgain⟩ := Good.allocate (o := .str s)
      (by simpa [Object.refs, Object.owned, refsOf_nil] using hm.good) trivial (fun _ => trivial)
    refine ⟨⟨⟨hg', ?_, hm.stack⟩, fun hl x e => (hl x e).imp fun _ hc => hgain.kept hc,
      hgain.preserves⟩, ?_⟩
    · exact hm.loaded.respects (hgain.preserves _).toRespects le_rfl
    · rintro x e
      have e : (m.heap.allocate (.str s)).2 = .obj x := e
      cases hv.symm.trans e
      exact ⟨_, hgain.self⟩
  | held handle =>
    refine (assures_held values handle).bind fun v hv => .ok ⟨hsame, live_of_le hm.good.sound ?_⟩
    exact (refsOf_le_of_mem (by simpa using Array.mem_of_getElem? hv)).trans
      (hB.trans (Multiset.le_add_left _ _))

theorem assures_passAll (hB : refsOf values.toList ≤ B) : ∀ (as : List HostValue) {m : Machine},
    Idle p B m → Assures crowded (Host.passAll values m as) fun q =>
      Passes p B m q.1 ∧ ∀ v ∈ q.2, q.1.heap.Live v
  | [], _, hm => ⟨⟨hm, fun hv => hv, fun E => .refl E _⟩, nofun⟩
  | a :: as, m, hm => by
    refine (assures_pass hm hB a).bind fun q hq => ?_
    refine (assures_passAll hB as hq.1.idle).bind fun q' hq' => .ok ⟨hq.1.trans hq'.1, ?_⟩
    intro v hv
    rcases List.mem_cons.mp hv with rfl | hv
    · exact hq'.1.live hq.2
    · exact hq'.2 v hv

/-! ## Starting and stopping -/

/-- The machine starts to work on a fresh frame. -/
theorem start_ok {f : Frame} {unit : UnitId} {args : List Value} {closure : Option Value}
    {cells : List Bool} {stats : CallCounts} {h : Heap} {consts : Array Value}
    (hn : f.New unit args closure none) (hok : UnitOk p.settings p unit cells)
    (hhost : closure = none → cells = [])
    (hclosure : ∀ {v}, closure = some v → Callable p h v unit cells)
    (hg : Good p h (refsOf args + refsOf closure.toList + (refsOf consts.toList + B)) ∅)
    (hl : Loaded p h consts) :
    Scene.Fine p B (.busy ⟨⟨h, consts, [], stats⟩, #[], f⟩) := by
  have hw : ∃ w, Working p B ⟨⟨h, consts, [], stats⟩, #[], f⟩ w .start :=
    hn.working hok hhost hclosure (by simpa [add_assoc] using hg) (.host _) hl
  obtain ⟨w, hw⟩ := hw
  exact ⟨w, .start, hw⟩

/-- **What a step leaves behind** is in order, the host holding on to what it holds. -/
theorem settle_ok {h : Heap} {o : Outcome}
    (ha : ∀ c ∈ chains, Asleep p h c.frames.toList.reverse)
    (hq : Progress.Holds p (refsOf values.toList + chainsRefs p chains.toList) h (.stop m o)) :
    (settle values chains m o).Ok p := by
  cases o with
  | returned v =>
    refine ⟨?_, asleep_respects ha hq.2 (Multiset.le_add_left _ _)⟩
    have hi := hq.1
    show Idle p (refsOf (values.push v).toList + chainsRefs p chains.toList) m
    rw [Array.toList_push, refsOf_append, add_right_comm, add_comm]
    exact hi
  | yielded v s =>
    obtain ⟨hi, hs, hr⟩ := hq
    refine ⟨?_, fun c hc => ?_⟩
    · show Idle p (refsOf (values.push v).toList + chainsRefs p (chains.push s).toList) m
      rw [Array.toList_push, refsOf_append, Array.toList_push, chainsRefs_append, chainsRefs_cons,
        chainsRefs_nil, add_zero]
      have e : refsOf values.toList + refsOf [v] + (chainsRefs p chains.toList +
          framesRefs p s.frames.toList) = refsOf [v] + (framesRefs p s.frames.toList +
          (refsOf values.toList + chainsRefs p chains.toList)) := by abel
      rw [e]
      exact hi
    · rcases Array.mem_push.mp hc with hc | rfl
      · exact asleep_respects ha hr (Multiset.le_add_left _ _) c hc
      · exact hs

/-- The references of a handle that is given up. -/
theorem refsOf_eraseIdx {handle : Nat} (hv : values[handle]? = some v) :
    refsOf values.toList = refsOf [v] + refsOf (values.eraseIdxIfInBounds handle).toList := by
  have hlt : handle < values.size := (Array.getElem?_eq_some_iff.mp hv).1
  have hget : values.toList[handle] = v := by simpa using (Array.getElem?_eq_some_iff.mp hv).2
  have hperm : values.toList.Perm (v :: (values.eraseIdxIfInBounds handle).toList) := by
    rw [Array.eraseIdxIfInBounds_eq, dif_pos hlt, Array.toList_eraseIdx, ← hget]
    exact (List.getElem_cons_eraseIdx_perm (by simpa using hlt)).symm
  rw [← refsOf_cons]
  exact Multiset.coe_eq_coe.mpr (hperm.filterMap _)

omit [p.Origin] in
theorem chainsRefs_eraseIdx {handle : Nat} {c : Suspension} (hc : chains[handle]? = some c) :
    chainsRefs p chains.toList = framesRefs p c.frames.toList +
      chainsRefs p (chains.eraseIdxIfInBounds handle).toList := by
  have hlt : handle < chains.size := (Array.getElem?_eq_some_iff.mp hc).1
  have hget : chains.toList[handle] = c := by simpa using (Array.getElem?_eq_some_iff.mp hc).2
  have hperm : chains.toList.Perm (c :: (chains.eraseIdxIfInBounds handle).toList) := by
    rw [Array.eraseIdxIfInBounds_eq, dif_pos hlt, Array.toList_eraseIdx, ← hget]
    exact (List.getElem_cons_eraseIdx_perm (by simpa using hlt)).symm
  rw [← chainsRefs_cons]
  exact (hperm.map _).sum_eq

/-! ## The invariant -/

section
variable (hentry : UnitOk p.settings p p.entry []) (hcrowd : 0xffffffff < p.units.size → crowded)

include hentry in
theorem assures_run (hS : Ok p ⟨.idle m, values, chains⟩) :
    Assures crowded (act p limits ⟨.idle m, values, chains⟩ .run) (Ok p) := by
  obtain ⟨hidle, hasleep⟩ := hS
  have hidle : Idle p (hostRefs p ⟨.idle m, values, chains⟩) m := hidle
  obtain ⟨h, consts, stack, stats⟩ := m
  obtain rfl : stack = [] := hidle.stack
  refine (Assures.of_ensures Frame.ensures_frame).bind fun f hn => .ok ⟨?_, hasleep⟩
  refine start_ok hn hentry (fun _ => rfl) nofun ?_ hidle.loaded
  simp only [refsOf_nil, Option.toList_none, zero_add]
  exact hidle.good

theorem assures_call (hS : Ok p ⟨.idle m, values, chains⟩) (a : HostValue) (as : List HostValue) :
    Assures crowded (act p limits ⟨.idle m, values, chains⟩ (.call a as)) (Ok p) := by
  obtain ⟨hidle, hasleep⟩ := hS
  have hidle : Idle p (hostRefs p ⟨.idle m, values, chains⟩) m := hidle
  set B := hostRefs p ⟨.idle m, values, chains⟩ with hBdef
  have hB : refsOf values.toList ≤ B := Multiset.le_add_right _ _
  have hchains : chainsRefs p chains.toList ≤ B := Multiset.le_add_left _ _
  refine (assures_pass hidle hB a).bind fun ⟨m₁, f⟩ ⟨hp₁, hf₁⟩ => ?_
  refine (assures_passAll hB as hp₁.idle).bind fun ⟨m₂, vs⟩ ⟨hp₂, hvs⟩ => ?_
  have hf := hp₂.live hf₁
  have hp := hp₁.trans hp₂
  have hidle₂ := hp.idle
  have hasleep₂ := asleep_respects hasleep (hp.preserves B).toRespects hchains
  have hgood : Good p m₂.heap (refsOf m₂.consts.toList + B) ∅ := hidle₂.good
  refine (Assures.of_ensures (hgood.ensures_resolveCall hf vs.length)).bind fun q hq => ?_
  cases q with
  | error reason => exact .ok ⟨hidle₂, hasleep₂⟩
  | ok unit =>
    obtain ⟨cells, hcall⟩ := hq.2 unit rfl
    have hlive : ∀ v ∈ f :: vs, m₂.heap.Live v := fun v hv =>
      (List.mem_cons.mp hv).elim (fun e => e ▸ hf) (hvs v)
    obtain ⟨h₃, e₃, hg₃, hr₃⟩ := hgood.incAll hlive
    obtain ⟨h, consts, stack, stats⟩ := m₂
    obtain rfl : stack = [] := hidle₂.stack
    have hover : Machine.overHeap (·.incAll (f :: vs)) ⟨h, consts, [], stats⟩ =
        .ok ⟨h₃, consts, [], stats⟩ := by
      simp only [Machine.overHeap, show h.incAll (f :: vs) = _ from e₃]
      rfl
    refine (Assures.of_ensures (.of_eq hover rfl)).bind fun m₃ e => ?_
    subst e
    refine (Assures.of_ensures Frame.ensures_frame).bind fun f' hn => .ok ⟨?_, ?_⟩
    · refine start_ok hn hcall.ok (by simp) (fun e => ?_) ?_
        (hidle₂.loaded.respects (hr₃.preserves _).toRespects le_rfl)
      · cases e
        exact hcall.respects (hr₃.preserves _).toRespects le_rfl
      · rw [refsOf_cons, add_comm (refsOf [f])] at hg₃
        exact hg₃
    · exact asleep_respects hasleep₂ (hr₃.preserves B).toRespects hchains

/-- **A chain wakes up** behind its yield. -/
theorem wakes_asleep {fs : Array Frame} {f : Frame} (hm : Idle p (framesRefs p (fs.push f).toList + B) m)
    (ha : Asleep p m.heap (fs.push f).toList.reverse) :
    ∃ w ρ pc src, ρ.Calm ∧ Working p B ⟨m, fs, f⟩ w ρ ∧ f.pc = pc + 1 ∧
      (p.codeOf f.unit)[pc]? = some (.yield src) := by
  rw [Array.toList_push, List.reverse_concat] at ha
  cases ha with
  | @chain _ _ src w pc ρ hpark hzero hwait =>
    refine ⟨w, ρ, pc, src, hpark.calm, ⟨?_, hpark.wake, hwait, hm.loaded, ?_⟩, hpark.place, hpark.instr⟩
    · rw [Frame.shells_of_calm hpark.calm]
      have hg := hm.good
      simp only [Array.toList_push, framesRefs_append, framesRefs_cons, framesRefs_nil, add_zero] at hg
      simp only [Running.refs, hm.stack, refsOf_nil, zero_add]
      convert hg using 1
      abel
    · rw [hm.stack, hzero]
      rfl

/-- **A chain that is resumed** is at work. -/
theorem wakes (hS : Ok p ⟨.idle m, values, chains⟩) {handle : Nat} {c : Suspension} {cur : Frame}
    (hc : chains[handle]? = some c) (hback : c.frames.back? = some cur) : ∃ w ρ, ρ.Calm ∧
      Working p (refsOf values.toList + chainsRefs p (chains.eraseIdxIfInBounds handle).toList)
        ⟨m, c.frames.pop, cur⟩ w ρ := by
  obtain ⟨hidle, hasleep⟩ := hS
  have hidle : Idle p (hostRefs p ⟨.idle m, values, chains⟩) m := hidle
  have hsleep : Asleep p m.heap c.frames.toList.reverse := hasleep c (Array.mem_of_getElem? hc)
  rw [hostRefs, chainsRefs_eraseIdx hc, add_left_comm] at hidle
  obtain ⟨fs, hfs⟩ := Array.back?_eq_some_iff.mp hback
  rw [hfs] at hidle hsleep
  obtain ⟨w, ρ, -, -, hcalm, hw, -⟩ := wakes_asleep hidle hsleep
  rw [hfs, Array.pop_push]
  exact ⟨w, ρ, hcalm, hw⟩

theorem assures_resume (hS : Ok p ⟨.idle m, values, chains⟩) (handle : Nat) :
    Assures crowded (act p limits ⟨.idle m, values, chains⟩ (.resume handle)) (Ok p) := by
  simp only [act]
  cases hc : chains[handle]? with
  | none => exact trivial
  | some c =>
    cases hback : c.frames.back? with
    | none =>
      have hsleep := hS.asleep c (Array.mem_of_getElem? hc)
      obtain ⟨⟨fs⟩⟩ := c
      obtain rfl : fs = [] := by simpa using hback
      cases hsleep
    | some cur =>
      obtain ⟨w, ρ, -, hw⟩ := wakes hS hc hback
      simp only [hback]
      refine .ok ⟨⟨w, ρ, hw⟩, fun d hd => hS.asleep d (Array.mem_toList_iff.mp ?_)⟩
      rw [← Array.mem_toList_iff, Array.eraseIdxIfInBounds_eq] at hd
      split at hd
      · rw [Array.toList_eraseIdx] at hd
        exact List.mem_of_mem_eraseIdx hd
      · exact hd

theorem assures_release (hS : Ok p ⟨.idle m, values, chains⟩) (handle : Nat) :
    Assures crowded (act p limits ⟨.idle m, values, chains⟩ (.release handle)) (Ok p) := by
  obtain ⟨hidle, hasleep⟩ := hS
  have hidle : Idle p (hostRefs p ⟨.idle m, values, chains⟩) m := hidle
  refine (assures_held values handle).bind fun v hv => ?_
  obtain ⟨h, consts, stack, stats⟩ := m
  have hg := hidle.good
  simp only [hostRefs, refsOf_eraseIdx hv] at hg
  have hperm : refsOf consts.toList + (refsOf [v] + refsOf (values.eraseIdxIfInBounds handle).toList +
      chainsRefs p chains.toList) = refsOf [v] + (refsOf consts.toList +
      (refsOf (values.eraseIdxIfInBounds handle).toList + chainsRefs p chains.toList)) := by abel
  rw [hperm] at hg
  refine (Assures.of_ensures (Q := fun m' => Ok p ⟨.idle m', values.eraseIdxIfInBounds handle, chains⟩)
    ?_).bind fun m' hm' => .ok hm'
  refine hg.unref.bind fun h' hg' => .ok ⟨⟨hg'.1, hidle.loaded.respects hg'.2.toRespects
    (Multiset.le_add_right _ _), hidle.stack⟩, ?_⟩
  exact asleep_respects hasleep hg'.2.toRespects
    ((Multiset.le_add_left _ _).trans (Multiset.le_add_left _ _))

include hcrowd in
theorem assures_tick {s : Running} (hS : Ok p ⟨.busy s, values, chains⟩) :
    Assures crowded (act p limits ⟨.busy s, values, chains⟩ .tick) (Ok p) := by
  obtain ⟨⟨w, ρ, hw⟩, hasleep⟩ := hS
  refine (Assures.of_ensures (hw.step hcrowd)).bind fun q hq => ?_
  cases q with
  | more s' => exact .ok ⟨hq.1, asleep_respects hasleep hq.2 (Multiset.le_add_left _ _)⟩
  | stop m o => exact .ok (settle_ok hasleep hq)

include hentry hcrowd in
/-- **One event keeps the session in order**, or fails in an excused way. -/
theorem Ok.act (hS : S.Ok p) (e : Event) : Assures crowded (S.act p limits e) (Ok p) := by
  obtain ⟨scene, values, chains⟩ := S
  cases scene with
  | idle m =>
    cases e with
    | run => exact assures_run hentry hS
    | call f args => exact assures_call hS f args
    | resume handle => exact assures_resume hS handle
    | release handle => exact assures_release hS handle
    | tick => exact trivial
  | busy s =>
    cases e with
    | tick => exact assures_tick hcrowd hS
    | _ => exact trivial

include hentry in
/-- **A session stays in order.** -/
theorem Ok.acts : ∀ (events : List Event) {S S' : Session}, S.Ok p →
    S.acts p limits events = .ok S' → S'.Ok p
  | [], _, _, hS, e => by
    obtain rfl := Except.ok.inj e
    exact hS
  | event :: events, S, S', hS, e => by
    rw [Session.acts, List.foldlM_cons] at e
    have hone : Assures True (S.act p limits event) (Ok p) := hS.act hentry (fun _ => trivial) event
    cases hact : S.act p limits event with
    | error f => simp only [hact, bind, Except.bind] at e; cases e
    | ok S₁ =>
      rw [hact] at hone e
      exact Ok.acts events hone e

end

/-! ## Loading -/

/-- The first constants have been loaded. -/
structure Loading (p : Program) [p.Origin] (cs : List Constant) (q : Heap × Array Value) : Prop where
  good : Good p q.1 (refsOf q.2.toList) ∅
  loaded : ∀ (k : Nat) (c : Constant), cs[k]? = some c → ∃ v, q.2[k]? = some v ∧
    ((∀ tag, c ≠ .undefined tag) → Has q.1 v (.ofConstant c))
  size : q.2.size = cs.length

/-- A constant is in the heap. -/
theorem loadConst_spec {h : Heap} {R : Multiset ObjId} (hg : Good p h R ∅) (c : Constant)
    (hc : ∀ u, c = .closure u → UnitOk p.settings p u []) :
    Good p (Machine.loadConst h c).1 R ∅ ∧ (∀ E, Preserves E h (Machine.loadConst h c).1) ∧
      (Machine.loadConst h c).1.Live (Machine.loadConst h c).2 ∧
      ((∀ tag, c ≠ .undefined tag) →
        Has (Machine.loadConst h c).1 (Machine.loadConst h c).2 (.ofConstant c)) := by
  cases c with
  | nil => exact ⟨hg, fun E => .refl E h, nofun, fun _ => rfl⟩
  | undefined tag => exact ⟨hg, fun E => .refl E h, nofun, fun hn => absurd rfl (hn tag)⟩
  | bool b => exact ⟨hg, fun E => .refl E h, nofun, fun _ => rfl⟩
  | num x => exact ⟨hg, fun E => .refl E h, nofun, fun _ => rfl⟩
  | str s =>
    obtain ⟨hg', hp, hh⟩ := Good.allocated (o := .str s) (κ := .str)
      (by simpa [Object.refs, Object.owned, refsOf_nil] using hg) trivial (fun _ => trivial) rfl
    exact ⟨hg', hp, hh.live, fun _ => hh⟩
  | closure u =>
    obtain ⟨hg', hp, hh⟩ := Good.allocated (o := .closure (.plain u)) (κ := .fn u) (P := ∅)
      (by simpa [Object.refs, Object.owned, Closure.ownedCaps, Closure.plain, refsOf_nil] using hg)
      ⟨rfl, fun _ => rfl⟩ (fun _ _ => ⟨[], hc u rfl, rfl, by simp⟩) (Or.inl rfl)
    exact ⟨hg', hp, hh.live, fun _ => hh⟩

theorem loading_step {cs : List Constant} {q : Heap × Array Value} (hq : Loading p cs q)
    (c : Constant) (hc : ∀ u, c = .closure u → UnitOk p.settings p u []) :
    ∃ q', Machine.loadStep q c = .ok q' ∧ Loading p (cs ++ [c]) q' := by
  obtain ⟨h, consts⟩ := q
  obtain ⟨hg₁, hp₁, hl₁, hh₁⟩ := loadConst_spec hq.good c hc
  obtain ⟨h₂, e₂, hg₂, hr₂⟩ := hg₁.inc hl₁
  have hstep : Machine.loadStep (h, consts) c = .ok (h₂, consts.push (Machine.loadConst h c).2) := by
    simp only [Machine.loadStep, e₂, bind, Except.bind]
    rfl
  refine ⟨_, hstep, ⟨?_, fun k c' hk => ?_, by simp [hq.size]⟩⟩
  · rw [Array.toList_push, refsOf_append, add_comm]
    exact hg₂
  · have hpres := (hp₁ (refsOf consts.toList)).trans (hr₂.preserves _)
    rcases Nat.lt_or_ge k cs.length with hlt | hge
    · rw [List.getElem?_append_left hlt] at hk
      obtain ⟨v, hv, hhas⟩ := hq.loaded k c' hk
      refine ⟨v, ?_, fun hu => hpres.has ?_ (hhas hu)⟩
      · rw [Array.getElem?_push, if_neg (by rw [hq.size]; omega)]
        exact hv
      · exact refsOf_le_of_mem (by simpa using Array.mem_of_getElem? hv)
    · rw [List.getElem?_append_right hge] at hk
      obtain ⟨hk0, rfl⟩ : k - cs.length = 0 ∧ c = c' := by
        cases hd : k - cs.length with
        | zero => rw [hd] at hk; exact ⟨rfl, Option.some.inj hk⟩
        | succ n => rw [hd] at hk; simp at hk
      refine ⟨(Machine.loadConst h c).2, ?_, fun hu => hr₂.has (hh₁ hu)⟩
      rw [Array.getElem?_push, if_pos (by rw [hq.size]; omega)]

theorem loading_foldlM : ∀ (todo : List Constant) {cs : List Constant} {q : Heap × Array Value},
    Loading p cs q → (∀ u, .closure u ∈ todo → UnitOk p.settings p u []) →
    ∃ q', todo.foldlM Machine.loadStep q = .ok q' ∧ Loading p (cs ++ todo) q'
  | [], cs, q, hq, _ => ⟨q, rfl, by simpa using hq⟩
  | c :: todo, cs, q, hq, hc => by
    obtain ⟨q₁, e₁, hq₁⟩ := loading_step hq c fun u e => hc u (by simp [e])
    obtain ⟨q₂, e₂, hq₂⟩ := loading_foldlM todo hq₁ fun u hu => hc u (by simp [hu])
    refine ⟨q₂, ?_, by simpa using hq₂⟩
    rw [List.foldlM_cons, e₁]
    exact e₂

/-- **A program can be loaded**, and then the session is in order. -/
theorem ok_load (hplain : ∀ {k : Nat} {u : UnitId}, p.consts[k]? = some (.closure u) → UnitOk p.settings p u []) :
    ∃ m, Machine.load p = .ok m ∧ (fresh m).Ok p := by
  have hempty : Loading p [] (Heap.empty, #[]) :=
    ⟨⟨sound_empty, fun hr => by simp [Heap.empty, Heap.slot?] at hr,
      fun hr => by simp [Heap.empty, Heap.slot?] at hr⟩, by simp, rfl⟩
  obtain ⟨q, e, hq⟩ := loading_foldlM p.consts.toList hempty fun u hu => by
    obtain ⟨k, hk⟩ := List.mem_iff_getElem?.mp hu
    exact hplain (k := k) (by simpa using hk)
  rw [Array.foldlM_toList] at e
  refine ⟨⟨q.1, q.2, [], {}⟩, ?_, ⟨?_, fun k c hk => ?_, rfl⟩, by simp [fresh]⟩
  · rw [Machine.load, e]
    rfl
  · simpa [fresh, hostRefs, refsOf_nil] using hq.good
  · exact hq.loaded k c (by simpa using hk)

end Session

end CountedMachine
