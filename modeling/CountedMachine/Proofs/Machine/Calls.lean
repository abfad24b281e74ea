import CountedMachine.Proofs.Machine.Leaving

/-! # Calls, returns and yields

A call parks the current frame and enters a fresh one, a tail call replaces the current frame, and a
return hands a reference to the frame that waits for it. `Working.step` collects what all the
instructions do: **a step keeps the invariant or ends with an excused fault**. -/

namespace CountedMachine

open Heap

variable {crowded : Prop} {p : Program} [p.Origin] {B R : Multiset ObjId} {h : Heap} {consts : Array Value}
  {stack : List Value} {stats : CallCounts} {callers : Array Frame} {f : Frame} {w : World} {ρ : Env}
  {limit : Nat} {v : Value}

/-! ## Resolving -/

/-- The value is a closure with its code, for captures of which `cells` says which are cells. -/
structure Callable (p : Program) [p.Origin] (h : Heap) (v : Value) (unit : UnitId) (cells : List Bool) :
    Prop where
  closure : ∃ r rc k, v = .obj r ∧ h.slot? r = some ⟨rc, .closure k⟩ ∧ k.isFinished = true ∧
    Furnished h k cells
  ok : UnitOk p.settings p unit cells

/-- A live value as a closure. -/
theorem Heap.Live.closure? (hv : h.Live v) : h.closure? v = .ok none ∨
    ∃ r rc k, v = .obj r ∧ h.slot? r = some ⟨rc, .closure k⟩ ∧ h.closure? v = .ok (some k) := by
  cases v with
  | obj r =>
    obtain ⟨⟨rc, o⟩, hr⟩ := hv r rfl
    cases o with
    | closure k =>
      refine Or.inr ⟨r, rc, k, rfl, hr, ?_⟩
      simp only [Heap.closure?, get_eq hr, bind, Except.bind]
      rfl
    | _ =>
      refine Or.inl ?_
      simp only [Heap.closure?, get_eq hr, bind, Except.bind]
      rfl
  | _ => exact Or.inl rfl

/-- **A call resolves** to a unit that works with the captures of the closure, or is refused. -/
theorem Good.ensures_resolveCall (hg : Good p h R ∅) (hv : h.Live v) (n : Nat) :
    Ensures crowded (p.resolveCall h v n) fun q => p.resolveCall h v n = .ok q ∧
      ∀ unit, q = .ok unit → ∃ cells, Callable p h v unit cells := by
  suffices hres : Ensures crowded (p.resolveCall h v n) fun q => ∀ unit, q = .ok unit →
      ∃ cells, Callable p h v unit cells from
    .of_result (hres.mono fun _ _ => trivial) fun q e => ⟨e, hres.result e⟩
  rcases hv.closure? with e | ⟨r, rc, k, rfl, hr, e⟩
  · simp only [Program.resolveCall, e, bind, Except.bind]
    exact .ok fun _ e => nomatch e
  · simp only [Program.resolveCall, e, bind, Except.bind]
    split_ifs with hfin
    · cases hu : p.unit k.unit with
      | error f =>
        unfold Program.unit at hu
        split at hu
        · cases hu
        · cases hu
          exact trivial
      | ok u =>
        simp only
        split_ifs
        · refine .ok fun unit e => ?_
          cases e
          obtain ⟨cells, hok, hf⟩ := hg.typed.closures hr (by simp)
          exact ⟨cells, ⟨r, rc, k, rfl, hr, hfin, hf⟩, hok⟩
        · exact .ok fun _ e => nomatch e
    · exact .ok fun _ e => nomatch e

omit [p.Origin] in
/-- A call of a known function is not refused, where the mark of closures without code is no unit. -/
theorem Has.resolveCall {unit : UnitId} {u : CodeUnit} {n : Nat} (hv : Has h v (.fn unit))
    (hu : p.units[unit.index]? = some u) (hn : u.arity = n) (hsize : p.units.size ≤ 0xffffffff) :
    p.resolveCall h v n = .ok (.ok unit) := by
  obtain ⟨r, rc, k, rfl, hr, hunit⟩ := hv.fn
  have hlt : unit.index < p.units.size := (Array.getElem?_eq_some_iff.mp hu).1
  have hne : unit ≠ Closure.noUnit := by
    rintro rfl
    simp only [Closure.noUnit] at hlt
    omega
  obtain rfl := hunit hne
  have hfin : k.isFinished = true := by simpa [Closure.isFinished] using hne
  have e : h.closure? (.obj r) = .ok (some k) := by
    simp only [Heap.closure?, get_eq hr, bind, Except.bind]
    rfl
  have eu : p.unit k.unit = .ok u := by rw [Program.unit, hu]
  simp only [Program.resolveCall, e, eu, hfin, hn, bind, Except.bind, if_true]
  rfl

/-! ## Entering and leaving -/

theorem Callable.respects {unit : UnitId} {cells : List Bool} {E : Multiset ObjId} {h' : Heap}
    (hc : Callable p h v unit cells) (hr : Respects E h h') (hv : refsOf [v] ≤ E) :
    Callable p h' v unit cells := by
  obtain ⟨⟨r, rc, k, rfl, hr₀, hfin, hfur⟩, hok⟩ := hc
  obtain ⟨rc', k', hr', hu, hcaps, hkeep⟩ := hr.closures
    (Multiset.mem_of_le hv (by simp [refsOf_obj])) hr₀ hfin
  refine ⟨⟨r, rc', k', rfl, hr', by rwa [Closure.isFinished, hu], by rw [hcaps, hfur.length],
    fun hm hx => ?_⟩, hok⟩
  rw [hcaps] at hx
  exact hkeep _ (List.mem_of_getElem? hx) _ (by simp) (hfur.cell hm hx)

/-- **A fresh frame is at work.** -/
theorem Frame.New.working {unit : UnitId} {args : List Value} {closure : Option Value}
    {ret : Option Reg} {cells : List Bool} (hn : f.New unit args closure ret)
    (hok : UnitOk p.settings p unit cells) (hhost : closure = none → cells = [])
    (hclosure : ∀ {v}, closure = some v → Callable p h v unit cells)
    (hg : Good p h (refsOf args + refsOf closure.toList + (framesRefs p callers.toList +
      refsOf consts.toList) + B) ∅)
    (hwait : Waiting p h callers.toList.reverse ret) (hl : Loaded p h consts) :
    ∃ w, Working p B ⟨⟨h, consts, [], stats⟩, callers, f⟩ w .start := by
  obtain ⟨w, hf⟩ := hn.rests (h := h) hok hhost fun hc => (hclosure hc).closure
  refine ⟨w, ?_, hf, hn.ret ▸ hwait, hl, rfl⟩
  rw [Running.refs, hn.refs, f.shells_start]
  simpa only [refsOf_nil, zero_add] using hg

/-- A fresh frame has no closures without code. -/
theorem Progress.carries_enter {P : Set ObjId} (hw : ∃ w, Working p B ⟨⟨h, consts, [], stats⟩, callers, f⟩ w .start)
    {h₀ : Heap} (hr : Respects B h₀ h) :
    (Progress.more ⟨⟨h, consts, [], stats⟩, callers, f⟩).Carries p B P h₀ := by
  obtain ⟨w, hw⟩ := hw
  refine ⟨⟨w, .start, hw, fun x hx => ?_⟩, hr⟩
  rw [f.shells_start] at hx
  exact hx.elim

/-- **Leaving a frame** with a value that carries one reference. -/
theorem Running.ensures_returnWith {P : Set ObjId} {h₀ : Heap} (hr₀ : Respects B h₀ h)
    (hg : Good p h (refsOf [v] + (refsOf f.args + (refsOf f.closure.toList +
      (framesRefs p callers.toList + refsOf consts.toList + B)))) ∅)
    (hwait : Waiting p h callers.toList.reverse f.ret) (hl : Loaded p h consts) :
    Ensures crowded (Running.returnWith v ⟨⟨h, consts, [], stats⟩, callers, f⟩)
      (Progress.Carries p B P h₀) := by
  have hperm : refsOf [v] + (refsOf f.args + (refsOf f.closure.toList +
      (framesRefs p callers.toList + refsOf consts.toList + B))) =
      refsOf f.args + (refsOf f.closure.toList + (refsOf [v] + (framesRefs p callers.toList +
        refsOf consts.toList + B))) := by abel
  rw [hperm] at hg
  simp only [Running.returnWith, Machine.overHeap, bind_assoc, pure_bind]
  refine hg.unrefAll.bind fun h₁ hg₁ => hg₁.1.unrefAll.bind fun h₂ hg₂ => ?_
  have hresp : Respects (framesRefs p callers.toList + refsOf consts.toList + B) h h₂ :=
    (hg₁.2.toRespects.mono ((Multiset.le_add_left _ _).trans (Multiset.le_add_left _ _))).trans
      (hg₂.2.toRespects.mono (Multiset.le_add_left _ _))
  have hframes : framesRefs p callers.toList ≤ framesRefs p callers.toList + refsOf consts.toList + B :=
    (Multiset.le_add_right _ _).trans (Multiset.le_add_right _ _)
  have hl₂ := hl.respects hresp ((Multiset.le_add_left _ _).trans (Multiset.le_add_right _ _))
  have hB := hresp.mono (Multiset.le_add_left _ _)
  have hwait₂ := hwait.respects hresp (by simpa using hframes)
  cases hback : callers.back? with
  | none =>
    obtain rfl : callers = #[] := by simpa using hback
    refine .ok ⟨⟨?_, hl₂, rfl⟩, hr₀.trans hB⟩
    have := hg₂.1
    simp only [framesRefs_nil, zero_add] at this
    rw [add_left_comm]
    exact this
  | some caller =>
    obtain ⟨cs, rfl⟩ := Array.back?_eq_some_iff.mp hback
    obtain ⟨κ, hκ, hv⟩ := exists_has (live_of_le hg₂.1.sound (Multiset.le_add_right _ _))
    obtain ⟨h₃, e₃, hg₃, hr₃⟩ := hg₂.1.release
    simp only [e₃, bind, Except.bind]
    have hlist : (cs.push caller).toList.reverse = caller :: cs.toList.reverse := by simp
    rw [hlist] at hwait₂
    cases hret : f.ret with
    | none =>
      rw [hret] at hwait₂
      cases hwait₂
    | some dst =>
      rw [hret] at hwait₂
      cases hwait₂ with
      | caller hpark hrest =>
        refine (caller.ensures_write dst v).bind fun f' hset => .ok ?_
        have hpark₃ := hpark.respects (hr₃.preserves _).toRespects le_rfl
        obtain ⟨hrests, hrefs⟩ := hpark₃.receive hset (hr₃.has hv) hκ
        have hcalm := hpark.calm.set hκ dst
        have hempty : f'.shells { Env.set _ dst (.val κ) with pushed := 0 } = ∅ :=
          Frame.shells_of_calm ⟨hcalm.scope, hcalm.regs⟩
        refine ⟨⟨_, _, ⟨?_, hrests, ?_, hl₂.respects (hr₃.preserves _).toRespects le_rfl, rfl⟩,
          fun x hx => (hempty ▸ hx).elim⟩, hr₀.trans (hB.trans (hr₃.preserves _).toRespects)⟩
        · rw [hempty]
          simp only [Running.refs, hrefs, Array.pop_push, refsOf_nil, zero_add]
          simpa [add_assoc, add_comm, add_left_comm] using hg₃
        · simp only [Array.pop_push, hset.ret]
          exact hrest.respects (hr₃.preserves _).toRespects le_rfl

omit [p.Origin] in
/-- The instruction that is fetched is the one in the code of the unit. -/
theorem Running.fetch_eq {s : Running} {i : Instr Nat} :
    s.fetch p = .ok i ↔ (p.codeOf s.cur.unit)[s.cur.pc]? = some i := by
  unfold Running.fetch Program.unit Program.codeOf
  cases p.units[s.cur.unit.index]? with
  | none =>
    simp only [bind, Except.bind]
    simp
  | some u =>
    simp only [bind, Except.bind]
    cases u.code[s.cur.pc]? with
    | none => exact ⟨nofun, nofun⟩
    | some i' => exact ⟨fun e => congrArg some (Except.ok.inj e), fun e => congrArg Except.ok (Option.some.inj e)⟩

namespace Working

variable {s : Running} (hw : Working p B s w ρ)
include hw

/-! ## Calls -/

omit hw in
/-- The arguments that have been pushed are taken off the stack. -/
theorem takeArgs_eq {n : Nat} (hn : stack.length = n) :
    Machine.takeArgs n ⟨h, consts, stack, stats⟩ = .ok (⟨h, consts, [], stats⟩, stack.reverse) := by
  subst hn
  simp [Machine.takeArgs]

omit hw in
theorem refsOf_reverse (vs : List Value) : refsOf vs.reverse = refsOf vs := by
  simp [refsOf]

/-- The references without the arguments on the stack. -/
theorem good_taken (hc : ρ.Calm) : Good p s.machine.heap (refsOf s.machine.stack.reverse +
    (s.cur.refs p + (framesRefs p s.callers.toList + refsOf s.machine.consts.toList) + B)) ∅ := by
  have hg := hw.good
  rw [Frame.shells_of_calm hc, Running.refs] at hg
  rw [refsOf_reverse]
  convert hg using 1
  abel

/-- **A call that does not take place.** -/
theorem carried_refusal {dst func : Reg} {nargs : Nat} {checked : Bool} (reason : CallRefusal)
    (hi : (code p s)[s.cur.pc]? = some (.call dst func nargs checked)) (hc : ρ.Calm) :
    Ensures crowded (Running.refuse reason s.machine.stack.reverse dst
      ⟨{ s.machine with stack := [] }, s.callers, { s.cur with pc := s.cur.pc + 1 }⟩)
      (Progress.Carries p B (s.cur.shells ρ) s.machine.heap) := by
  have hvet := hw.rests.home.vetted
  have hgo : w.Goes ρ (.call dst func nargs checked) (some (s.cur.pc + 1))
    { ρ.set dst (.val (.obj .undefined)) with pushed := 0 } (s.cur.pc + 1) := ⟨⟨_, by simp, rfl⟩, rfl⟩
  have hg := hw.good_taken hc
  have hcalm : Env.Calm { ρ.set dst (.val (.obj .undefined)) with pushed := 0 } :=
    ⟨hc.scope, (hc.set (by simp) dst).regs⟩
  have hpark := hw.rests.park hi rfl hc
  have hrefs := hw.rests.refs_park hi rfl
  obtain ⟨⟨h, consts, stack, stats⟩, callers, f⟩ := s
  simp only [Running.refuse, Running.overHeap, Machine.overHeap, bind_assoc, pure_bind]
  refine hg.unrefAll.bind fun h₁ hg₁ => Running.ensures_storeFrom (.ok fun f' hset => ?_)
  obtain ⟨hg₂, hp₂, hh₂⟩ := Good.allocated (o := .undefined reason.tag []) (κ := .obj .undefined)
    (by simpa [Object.refs, Object.owned, refsOf_nil] using hg₁.1) trivial (fun _ => trivial) rfl
  have hp := hg₁.2.trans (hp₂ _)
  have hpark₂ := hpark.respects hp.toRespects (by
    rw [hrefs]
    exact (Multiset.le_add_right _ _).trans (Multiset.le_add_right _ _))
  obtain ⟨hrests, hrefs'⟩ := hpark₂.receive hset hh₂ (by simp)
  have hempty := Frame.shells_of_calm (f := f') hcalm
  refine ⟨⟨w, _, ⟨?_, hrests, ?_, ?_, rfl⟩, fun x hx => (hempty ▸ hx).elim⟩,
    hp.toRespects.mono (Multiset.le_add_left _ _)⟩
  · rw [hempty]
    simp only [Running.refs, hrefs', hrefs, refsOf_nil, zero_add]
    exact hg₂
  · rw [hset.ret]
    exact hw.waiting.respects hp.toRespects (by
      simpa using (Multiset.le_add_right _ _).trans ((Multiset.le_add_left _ _).trans
        (Multiset.le_add_right _ _)))
  · exact hw.loaded.respects hp.toRespects ((Multiset.le_add_left _ _).trans
      ((Multiset.le_add_left _ _).trans (Multiset.le_add_right _ _)))

/-- **A function is entered.** -/
theorem carried_entry {dst func : Reg} {nargs : Nat} {checked : Bool} {unit : UnitId}
    {cells : List Bool} (hi : (code p s)[s.cur.pc]? = some (.call dst func nargs checked))
    (hc : ρ.Calm) (hcall : Callable p s.machine.heap (s.cur.get func) unit cells) :
    Ensures crowded (Running.enter p unit (s.cur.get func) s.machine.stack.reverse dst
      ⟨{ s.machine with stack := [] }, s.callers, { s.cur with pc := s.cur.pc + 1 }⟩)
      (Progress.Carries p B (s.cur.shells ρ) s.machine.heap) := by
  have hg := hw.good_taken hc
  have hpark := hw.rests.park hi rfl hc
  have hrefs := hw.rests.refs_park hi rfl
  obtain ⟨κ, -, hh, -⟩ := hw.input hi (r := func) (by simp [Instr.inputs])
  obtain ⟨⟨h, consts, stack, stats⟩, callers, f⟩ := s
  obtain ⟨h₁, e₁, hg₁, hr₁⟩ := hg.inc hh.live
  simp only [Running.enter, Machine.overHeap, e₁, bind_assoc, pure_bind]
  show Ensures crowded (p.frame unit stack.reverse (some (f.get func)) (some dst) >>= _) _
  refine Frame.ensures_frame.bind fun f' hn => .ok (Progress.carries_enter ?_ (hr₁.preserves _).toRespects)
  refine hn.working hcall.ok (by simp) (fun e => ?_) ?_ ?_ ?_
  · cases e
    exact hcall.respects (hr₁.preserves _).toRespects le_rfl
  · simp only [Array.toList_push, framesRefs_append, framesRefs_cons, framesRefs_nil, add_zero, hrefs,
      Option.toList_some]
    convert hg₁ using 1
    abel
  · simp only [Array.toList_push, List.reverse_append, List.reverse_cons, List.reverse_nil,
      List.nil_append, List.singleton_append]
    exact .caller (hpark.respects (hr₁.preserves _).toRespects le_rfl)
      (hw.waiting.respects (hr₁.preserves _).toRespects le_rfl)
  · exact hw.loaded.respects (hr₁.preserves _).toRespects le_rfl

/-- **What is called is looked up** when the arguments have been taken: it can be called, or there is a
reason why not. -/
theorem ensures_callee {i : Instr Nat} {func : Reg} {nargs : Nat} {Q : Progress → Prop}
    {next : Value → Except CallRefusal UnitId → Except Fault Progress}
    (hi : (code p s)[s.cur.pc]? = some i) (hc : ρ.Calm) (hfunc : func ∈ i.inputs)
    (hok : ∀ unit cells, Callable p s.machine.heap (s.cur.get func) unit cells →
      Ensures crowded (next (s.cur.get func) (.ok unit)) Q)
    (herror : ∀ reason, p.resolveCall s.machine.heap (s.cur.get func) nargs = .ok (.error reason) →
      Ensures crowded (next (s.cur.get func) (.error reason)) Q) :
    Ensures crowded (Frame.read { s.cur with pc := s.cur.pc + 1 } func >>= fun f =>
      p.resolveCall s.machine.heap f nargs >>= fun q => next f q) Q := by
  obtain ⟨κ, hκ, hh, -⟩ := hw.input hi hfunc
  have hgood := hw.good_taken hc
  refine (Frame.ensures_read _ func).bind fun v hv => ?_
  obtain rfl : v = s.cur.get func := hv
  refine (hgood.ensures_resolveCall hh.live nargs).bind fun q hq => ?_
  cases q with
  | ok unit =>
    obtain ⟨cells, hcall⟩ := hq.2 unit rfl
    exact hok unit cells hcall
  | error reason => exact herror reason hq.1

/-- **A call.** -/
theorem carried_call {dst func : Reg} {nargs : Nat} {checked : Bool}
    (hi : (code p s)[s.cur.pc]? = some (.call dst func nargs checked))
    (hcrowd : 0xffffffff < p.units.size → crowded) :
    Carried crowded p B limit s ρ (.call dst func nargs checked) := by
  obtain ⟨hc, hn, hknown⟩ := (hw.safe hi).needs
  rw [hw.rests.home.program] at hknown
  show Ensures crowded (s.advance.call p limit dst func nargs checked) _
  obtain ⟨⟨h, consts, stack, stats⟩, callers, f⟩ := s
  have hargs : Machine.takeArgs nargs ⟨h, consts, stack, stats⟩ = _ :=
    takeArgs_eq (hw.pushed.trans hn)
  simp only [Running.call, Running.advance, hargs]
  have hfunc : func ∈ (Instr.call dst func nargs checked : Instr Nat).inputs := by simp [Instr.inputs]
  refine hw.ensures_callee hi hc hfunc (fun unit cells hcall => ?_) fun reason hreason => ?_
  · show Ensures crowded (if limit ≤ callers.size + 1 then _ else _) _
    split
    · exact hw.carried_refusal .stackOverflow hi hc
    · exact hw.carried_entry hi hc hcall
  · cases checked with
    | true => exact hw.carried_refusal reason hi hc
    | false =>
      -- the function is known: only in a crowded program can the call be refused
      obtain ⟨unit, u, hunit, hu, har⟩ := hknown rfl
      refine hcrowd (lt_of_not_ge fun hsize => ?_)
      have hh := hw.input_of hi hfunc hunit
      cases (hh.resolveCall hu har hsize).symm.trans hreason

/-! ## Returns -/

/-- The references of a frame that is left with a value. -/
theorem good_left {r : Reg} {i : Instr Nat} (hi : (code p s)[s.cur.pc]? = some i)
    (ht : i.isTerminal = true) (hc : ρ.Calm) (hr : ∀ q, i.consumes q = true ↔ q = r) :
    Good p s.machine.heap (refsOf s.machine.stack.reverse + (refsOf [s.cur.get r] +
      (refsOf s.cur.args + (refsOf s.cur.closure.toList + (framesRefs p s.callers.toList +
        refsOf s.machine.consts.toList + B))))) ∅ := by
  have hg := hw.good_taken hc
  rw [Frame.refs, hw.rests.regRefs_terminal hi ht hc hr] at hg
  convert hg using 1
  abel

theorem carried_ret {src : Reg} (hi : (code p s)[s.cur.pc]? = some (.ret src)) :
    Carried crowded p B limit s ρ (.ret src) := by
  obtain ⟨hc, hn⟩ := (hw.safe hi).needs
  have hg := hw.good_left (r := src) hi rfl hc (by simp [Instr.consumes, eq_comm])
  have hstack : s.machine.stack = [] := List.eq_nil_of_length_eq_zero (hw.pushed.trans hn)
  obtain ⟨⟨h, consts, stack, stats⟩, callers, f⟩ := s
  obtain rfl : stack = [] := hstack
  refine (Frame.ensures_read _ src).bind fun v hv => ?_
  obtain rfl : v = f.get src := hv
  refine Running.ensures_returnWith (.refl _ _) ?_ hw.waiting hw.loaded
  simpa only [List.reverse_nil, refsOf_nil, zero_add] using hg

theorem carried_done (hi : (code p s)[s.cur.pc]? = some .done) : Carried crowded p B limit s ρ .done := by
  obtain ⟨hc, hn⟩ := (hw.safe hi).needs
  have hg := hw.good_taken hc
  rw [Frame.refs, hw.rests.regRefs_done hi hc] at hg
  have hstack : s.machine.stack = [] := List.eq_nil_of_length_eq_zero (hw.pushed.trans hn)
  obtain ⟨⟨h, consts, stack, stats⟩, callers, f⟩ := s
  obtain rfl : stack = [] := hstack
  refine Running.ensures_returnWith (v := .nil) (.refl _ _) ?_ hw.waiting hw.loaded
  simp only [List.reverse_nil, refsOf_nil, zero_add] at hg
  simpa only [refsOf_nilValue, zero_add, add_assoc] using hg

/-- **A tail call that takes place.** -/
theorem carried_replacement {func : Reg} {nargs : Nat} {unit : UnitId} {cells : List Bool}
    (hi : (code p s)[s.cur.pc]? = some (.tailCall func nargs)) (hc : ρ.Calm)
    (hcall : Callable p s.machine.heap (s.cur.get func) unit cells) :
    Ensures crowded (Running.replace p unit (s.cur.get func) s.machine.stack.reverse
      ⟨{ s.machine with stack := [] }, s.callers, { s.cur with pc := s.cur.pc + 1 }⟩)
      (Progress.Carries p B (s.cur.shells ρ) s.machine.heap) := by
  have hg := hw.good_left (r := func) hi rfl hc (by simp [Instr.consumes, eq_comm])
  obtain ⟨⟨h, consts, stack, stats⟩, callers, f⟩ := s
  set R := refsOf stack.reverse + refsOf [f.get func] + (framesRefs p callers.toList +
    refsOf consts.toList) + B with hR
  have hperm : refsOf stack.reverse + (refsOf [f.get func] + (refsOf f.args +
      (refsOf f.closure.toList + (framesRefs p callers.toList + refsOf consts.toList + B)))) =
      refsOf f.args + (refsOf f.closure.toList + R) := by
    rw [hR]
    abel
  have hg := hperm ▸ hg
  simp only [Running.replace, Machine.overHeap, bind_assoc, pure_bind]
  refine hg.unrefAll.bind fun h₁ hg₁ => hg₁.1.unrefAll.bind fun h₂ hg₂ => ?_
  have hresp : Respects R h h₂ :=
    (hg₁.2.toRespects.mono (Multiset.le_add_left _ _)).trans hg₂.2.toRespects
  have hparts : refsOf [f.get func] ≤ R ∧ framesRefs p callers.toList + refsOf consts.toList ≤ R ∧
      B ≤ R := by
    refine ⟨?_, ?_, Multiset.le_add_left _ _⟩
    · exact (Multiset.le_add_left _ _).trans ((Multiset.le_add_right _ _).trans
        (Multiset.le_add_right _ _))
    · exact (Multiset.le_add_left _ _).trans (Multiset.le_add_right _ _)
  refine Frame.ensures_frame.bind fun f' hn => .ok (Progress.carries_enter ?_ (hresp.mono hparts.2.2))
  refine hn.working hcall.ok (by simp) (fun e => ?_) hg₂.1 ?_ ?_
  · cases e
    exact hcall.respects hresp hparts.1
  · exact hw.waiting.respects hresp (by
      simpa using (Multiset.le_add_right _ _).trans hparts.2.1)
  · exact hw.loaded.respects hresp ((Multiset.le_add_left _ _).trans hparts.2.1)

/-- **A tail call that does not take place** leaves the frame with an error value. -/
theorem carried_abandon {func : Reg} {nargs : Nat} (reason : CallRefusal)
    (hi : (code p s)[s.cur.pc]? = some (.tailCall func nargs)) (hc : ρ.Calm) :
    Ensures crowded (do
      let m ← Machine.overHeap (·.unrefAll s.machine.stack.reverse) { s.machine with stack := [] }
      let m ← m.overHeap (·.unref (s.cur.get func))
      let (m, err) := m.allocate (.undefined reason.tag [])
      let m ← m.overHeap (·.inc err)
      Running.returnWith err ⟨m, s.callers, { s.cur with pc := s.cur.pc + 1 }⟩)
      (Progress.Carries p B (s.cur.shells ρ) s.machine.heap) := by
  have hg := hw.good_left (r := func) hi rfl hc (by simp [Instr.consumes, eq_comm])
  obtain ⟨⟨h, consts, stack, stats⟩, callers, f⟩ := s
  simp only [Machine.overHeap, bind_assoc, pure_bind]
  refine hg.unrefAll.bind fun h₁ hg₁ => hg₁.1.unref.bind fun h₂ hg₂ => ?_
  obtain ⟨hg₃, hp₃, hh₃⟩ := Good.allocated (o := .undefined reason.tag []) (κ := .obj .undefined)
    (by simpa [Object.refs, Object.owned, refsOf_nil] using hg₂.1) trivial (fun _ => trivial) rfl
  obtain ⟨h₄, e₄, hg₄, hr₄⟩ := hg₃.inc hh₃.live
  have hresp := ((hg₁.2.mono (Multiset.le_add_left _ _)).trans (hg₂.2.trans ((hp₃ _).trans
    (hr₄.preserves _)))).toRespects
  have hrest : framesRefs p callers.toList + refsOf consts.toList + B ≤
      refsOf f.args + (refsOf f.closure.toList + (framesRefs p callers.toList +
        refsOf consts.toList + B)) :=
    (Multiset.le_add_left _ _).trans (Multiset.le_add_left _ _)
  simp only [Machine.allocate, e₄]
  refine Running.ensures_returnWith (f := { f with pc := f.pc + 1 })
    (hresp.mono ((Multiset.le_add_left _ _).trans hrest)) hg₄ ?_ ?_
  · exact hw.waiting.respects hresp (by
      simpa using ((Multiset.le_add_right _ _).trans (Multiset.le_add_right _ _)).trans hrest)
  · exact hw.loaded.respects hresp (((Multiset.le_add_left _ _).trans
      (Multiset.le_add_right _ _)).trans hrest)

theorem carried_tailCall {func : Reg} {nargs : Nat}
    (hi : (code p s)[s.cur.pc]? = some (.tailCall func nargs)) :
    Carried crowded p B limit s ρ (.tailCall func nargs) := by
  obtain ⟨hc, hn⟩ := (hw.safe hi).needs
  show Ensures crowded (s.advance.tailCall p func nargs) _
  obtain ⟨⟨h, consts, stack, stats⟩, callers, f⟩ := s
  have hargs : Machine.takeArgs nargs ⟨h, consts, stack, stats⟩ = _ :=
    takeArgs_eq (hw.pushed.trans hn)
  simp only [Running.tailCall, Running.advance, hargs]
  refine hw.ensures_callee hi hc (by simp [Instr.inputs]) (fun unit cells hcall => ?_) fun reason _ => ?_
  · exact hw.carried_replacement hi hc hcall
  · exact hw.carried_abandon reason hi hc

/-! ## Yields -/

theorem carried_yield {src : Reg} (hi : (code p s)[s.cur.pc]? = some (.yield src)) :
    Carried crowded p B limit s ρ (.yield src) := by
  obtain ⟨hc, hn⟩ := (hw.safe hi).needs
  have hg := hw.good_taken hc
  have hpark := hw.rests.park hi rfl hc
  have hrefs := hw.rests.refs_park hi rfl
  obtain ⟨κ, -, hh, -⟩ := hw.input hi (r := src) (by simp [Instr.inputs])
  have hstack : s.machine.stack = [] := List.eq_nil_of_length_eq_zero (hw.pushed.trans hn)
  obtain ⟨⟨h, consts, stack, stats⟩, callers, f⟩ := s
  obtain rfl : stack = [] := hstack
  refine (Frame.ensures_read _ src).bind fun v hv => ?_
  obtain rfl : v = f.get src := hv
  obtain ⟨h₁, e₁, hg₁, hr₁⟩ := hg.inc hh.live
  show Ensures crowded (Running.suspend (f.get src) ⟨_, callers, { f with pc := f.pc + 1 }⟩) _
  simp only [Running.suspend, Machine.overHeap, e₁, bind_assoc, pure_bind]
  refine .ok ⟨⟨?_, hw.loaded.respects (hr₁.preserves _).toRespects le_rfl, rfl⟩, ?_,
    (hr₁.preserves _).toRespects⟩
  · simp only [Array.toList_push, framesRefs_append, framesRefs_cons, framesRefs_nil, add_zero, hrefs]
    convert hg₁ using 1
    simp only [List.reverse_nil, refsOf_nil, zero_add]
    abel
  · simp only [Array.toList_push, List.reverse_append, List.reverse_cons, List.reverse_nil,
      List.nil_append, List.singleton_append]
    exact .chain (hpark.respects (hr₁.preserves _).toRespects le_rfl) hn
      (hw.waiting.respects (hr₁.preserves _).toRespects le_rfl)

/-! ## Steps -/

/-- **A step keeps the machine in order**, or ends with an excused fault. -/
theorem carried (hcrowd : 0xffffffff < p.units.size → crowded) :
    Ensures crowded (s.step p limit) (Progress.Carries p B (s.cur.shells ρ) s.machine.heap) := by
  obtain ⟨i, hi, -⟩ := hw.rests.home.vetted.safe hw.rests.reached
  rw [Running.step, Running.fetch_eq.mpr hi]
  show Carried crowded p B limit s ρ i
  cases i with
  | nop => exact hw.carried_nop hi
  | done => exact hw.carried_done hi
  | const dst k => exact hw.carried_const hi
  | param dst idx => exact hw.carried_param hi
  | capture dst idx => exact hw.carried_capture hi
  | box dst src => exact hw.carried_box hi
  | unbox dst cell => exact hw.carried_unbox hi
  | assign cell src => exact hw.carried_assign hi
  | operate op dst l r checked => exact hw.carried_operate hi
  | test dst src => exact hw.carried_test hi
  | testType dst src ty => exact hw.carried_testType hi
  | flag dst b => exact hw.carried_flag hi
  | field dst src idx => exact hw.carried_field hi
  | make dst ty fields => exact hw.carried_make hi
  | guard src ty => exact hw.carried_guard hi
  | branch cond no => exact hw.carried_branch hi
  | jump target => exact hw.carried_jump hi
  | merge dst => exact hw.carried_merge hi
  | move dst src => exact hw.carried_move hi
  | push src => exact hw.carried_push hi
  | call dst func nargs checked => exact hw.carried_call hi hcrowd
  | tailCall func nargs => exact hw.carried_tailCall hi
  | ret src => exact hw.carried_ret hi
  | yield src => exact hw.carried_yield hi
  | trace src loc => exact hw.carried_trace hi
  | adjust op r => exact hw.carried_adjust hi
  | allocClosure dst => exact hw.carried_allocClosure hi
  | finishClosure dst unit caps => exact hw.carried_finishClosure hi
  | beginScope n => exact hw.carried_beginScope hi
  | endScope n => exact hw.carried_endScope hi

theorem step (hcrowd : 0xffffffff < p.units.size → crowded) :
    Ensures crowded (s.step p limit) (Progress.Holds p B s.machine.heap) :=
  (hw.carried hcrowd).mono fun _ hq => hq.holds

theorem holds_of_step {q : Progress} (e : s.step p limit = .ok q) : q.Holds p B s.machine.heap :=
  have hkeep : Ensures True (s.step p limit) (Progress.Holds p B s.machine.heap) := hw.step fun _ => trivial
  hkeep.result e

end Working

theorem Progress.Holds.trans {p : Program} [p.Origin] {B : Multiset ObjId} {h h₁ : Heap} {q : Progress}
    (hq : q.Holds p B h₁) (hr : Respects B h h₁) : q.Holds p B h := by
  match q, hq with
  | .more s, hq => exact ⟨hq.1, hr.trans hq.2⟩
  | .stop m (.returned v), hq => exact ⟨hq.1, hr.trans hq.2⟩
  | .stop m (.yielded v c), hq => exact ⟨hq.1, hq.2.1, hr.trans hq.2.2⟩

/-- **What running came to** is in order. -/
theorem Working.holds_of_run {p : Program} [p.Origin] {B : Multiset ObjId} {limit : Nat} {m : Machine} {o : Outcome} :
    ∀ {n : Nat} {s : Running} {w : World} {ρ : Env}, Working p B s w ρ →
      Running.run p limit n s = .ok (m, o) → (Progress.stop m o).Holds p B s.machine.heap
  | 0, s, w, ρ, _, e => by cases e
  | n + 1, s, w, ρ, hw, e => by
    cases hs : s.step p limit with
    | error f =>
      rw [Running.run, hs] at e
      cases e
    | ok q =>
      rw [Running.run, hs] at e
      have hq := hw.holds_of_step hs
      cases q with
      | stop m' o' =>
        cases e
        exact hq
      | more s' =>
        obtain ⟨⟨w', ρ', hw'⟩, hr⟩ := hq
        exact (hw'.holds_of_run e).trans hr

end CountedMachine
