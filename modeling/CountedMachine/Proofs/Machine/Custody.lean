import CountedMachine.Proofs.Heap.Estimates
import CountedMachine.Proofs.Machine.Sessions

/-! # What the host owns

The host owns one reference for each value that it was handed, until it gives it back, and the chains
that it has not resumed. As long as it gives back each value at most once, its machine is in order between
its actions (`Host.Ok`), and works in order when an action sets it to work (`Host.working_run`,
`Host.working_call`, `Host.working_resume`). A value that has been given back may still be named, and
passed to a call: if the call takes place, there is an object where the value points. -/

namespace CountedMachine

open Heap

namespace Host

/-- The references of the values that have not been given back. -/
noncomputable def valuesRefs (given : Finset Nat) (values : Array Value) : Multiset ObjId :=
  ∑ k ∈ Finset.range values.size \ given, refsOf values[k]?.toList

/-- The references of a chain, if it has not been resumed. -/
noncomputable def chainRefs (p : Program) (c : Option Suspension) : Multiset ObjId :=
  (c.map fun c => framesRefs p c.frames.toList).getD 0

/-- The references of the chains that have not been resumed. -/
noncomputable def suspensionsRefs (p : Program) (chains : Array (Option Suspension)) : Multiset ObjId :=
  ∑ k ∈ Finset.range chains.size, chainRefs p (chains[k]?.getD none)

/-- **The references of the host.** -/
noncomputable def refs (p : Program) (given : Finset Nat) (values : Array Value)
    (chains : Array (Option Suspension)) : Multiset ObjId :=
  valuesRefs given values + suspensionsRefs p chains

/-- **The host's machine is in order**, when the values with these numbers have been given back. -/
structure Ok (p : Program) [p.Origin] (given : Finset Nat) (H : Host) : Prop where
  idle : Idle p (refs p given H.values H.suspensions) H.machine
  asleep : ∀ {c}, some c ∈ H.suspensions → Asleep p H.machine.heap c.frames.toList.reverse
  given : ∀ k ∈ given, k < H.values.size

section
variable {p : Program} [p.Origin] {given : Finset Nat} {values : Array Value} {chains : Array (Option Suspension)}
  {v : Value} {c : Suspension} {k : Nat} {h h' : Heap} {m : Machine} {o : Outcome}

theorem valuesRefs_push (hg : ∀ k ∈ given, k < values.size) (v : Value) :
    valuesRefs given (values.push v) = refsOf [v] + valuesRefs given values := by
  have hnew : values.size ∉ given := fun h => lt_irrefl _ (hg _ h)
  have hrange : Finset.range (values.push v).size \ given =
      insert values.size (Finset.range values.size \ given) := by
    rw [Array.size_push, Finset.range_add_one, Finset.insert_sdiff_of_notMem _ hnew]
  rw [valuesRefs, hrange, Finset.sum_insert (by simp)]
  congr 1
  · simp
  · refine Finset.sum_congr rfl fun k hk => ?_
    have hlt : k < values.size := Finset.mem_range.mp (Finset.mem_sdiff.mp hk).1
    rw [Array.getElem?_push_lt hlt, Array.getElem?_eq_getElem hlt]

/-- A value is given back. -/
theorem valuesRefs_insert (hv : values[k]? = some v) (hk : k ∉ given) :
    valuesRefs given values = refsOf [v] + valuesRefs (insert k given) values := by
  have hmem : k ∈ Finset.range values.size \ given :=
    Finset.mem_sdiff.mpr ⟨Finset.mem_range.mpr (Array.getElem?_eq_some_iff.mp hv).1, hk⟩
  rw [valuesRefs, ← Finset.add_sum_erase _ _ hmem, hv, valuesRefs, Finset.sdiff_insert]
  rfl

theorem suspensionsRefs_push (p : Program) (chains : Array (Option Suspension)) (c : Option Suspension) :
    suspensionsRefs p (chains.push c) = chainRefs p c + suspensionsRefs p chains := by
  rw [suspensionsRefs, Array.size_push, Finset.sum_range_succ, add_comm]
  congr 1
  · simp
  · refine Finset.sum_congr rfl fun k hk => ?_
    have hlt := Finset.mem_range.mp hk
    rw [Array.getElem?_push_lt hlt, Array.getElem?_eq_getElem hlt]

omit [p.Origin] in
/-- A chain is taken out to be resumed. -/
theorem suspensionsRefs_take (hc : chains[k]? = some (some c)) : suspensionsRefs p chains =
    framesRefs p c.frames.toList + suspensionsRefs p (chains.setIfInBounds k none) := by
  have hlt := (Array.getElem?_eq_some_iff.mp hc).1
  have hmem : k ∈ Finset.range chains.size := Finset.mem_range.mpr hlt
  rw [suspensionsRefs, suspensionsRefs, Array.size_setIfInBounds, ← Finset.add_sum_erase _ _ hmem,
    ← Finset.add_sum_erase (Finset.range chains.size) _ hmem]
  have hrest : ∀ j ∈ (Finset.range chains.size).erase k,
      chainRefs p ((chains.setIfInBounds k none)[j]?.getD none) = chainRefs p (chains[j]?.getD none) := by
    intro j hj
    rw [Array.getElem?_setIfInBounds_ne (Finset.ne_of_mem_erase hj).symm]
  rw [Finset.sum_congr rfl hrest, hc, Array.getElem?_setIfInBounds_self_of_lt hlt]
  simp [chainRefs]

omit [p.Origin] in
theorem framesRefs_le_refs (hc : some c ∈ chains) :
    framesRefs p c.frames.toList ≤ suspensionsRefs p chains := by
  obtain ⟨k, hk⟩ := Array.getElem?_of_mem hc
  rw [suspensionsRefs_take hk]
  exact Multiset.le_add_right _ _

/-- Chains that have yielded are not disturbed. -/
theorem asleep_respects {E : Multiset ObjId}
    (ha : ∀ {c}, some c ∈ chains → Asleep p h c.frames.toList.reverse) (hr : Respects E h h')
    (hE : suspensionsRefs p chains ≤ E) {c : Suspension} (hc : some c ∈ chains) :
    Asleep p h' c.frames.toList.reverse :=
  (ha hc).respects hr (by simpa using (framesRefs_le_refs hc).trans hE)

/-- Take in what running came to. -/
def take (values : Array Value) (chains : Array (Option Suspension)) (m : Machine) : Outcome → Host
  | .returned v => ⟨m, values.push v, chains⟩
  | .yielded v s => ⟨m, values.push v, chains.push (some s)⟩

/-- **What running came to** is in order, the host holding on to what it holds. -/
theorem ok_take (hg : ∀ k ∈ given, k < values.size)
    (ha : ∀ {c}, some c ∈ chains → Asleep p h c.frames.toList.reverse)
    (hq : (Progress.stop m o).Holds p (refs p given values chains) h) :
    (take values chains m o).Ok p given := by
  have hgiven : ∀ v, ∀ k ∈ given, k < (values.push v).size := fun v k hk => by
    have := hg k hk
    rw [Array.size_push]
    omega
  cases o with
  | returned v =>
    refine ⟨?_, asleep_respects ha hq.2 (Multiset.le_add_left _ _), hgiven v⟩
    show Idle p (refs p given (values.push v) chains) m
    rw [refs, valuesRefs_push hg, add_assoc]
    exact hq.1
  | yielded v s =>
    obtain ⟨hidle, hs, hr⟩ := hq
    refine ⟨?_, fun {c} hc => ?_, hgiven v⟩
    · show Idle p (refs p given (values.push v) (chains.push (some s))) m
      rw [refs, valuesRefs_push hg, suspensionsRefs_push]
      convert hidle using 1
      simp only [refs, chainRefs, Option.map_some, Option.getD_some]
      abel
    · rcases Array.mem_push.mp hc with hc | hc
      · exact asleep_respects ha hr (Multiset.le_add_left _ _) hc
      · obtain rfl := Option.some.inj hc
        exact hs

/-- The machine has just been loaded. -/
theorem Ok.of_load (hok : (Session.fresh m).Ok p) : Ok p ∅ ⟨m, #[], #[]⟩ := by
  have hidle : Idle p (Session.hostRefs p (Session.fresh m)) m := hok.scene
  refine ⟨?_, by simp, by simp⟩
  simpa [refs, valuesRefs, suspensionsRefs, Session.hostRefs, Session.fresh, refsOf_nil] using hidle

/-! ## Actions of the host -/

variable {B : Multiset ObjId} {m₁ : Machine} {f : Value} {vs : List Value} {cur : Frame}

theorem passes_pass {a : HostValue} (hm : Idle p B m) (e : pass values m a = .ok (m₁, v)) :
    Session.Passes p B m m₁ := by
  have hpass : Assures True (pass #[] m a) fun q => Session.Passes p B m q.1 ∧ q.1.heap.Live q.2 :=
    Session.assures_pass hm (Multiset.zero_le _) a
  cases a with
  | held handle =>
    obtain ⟨w, -, e⟩ := bind_ok e
    cases e
    exact ⟨hm, fun hv => hv, fun E => .refl E _⟩
  | _ =>
    cases e
    exact hpass.1

theorem passes_passAll : ∀ {as : List HostValue} {m : Machine} {vs : List Value}, Idle p B m →
    passAll values m as = .ok (m₁, vs) → Session.Passes p B m m₁
  | [], m, vs, hm, e => by
    cases e
    exact ⟨hm, fun hv => hv, fun E => .refl E _⟩
  | a :: as, m, vs, hm, e => by
    obtain ⟨⟨m₂, v⟩, h₁, e⟩ := bind_ok e
    obtain ⟨⟨m₃, ws⟩, h₂, e⟩ := bind_ok e
    cases e
    have hp := passes_pass hm h₁
    exact hp.trans (passes_passAll hp.idle h₂)

/-- What is counted up is live. -/
theorem live_of_incAll : ∀ {vs : List Value} {h : Heap}, h.incAll vs = .ok h' → ∀ v ∈ vs, h.Live v
  | v :: vs, h, e, w, hw, x, hx => by
    obtain ⟨h₁, hinc, e⟩ := bind_ok e
    subst hx
    rcases List.mem_cons.mp hw with rfl | hw
    · exact live_of_incObj hinc
    · obtain ⟨c, hc⟩ := live_of_incAll e _ hw x rfl
      obtain ⟨c₀, hc₀, -⟩ := (keeps_inc hinc).symm.slot?_eq_some hc
      exact ⟨c₀, hc₀⟩

theorem working_run (hentry : UnitOk p.settings p p.entry []) (hm : Idle p B m)
    (hcur : p.frame p.entry [] none none = .ok cur) :
    ∃ w ρ, Working p B ⟨m.noteDepth 1, #[], cur⟩ w ρ := by
  have hn := Frame.new_of_frame hcur
  obtain ⟨h, consts, stack, stats⟩ := m
  obtain rfl : stack = [] := hm.stack
  refine Session.start_ok hn hentry (fun _ => rfl) nofun ?_ hm.loaded
  simp only [refsOf_nil, Option.toList_none, zero_add]
  exact hm.good

theorem working_call {unit : UnitId} (hm : Idle p B m)
    (hres : p.resolveCall m.heap f vs.length = .ok (.ok unit))
    (hinc : m.overHeap (·.incAll (f :: vs)) = .ok m₁) (hcur : p.frame unit vs (some f) none = .ok cur) :
    (∃ w ρ, Working p B ⟨m₁.noteCall.noteDepth 1, #[], cur⟩ w ρ) ∧ Respects B m.heap m₁.heap := by
  have hn := Frame.new_of_frame hcur
  obtain ⟨h, consts, stack, stats⟩ := m
  obtain rfl : stack = [] := hm.stack
  obtain ⟨h₁, hup, e⟩ := bind_ok hinc
  cases e
  have hup : h.incAll (f :: vs) = .ok h₁ := hup
  have hlive := live_of_incAll hup
  have hcallee : Ensures True (p.resolveCall h f vs.length) fun q => _ ∧
      ∀ unit, q = .ok unit → ∃ cells, Callable p h f unit cells :=
    hm.good.ensures_resolveCall (hlive f (by simp)) vs.length
  obtain ⟨cells, hcall⟩ := (hcallee.result hres).2 unit rfl
  obtain ⟨h₂, e₂, hg₂, hr₂⟩ := hm.good.incAll hlive
  obtain rfl := Except.ok.inj (hup.symm.trans e₂)
  refine ⟨Session.start_ok hn hcall.ok (by simp) (fun e => ?_) ?_
    (hm.loaded.respects (hr₂.preserves _).toRespects le_rfl), (hr₂.preserves _).toRespects⟩
  · cases e
    exact hcall.respects (hr₂.preserves _).toRespects le_rfl
  · rw [refsOf_cons, add_comm (refsOf [f])] at hg₂
    exact hg₂

/-- **A chain that is resumed** goes on behind its yield. -/
theorem working_resume (hH : Ok p given ⟨m, values, chains⟩) (hc : chains[k]? = some (some c))
    (hback : c.frames.back? = some cur) :
    (∃ w ρ, Working p (refs p given values (chains.setIfInBounds k none)) ⟨m, c.frames.pop, cur⟩ w ρ) ∧
      ∃ pc src, cur.pc = pc + 1 ∧ (p.codeOf cur.unit)[pc]? = some (.yield src) := by
  have hidle : Idle p (refs p given values chains) m := hH.idle
  have hsleep : Asleep p m.heap c.frames.toList.reverse := hH.asleep (Array.mem_of_getElem? hc)
  rw [refs, suspensionsRefs_take hc, add_left_comm] at hidle
  obtain ⟨fs, hfs⟩ := Array.back?_eq_some_iff.mp hback
  rw [hfs] at hidle hsleep
  obtain ⟨w, ρ, pc, src, -, hw, hpc, hi⟩ := Session.wakes_asleep hidle hsleep
  rw [hfs, Array.pop_push]
  exact ⟨⟨w, ρ, hw⟩, pc, src, hpc, hi⟩

/-- **A value is given back.** -/
theorem ok_release (hH : Ok p given ⟨m, values, chains⟩) (hv : values[k]? = some v) (hk : k ∉ given)
    (e : m.release v = .ok m₁) : Ok p (insert k given) ⟨m₁, values, chains⟩ := by
  have hidle : Idle p (refs p given values chains) m := hH.idle
  obtain ⟨h, consts, stack, stats⟩ := m
  obtain ⟨h₁, hunref, e⟩ := bind_ok e
  cases e
  have hg := hidle.good
  rw [refs, valuesRefs_insert hv hk, add_assoc, add_left_comm] at hg
  have hunreffed : Ensures True (h.unref v) _ := hg.unref
  have hg₁ := hunreffed.result hunref
  refine ⟨⟨hg₁.1, hidle.loaded.respects hg₁.2.toRespects (Multiset.le_add_right _ _), hidle.stack⟩,
    asleep_respects hH.asleep hg₁.2.toRespects ?_, fun j hj => ?_⟩
  · exact (Multiset.le_add_left _ _).trans (Multiset.le_add_left _ _)
  · rcases Finset.mem_insert.mp hj with rfl | hj
    · exact (Array.getElem?_eq_some_iff.mp hv).1
    · exact hH.given j hj

/-- The value that an action gives back. -/
def givenBack? : HostAction → Option Nat
  | .release handle => some handle
  | _ => none

omit [p.Origin] in
theorem take_of_receive {x : Machine × Outcome} {H : Host} {reply : HostReply}
    (e : receive p values chains x = .ok (H, reply)) : H = take values chains x.1 x.2 := by
  obtain ⟨m, o⟩ := x
  cases o with
  | returned v =>
    obtain ⟨view, -, e⟩ := bind_ok e
    cases e
    rfl
  | yielded v s =>
    obtain ⟨view, -, e⟩ := bind_ok e
    cases e
    rfl

theorem mem_of_held {handle : Nat} (e : held values handle = .ok v) : values[handle]? = some v := by
  unfold held at e
  split at e
  · next hv => rw [hv, Except.ok.inj e]
  · cases e

/-- **An action leaves the host's machine in order**, as long as no value is given back twice. -/
theorem ok_perform {limits : Limits} {a : HostAction} {H H' : Host} {reply : HostReply}
    (hentry : UnitOk p.settings p p.entry []) (hH : Ok p given H) (ha : ∀ k ∈ givenBack? a, k ∉ given)
    (e : H.perform p limits a = .ok (H', reply)) : Ok p ((givenBack? a).elim given (insert · given)) H' := by
  obtain ⟨m, values, chains⟩ := H
  cases a with
  | run =>
    obtain ⟨x, hx, e⟩ := bind_ok e
    obtain ⟨cur, hcur, hrun⟩ := bind_ok (faulting_ok hx)
    obtain ⟨w, ρ, hw⟩ := working_run hentry hH.idle hcur
    rw [take_of_receive e]
    exact ok_take hH.given hH.asleep (hw.holds_of_run hrun)
  | call f args =>
    obtain ⟨⟨m₁, f⟩, h₁, e⟩ := bind_ok e
    obtain ⟨⟨m₂, vs⟩, h₂, e⟩ := bind_ok e
    have hpass := passes_pass hH.idle h₁
    have hpass := hpass.trans (passes_passAll hpass.idle h₂)
    have hsleep : ∀ {c}, some c ∈ chains → Asleep p m₂.heap c.frames.toList.reverse := fun hc =>
      asleep_respects hH.asleep (hpass.preserves _).toRespects le_rfl hc
    obtain ⟨out, hcall, e⟩ := bind_ok e
    obtain ⟨target, htarget, hcall⟩ := bind_ok (faulting_ok hcall)
    cases target with
    | error reason =>
      obtain ⟨refusal, -, hcall⟩ := bind_ok hcall
      cases hcall
      cases e
      exact ⟨hpass.idle, hsleep, hH.given⟩
    | ok unit =>
      obtain ⟨m₃, h₃, hcall⟩ := bind_ok hcall
      obtain ⟨cur, hcur, hcall⟩ := bind_ok hcall
      obtain ⟨x, hrun, hcall⟩ := bind_ok hcall
      cases hcall
      obtain ⟨⟨w, ρ, hw⟩, hr⟩ := working_call hpass.idle htarget h₃ hcur
      rw [take_of_receive e]
      exact ok_take hH.given (asleep_respects hsleep hr (Multiset.le_add_left _ _)) (hw.holds_of_run hrun)
  | resume handle =>
    simp only [perform] at e
    split at e
    · next c hc =>
      obtain ⟨x, hx, e⟩ := bind_ok e
      have hx := faulting_ok hx
      unfold Machine.resume at hx
      split at hx
      · cases hx
      · next cur hback =>
        obtain ⟨⟨w, ρ, hw⟩, -⟩ := working_resume hH hc hback
        rw [take_of_receive e]
        refine ok_take hH.given (fun {d} hd => hH.asleep ?_) (hw.holds_of_run hx)
        exact (Array.mem_or_eq_of_mem_setIfInBounds hd).resolve_right (by simp)
    · cases e
  | release handle =>
    obtain ⟨v, hv, e⟩ := bind_ok e
    obtain ⟨m₁, h₁, e⟩ := bind_ok e
    cases e
    exact ok_release hH (mem_of_held hv) (ha handle rfl) (faulting_ok h₁)
  | inspect handle =>
    obtain ⟨v, -, e⟩ := bind_ok e
    obtain ⟨view, -, e⟩ := bind_ok e
    cases e
    exact hH

end

end Host

end CountedMachine
