import CountedMachine.Proofs.Machine.Custody
import CountedMachine.Proofs.Machine.Soundness
import CountedMachine.Proofs.Machine.IdleLoads.Steps
import CountedMachine.Proofs.Ownership.Forward

/-! # What the host is told with idle loads and without

A program and the tidied program answer a script alike, action by action, as long as no value is given
back twice (`Host.tallies_perform`, `Host.replies_tidiedTo`): the answers are the same and so are all
counts, unless one of the two ends with a fault. So whether idle loads are left out or not cannot be seen
from outside (`SourceModule.tidying_unobserved`).

A host that gives a value back twice can see it: what an idle load loads may then be an object that
nobody owns, and dropping it frees it (`Keeper.tidying_observed`). -/

namespace CountedMachine

open Heap

/-! ## Answers side by side -/

/-- **What holds of both answers unless one of them is a fault**: both are failures to name something, or
both are answers, and these are related. -/
inductive Tallies {α β : Type} (R : α → β → Prop) : Except HostFailure α → Except HostFailure β → Prop
  | left (f : Fault) (y : Except HostFailure β) : Tallies R (.error (.fault f)) y
  | right (x : Except HostFailure α) (f : Fault) : Tallies R x (.error (.fault f))
  | unknown : Tallies R (.error .unknownHandle) (.error .unknownHandle)
  | ok {a : α} {b : β} : R a b → Tallies R (.ok a) (.ok b)

namespace Tallies

variable {α β γ δ : Type} {R : α → β → Prop} {S : γ → δ → Prop}

theorem bind {x : Except HostFailure α} {y : Except HostFailure β} {f : α → Except HostFailure γ}
    {g : β → Except HostFailure δ} (hx : Tallies R x y) (hf : ∀ {a b}, R a b → Tallies S (f a) (g b)) :
    Tallies S (x >>= f) (y >>= g) := by
  cases hx with
  | left e y => exact .left e _
  | right x e => exact .right _ e
  | unknown => exact .unknown
  | ok h => exact hf h

/-- The first step is the same. -/
theorem bind_same {x y : Except HostFailure α} {f : α → Except HostFailure γ}
    {g : α → Except HostFailure δ} (hx : y = x) (hf : ∀ a, x = .ok a → Tallies S (f a) (g a)) :
    Tallies S (x >>= f) (y >>= g) := by
  subst hx
  cases y with
  | ok a => exact hf a rfl
  | error e =>
    cases e with
    | unknownHandle => exact .unknown
    | fault e => exact .left e _

/-- The results are those of the computations. -/
theorem knowing {x : Except HostFailure α} {y : Except HostFailure β} (hx : Tallies R x y) :
    Tallies (fun a b => R a b ∧ x = .ok a) x y := by
  cases hx with
  | left e y => exact .left e _
  | right x e => exact .right _ e
  | unknown => exact .unknown
  | ok h => exact .ok ⟨h, rfl⟩

theorem of_concur {x : Except Fault α} {y : Except Fault β} (h : Concur R x y) :
    Tallies R (Host.faulting x) (Host.faulting y) := by
  cases x with
  | error e => exact .left e _
  | ok a =>
    cases y with
    | error e => exact .right _ e
    | ok b => exact .ok (h a b rfl rfl)

theorem settles {x : Nat → Except HostFailure α} {y : Nat → Except HostFailure β}
    {out : Except HostFailure α} {out' : Except HostFailure β} (h : ∀ n n', Tallies R (x n) (y n'))
    (hx : Settles x out) (hy : Settles y out') : Tallies R out out' := by
  obtain ⟨n, hn⟩ := hx
  obtain ⟨n', hn'⟩ := hy
  rw [← hn n le_rfl, ← hn' n' le_rfl]
  exact h n n'

end Tallies

/-- Chains and chains without idle loads, some of which have been resumed. -/
structure ChainsTidiedTo (p : Program) (isNil : Nat → ConstId → Bool)
    (cs cs' : Array (Option Suspension)) : Prop where
  size : cs'.size = cs.size
  chain : ∀ {k : Nat} {c c' : Option Suspension}, cs[k]? = some c → cs'[k]? = some c' →
    Option.Rel (fun a b => FramesTidiedTo p isNil a.frames b.frames) c c'

/-- **A host and one of the tidied program.** -/
structure Host.TidiedTo (p : Program) [p.Origin] (isNil : Nat → ConstId → Bool) (given : Finset Nat) (H H' : Host) :
    Prop where
  ok : H.Ok p given
  machine : H.machine.TidiedTo [] H'.machine
  values : H'.values = H.values
  chains : ChainsTidiedTo p isNil H.suspensions H'.suspensions

/-- The answers are the same, and the second host is still one of the tidied program. -/
def Host.Told (p : Program) [p.Origin] (isNil : Nat → ConstId → Bool) (given : Finset Nat)
    (x x' : Host × HostReply) : Prop :=
  Host.TidiedTo p isNil given x.1 x'.1 ∧ x'.2 = x.2

section
variable {p : Program} {isNil : Nat → ConstId → Bool}

namespace ChainsTidiedTo

variable {cs cs' : Array (Option Suspension)}

theorem empty : ChainsTidiedTo p isNil #[] #[] := ⟨rfl, fun h => by simp at h⟩

theorem push (h : ChainsTidiedTo p isNil cs cs') {c c' : Suspension}
    (hc : FramesTidiedTo p isNil c.frames c'.frames) :
    ChainsTidiedTo p isNil (cs.push (some c)) (cs'.push (some c')) := by
  refine ⟨by simp [h.size], fun {k a a'} ha ha' => ?_⟩
  rw [Array.getElem?_push] at ha ha'
  rw [h.size] at ha'
  split_ifs at ha ha' with e
  · obtain rfl := Option.some.inj ha
    obtain rfl := Option.some.inj ha'
    exact .some hc
  · exact h.chain ha ha'

theorem take (h : ChainsTidiedTo p isNil cs cs') (k : Nat) :
    ChainsTidiedTo p isNil (cs.setIfInBounds k none) (cs'.setIfInBounds k none) := by
  refine ⟨by simp [h.size], fun {j a a'} ha ha' => ?_⟩
  rw [Array.getElem?_setIfInBounds] at ha ha'
  rw [h.size] at ha'
  split_ifs at ha ha' with e
  · obtain rfl := Option.some.inj ha
    obtain rfl := Option.some.inj ha'
    exact .none
  · exact h.chain ha ha'

end ChainsTidiedTo

namespace Machine.TidiedTo

variable {m m' : Machine} {due : List ObjId}

/-- **A value looks the same** in both machines. -/
theorem view (hm : m.TidiedTo due m') (v : Value) : m'.view (p.tidied isNil) v = m.view p v := by
  have hdisplay : m'.heap.display p.types v = m.heap.display p.types v := by
    rw [← m'.heap.display_blurred, hm.heap.same, m.heap.display_blurred]
  have hget : m'.heap.get = m.heap.get := by
    funext r
    rw [Heap.get, Heap.get, Heap.slot, Heap.slot, Heap.slot?, Heap.slot?, hm.slots]
  have hrc : m'.heap.rc = m.heap.rc := by
    funext r
    rw [Heap.rc, Heap.rc, Heap.slot, Heap.slot, Heap.slot?, Heap.slot?, hm.slots]
  have htag : m'.heap.errorTag? v = m.heap.errorTag? v := by
    cases v with
    | obj r => simp only [errorTag?, hget]
    | _ => rfl
  simp only [Machine.view, Machine.display, hrc, htag]
  rw [show m'.heap.display (p.tidied isNil).types v = _ from hdisplay]

theorem callError (hm : m.TidiedTo due m') (f : Value) (nargs : Nat) (reason : CallRefusal) :
    m'.callError (p.tidied isNil) f nargs reason = m.callError p f nargs reason := by
  have hclosure : m'.heap.closure? f = m.heap.closure? f := by
    cases f with
    | obj r => rw [closure?, closure?, Heap.get, Heap.get, Heap.slot, Heap.slot, Heap.slot?, Heap.slot?, hm.slots]
    | _ => rfl
  cases reason with
  | arity =>
    unfold Machine.callError
    rw [hclosure]
    rcases m.heap.closure? f with e | _ | c
    · rfl
    · rfl
    · simp only [bind, Except.bind, p.unit_tidied]
      cases p.unit c.unit <;> rfl
  | _ => rfl

end Machine.TidiedTo

namespace Running

variable {limit n n' : Nat} {s s' : Running} {B : Multiset ObjId}

/-- **Running in both programs.** -/
theorem TidiedRun.run [p.Origin] (hp : p.Tidyable isNil) (ha : TidiedRun p isNil B s s') :
    Concur (fun x x' => x.1.TidiedTo [] x'.1 ∧ x.2.TidiedTo p isNil x'.2 ∧
        (Progress.stop x.1 x.2).Holds p B s.machine.heap)
      (run p limit n s) (run (p.tidied isNil) limit n' s') := by
  rintro ⟨m, o⟩ ⟨m', o'⟩ e e'
  exact ha.ends hp (ends_of_run e nofun) (ends_of_run e' nofun)

/-- The machines start where no idle register is about to be dropped. -/
theorem TidiedRun.begins [p.Origin] (hp : p.Tidyable isNil) (hw : ∃ w ρ, Working p B s w ρ)
    (hb : s.TidiedTo p isNil [] s') (hstart : ∀ {pc : Nat} {i : Instr Nat}, s.cur.pc = pc + 1 →
      (p.codeOf s.cur.unit)[pc]? = some i → i.about? = none) : TidiedRun p isNil B s s' := by
  refine ⟨hw, ⟨[], hb, by simp⟩, fun hi hidle => ?_⟩
  obtain ⟨w, ρ, hw⟩ := hw
  obtain ⟨-, pc, i, hpc, hi', hload⟩ := landing hp hw hi hidle
  cases (hstart hpc hi').symm.trans (Instr.about?_of_idle? hload)

end Running

namespace Host

variable {given : Finset Nat} {values : Array Value} {chains chains' : Array (Option Suspension)}
  {m m' : Machine} {s s' : Running} {frames n n' : Nat} {H H' : Host} {a : HostAction} {h : Heap}

/-- **Taking in what running came to.** -/
theorem tallies_receive [p.Origin] {x x' : Machine × Outcome} (hm : x.1.TidiedTo [] x'.1)
    (ho : x.2.TidiedTo p isNil x'.2) (hok : (take values chains x.1 x.2).Ok p given)
    (hc : ChainsTidiedTo p isNil chains chains') :
    Tallies (Told p isNil given) (receive p values chains x)
      (receive (p.tidied isNil) values chains' x') := by
  obtain ⟨m, o⟩ := x
  obtain ⟨m', o'⟩ := x'
  cases ho with
  | returned v =>
    exact Tallies.bind_same (congrArg faulting (hm.view v)) fun view _ => .ok ⟨⟨hok, hm, rfl, hc⟩, rfl⟩
  | @yielded v c c' hframes =>
    refine Tallies.bind_same (congrArg faulting (hm.view v)) fun view _ =>
      .ok ⟨⟨hok, hm, rfl, hc.push hframes⟩, ?_⟩
    exact congrArg (HostReply.yielded view) hframes.size

/-- **A chain is run alike** with idle loads and without. -/
theorem tallies_run [p.Origin] (hp : p.Tidyable isNil) (ha : s.TidiedRun p isNil (refs p given values chains) s')
    (hg : ∀ k ∈ given, k < values.size)
    (hs : ∀ {c}, some c ∈ chains → Asleep p s.machine.heap c.frames.toList.reverse)
    (hc : ChainsTidiedTo p isNil chains chains') :
    Tallies (Told p isNil given) (faulting (Running.run p frames n s) >>= receive p values chains)
      (faulting (Running.run (p.tidied isNil) frames n' s') >>=
        receive (p.tidied isNil) values chains') :=
  (Tallies.of_concur (ha.run hp)).bind fun hx =>
    tallies_receive hx.1 hx.2.1 (ok_take hg hs hx.2.2) hc

theorem tallies_pass (hm : m.TidiedTo [] m') (a : HostValue) :
    Tallies (fun x x' => x.1.TidiedTo [] x'.1 ∧ x'.2 = x.2) (pass values m a) (pass values m' a) := by
  cases a with
  | fresh text => exact .ok (hm.allocate rfl)
  | held handle => exact Tallies.bind_same rfl fun v _ => .ok ⟨hm, rfl⟩
  | _ => exact .ok ⟨hm, rfl⟩

theorem tallies_passAll : ∀ (as : List HostValue) {m m' : Machine}, m.TidiedTo [] m' →
    Tallies (fun x x' => x.1.TidiedTo [] x'.1 ∧ x'.2 = x.2) (passAll values m as) (passAll values m' as)
  | [], _, _, hm => .ok ⟨hm, rfl⟩
  | a :: as, _, _, hm => by
    refine (tallies_pass hm a).bind fun {x x'} hx => ?_
    refine (tallies_passAll as hx.1).bind fun {y y'} hy => .ok ⟨hy.1, ?_⟩
    rw [hx.2, hy.2]

/-- **A function is called alike** with idle loads and without. -/
theorem tallies_call [p.Origin] (hp : p.Tidyable isNil)
    (hH : TidiedTo p isNil given ⟨m, values, chains⟩ ⟨m', values, chains'⟩) (f : Value) (args : List Value) :
    Tallies (Told p isNil given)
      (faulting (m.call p ⟨frames, n⟩ f args) >>= fun out =>
        match out with
        | .ok out => receive p values chains out
        | .error e => return (⟨m, values, chains⟩, .refused e))
      (faulting (m'.call (p.tidied isNil) ⟨frames, n'⟩ f args) >>= fun out =>
        match out with
        | .ok out => receive (p.tidied isNil) values chains' out
        | .error e => return (⟨m', values, chains'⟩, .refused e)) := by
  have hm : m.TidiedTo [] m' := hH.machine
  simp only [Machine.call, faulting_bind, bind_assoc]
  refine Tallies.bind_same (congrArg faulting (Program.resolveCall_tidied hm.slots f args.length))
    fun target htarget => ?_
  cases target with
  | error reason =>
    simp only [faulting_bind, bind_assoc]
    refine Tallies.bind_same (congrArg faulting (hm.callError f _ reason)) fun e _ => ?_
    exact .ok ⟨hH, rfl⟩
  | ok unit =>
    simp only [faulting_bind, bind_assoc]
    refine (Tallies.of_concur (hm.incAll (f :: args)).knowing).bind fun {m₁ m₁'} h₁ => ?_
    refine (Tallies.of_concur (Program.frame_tidiedTo unit args (some f) none).knowing).bind
      fun {cur cur'} hcur => ?_
    obtain ⟨hw, hr⟩ := working_call hH.ok.idle (faulting_ok htarget) h₁.2 hcur.2
    have hpc : cur.pc = 0 := (Frame.new_of_frame hcur.2).pc
    refine tallies_run hp (.begins hp hw ⟨h₁.1.noteCall.noteDepth 1, .empty, hcur.1⟩ fun e _ => ?_) hH.ok.given
      (asleep_respects hH.ok.asleep hr (Multiset.le_add_left _ _)) hH.chains
    cases hpc.symm.trans e

/-- **A chain is resumed alike** with idle loads and without. -/
theorem tallies_resume [p.Origin] (hp : p.Tidyable isNil)
    (hH : TidiedTo p isNil given ⟨m, values, chains⟩ ⟨m', values, chains'⟩) (handle : Nat) :
    Tallies (Told p isNil given) (perform p ⟨frames, n⟩ ⟨m, values, chains⟩ (.resume handle))
      (perform (p.tidied isNil) ⟨frames, n'⟩ ⟨m', values, chains'⟩ (.resume handle)) := by
  have hc : ChainsTidiedTo p isNil chains chains' := hH.chains
  simp only [perform]
  cases hk : chains[handle]? with
  | none =>
    rw [Array.getElem?_eq_none (hc.size ▸ Array.getElem?_eq_none_iff.mp hk)]
    exact .unknown
  | some c =>
    have hlt : handle < chains'.size := hc.size ▸ (Array.getElem?_eq_some_iff.mp hk).1
    have hk' := Array.getElem?_eq_getElem hlt
    rw [hk']
    have hrel := hc.chain hk hk'
    generalize chains'[handle] = c' at hrel
    cases hrel with
    | none => exact .unknown
    | @some c c' hframes =>
      simp only [Machine.resume]
      cases hback : c.frames.back? with
      | none => exact .left _ _
      | some cur =>
        obtain ⟨cur', hback', hcur⟩ := hframes.back_some hback
        rw [hback']
        obtain ⟨hw, pc, src, hpc, hi⟩ := working_resume hH.ok hk hback
        refine tallies_run hp (.begins hp hw ⟨hH.machine, hframes.pop, hcur⟩ fun {pc' i} hpc' hi' => ?_)
          hH.ok.given (fun {d} hd => hH.ok.asleep ?_) (hc.take handle)
        · obtain rfl : pc = pc' := Nat.succ.inj (hpc.symm.trans hpc')
          cases hi.symm.trans hi'
          rfl
        · exact (Array.mem_or_eq_of_mem_setIfInBounds hd).resolve_right (by simp)

/-- **An action is answered alike** with idle loads and without, as long as no value is given back
twice. -/
theorem tallies_perform [p.Origin] (hp : p.Tidyable isNil) (hentry : UnitOk p.settings p p.entry [])
    (hH : TidiedTo p isNil given H H') (ha : ∀ k ∈ givenBack? a, k ∉ given) :
    Tallies (Told p isNil ((givenBack? a).elim given (insert · given)))
      (H.perform p ⟨frames, n⟩ a) (H'.perform (p.tidied isNil) ⟨frames, n'⟩ a) := by
  obtain ⟨m, values, chains⟩ := H
  obtain ⟨m', values', chains'⟩ := H'
  obtain rfl : values' = values := hH.values
  have hm : m.TidiedTo [] m' := hH.machine
  have hc : ChainsTidiedTo p isNil chains chains' := hH.chains
  cases a with
  | run =>
    simp only [perform, Machine.run, faulting_bind, bind_assoc]
    refine (Tallies.of_concur (Program.frame_tidiedTo p.entry [] none none).knowing).bind fun {cur cur'} hcur => ?_
    have hw := working_run hentry hH.ok.idle hcur.2
    have hpc : cur.pc = 0 := (Frame.new_of_frame hcur.2).pc
    refine tallies_run hp (.begins hp hw ⟨hm.noteDepth 1, .empty, hcur.1⟩ fun e _ => ?_) hH.ok.given
      hH.ok.asleep hc
    cases hpc.symm.trans e
  | call f args =>
    refine (tallies_pass hm f).knowing.bind fun {x x'} hx => ?_
    obtain ⟨m₁, f⟩ := x
    obtain ⟨m₁', f'⟩ := x'
    obtain ⟨⟨hm₁, rfl⟩, hpass⟩ : (m₁.TidiedTo [] m₁' ∧ f' = f) ∧ _ := hx
    refine (tallies_passAll args hm₁).knowing.bind fun {y y'} hy => ?_
    obtain ⟨m₂, vs⟩ := y
    obtain ⟨m₂', vs'⟩ := y'
    obtain ⟨⟨hm₂, rfl⟩, hpassAll⟩ : (m₂.TidiedTo [] m₂' ∧ vs' = vs) ∧ _ := hy
    have hpasses := passes_pass hH.ok.idle hpass
    have hpasses := hpasses.trans (passes_passAll hpasses.idle hpassAll)
    have hH₂ : TidiedTo p isNil given ⟨m₂, values', chains⟩ ⟨m₂', values', chains'⟩ :=
      ⟨⟨hpasses.idle, asleep_respects hH.ok.asleep (hpasses.preserves _).toRespects le_rfl, hH.ok.given⟩, hm₂, rfl, hc⟩
    exact tallies_call hp hH₂ f' vs'
  | resume handle => exact tallies_resume hp hH handle
  | release handle =>
    refine Tallies.bind_same rfl fun v hv => ?_
    refine (Tallies.of_concur (hm.unref v).knowing).bind fun {m₁ m₁'} h₁ => ?_
    exact .ok ⟨⟨ok_release hH.ok (mem_of_held hv) (ha handle rfl) h₁.2, h₁.1, rfl, hc⟩, rfl⟩
  | inspect handle =>
    refine Tallies.bind_same rfl fun v _ => ?_
    exact Tallies.bind_same (congrArg faulting (hm.view v)) fun view _ => .ok ⟨hH, rfl⟩

/-! ## Scripts -/

/-- The answers are the same, and so are the counts of calls and of the heap. -/
structure Indistinct (x x' : Host × HostReply) : Prop where
  reply : x'.2 = x.2
  calls : x'.1.machine.stats = x.1.machine.stats
  counts : x'.1.machine.heap.stats = x.1.machine.heap.stats

/-- **A script is answered alike** with idle loads and without, when it gives back no value twice and
neither of the two ends with a fault. -/
theorem replies_tidiedTo [p.Origin] (hp : p.Tidyable isNil) (hentry : UnitOk p.settings p p.entry []) :
    ∀ {script : List HostAction} {given : Finset Nat} {H H' : Host} {log log' : List (Host × HostReply)}
      {e e' : Option HostFailure}, TidiedTo p isNil given H H' → (script.filterMap givenBack?).Nodup →
      (∀ k ∈ script.filterMap givenBack?, k ∉ given) → Replies p frames H script log e →
      Replies (p.tidied isNil) frames H' script log' e' → (∀ f, e ≠ some (.fault f)) →
      (∀ f, e' ≠ some (.fault f)) → List.Forall₂ Indistinct log log' ∧ e' = e
  | [], _, _, _, _, _, _, _, _, _, _, .done _, .done _, _, _ => ⟨.nil, rfl⟩
  | a :: script, given, H, H', log, log', e, e', hH, hnd, hgiven, hr, hr', he, he' => by
    have hfree : ∀ k ∈ givenBack? a, k ∉ given := fun k hk =>
      hgiven k (List.mem_filterMap.mpr ⟨a, by simp, hk⟩)
    have hrest : ∀ k ∈ script.filterMap givenBack?, k ∉ (givenBack? a).elim given (insert · given) := by
      intro k hk
      have hold : k ∉ given := hgiven k (by
        rw [List.filterMap_cons]
        split <;> simp [hk])
      cases hb : givenBack? a with
      | none => exact hold
      | some j =>
        rw [List.filterMap_cons_some hb] at hnd
        have hne : k ≠ j := fun e => (List.nodup_cons.mp hnd).1 (e ▸ hk)
        simp [hne, hold]
    have hone : ∀ {out out'}, Settles (fun n => H.perform p ⟨frames, n⟩ a) out →
        Settles (fun n => H'.perform (p.tidied isNil) ⟨frames, n⟩ a) out' →
        Tallies (Told p isNil ((givenBack? a).elim given (insert · given))) out out' :=
      .settles fun _ _ => tallies_perform hp hentry hH hfree
    cases hr with
    | fail hs =>
      cases hr' with
      | fail hs' =>
        cases hone hs hs' with
        | left f => exact absurd rfl (he f)
        | right _ f => exact absurd rfl (he' f)
        | unknown => exact ⟨.nil, rfl⟩
      | next hs' _ =>
        cases hone hs hs' with
        | left f => exact absurd rfl (he f)
    | next hs hr =>
      cases hr' with
      | fail hs' =>
        cases hone hs hs' with
        | right _ f => exact absurd rfl (he' f)
      | next hs' hr' =>
        cases hone hs hs' with
        | ok htold =>
          have hnd' := hnd.sublist ((List.sublist_cons_self a script).filterMap givenBack?)
          obtain ⟨hlog, hend⟩ := replies_tidiedTo hp hentry htold.1 hnd' hrest hr hr' he he'
          exact ⟨.cons ⟨htold.2, htold.1.machine.stats, htold.1.machine.heap.stats⟩ hlog, hend⟩

end Host

end

/-! ## Compiled modules -/

theorem Machine.steady_load {p : Program} {m : Machine} (e : Machine.load p = .ok m) :
    Heap.Steady m.heap [] := by
  obtain ⟨⟨h, consts⟩, hfold, e⟩ := bind_ok e
  cases e
  rw [← Array.foldlM_toList] at hfold
  refine foldlM_ok (P := fun x => Heap.Steady x.1 []) (fun c _ x y hx hstep => ?_) ?_ hfold
  · obtain ⟨h, consts⟩ := x
    have hconst : Heap.Steady (loadConst h c).1 [] := by
      cases c with
      | str s => exact hx.allocate rfl
      | closure u => exact hx.allocate rfl
      | _ => exact hx
    obtain ⟨h₁, hinc, hstep⟩ := bind_ok hstep
    cases hstep
    exact hconst.inc (by simp) hinc
  · exact ⟨sound_empty.grouped, sound_empty.arena, fun hg => by simp [Heap.empty, Heap.scopeAt] at hg⟩

/-- **Idle loads make no difference to the host.** A module is refused for the same reason with and
without them, or it is compiled into two programs, which are loaded into the same machine and answer every
script until an action fails. If the script gives back no value twice and none of the failures is a fault,
all answers are the same, and so are the counts of calls, allocations, frees, live objects and scopes
after each of them. -/
theorem SourceModule.tidying_unobserved (m : SourceModule) (settings : Settings) :
    (∃ e, m.compile { settings with tidy := false } = .error (.refused e) ∧
        m.compile { settings with tidy := true } = .error (.refused e)) ∨
      ∃ p p' machine, m.compile { settings with tidy := false } = .ok p ∧
        m.compile { settings with tidy := true } = .ok p' ∧
        Machine.load p = .ok machine ∧ Machine.load p' = .ok machine ∧
        ∀ frames script, ∃ log e log' e', Host.Replies p frames ⟨machine, #[], #[]⟩ script log e ∧
          Host.Replies p' frames ⟨machine, #[], #[]⟩ script log' e' ∧
          ((script.filterMap Host.givenBack?).Nodup → (∀ f, e ≠ some (.fault f)) →
            (∀ f, e' ≠ some (.fault f)) → List.Forall₂ Host.Indistinct log log' ∧ e' = e) := by
  refine m.compile_tidied settings |>.imp id ?_
  rintro ⟨p, isNil, hp, hp', hnil, hdrops⟩
  let : p.Origin := ⟨{ settings with tidy := false }⟩
  obtain ⟨hentry, hplain⟩ := compile_sound hp
  obtain ⟨machine, hload, hok⟩ := Session.ok_load hplain
  have htidy := compile_tidyable hp hnil hdrops
  refine ⟨p, p.tidied isNil, machine, hp, hp', hload, hload, fun frames script => ?_⟩
  obtain ⟨log, e, hr⟩ := Host.exists_replies p frames script ⟨machine, #[], #[]⟩
  obtain ⟨log', e', hr'⟩ := Host.exists_replies (p.tidied isNil) frames script ⟨machine, #[], #[]⟩
  refine ⟨log, e, log', e', hr, hr', fun hnd he he' => ?_⟩
  have htidied : Host.TidiedTo p isNil ∅ ⟨machine, #[], #[]⟩ ⟨machine, #[], #[]⟩ :=
    ⟨.of_load hok, ⟨.refl (Machine.steady_load hload), rfl, rfl, rfl⟩, rfl, .empty⟩
  exact Host.replies_tidiedTo htidy hentry htidied hnd (by simp) hr hr' he he'

/-! ## A value given back twice -/

namespace Keeper

open Gen

/-- A function that captures a value and never looks at it. -/
def keeper : Lambda Expr := ⟨0, [0], .lit .nil, some "keeper"⟩

/-- The variable is handed to the host, then a function that has captured it. -/
def handing : Expr := .block [.yield (.var 0 false), .fn keeper] false

/-- The variable is an error value. -/
def source : SourceModule := ⟨[], .letIn [⟨.lit (.undefined "e"), false⟩] (some handing)⟩

def settings : Settings := { tidy := false, verify := false }

def context : Context := ⟨settings, #[]⟩

def pool : Array Constant := #[.undefined "e", .nil]

def keeperCode : List (Instr Nat) :=
  [.nop, .capture ⟨0⟩ 0, .adjust .drop ⟨0⟩, .const ⟨1⟩ ⟨1⟩, .ret ⟨1⟩, .done]

def mainCode : List (Instr Nat) :=
  [.nop, .const ⟨0⟩ ⟨0⟩, .adjust .inc ⟨0⟩, .yield ⟨0⟩, .const ⟨1⟩ ⟨1⟩, .allocClosure ⟨2⟩,
    .finishClosure ⟨2⟩ ⟨1⟩ [⟨0⟩], .adjust .unref ⟨0⟩, .ret ⟨2⟩, .done]

/-- The program with the given code of its two units. -/
def program (main keeper : List (Instr Nat)) : Program :=
  ⟨#[⟨"main", 0, 0, 3, main.toArray⟩, ⟨"keeper", 0, 1, 2, keeper.toArray⟩], pool, #[], ⟨0⟩⟩

/-! ### The listings and their ownership instructions -/

def keeperListing : Listing where
  nodes := #[some ⟨.nop, none, some ⟨2⟩⟩, some ⟨.done, some ⟨4⟩, none⟩,
    some ⟨.capture ⟨0⟩ 0, some ⟨0⟩, some ⟨3⟩⟩, some ⟨.const ⟨1⟩ ⟨1⟩, some ⟨2⟩, some ⟨4⟩⟩,
    some ⟨.ret ⟨1⟩, some ⟨3⟩, some ⟨1⟩⟩]
  free := []
  cursor := ⟨1⟩
  regs := #[⟨.captured, none⟩, ⟨.temp, some .nil⟩]

def mainListing : Listing where
  nodes := #[some ⟨.nop, none, some ⟨2⟩⟩, some ⟨.done, some ⟨7⟩, none⟩,
    some ⟨.const ⟨0⟩ ⟨0⟩, some ⟨0⟩, some ⟨3⟩⟩, some ⟨.yield ⟨0⟩, some ⟨2⟩, some ⟨4⟩⟩,
    some ⟨.const ⟨1⟩ ⟨1⟩, some ⟨3⟩, some ⟨5⟩⟩, some ⟨.allocClosure ⟨2⟩, some ⟨4⟩, some ⟨6⟩⟩,
    some ⟨.finishClosure ⟨2⟩ ⟨1⟩ [⟨0⟩], some ⟨5⟩, some ⟨7⟩⟩, some ⟨.ret ⟨2⟩, some ⟨6⟩, some ⟨1⟩⟩]
  free := []
  cursor := ⟨1⟩
  regs := #[⟨.temp, some (.obj .undefined)⟩, ⟨.temp, some .nil⟩, ⟨.merged, some .fn⟩]

theorem finish_keeper :
    finishListing settings pool "keeper" keeperListing = .ok (keeperCode.toArray, 2) := by
  have hfull : Listing.Full keeperListing keeperListing.entries := by decide
  rw [finishListing, Listing.placeOwnership_forward hfull.linked (by decide)]
  decide +kernel

theorem finish_main : finishListing settings pool "main" mainListing = .ok (mainCode.toArray, 3) := by
  have hfull : Listing.Full mainListing mainListing.entries := by decide
  rw [finishListing, Listing.placeOwnership_forward hfull.linked (by decide)]
  decide +kernel

/-! ### The module is compiled -/

variable {k : Nat}

/-- The state in which the variable has been bound. -/
def bound : GenState where
  units := #[⟨"main", 0, 0, 0, #[]⟩]
  pool := #[.undefined "e"]
  draft := {
    listing := ⟨#[some ⟨.nop, none, some ⟨2⟩⟩, some ⟨.done, some ⟨2⟩, none⟩,
      some ⟨.const ⟨0⟩ ⟨0⟩, some ⟨0⟩, some ⟨1⟩⟩], [], ⟨1⟩, #[⟨.temp, some (.obj .undefined)⟩]⟩
    stack := [⟨⟨0⟩, false⟩] }

/-- The state in which the variable has been handed to the host. -/
def handed : GenState where
  units := #[⟨"main", 0, 0, 0, #[]⟩]
  pool := pool
  draft := {
    listing := ⟨#[some ⟨.nop, none, some ⟨2⟩⟩, some ⟨.done, some ⟨4⟩, none⟩,
      some ⟨.const ⟨0⟩ ⟨0⟩, some ⟨0⟩, some ⟨3⟩⟩, some ⟨.yield ⟨0⟩, some ⟨2⟩, some ⟨4⟩⟩,
      some ⟨.const ⟨1⟩ ⟨1⟩, some ⟨3⟩, some ⟨1⟩⟩], [], ⟨1⟩,
      #[⟨.temp, some (.obj .undefined)⟩, ⟨.temp, some .nil⟩]⟩
    stack := [⟨⟨0⟩, false⟩] }

/-- The state in which the closure has been allocated. -/
def allocated : GenState where
  units := #[⟨"main", 0, 0, 0, #[]⟩]
  pool := pool
  draft := {
    listing := ⟨#[some ⟨.nop, none, some ⟨2⟩⟩, some ⟨.done, some ⟨5⟩, none⟩,
      some ⟨.const ⟨0⟩ ⟨0⟩, some ⟨0⟩, some ⟨3⟩⟩, some ⟨.yield ⟨0⟩, some ⟨2⟩, some ⟨4⟩⟩,
      some ⟨.const ⟨1⟩ ⟨1⟩, some ⟨3⟩, some ⟨5⟩⟩, some ⟨.allocClosure ⟨2⟩, some ⟨4⟩, some ⟨1⟩⟩], [], ⟨1⟩,
      mainListing.regs⟩
    stack := [⟨⟨0⟩, false⟩] }

def keeperUnits : Array CodeUnit :=
  #[⟨"main", 0, 0, 0, #[]⟩, ⟨"keeper", 0, 1, 2, keeperCode.toArray⟩]

/-- The state in which the closure has got its code. -/
def finished : GenState where
  units := keeperUnits
  pool := pool
  draft := {
    listing := ⟨#[some ⟨.nop, none, some ⟨2⟩⟩, some ⟨.done, some ⟨6⟩, none⟩,
      some ⟨.const ⟨0⟩ ⟨0⟩, some ⟨0⟩, some ⟨3⟩⟩, some ⟨.yield ⟨0⟩, some ⟨2⟩, some ⟨4⟩⟩,
      some ⟨.const ⟨1⟩ ⟨1⟩, some ⟨3⟩, some ⟨5⟩⟩, some ⟨.allocClosure ⟨2⟩, some ⟨4⟩, some ⟨6⟩⟩,
      some ⟨.finishClosure ⟨2⟩ ⟨1⟩ [⟨0⟩], some ⟨5⟩, some ⟨1⟩⟩], [], ⟨1⟩, mainListing.regs⟩
    stack := [⟨⟨0⟩, false⟩] }

theorem buildKeeper_run : (buildUnit context (.of (genExpr context (k + 1))) "keeper" 0 [false]
    (.lit .nil)).run allocated = .ok (⟨1⟩, { allocated with units := keeperUnits }) := by
  have hdraft : (drafting (.of (genExpr context (k + 1))) 0 [false] (.lit .nil)).run
      (starting allocated "keeper" 0 [false]) = .ok ((), { starting allocated "keeper" 0 [false] with
        draft := { listing := keeperListing, stack := [⟨⟨0⟩, false⟩] } }) := by
    cbv
  exact buildUnit_of_finish hdraft finish_keeper

theorem buildClosure_run : (buildClosure context (.of (genExpr context (k + 1))) keeper).run allocated =
    .ok ((⟨1⟩, [⟨0⟩]), { allocated with units := keeperUnits }) := by
  have hcaps : (keeper.captures.mapM variableAt).run allocated = .ok ([⟨⟨0⟩, false⟩], allocated) := by
    cbv
  have hname : (unitName keeper).run allocated = .ok ("keeper", allocated) := rfl
  rw [buildClosure, run_bind_of_eq hcaps, run_bind_of_eq hname]
  exact run_bind_of_eq buildKeeper_run

theorem genKeeper_run :
    (genExpr context (k + 2) (.fn keeper) true).run handed = .ok (some ⟨2⟩, finished) := by
  have hmake : (freshReg .merged (some .fn) >>= fun dst => write (.allocClosure dst) >>= fun _ =>
      pure dst).run handed = .ok (⟨2⟩, allocated) := by
    cbv
  have hparts : genFn context (.of (genExpr context (k + 1))) keeper =
      (freshReg .merged (some .fn) >>= fun dst => write (.allocClosure dst) >>= fun _ => pure dst) >>=
        fun dst => buildClosure context (.of (genExpr context (k + 1))) keeper >>= fun x =>
          write (.finishClosure dst x.1 x.2) >>= fun _ => pure dst := by
    simp only [bind_assoc, pure_bind]
    rfl
  change (some <$> genFn context (.of (genExpr context (k + 1))) keeper).run handed = _
  rw [hparts, StateT.run_map, run_bind_of_eq hmake, run_bind_of_eq buildClosure_run]
  cbv

theorem genHanding_run :
    (genExpr context (k + 3) handing true).run bound = .ok (some ⟨2⟩, finished) := by
  have hyield : ((Sub.of (genExpr context (k + 2))).value (.yield (.var 0 false))).run bound =
      .ok (⟨1⟩, handed) := by
    cbv
  have hboth : (genSequence (.of (genExpr context (k + 2))) true [.yield (.var 0 false), .fn keeper]).run
      bound = .ok (some ⟨2⟩, finished) :=
    (run_bind_of_eq hyield).trans genKeeper_run
  change (height >>= fun n => genSequence (.of (genExpr context (k + 2))) true
    [.yield (.var 0 false), .fn keeper] >>= fun out => forgetAbove n >>= fun _ => pure out).run bound = _
  rw [run_bind_of_eq (show height.run bound = .ok (1, bound) from rfl), run_bind_of_eq hboth]
  rfl

theorem drafting_run : (drafting (.of (genExpr context (k + 4))) 0 [] source.body).run
    (starting {} "main" 0 []) = .ok ((), { finished with draft := { listing := mainListing } }) := by
  have hbinds : (genBinds (.of (genExpr context (k + 3))) [⟨.lit (.undefined "e"), false⟩]).run
      (starting {} "main" 0 []) = .ok ((), bound) := by
    cbv
  have hheight : height.run (starting {} "main" 0 []) = .ok (0, starting {} "main" 0 []) := rfl
  have hbody : (genExpr context (k + 4) source.body true).run (starting {} "main" 0 []) =
      .ok (some ⟨2⟩, { finished with draft := { finished.draft with stack := [] } }) := by
    change (height >>= fun n => genBinds (.of (genExpr context (k + 3)))
      [⟨.lit (.undefined "e"), false⟩] >>= fun _ => genExpr context (k + 3) handing true >>= fun out =>
        forgetAbove n >>= fun _ => pure out).run _ = _
    rw [run_bind_of_eq hheight, run_bind_of_eq hbinds, run_bind_of_eq genHanding_run]
    rfl
  change ((Sub.of (genExpr context (k + 4))).tail source.body).run _ = _
  unfold Sub.of
  dsimp only
  rw [run_bind_of_eq hbody]
  cbv

theorem compile_source : source.compile settings = .ok (program mainCode keeperCode) := by
  rw [source.compile_of_finish settings 4 (by decide) (fun _ => drafting_run) finish_main]
  rfl

def tidyKeeperCode : List (Instr Nat) := [.nop, .const ⟨1⟩ ⟨1⟩, .ret ⟨1⟩, .done]

/-- In the tidied program the capture is not loaded. The nil of the entry unit may be loaded or not. -/
theorem program_tidied {isNil : Nat → ConstId → Bool} (h : isNil 0 ⟨0⟩ = false) :
    ∃ main, (main = mainCode ∨ main = mainCode.eraseIdx 4) ∧
      (program mainCode keeperCode).tidied isNil = program main tidyKeeperCode := by
  have hmain : ∃ main, (main = mainCode ∨ main = mainCode.eraseIdx 4) ∧
      thin (·.spares (idleRegs (isNil 0) mainCode)) mainCode = main := by
    cases h₁ : isNil 0 ⟨1⟩ with
    | false =>
      have hidle : idleRegs (isNil 0) mainCode = [] := by
        simp [idleRegs, mainCode, Instr.idle?, Instr.placed, Instr.relabel, Listing.idleLoad?, h, h₁]
      refine ⟨_, Or.inl rfl, ?_⟩
      rw [hidle]
      rfl
    | true =>
      have hidle : idleRegs (isNil 0) mainCode = [⟨1⟩] := by
        simp [idleRegs, mainCode, Instr.idle?, Instr.placed, Instr.relabel, Listing.idleLoad?, h, h₁,
          Instr.reads, Instr.inputs]
      refine ⟨_, Or.inr rfl, ?_⟩
      rw [hidle]
      rfl
  have hkeeper : thin (·.spares (idleRegs (isNil 1) keeperCode)) keeperCode = tidyKeeperCode := by
    have hidle : idleRegs (isNil 1) keeperCode = [⟨0⟩] := by
      cases h₁ : isNil 1 ⟨1⟩ <;>
        simp [idleRegs, keeperCode, Instr.idle?, Instr.placed, Instr.relabel, Listing.idleLoad?, h₁,
          Instr.reads, Instr.inputs]
    rw [hidle]
    rfl
  obtain ⟨main, hcode, hmain⟩ := hmain
  refine ⟨main, hcode, ?_⟩
  simp [Program.tidied, program, CodeUnit.tidied, hmain, hkeeper]

/-! ### What the host sees -/

/-- The host gives the error value back twice, so that it is freed. A text that the host makes for a call
that is refused takes its place, and nobody owns it. Then the host calls the function. -/
def script : List HostAction :=
  [.run, .resume 0, .release 0, .release 0, .call .nil [.fresh "x"], .call (.held 1) []]

def machine : Machine := ⟨.empty, #[.nil, .nil], [], {}⟩

/-- The objects that have been freed after each answer. -/
def frees (log : List (Host × HostReply)) : List Nat := log.map (·.1.machine.heap.stats.frees)

theorem frees_of_indistinct {log log' : List (Host × HostReply)}
    (h : List.Forall₂ Host.Indistinct log log') : frees log' = frees log := by
  induction h with
  | nil => rfl
  | cons hx _ ih => exact congrArg₂ List.cons (congrArg HeapCounts.frees hx.counts) ih

/-- **When a value is given back twice, idle loads can make a difference**, without any fault: the text
that nobody owns is freed by the drop of the idle capture. -/
theorem tidying_observed : ¬ ∀ (m : SourceModule) (settings : Settings) (p p' : Program)
    (machine : Machine) (frames : Nat) (script : List HostAction) (log log' : List (Host × HostReply))
    (e e' : Option HostFailure), m.compile { settings with tidy := false } = .ok p →
      m.compile { settings with tidy := true } = .ok p' → Machine.load p = .ok machine →
      Machine.load p' = .ok machine → Host.Replies p frames ⟨machine, #[], #[]⟩ script log e →
      Host.Replies p' frames ⟨machine, #[], #[]⟩ script log' e' → (∀ f, e ≠ some (.fault f)) →
      (∀ f, e' ≠ some (.fault f)) → List.Forall₂ Host.Indistinct log log' ∧ e' = e := by
  intro h
  obtain ⟨e, he, -⟩ | ⟨p, isNil, hp, hp', hnil, -⟩ := source.compile_tidied settings
  · cases compile_source.symm.trans he
  obtain rfl := Except.ok.inj (compile_source.symm.trans hp)
  have hfirst : isNil 0 ⟨0⟩ = false := by
    cases hcase : isNil 0 ⟨0⟩ with
    | false => rfl
    | true => cases hnil 0 ⟨0⟩ hcase
  obtain ⟨main, hmain, htidied⟩ := program_tidied hfirst
  rw [htidied] at hp'
  obtain ⟨log, hr, hlog⟩ : ∃ log, Host.Replies (program mainCode keeperCode) 100 ⟨machine, #[], #[]⟩
      script log none ∧ frees log = [0, 0, 0, 1, 1, 2] := Host.exists_log (n := 20) rfl nofun
  obtain ⟨log', hr', hlog'⟩ : ∃ log', Host.Replies (program main tidyKeeperCode) 100
      ⟨machine, #[], #[]⟩ script log' none ∧ frees log' = [0, 0, 0, 1, 1, 1] := by
    rcases hmain with rfl | rfl <;> exact Host.exists_log (n := 20) rfl nofun
  have hsame := (h source settings _ _ machine 100 script log log' none none hp hp' rfl rfl hr hr' nofun
    nofun).1
  have := frees_of_indistinct hsame
  rw [hlog, hlog'] at this
  cases this

end Keeper

end CountedMachine
