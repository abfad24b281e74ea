import CountedMachine.Proofs.Machine.Custody
import CountedMachine.Proofs.Machine.Tracing

/-! # What the host is told with and without traces

An action is answered when the machine is given enough steps (`Settles`); a chain that never comes back
is a lack of steps whatever their number. A script of actions is answered action by action until one
of them fails (`Host.Replies`). With the traces of a program and without them a script is answered
alike: the host holds the same values, the heaps are the same but for the traces, the counts are the
same, and so are the answers but for the texts that show a trace (`Host.replies_alike`). The failures
are the same as well while the machine is in order, that is, while no value is given back twice. -/

namespace CountedMachine

/-! ## Enough steps -/

/-- **The answer from some number of steps on.** -/
def Settles {β : Type} (answer : Nat → β) (b : β) : Prop := ∃ enough, ∀ n, enough ≤ n → answer n = b

section
variable {β γ : Type} {answer : Nat → β} {b b' : β}

theorem settles_const (b : β) : Settles (fun _ => b) b := ⟨0, fun _ _ => rfl⟩

theorem Settles.map (h : Settles answer b) (g : β → γ) : Settles (fun n => g (answer n)) (g b) := by
  obtain ⟨enough, h⟩ := h
  exact ⟨enough, fun n hn => congrArg g (h n hn)⟩

/-- There is one answer. -/
theorem Settles.unique (h : Settles answer b) (h' : Settles answer b') : b = b' := by
  obtain ⟨k, h⟩ := h
  obtain ⟨k', h'⟩ := h'
  exact (h _ (Nat.le_max_left k k')).symm.trans (h' _ (Nat.le_max_right k k'))

end

namespace Running

variable {p : Program} {limit : Nat} {s : Running} {out : Except Fault (Machine × Outcome)}

theorem Ends.settles (h : Ends p limit s out) : Settles (fun n => run p limit n s) out := by
  induction h with
  | fault e =>
    refine ⟨1, fun n hn => ?_⟩
    obtain ⟨k, rfl⟩ := Nat.exists_eq_add_of_le' hn
    simp only [run, e]
  | stop e =>
    refine ⟨1, fun n hn => ?_⟩
    obtain ⟨k, rfl⟩ := Nat.exists_eq_add_of_le' hn
    simp only [run, e]
  | more e _ ih =>
    obtain ⟨enough, ih⟩ := ih
    refine ⟨enough + 1, fun n hn => ?_⟩
    obtain ⟨k, rfl⟩ := Nat.exists_eq_add_of_le' hn
    simp only [run, e]
    exact ih _ (Nat.le_add_left _ _)

/-- What running comes to, when the steps are enough. -/
theorem ends_of_run : ∀ {n : Nat} {s : Running}, run p limit n s = out → out ≠ .error .exhausted →
    Ends p limit s out
  | 0, _, e, h => absurd e.symm h
  | n + 1, s, e, h => by
    unfold run at e
    split at e
    · next hstep =>
      subst e
      exact .fault hstep
    · next hstep =>
      subst e
      exact .stop hstep
    · next hstep => exact .more hstep (ends_of_run e h)

/-- No number of steps is enough for a chain that does not end. -/
theorem run_exhausted (h : ∀ out, ¬ Ends p limit s out) :
    ∀ n, run p limit n s = .error .exhausted := by
  intro n
  induction n generalizing s with
  | zero => rfl
  | succ n ih =>
    cases e : s.step p limit with
    | error f => exact absurd (.fault e) (h _)
    | ok q =>
      cases q with
      | stop m o => exact absurd (.stop e) (h _)
      | more s' =>
        simp only [run, e]
        exact ih fun out ho => h out (.more e ho)

/-- **A chain is run alike** with and without traces. -/
theorem run_settles [p.Origin] (hp : p.Returning) (limit : Nat) (s : Running) {disorder : Prop}
    (hs : ¬ disorder → ∃ B w ρ, Working p B s w ρ) : ∃ out out',
    Settles (fun n => run p limit n s) out ∧
      Settles (fun n => run p.untraced limit n (s.untraced p)) out' ∧ Closes p disorder out out' := by
  by_cases h : ∃ out, Ends p limit s out
  · obtain ⟨out, h⟩ := h
    obtain ⟨out', h', hm⟩ := h.untraced hp hs
    exact ⟨out, out', h.settles, h'.settles, hm⟩
  · have h' : ∀ out', ¬ Ends p.untraced limit (s.untraced p) out' := fun out' h' =>
      h (ends_of_untraced hp h' s rfl)
    refine ⟨.error .exhausted, .error .exhausted, ?_, ?_, .fails (.same _)⟩
    · exact ⟨0, fun n _ => run_exhausted (not_exists.mp h) n⟩
    · exact ⟨0, fun n _ => run_exhausted h' n⟩

end Running

/-! ## The host -/

/-- A host whose machine has no traces. -/
def Host.untraced (p : Program) (h : Host) : Host :=
  ⟨h.machine.untraced, h.values, h.suspensions.map (Option.map (Suspension.untraced p))⟩

/-- **What is seen of one value** with and without traces. -/
structure ValueView.Alike (types : Array StructType) (a b : ValueView) : Prop where
  text : SameText types a.text b.text
  rc : b.rc = a.rc
  undefined : b.undefined = a.undefined
  truthy : b.truthy = a.truthy

/-- **Answers to one action** with and without traces. -/
inductive HostReply.Alike (types : Array StructType) : HostReply → HostReply → Prop
  | returned {a b : ValueView} : a.Alike types b → Alike types (.returned a) (.returned b)
  | yielded {a b : ValueView} (depth : Nat) : a.Alike types b →
    Alike types (.yielded a depth) (.yielded b depth)
  | refused (e : CallError) : Alike types (.refused e) (.refused e)
  | released : Alike types .released .released
  | inspected {a b : ValueView} : a.Alike types b → Alike types (.inspected a) (.inspected b)

/-- **Failures of one action** with and without traces. -/
inductive HostFailure.Alike (types : Array StructType) (disorder : Prop) : HostFailure → HostFailure → Prop
  | unknownHandle : Alike types disorder .unknownHandle .unknownHandle
  | fault {f f' : Fault} : f.Alike types disorder f' → Alike types disorder (.fault f) (.fault f')

namespace Host

variable {p : Program} {disorder : Prop}

/-- The outcomes of one action with and without traces. -/
def Answered (p : Program) (disorder : Prop) : Except HostFailure (Host × HostReply) →
    Except HostFailure (Host × HostReply) → Prop
  | .ok (h, reply), .ok (h', reply') => h' = h.untraced p ∧ reply.Alike p.types reply'
  | .error e, .error e' => e.Alike p.types disorder e'
  | _, _ => False

theorem answered_error (e : HostFailure) : Answered p disorder (.error e) (.error e) := by
  cases e with
  | unknownHandle => exact .unknownHandle
  | fault f => exact .fault (.same f)

/-- Looking at a value. -/
theorem view_untraced (m : Machine) (v : Value) :
    (∃ f, m.view p v = .error f ∧ m.untraced.view p.untraced v = .error f) ∨
      ∃ a b, m.view p v = .ok a ∧ m.untraced.view p.untraced v = .ok b ∧ a.Alike p.types b := by
  have htag : m.untraced.heap.errorTag? v = m.heap.errorTag? v := m.heap.errorTag?_untraced v
  have hrc : ∀ r, m.untraced.heap.rc r = m.heap.rc r := fun r => m.heap.rc_untraced r
  unfold Machine.view Machine.display
  change (∃ f, _ ∧ (m.heap.untraced.display p.types v >>= _) = _) ∨
    ∃ a b, _ ∧ (m.heap.untraced.display p.types v >>= _) = _ ∧ _
  rcases m.heap.display_untraced p.types v with ⟨f, h, h'⟩ | ⟨t, t', h, h'⟩
  · rw [h, h']
    exact Or.inl ⟨f, rfl, rfl⟩
  · rw [h, h', htag]
    have htext : SameText p.types t t' := ⟨_, _, h, h'⟩
    cases v with
    | obj r =>
      simp only [bind, Except.bind, hrc]
      rcases m.heap.rc r with f | n
      · exact Or.inl ⟨f, rfl, rfl⟩
      · rcases m.heap.errorTag? (.obj r) with f | o
        · exact Or.inl ⟨f, rfl, rfl⟩
        · exact Or.inr ⟨_, _, rfl, rfl, htext, rfl, rfl, rfl⟩
    | _ => exact Or.inr ⟨_, _, rfl, rfl, htext, rfl, rfl, rfl⟩

/-- A freed object cannot be looked at. -/
theorem view_freed {m : Machine} {x : ObjId} (hx : m.heap.slot? x = none) :
    m.view p (.obj x) = .error (.freedObject x.index) := by
  unfold Machine.view Machine.display Heap.display
  rw [Heap.displayWithin, Heap.get, Heap.slot, hx]
  rfl

/-- **Taking in what running came to.** -/
theorem receive_answered {out out' : Except Fault (Machine × Outcome)} (hm : Running.Closes p disorder out out')
    (values : Array Value) (suspensions : Array (Option Suspension)) :
    Answered p disorder (faulting out >>= receive p values suspensions)
      (faulting out' >>= receive p.untraced values
        (suspensions.map (Option.map (Suspension.untraced p)))) := by
  cases hm with
  | fails hf => exact .fault hf
  | lost _ hx =>
    simp only [faulting, Except.mapError, bind, Except.bind, receive, view_freed hx]
    exact .fault (.same _)
  | ends m o =>
    cases o with
    | returned v =>
      change Answered p disorder (faulting (m.view p v) >>= _) (faulting (m.untraced.view p.untraced v) >>= _)
      rcases view_untraced (p := p) m v with ⟨f, h, h'⟩ | ⟨a, b, h, h', hab⟩
      · rw [h, h']
        exact .fault (.same f)
      · rw [h, h']
        exact ⟨rfl, .returned hab⟩
    | yielded v s =>
      change Answered p disorder (faulting (m.view p v) >>= _) (faulting (m.untraced.view p.untraced v) >>= _)
      rcases view_untraced (p := p) m v with ⟨f, h, h'⟩ | ⟨a, b, h, h', hab⟩
      · rw [h, h']
        exact .fault (.same f)
      · rw [h, h']
        refine ⟨?_, ?_⟩
        · simp [untraced]
        · have hdepth : (s.untraced p).depth = s.depth := by simp [Suspension.depth, Suspension.untraced]
          rw [hdepth]
          exact .yielded s.depth hab

theorem pass_untraced (values : Array Value) (m : Machine) (v : HostValue) :
    pass values m.untraced v = tell (fun x => (Machine.untraced x.1, x.2)) (pass values m v) := by
  cases v with
  | fresh s => exact congrArg Except.ok (m.allocate_untraced (.str s))
  | held handle =>
    refine tell_bind_same rfl fun v => ?_
    rfl
  | _ => rfl

theorem passAll_untraced (values : Array Value) : ∀ (m : Machine) (vs : List HostValue),
    passAll values m.untraced vs = tell (fun x => (Machine.untraced x.1, x.2)) (passAll values m vs)
  | _, [] => rfl
  | m, v :: vs =>
    tell_bind (pass_untraced values m v) fun x =>
      tell_bind (passAll_untraced values x.1 vs) fun _ => rfl

/-! ## Actions -/

/-- **Two answers, from enough steps on,** with and without traces. -/
def Agrees (p : Program) (disorder : Prop)
    (answer answer' : Nat → Except HostFailure (Host × HostReply)) : Prop :=
  ∃ out out', Settles answer out ∧ Settles answer' out' ∧ Answered p disorder out out'

section
variable {α β : Type}

theorem agrees_of_answered {out out' : Except HostFailure (Host × HostReply)}
    (h : Answered p disorder out out') : Agrees p disorder (fun _ => out) fun _ => out' :=
  ⟨out, out', settles_const out, settles_const out', h⟩

/-- What takes no steps of the machine comes first. -/
theorem agrees_bind {x : Except HostFailure α} {x' : Except HostFailure β} {g : α → β}
    {k : Nat → α → Except HostFailure (Host × HostReply)}
    {k' : Nat → β → Except HostFailure (Host × HostReply)} (hx : x' = tell g x)
    (hk : ∀ a, x = .ok a → Agrees p disorder (fun n => k n a) fun n => k' n (g a)) :
    Agrees p disorder (fun n => x >>= k n) fun n => x' >>= k' n := by
  subst hx
  cases x with
  | error e => exact agrees_of_answered (answered_error e)
  | ok a => exact hk a rfl

theorem agrees_bind_same {x x' : Except HostFailure α}
    {k k' : Nat → α → Except HostFailure (Host × HostReply)} (hx : x' = x)
    (hk : ∀ a, x = .ok a → Agrees p disorder (fun n => k n a) fun n => k' n a) :
    Agrees p disorder (fun n => x >>= k n) fun n => x' >>= k' n := by
  subst hx
  cases x' with
  | error e => exact agrees_of_answered (answered_error e)
  | ok a => exact hk a rfl

theorem faulting_bind (x : Except Fault α) (k : α → Except Fault β) :
    faulting (x >>= k) = faulting x >>= fun a => faulting (k a) := by
  cases x <;> rfl

theorem faulting_tell {x : Except Fault α} {x' : Except Fault β} {g : α → β} (hx : x' = tell g x) :
    faulting x' = tell g (faulting x) := by
  subst hx
  cases x <;> rfl

end

/-- **A chain is run alike** with and without traces. -/
theorem agrees_run [p.Origin] (hp : p.Returning) (frames : Nat) (s : Running)
    (hs : ¬ disorder → ∃ B w ρ, Working p B s w ρ) (values : Array Value)
    (suspensions : Array (Option Suspension)) :
    Agrees p disorder (fun n => faulting (Running.run p frames n s) >>= receive p values suspensions)
      fun n => faulting (Running.run p.untraced frames n (s.untraced p)) >>=
        receive p.untraced values (suspensions.map (Option.map (Suspension.untraced p))) := by
  obtain ⟨out, out', h, h', hm⟩ := Running.run_settles hp frames s hs
  exact ⟨_, _, h.map fun x => faulting x >>= receive p values suspensions,
    h'.map fun x => faulting x >>= receive p.untraced values _, receive_answered hm values suspensions⟩

theorem agrees_start [p.Origin] (hp : p.Returning) (frames : Nat) (m : Machine) (cur : Frame)
    (hs : ¬ disorder → ∃ B w ρ, Working p B ⟨m.noteDepth 1, #[], cur⟩ w ρ) (values : Array Value)
    (suspensions : Array (Option Suspension)) :
    Agrees p disorder (fun n => faulting (m.start p ⟨frames, n⟩ cur) >>= receive p values suspensions)
      fun n => faulting (m.untraced.start p.untraced ⟨frames, n⟩ (cur.untraced p)) >>=
        receive p.untraced values (suspensions.map (Option.map (Suspension.untraced p))) := by
  have hrun := agrees_run hp frames ⟨m.noteDepth 1, #[], cur⟩ hs values suspensions
  have hstart : Running.untraced p ⟨m.noteDepth 1, #[], cur⟩ =
      ⟨m.untraced.noteDepth 1, #[], cur.untraced p⟩ := by
    simp [Running.untraced, Machine.untraced, Machine.noteDepth]
  rw [hstart] at hrun
  exact hrun

theorem agrees_resume [p.Origin] (hp : p.Returning) (frames : Nat) (m : Machine) (s : Suspension)
    (hs : ¬ disorder → ∀ cur, s.frames.back? = some cur → ∃ B w ρ, Working p B ⟨m, s.frames.pop, cur⟩ w ρ)
    (values : Array Value) (suspensions : Array (Option Suspension)) :
    Agrees p disorder (fun n => faulting (m.resume p ⟨frames, n⟩ s) >>= receive p values suspensions)
      fun n => faulting (m.untraced.resume p.untraced ⟨frames, n⟩ (s.untraced p)) >>=
        receive p.untraced values (suspensions.map (Option.map (Suspension.untraced p))) := by
  simp only [Machine.resume, Suspension.untraced, Running.back?_map]
  cases hback : s.frames.back? with
  | none => exact agrees_of_answered (.fault (.same _))
  | some cur =>
    have hrun := agrees_run hp frames ⟨m, s.frames.pop, cur⟩ (fun hd => hs hd cur hback) values suspensions
    have hpop : Running.untraced p ⟨m, s.frames.pop, cur⟩ =
        ⟨m.untraced, (s.frames.map (Frame.untraced p)).pop, cur.untraced p⟩ := by
      simp [Running.untraced]
    rw [hpop] at hrun
    exact hrun

theorem callError_untraced (m : Machine) (f : Value) (nargs : Nat) (reason : CallRefusal) :
    m.untraced.callError p.untraced f nargs reason = m.callError p f nargs reason := by
  cases reason with
  | arity =>
    unfold Machine.callError
    change (m.heap.untraced.closure? f >>= _) = _
    rw [Heap.closure?_untraced]
    rcases m.heap.closure? f with e | _ | c
    · rfl
    · rfl
    · simp only [bind, Except.bind, p.unit_untraced]
      cases p.unit c.unit <;> rfl
  | _ => rfl

/-- **A function is called alike** with and without traces. -/
theorem agrees_call [p.Origin] (hp : p.Returning) (frames : Nat) (m : Machine)
    (hm : ¬ disorder → ∃ B, Idle p B m) (values : Array Value)
    (suspensions : Array (Option Suspension)) (f : Value) (args : List Value) :
    Agrees p disorder
      (fun n => faulting (m.call p ⟨frames, n⟩ f args) >>= fun out =>
        match out with
        | .ok out => receive p values suspensions out
        | .error e => return (⟨m, values, suspensions⟩, .refused e))
      (fun n => faulting (m.untraced.call p.untraced ⟨frames, n⟩ f args) >>= fun out =>
        match out with
        | .ok out => receive p.untraced values
            (suspensions.map (Option.map (Suspension.untraced p))) out
        | .error e => return ((⟨m, values, suspensions⟩ : Host).untraced p, .refused e)) := by
  simp only [Machine.call, faulting_bind, bind_assoc]
  refine agrees_bind_same (congrArg faulting (p.resolveCall_untraced m.heap f args.length))
    fun target htarget => ?_
  cases target with
  | error reason =>
    simp only [faulting_bind, bind_assoc]
    refine agrees_bind_same (congrArg faulting (callError_untraced m f _ reason)) fun e _ => ?_
    exact agrees_of_answered ⟨rfl, .refused e⟩
  | ok unit =>
    simp only [faulting_bind, bind_assoc]
    refine agrees_bind (faulting_tell (m.overHeap_untraced (g := (·.incAll (f :: args)))
      fun h => h.incAll_untraced (f :: args))) fun m₁ hm₁ => ?_
    refine agrees_bind (faulting_tell (p.frame_untraced unit args (some f) none)) fun cur hcur => ?_
    refine agrees_start hp frames m₁.noteCall cur (fun hd => ?_) values suspensions
    obtain ⟨B, hm⟩ := hm hd
    exact ⟨B, (working_call hm (faulting_ok htarget) (faulting_ok hm₁) (faulting_ok hcur)).1⟩

/-- **An action is answered alike** with and without traces. -/
theorem agrees_perform [p.Origin] (hp : p.Returning) (hentry : UnitOk p.settings p p.entry []) (frames : Nat) (h : Host)
    (hh : ¬ disorder → ∃ given, Ok p given h) (a : HostAction) :
    Agrees p disorder (fun n => h.perform p ⟨frames, n⟩ a)
      fun n => (h.untraced p).perform p.untraced ⟨frames, n⟩ a := by
  obtain ⟨m, values, suspensions⟩ := h
  cases a with
  | run =>
    simp only [perform, untraced, Machine.run, faulting_bind, bind_assoc]
    refine agrees_bind (faulting_tell (p.frame_untraced p.entry [] none none)) fun cur hcur => ?_
    refine agrees_start hp frames m cur (fun hd => ?_) values suspensions
    obtain ⟨given, hok⟩ := hh hd
    exact ⟨_, working_run hentry hok.idle (faulting_ok hcur)⟩
  | call f args =>
    refine agrees_bind (pass_untraced values m f) fun x h₁ => ?_
    obtain ⟨m₁, f⟩ := x
    refine agrees_bind (passAll_untraced values m₁ args) fun y h₂ => ?_
    obtain ⟨m₂, args⟩ := y
    refine agrees_call hp frames m₂ (fun hd => ?_) values suspensions f args
    obtain ⟨given, hok⟩ := hh hd
    exact ⟨_, (passes_passAll (passes_pass hok.idle h₁).idle h₂).idle⟩
  | resume handle =>
    have hget : (suspensions.map (Option.map (Suspension.untraced p)))[handle]? =
        suspensions[handle]?.map (Option.map (Suspension.untraced p)) := Array.getElem?_map
    simp only [perform, untraced, hget]
    rcases hc : suspensions[handle]? with _ | _ | s
    · exact agrees_of_answered .unknownHandle
    · exact agrees_of_answered .unknownHandle
    · have hset : (suspensions.map (Option.map (Suspension.untraced p))).setIfInBounds handle none =
          (suspensions.setIfInBounds handle none).map (Option.map (Suspension.untraced p)) := by simp
      simp only [Option.map_some, hset]
      refine agrees_resume hp frames m s (fun hd cur hback => ?_) values
        (suspensions.setIfInBounds handle none)
      obtain ⟨given, hok⟩ := hh hd
      exact ⟨_, (working_resume hok hc hback).1⟩
  | release handle =>
    refine agrees_bind_same rfl fun v _ => ?_
    refine agrees_bind (faulting_tell (m.overHeap_untraced fun h => h.unref_untraced v)) fun m₁ _ => ?_
    exact agrees_of_answered ⟨rfl, .released⟩
  | inspect handle =>
    refine agrees_bind_same rfl fun v _ => agrees_of_answered ?_
    dsimp only [untraced]
    rcases view_untraced (p := p) m v with ⟨f, h, h'⟩ | ⟨a, b, h, h', hab⟩
    · rw [h, h']
      exact .fault (.same f)
    · rw [h, h']
      exact ⟨rfl, .inspected hab⟩

/-! ## Answers within limits -/

/-- **There is an answer from some number of steps on**, and it is the only one. -/
def Decided {β : Type} (answer : Nat → Except HostFailure β) : Prop :=
  ∃ out, Settles answer out ∧ ∀ n, answer n ≠ .error (.fault .exhausted) → answer n = out

section
variable {α β : Type}

theorem decided_const (x : Except HostFailure β) : Decided fun _ => x :=
  ⟨x, settles_const x, fun _ _ => rfl⟩

/-- What takes no steps of the machine comes first. -/
theorem decided_bind {x : Except HostFailure α} {k : Nat → α → Except HostFailure β}
    (hk : ∀ a, Decided fun n => k n a) : Decided fun n => x >>= k n := by
  cases x with
  | error e => exact decided_const (.error e)
  | ok a => exact hk a

theorem decided_run (p : Program) (frames : Nat) (s : Running)
    (k : Machine × Outcome → Except HostFailure β) :
    Decided fun n => faulting (Running.run p frames n s) >>= k := by
  by_cases h : ∃ out, Running.Ends p frames s out
  · obtain ⟨out, h⟩ := h
    refine ⟨_, h.settles.map fun x => faulting x >>= k, fun n hn => ?_⟩
    have hne : Running.run p frames n s ≠ .error .exhausted := fun e =>
      hn (congrArg (fun x => faulting x >>= k) e)
    rw [h.settles.unique (Running.ends_of_run rfl hne).settles]
  · have hrun := Running.run_exhausted (not_exists.mp h)
    have hall : ∀ n, (faulting (Running.run p frames n s) >>= k) = .error (.fault .exhausted) := fun n => by
      rw [hrun]
      rfl
    exact ⟨_, ⟨0, fun n _ => hall n⟩, fun n hn => absurd (hall n) hn⟩

end

/-- **Every action is answered**, or it fails, given enough steps. -/
theorem decided_perform (p : Program) (frames : Nat) (H : Host) (a : HostAction) :
    Decided fun n => H.perform p ⟨frames, n⟩ a := by
  obtain ⟨m, values, chains⟩ := H
  cases a with
  | run =>
    simp only [perform, Machine.run, faulting_bind, bind_assoc]
    exact decided_bind fun cur => decided_run p frames _ _
  | call f args =>
    refine decided_bind fun x => decided_bind fun y => ?_
    simp only [Machine.call, faulting_bind, bind_assoc]
    refine decided_bind fun target => ?_
    cases target with
    | error reason =>
      simp only [faulting_bind, bind_assoc]
      exact decided_const _
    | ok unit =>
      simp only [faulting_bind, bind_assoc]
      exact decided_bind fun m₃ => decided_bind fun cur => decided_run p frames _ _
  | resume handle =>
    simp only [perform]
    split
    · next c hc =>
      simp only [Machine.resume]
      cases c.frames.back? with
      | none => exact decided_const _
      | some cur => exact decided_run p frames _ _
    · exact decided_const _
  | release handle => exact decided_const _
  | inspect handle => exact decided_const _

/-! ## Scripts -/

/-- **A script is answered** action by action, until one of them fails: the answers, each with the
host after it, and the failure. -/
inductive Replies (p : Program) (frames : Nat) :
    Host → List HostAction → List (Host × HostReply) → Option HostFailure → Prop
  | done (h : Host) : Replies p frames h [] [] none
  | fail {h : Host} {a : HostAction} {script : List HostAction} {e : HostFailure} :
    Settles (fun n => h.perform p ⟨frames, n⟩ a) (.error e) →
    Replies p frames h (a :: script) [] (some e)
  | next {h h' : Host} {a : HostAction} {script : List HostAction} {reply : HostReply}
      {log : List (Host × HostReply)} {e : Option HostFailure} :
    Settles (fun n => h.perform p ⟨frames, n⟩ a) (.ok (h', reply)) →
    Replies p frames h' script log e → Replies p frames h (a :: script) ((h', reply) :: log) e

/-- There is one way to answer a script. -/
theorem Replies.unique {frames : Nat} {h : Host} {script : List HostAction}
    {log log' : List (Host × HostReply)} {e e' : Option HostFailure}
    (hr : Replies p frames h script log e) (hr' : Replies p frames h script log' e') :
    log = log' ∧ e = e' := by
  induction hr generalizing log' e' with
  | done h => cases hr'; exact ⟨rfl, rfl⟩
  | fail hs =>
    cases hr' with
    | fail hs' => exact ⟨rfl, congrArg some (Except.error.inj (hs.unique hs'))⟩
    | next hs' _ => cases hs.unique hs'
  | next hs _ ih =>
    cases hr' with
    | fail hs' => cases hs.unique hs'
    | next hs' hr' =>
      obtain ⟨rfl, rfl⟩ := Prod.mk.inj (Except.ok.inj (hs.unique hs'))
      obtain ⟨rfl, rfl⟩ := ih hr'
      exact ⟨rfl, rfl⟩

/-- **Every script is answered** until an action fails. -/
theorem exists_replies (p : Program) (frames : Nat) : ∀ (script : List HostAction) (H : Host),
    ∃ log e, Replies p frames H script log e
  | [], H => ⟨[], none, .done H⟩
  | a :: script, H => by
    obtain ⟨e | ⟨H₁, reply⟩, hs, -⟩ := decided_perform p frames H a
    · exact ⟨[], some e, .fail hs⟩
    · obtain ⟨log, e, hr⟩ := exists_replies p frames script H₁
      exact ⟨_, e, .next hs hr⟩

/-- The answers to a script within limits, and the failure that ends them. -/
def answers (p : Program) (limits : Limits) :
    Host → List HostAction → List (Host × HostReply) × Option HostFailure
  | _, [] => ([], none)
  | H, a :: script =>
    match H.perform p limits a with
    | .error e => ([], some e)
    | .ok x => (answers p limits x.1 script).map (x :: ·) id

theorem replies_answers {frames n : Nat} : ∀ {script : List HostAction} {H : Host},
    (answers p ⟨frames, n⟩ H script).2 ≠ some (.fault .exhausted) →
      Replies p frames H script (answers p ⟨frames, n⟩ H script).1 (answers p ⟨frames, n⟩ H script).2
  | [], H, _ => .done H
  | a :: script, H, h => by
    have hone : ∀ {out}, H.perform p ⟨frames, n⟩ a = out → out ≠ .error (.fault .exhausted) →
        Settles (fun n => H.perform p ⟨frames, n⟩ a) out := by
      rintro out rfl hne
      obtain ⟨out, hs, hout⟩ := decided_perform p frames H a
      rwa [← hout n hne] at hs
    rw [answers] at h ⊢
    cases hx : H.perform p ⟨frames, n⟩ a with
    | error e =>
      rw [hx] at h
      exact .fail (hone hx fun he => h (congrArg some (Except.error.inj he)))
    | ok x =>
      rw [hx] at h
      exact .next (hone hx nofun) (replies_answers h)

/-- A script that is answered within limits, and what is read off the answers. -/
theorem exists_log {frames n : Nat} {script : List HostAction} {H : Host} {α : Type}
    {f : List (Host × HostReply) → α} {x : α} {e : Option HostFailure}
    (h : (answers p ⟨frames, n⟩ H script).map f id = (x, e)) (he : e ≠ some (.fault .exhausted)) :
    ∃ log, Replies p frames H script log e ∧ f log = x := by
  obtain ⟨hx, rfl⟩ := Prod.mk.inj h
  exact ⟨_, replies_answers he, hx⟩

/-- **A host after an answer, with and without traces.** The values it holds are the same, and the
heap is but for the traces; the counts are the same, and so is what unloading comes to. -/
structure Alike (types : Array StructType) (x x' : Host × HostReply) : Prop where
  reply : x.2.Alike types x'.2
  values : x'.1.values = x.1.values
  heap : x'.1.machine.heap = x.1.machine.heap.untraced
  calls : x'.1.machine.stats = x.1.machine.stats
  counts : x'.1.machine.heap.stats = x.1.machine.heap.stats
  unloaded : x'.1.machine.unload = x.1.machine.unload.map Heap.untraced

theorem unload_untraced (m : Machine) : m.untraced.unload = tell Heap.untraced m.unload :=
  tell_bind (m.heap.unrefAll_untraced m.stack.reverse) fun h => h.unrefAll_untraced m.consts.toList

/-- The host's machine is in order, and the script gives nothing back that has been given back. -/
def Orderly (p : Program) [p.Origin] (script : List HostAction) (h : Host) : Prop :=
  ∃ given, Ok p given h ∧ (script.filterMap givenBack?).Nodup ∧
    ∀ k ∈ script.filterMap givenBack?, k ∉ given

theorem Orderly.next [p.Origin] {limits : Limits} {a : HostAction} {script : List HostAction} {h h' : Host}
    {reply : HostReply} (hentry : UnitOk p.settings p p.entry []) (ho : Orderly p (a :: script) h)
    (e : h.perform p limits a = .ok (h', reply)) : Orderly p script h' := by
  obtain ⟨given, hok, hnd, hfresh⟩ := ho
  cases ha : givenBack? a with
  | none =>
    rw [List.filterMap_cons_none ha] at hnd hfresh
    have hok' := ok_perform hentry hok (by simp [ha]) e
    rw [ha] at hok'
    exact ⟨given, hok', hnd, hfresh⟩
  | some k =>
    rw [List.filterMap_cons_some ha] at hnd hfresh
    obtain ⟨hk, hnd⟩ := List.nodup_cons.mp hnd
    have hok' := ok_perform hentry hok (by simpa [ha] using hfresh k List.mem_cons_self) e
    rw [ha] at hok'
    refine ⟨insert k given, hok', hnd, fun j hj hmem => ?_⟩
    rcases Finset.mem_insert.mp hmem with rfl | hmem
    · exact hk hj
    · exact hfresh j (List.mem_cons_of_mem _ hj) hmem

/-- **A script is answered alike** with and without traces. -/
theorem replies_alike [p.Origin] (hp : p.Returning) (hentry : UnitOk p.settings p p.entry []) (frames : Nat) :
    ∀ (script : List HostAction) (h : Host), (¬ disorder → Orderly p script h) →
      ∃ log log' e e', Replies p frames h script log e ∧
        Replies p.untraced frames (h.untraced p) script log' e' ∧
        List.Forall₂ (Alike p.types) log log' ∧ Option.Rel (HostFailure.Alike p.types disorder) e e'
  | [], h, _ => ⟨[], [], none, none, .done h, .done _, .nil, .none⟩
  | a :: script, h, ho => by
    obtain ⟨out, out', hs, hs', ha⟩ :=
      agrees_perform hp hentry frames h (fun hd => (ho hd).imp fun _ h => h.1) a
    rcases out with e | ⟨h₁, reply⟩ <;> rcases out' with e' | ⟨h₁', reply'⟩
    · exact ⟨[], [], some e, some e', .fail hs, .fail hs', .nil, .some ha⟩
    · exact ha.elim
    · exact ha.elim
    · obtain ⟨rfl, hreply⟩ := ha
      have hnext : ¬ disorder → Orderly p script h₁ := fun hd => by
        obtain ⟨n, hn⟩ := hs
        exact (ho hd).next hentry (hn n le_rfl)
      obtain ⟨log, log', e, e', hr, hr', hlog, he⟩ := replies_alike hp hentry frames script h₁ hnext
      refine ⟨_, _, e, e', .next hs hr, .next hs' hr', .cons ?_ hlog, he⟩
      exact ⟨hreply, rfl, rfl, rfl, rfl, unload_untraced h₁.machine⟩

end Host

end CountedMachine
