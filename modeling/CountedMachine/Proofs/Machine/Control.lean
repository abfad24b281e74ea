import CountedMachine.Proofs.Code.Realm
import CountedMachine.Proofs.Generation.Completion
import CountedMachine.Proofs.Machine.Sessions

/-! # Where control goes

What a step does to the chain of frames, the argument stack and the statistics (`Running.Turns`),
whatever it does to the heap and to the registers. Between its actions the host holds a machine and
the chains that have yielded (`Host.Reached`); an action may set the machine to work, which then takes
one step after the other (`Host.Visited`). The host may do what it likes, and release a value more than
once.

`Host.invariant` is the induction over all this: what the start of the work establishes and each step
keeps is so whenever the machine is at work, and what it leaves is so in between. -/

namespace CountedMachine

/-! ## Steps -/

/-- The machine after a step. -/
def Progress.machine : Progress → Machine
  | .more s => s.machine
  | .stop m _ => m

/-- The number of arguments that an instruction takes off the stack. -/
def Instr.takes {L : Type} : Instr L → Nat
  | .call _ _ nargs _ => nargs
  | .tailCall _ nargs => nargs
  | _ => 0

/-- The machine after the arguments of an instruction have been taken off the stack, with another
heap. -/
def Machine.fed (m : Machine) (h : Heap) (n : Nat) : Machine :=
  { m with heap := h, stack := m.stack.drop n }

section
variable {f f' : Frame} {r : Reg} {v : Value} {m m' : Machine}

theorem Frame.place_of_write (h : f.write r v = .ok f') : f'.unit = f.unit ∧ f'.pc = f.pc := by
  unfold write at h
  split at h
  · cases h
    exact ⟨rfl, rfl⟩
  · cases h

theorem Machine.eq_of_overHeap {g : Heap → Except Fault Heap} (e : m.overHeap g = .ok m') :
    ∃ h, m' = { m with heap := h } := by
  obtain ⟨h, -, e⟩ := bind_ok e
  exact ⟨h, (Except.ok.inj e).symm⟩

theorem Machine.eq_of_takeArgs {n : Nat} {args : List Value} (e : m.takeArgs n = .ok (m', args)) :
    m' = m.fed m.heap n := by
  obtain ⟨heap, consts, stack, stats⟩ := m
  simp only [takeArgs] at e
  split at e
  · cases e
  · cases e
    rfl

end

namespace Running

/-- The current frame when control has left it. -/
abbrev parked (s : Running) : Frame := s.advance.cur

/-- **What a step can do** to the chain of frames, the argument stack and the statistics. -/
inductive Turns (s : Running) : Instr Nat → Progress → Prop
  | stays {i : Instr Nat} {h : Heap} {cur : Frame} : i.stands = true → cur.unit = s.cur.unit →
      cur.pc = s.cur.pc + 1 ∨ i.label? = some cur.pc →
      Turns s i (.more ⟨{ s.machine with heap := h }, s.callers, cur⟩)
  | adjusts {op : CountOp} {r : Reg} {h : Heap} :
      Turns s (.adjust op r) (.more ⟨{ s.machine with heap := h }, s.callers, s.parked⟩)
  | pushes {r : Reg} {h : Heap} : Turns s (.push r)
      (.more ⟨({ s.machine with heap := h } : Machine).push (s.cur.get r), s.callers, s.parked⟩)
  | refuses {dst func : Reg} {nargs : Nat} {checked : Bool} {h : Heap} {cur : Frame} :
      cur.unit = s.cur.unit → cur.pc = s.cur.pc + 1 → Turns s (.call dst func nargs checked)
        (.more ⟨s.machine.fed h nargs, s.callers, cur⟩)
  | enters {dst func : Reg} {nargs : Nat} {checked : Bool} {h : Heap} {callee : Frame} :
      callee.pc = 0 → (∃ m, s.machine.takeArgs nargs = .ok (m, callee.args)) →
        Turns s (.call dst func nargs checked)
          (.more ⟨(s.machine.fed h nargs).noteCall.noteDepth (s.callers.size + 2),
            s.callers.push s.parked, callee⟩)
  | replaces {func : Reg} {nargs : Nat} {h : Heap} {callee : Frame} : callee.pc = 0 →
      (∃ m, s.machine.takeArgs nargs = .ok (m, callee.args)) → Turns s (.tailCall func nargs)
        (.more ⟨(s.machine.fed h nargs).noteTailCall, s.callers, callee⟩)
  | leaves {i : Instr Nat} {h : Heap} {v : Value} : i.isTerminal = true → s.callers.back? = none →
      Turns s i (.stop (s.machine.fed h i.takes) (.returned v))
  | returns {i : Instr Nat} {h : Heap} {caller cur : Frame} : i.isTerminal = true →
      s.callers.back? = some caller → cur.unit = caller.unit → cur.pc = caller.pc →
      Turns s i (.more ⟨s.machine.fed h i.takes, s.callers.pop, cur⟩)
  | yields {r : Reg} {h : Heap} {v : Value} : Turns s (.yield r)
      (.stop { s.machine with heap := h } (.yielded v ⟨s.callers.push s.parked⟩))

section
variable {p : Program} {limit : Nat} {s s' : Running} {i : Instr Nat} {q : Progress} {r : Reg}
  {v : Value}

theorem eq_of_overHeap {g : Heap → Except Fault Heap} (e : s.overHeap g = .ok s') :
    ∃ h, s' = ⟨{ s.machine with heap := h }, s.callers, s.cur⟩ := by
  obtain ⟨m, hm, e⟩ := bind_ok e
  obtain ⟨h, rfl⟩ := Machine.eq_of_overHeap hm
  exact ⟨h, (Except.ok.inj e).symm⟩

/-- The machine goes on in its frame, where it is. -/
def Within (s : Running) (q : Progress) : Prop :=
  ∃ h cur, q = .more ⟨{ s.machine with heap := h }, s.callers, cur⟩ ∧ cur.unit = s.cur.unit ∧
    cur.pc = s.cur.pc

theorem within_self : s.Within (.more s) := ⟨_, _, rfl, rfl, rfl⟩

theorem within_store (e : s.store r v = .ok q) : s.Within q := by
  obtain ⟨s', hs', e⟩ := bind_ok e
  obtain ⟨cur, hcur, hs'⟩ := bind_ok hs'
  cases hs'
  cases e
  exact ⟨s.machine.heap, cur, rfl, Frame.place_of_write hcur⟩

theorem within_storeFrom {g : Heap → Except Fault (Heap × Value)} (e : s.storeFrom g r = .ok q) :
    s.Within q := by
  obtain ⟨⟨h, v⟩, -, e⟩ := bind_ok e
  obtain ⟨cur, hcur, e⟩ := bind_ok e
  cases e
  exact ⟨h, cur, rfl, Frame.place_of_write hcur⟩

theorem within_after {g : Heap → Except Fault Heap} (e : s.after g = .ok q) : s.Within q := by
  obtain ⟨s', hs', e⟩ := bind_ok e
  obtain ⟨h, rfl⟩ := eq_of_overHeap hs'
  cases e
  exact ⟨h, s.cur, rfl, rfl, rfl⟩

/-- Another heap makes no difference. -/
theorem Within.of_overHeap {g : Heap → Except Fault Heap} (hq : s'.Within q)
    (e : s.overHeap g = .ok s') : s.Within q := by
  obtain ⟨h, rfl⟩ := eq_of_overHeap e
  obtain ⟨h', cur, rfl, hcur⟩ := hq
  exact ⟨h', cur, rfl, hcur⟩

theorem Within.turns (hq : s.advance.Within q) (hi : i.stands = true) : s.Turns i q := by
  obtain ⟨h, cur, rfl, hunit, hpc⟩ := hq
  exact .stays hi hunit (Or.inl hpc)

theorem within_capture {idx : Nat} (e : s.capture r idx = .ok q) : s.Within q := by
  unfold capture at e
  dsimp only at e
  split at e
  all_goals
    obtain ⟨c, -, e⟩ := bind_ok e
    split at e
    · cases e
    · split at e
      · exact within_store e
      · cases e

theorem within_loadConst {k : ConstId} (e : s.loadConst p r k = .ok q) : s.Within q := by
  unfold loadConst at e
  split at e
  · cases e
  · exact within_storeFrom e
  · split at e
    · exact within_store e
    · cases e

theorem within_unbox {cell : Reg} (e : s.unbox r cell = .ok q) : s.Within q := by
  obtain ⟨x, -, e⟩ := bind_ok e
  split at e
  · cases e
  · obtain ⟨o, -, e⟩ := bind_ok e
    split at e
    · exact within_store e
    · cases e

theorem within_assign {cell : Reg} (e : s.assign cell r = .ok q) : s.Within q := by
  obtain ⟨v, -, e⟩ := bind_ok e
  obtain ⟨s₁, hs₁, e⟩ := bind_ok e
  refine Within.of_overHeap ?_ hs₁
  obtain ⟨x, -, e⟩ := bind_ok e
  split at e
  · cases e
  · obtain ⟨o, -, e⟩ := bind_ok e
    split at e
    · obtain ⟨s₂, hs₂, e⟩ := bind_ok e
      exact (within_after e).of_overHeap hs₂
    · cases e

theorem within_guard {ty : ObjType} (e : s.guard p r ty = .ok q) : s.Within q := by
  obtain ⟨v, -, e⟩ := bind_ok e
  obtain ⟨fits, -, e⟩ := bind_ok e
  split at e
  · cases e
    exact within_self
  · obtain ⟨text, -, e⟩ := bind_ok e
    cases e

theorem within_trace {loc : Location} (e : s.trace r loc = .ok q) : s.Within q := by
  obtain ⟨v, -, e⟩ := bind_ok e
  split at e
  · cases e
    exact within_self
  · obtain ⟨o, -, e⟩ := bind_ok e
    split at e
    · exact within_after e
    · cases e
      exact within_self

theorem within_finishClosure {unit : UnitId} {caps : List Reg}
    (e : s.finishClosure r unit caps = .ok q) : s.Within q := by
  obtain ⟨values, -, e⟩ := bind_ok e
  obtain ⟨s₁, hs₁, e⟩ := bind_ok e
  refine Within.of_overHeap ?_ hs₁
  obtain ⟨x, -, e⟩ := bind_ok e
  split at e
  · cases e
  · obtain ⟨o, -, e⟩ := bind_ok e
    split at e
    · obtain ⟨s₂, hs₂, e⟩ := bind_ok e
      refine Within.of_overHeap ?_ hs₂
      split at e
      · exact within_after e
      · cases e
        exact within_self
    · cases e

theorem within_endScope (e : s.endScope = .ok q) : s.Within q := by
  obtain ⟨m, callers, cur⟩ := s
  simp only [endScope] at e
  split at e
  · cases e
  · obtain ⟨h, cur, rfl, hcur⟩ := within_after e
    exact ⟨h, cur, rfl, hcur⟩

/-- Leaving the frame, from where the instruction has taken its arguments. -/
theorem turns_returnWith {h : Heap} (hi : i.isTerminal = true)
    (e : returnWith v ⟨s.machine.fed h i.takes, s.callers, s.parked⟩ = .ok q) : s.Turns i q := by
  obtain ⟨m₁, hm₁, e⟩ := bind_ok e
  obtain ⟨h₁, rfl⟩ := Machine.eq_of_overHeap hm₁
  obtain ⟨m₂, hm₂, e⟩ := bind_ok e
  obtain ⟨h₂, rfl⟩ := Machine.eq_of_overHeap hm₂
  dsimp only at e
  split at e
  · next hback =>
    cases e
    exact .leaves hi hback
  · next caller hback =>
    obtain ⟨m₃, hm₃, e⟩ := bind_ok e
    obtain ⟨h₃, rfl⟩ := Machine.eq_of_overHeap hm₃
    split at e
    · cases e
    · obtain ⟨cur, hcur, e⟩ := bind_ok e
      cases e
      exact .returns hi hback (Frame.place_of_write hcur).1 (Frame.place_of_write hcur).2

/-- The arguments of the instruction are given back, and an error value takes the place of the
result. -/
theorem turns_refuse {reason : CallRefusal} {args : List Value} {dst func : Reg} {nargs : Nat}
    {checked : Bool} {h : Heap}
    (e : refuse reason args dst ⟨s.machine.fed h nargs, s.callers, s.parked⟩ = .ok q) :
    s.Turns (.call dst func nargs checked) q := by
  obtain ⟨s₁, hs₁, e⟩ := bind_ok e
  obtain ⟨h₁, cur, rfl, hunit, hpc⟩ := (within_storeFrom e).of_overHeap hs₁
  exact .refuses hunit hpc

theorem turns_call {dst func : Reg} {nargs : Nat} {checked : Bool}
    (e : s.advance.call p limit dst func nargs checked = .ok q) :
    s.Turns (.call dst func nargs checked) q := by
  obtain ⟨⟨m, args⟩, htake, e⟩ := bind_ok e
  obtain rfl := Machine.eq_of_takeArgs htake
  obtain ⟨f, -, e⟩ := bind_ok e
  obtain ⟨out, -, e⟩ := bind_ok e
  split at e
  · split at e
    · exact turns_refuse e
    · obtain ⟨m, hm, e⟩ := bind_ok e
      obtain ⟨h, rfl⟩ := Machine.eq_of_overHeap hm
      obtain ⟨callee, hcallee, e⟩ := bind_ok e
      obtain ⟨u, -, hcallee⟩ := bind_ok hcallee
      cases hcallee
      cases e
      rw [Array.size_push]
      exact .enters rfl ⟨_, htake⟩
  · split at e
    · cases e
    · exact turns_refuse e

theorem turns_tailCall {func : Reg} {nargs : Nat}
    (e : s.advance.tailCall p func nargs = .ok q) : s.Turns (.tailCall func nargs) q := by
  obtain ⟨⟨m, args⟩, htake, e⟩ := bind_ok e
  obtain rfl := Machine.eq_of_takeArgs htake
  obtain ⟨f, -, e⟩ := bind_ok e
  obtain ⟨out, -, e⟩ := bind_ok e
  split at e
  · obtain ⟨m₁, hm₁, e⟩ := bind_ok e
    obtain ⟨h₁, rfl⟩ := Machine.eq_of_overHeap hm₁
    obtain ⟨m₂, hm₂, e⟩ := bind_ok e
    obtain ⟨h₂, rfl⟩ := Machine.eq_of_overHeap hm₂
    obtain ⟨callee, hcallee, e⟩ := bind_ok e
    obtain ⟨u, -, hcallee⟩ := bind_ok hcallee
    cases hcallee
    cases e
    exact .replaces rfl ⟨_, htake⟩
  · obtain ⟨m₁, hm₁, e⟩ := bind_ok e
    obtain ⟨h₁, rfl⟩ := Machine.eq_of_overHeap hm₁
    obtain ⟨m₂, hm₂, e⟩ := bind_ok e
    obtain ⟨h₂, rfl⟩ := Machine.eq_of_overHeap hm₂
    obtain ⟨m₃, hm₃, e⟩ := bind_ok e
    obtain ⟨h₃, rfl⟩ := Machine.eq_of_overHeap hm₃
    exact turns_returnWith rfl e

/-- **Every step is one of these.** -/
theorem turns_exec (e : s.advance.exec p limit i = .ok q) : s.Turns i q := by
  cases i with
  | nop => cases e; exact within_self.turns rfl
  | merge dst => cases e; exact within_self.turns rfl
  | done => exact turns_returnWith (h := s.machine.heap) rfl e
  | const dst k => exact (within_loadConst e).turns rfl
  | param dst idx =>
    simp only [exec] at e
    split at e
    · exact (within_store e).turns rfl
    · cases e
  | capture dst idx => exact (within_capture e).turns rfl
  | box dst src =>
    obtain ⟨v, -, e⟩ := bind_ok e
    obtain ⟨s₁, hs₁, e⟩ := bind_ok e
    exact ((within_storeFrom e).of_overHeap hs₁).turns rfl
  | unbox dst cell => exact (within_unbox e).turns rfl
  | assign cell src => exact (within_assign e).turns rfl
  | operate op dst lhs rhs checked =>
    obtain ⟨a, -, e⟩ := bind_ok e
    obtain ⟨b, -, e⟩ := bind_ok e
    exact (within_storeFrom e).turns rfl
  | test dst src =>
    obtain ⟨v, -, e⟩ := bind_ok e
    exact (within_store e).turns rfl
  | testType dst src ty =>
    obtain ⟨v, -, e⟩ := bind_ok e
    obtain ⟨fits, -, e⟩ := bind_ok e
    exact (within_store e).turns rfl
  | flag dst value => exact (within_store e).turns rfl
  | field dst src idx =>
    obtain ⟨v, -, e⟩ := bind_ok e
    exact (within_storeFrom e).turns rfl
  | make dst ty fields =>
    obtain ⟨values, -, e⟩ := bind_ok e
    obtain ⟨s₁, hs₁, e⟩ := bind_ok e
    exact ((within_storeFrom e).of_overHeap hs₁).turns rfl
  | guard src ty => exact (within_guard e).turns rfl
  | branch cond no =>
    obtain ⟨v, -, e⟩ := bind_ok e
    split at e
    · cases e
      exact within_self.turns rfl
    · cases e
      exact .stays rfl rfl (Or.inr rfl)
  | jump target =>
    cases e
    exact .stays rfl rfl (Or.inr rfl)
  | move dst src =>
    obtain ⟨v, -, e⟩ := bind_ok e
    obtain ⟨s₁, hs₁, e⟩ := bind_ok e
    exact ((within_store e).of_overHeap hs₁).turns rfl
  | push src =>
    obtain ⟨v, hv, e⟩ := bind_ok e
    obtain ⟨s₁, hs₁, e⟩ := bind_ok e
    obtain ⟨h, rfl⟩ := eq_of_overHeap hs₁
    cases e
    rw [Frame.read_ok hv]
    exact .pushes
  | call dst func nargs checked => exact turns_call e
  | tailCall func nargs => exact turns_tailCall e
  | ret src =>
    obtain ⟨v, -, e⟩ := bind_ok e
    exact turns_returnWith (h := s.machine.heap) rfl e
  | yield src =>
    obtain ⟨v, -, e⟩ := bind_ok e
    obtain ⟨m, hm, e⟩ := bind_ok e
    obtain ⟨h, rfl⟩ := Machine.eq_of_overHeap hm
    cases e
    exact .yields
  | trace src loc => exact (within_trace e).turns rfl
  | adjust op reg =>
    obtain ⟨v, -, e⟩ := bind_ok e
    obtain ⟨s₁, hs₁, e⟩ := bind_ok e
    obtain ⟨h, rfl⟩ := eq_of_overHeap hs₁
    cases e
    exact .adjusts
  | allocClosure dst =>
    simp only [exec] at e
    exact (within_storeFrom e).turns rfl
  | finishClosure dst unit caps => exact (within_finishClosure e).turns rfl
  | beginScope n =>
    cases e
    exact .stays rfl rfl (Or.inl rfl)
  | endScope n =>
    simp only [exec] at e
    exact (within_endScope e).turns rfl

theorem mem_of_mem_pop {f : Frame} {fs : Array Frame} (h : f ∈ fs.pop) : f ∈ fs := by
  rw [← Array.mem_toList_iff, Array.toList_pop] at h
  exact Array.mem_toList_iff.mp (List.mem_of_mem_dropLast h)

theorem turns_step (e : s.step p limit = .ok q) : ∃ i, s.fetch p = .ok i ∧ s.Turns i q := by
  obtain ⟨i, hi, e⟩ := bind_ok e
  exact ⟨i, hi, turns_exec e⟩

/-- The states that a machine at work goes through. -/
inductive Leads (p : Program) (limit : Nat) : Running → Running → Prop
  | refl (s : Running) : Leads p limit s s
  | step {s s₁ s₂ : Running} : s.step p limit = .ok (.more s₁) → Leads p limit s₁ s₂ →
      Leads p limit s s₂

/-- A run that ends takes steps, and then one that comes back to the host. -/
theorem leads_of_run {m : Machine} {o : Outcome} : ∀ {fuel : Nat} {s : Running},
    run p limit fuel s = .ok (m, o) → ∃ s', Leads p limit s s' ∧ s'.step p limit = .ok (.stop m o)
  | 0, _, e => by cases e
  | fuel + 1, s, e => by
    unfold run at e
    split at e
    · cases e
    · next m' o' hstep =>
      cases e
      exact ⟨s, .refl s, hstep⟩
    · next s₁ hstep =>
      obtain ⟨s', hlead, hstop⟩ := leads_of_run e
      exact ⟨s', .step hstep hlead, hstop⟩

end

end Running

/-! ## Hosts -/

namespace Host

/-- **The state in which an action sets the machine to work.** -/
def Begins (p : Program) (H : Host) : HostAction → Running → Prop
  | .run, s => ∃ cur, p.frame p.entry [] none none = .ok cur ∧
    s = ⟨H.machine.noteDepth 1, #[], cur⟩
  | .call f args, s => ∃ m₁ v m₂ vs unit m₃ cur, pass H.values H.machine f = .ok (m₁, v) ∧
    passAll H.values m₁ args = .ok (m₂, vs) ∧
    p.resolveCall m₂.heap v vs.length = .ok (.ok unit) ∧
    m₂.overHeap (·.incAll (v :: vs)) = .ok m₃ ∧ p.frame unit vs (some v) none = .ok cur ∧
    s = ⟨m₃.noteCall.noteDepth 1, #[], cur⟩
  | .resume handle, s => ∃ c cur, H.suspensions[handle]? = some (some c) ∧
    c.frames.back? = some cur ∧ s = ⟨H.machine, c.frames.pop, cur⟩
  | .release _, _ => False
  | .inspect _, _ => False

/-- **What the host holds** after some actions that are allowed. -/
inductive Reached (p : Program) (limits : Limits) (allowed : HostAction → Prop) : Host → Prop
  | load {m : Machine} : Machine.load p = .ok m → Reached p limits allowed ⟨m, #[], #[]⟩
  | act {H H' : Host} {a : HostAction} {reply : HostReply} : Reached p limits allowed H →
      allowed a → H.perform p limits a = .ok (H', reply) → Reached p limits allowed H'

/-- **The states in which the machine is at work**, between two instructions. -/
def Visited (p : Program) (limits : Limits) (allowed : HostAction → Prop) (s : Running) : Prop :=
  ∃ H a s₀, Reached p limits allowed H ∧ allowed a ∧ H.Begins p a s₀ ∧
    s₀.Leads p limits.frames s

section
variable {p : Program} {limits : Limits} {allowed : HostAction → Prop} {H H' : Host}
  {a : HostAction} {reply : HostReply} {s : Running} {m m' : Machine} {o : Outcome}

theorem machine_of_pass {values : Array Value} {x : HostValue} {v : Value}
    (e : pass values m x = .ok (m', v)) : ∃ h, m' = { m with heap := h } := by
  cases x with
  | held handle =>
    obtain ⟨w, -, e⟩ := bind_ok e
    cases e
    exact ⟨m.heap, rfl⟩
  | fresh text =>
    cases e
    exact ⟨_, rfl⟩
  | _ =>
    cases e
    exact ⟨_, rfl⟩

theorem machine_of_passAll {values : Array Value} : ∀ {xs : List HostValue} {m : Machine}
    {vs : List Value}, passAll values m xs = .ok (m', vs) → ∃ h, m' = { m with heap := h }
  | [], m, vs, e => by
    cases e
    exact ⟨_, rfl⟩
  | x :: xs, m, vs, e => by
    obtain ⟨⟨m₁, v⟩, h₁, e⟩ := bind_ok e
    obtain ⟨⟨m₂, ws⟩, h₂, e⟩ := bind_ok e
    cases e
    obtain ⟨h, rfl⟩ := machine_of_pass h₁
    obtain ⟨h', rfl⟩ := machine_of_passAll h₂
    exact ⟨h', rfl⟩

/-- The host while the machine is at work on an action: a chain that is resumed is no longer kept. -/
def parting (H : Host) : HostAction → Host
  | .resume handle => { H with suspensions := H.suspensions.setIfInBounds handle none }
  | _ => H

/-- The host after the machine has come back: it keeps what it is handed. -/
def receiving (H : Host) (m : Machine) : Outcome → Host
  | .returned v => ⟨m, H.values.push v, H.suspensions⟩
  | .yielded v c => ⟨m, H.values.push v, H.suspensions.push (some c)⟩

/-- What is handed out is kept. -/
theorem eq_of_receive {values : Array Value} {chains : Array (Option Suspension)}
    (e : receive p values chains (m, o) = .ok (H, reply)) :
    H = receiving ⟨m', values, chains⟩ m o := by
  cases o with
  | returned v =>
    obtain ⟨view, -, e⟩ := bind_ok e
    cases e
    rfl
  | yielded v c =>
    obtain ⟨view, -, e⟩ := bind_ok e
    cases e
    rfl

/-- The heap may have changed, and nothing was handed out. -/
def Rests (H H' : Host) : Prop :=
  ∃ h, H'.machine = { H.machine with heap := h } ∧ H'.suspensions = H.suspensions

/-- The machine came back with an outcome, and a chain that it yielded is kept. -/
def Receives (H : Host) (m : Machine) (o : Outcome) (H' : Host) : Prop :=
  H'.machine = m ∧
    ∀ c, some c ∈ H'.suspensions → some c ∈ H.suspensions ∨ ∃ v, o = .yielded v c

theorem mem_parting {c : Suspension} (hc : some c ∈ (H.parting a).suspensions) :
    some c ∈ H.suspensions := by
  cases a with
  | resume handle => exact (Array.mem_or_eq_of_mem_setIfInBounds hc).resolve_right nofun
  | _ => exact hc

theorem mem_receiving {c : Suspension} (hc : some c ∈ (H.receiving m o).suspensions) :
    some c ∈ H.suspensions ∨ ∃ v, o = .yielded v c := by
  cases o with
  | returned v => exact .inl hc
  | yielded v c' =>
    refine (Array.mem_push.mp hc).imp id fun hc => ?_
    exact ⟨v, by rw [Option.some.inj hc]⟩

theorem machine_receiving : (H.receiving m o).machine = m := by
  cases o <;> rfl

theorem receives_receiving (a : HostAction) : H.Receives m o ((H.parting a).receiving m o) :=
  ⟨machine_receiving, fun _ hc => (mem_receiving hc).imp mem_parting id⟩

/-- **An action changes the heap at most, or sets the machine to work.** -/
theorem perform_cases (e : H.perform p limits a = .ok (H', reply)) :
    (H.Rests H' ∧ ∀ s, ¬ H.Begins p a s) ∨ ∃ s m o, H.Begins p a s ∧
      Running.run p limits.frames limits.steps s = .ok (m, o) ∧ H' = (H.parting a).receiving m o := by
  obtain ⟨m, values, chains⟩ := H
  cases a with
  | run =>
    obtain ⟨⟨m', o⟩, hrun, e⟩ := bind_ok e
    obtain ⟨cur, hcur, hrun⟩ := bind_ok (faulting_ok hrun)
    exact Or.inr ⟨_, m', o, ⟨cur, hcur, rfl⟩, hrun, eq_of_receive e⟩
  | call f args =>
    obtain ⟨⟨m₁, v⟩, h₁, e⟩ := bind_ok e
    obtain ⟨⟨m₂, vs⟩, h₂, e⟩ := bind_ok e
    obtain ⟨out, hcall, e⟩ := bind_ok e
    obtain ⟨found, hfound, hcall⟩ := bind_ok (faulting_ok hcall)
    cases found with
    | error reason =>
      obtain ⟨why, -, hcall⟩ := bind_ok hcall
      cases hcall
      cases e
      obtain ⟨h, rfl⟩ := machine_of_pass h₁
      obtain ⟨h', rfl⟩ := machine_of_passAll h₂
      refine Or.inl ⟨⟨h', rfl, rfl⟩, ?_⟩
      rintro s ⟨m₁', v', m₂', vs', unit, m₃, cur, h₁', h₂', hunit, -⟩
      cases h₁.symm.trans h₁'
      cases h₂.symm.trans h₂'
      cases hfound.symm.trans hunit
    | ok unit =>
      obtain ⟨m₃, h₃, hcall⟩ := bind_ok hcall
      obtain ⟨cur, hcur, hcall⟩ := bind_ok hcall
      obtain ⟨⟨m₄, o⟩, hrun, hcall⟩ := bind_ok hcall
      cases hcall
      exact Or.inr ⟨_, m₄, o, ⟨m₁, v, m₂, vs, unit, m₃, cur, h₁, h₂, hfound, h₃, hcur, rfl⟩, hrun,
        eq_of_receive e⟩
  | resume handle =>
    simp only [perform] at e
    split at e
    · next c hc =>
      obtain ⟨⟨m', o⟩, hrun, e⟩ := bind_ok e
      have hrun := faulting_ok hrun
      unfold Machine.resume at hrun
      split at hrun
      · cases hrun
      · next cur hcur =>
        exact Or.inr ⟨_, m', o, ⟨c, cur, hc, hcur, rfl⟩, hrun, eq_of_receive e⟩
    · cases e
  | release handle =>
    obtain ⟨v, -, e⟩ := bind_ok e
    obtain ⟨m', hm', e⟩ := bind_ok e
    obtain ⟨h, rfl⟩ := Machine.eq_of_overHeap (faulting_ok hm')
    cases e
    exact Or.inl ⟨⟨h, rfl, rfl⟩, fun _ => id⟩
  | inspect handle =>
    obtain ⟨v, -, e⟩ := bind_ok e
    obtain ⟨view, -, e⟩ := bind_ok e
    cases e
    exact Or.inl ⟨⟨m.heap, rfl, rfl⟩, fun _ => id⟩

/-- **Induction over what a host does.** `I` is about the machine at work, `J` about the host between
its actions. -/
theorem invariant {I : Running → Prop} {J : Host → Prop}
    (load : ∀ m, Machine.load p = .ok m → J ⟨m, #[], #[]⟩)
    (rests : ∀ H H', J H → H.Rests H' → J H')
    (begins : ∀ H a s, J H → allowed a → H.Begins p a s → I s)
    (goes : ∀ s s', I s → s.step p limits.frames = .ok (.more s') → I s')
    (stops : ∀ H H' s m o, J H → I s → s.step p limits.frames = .ok (.stop m o) →
      H.Receives m o H' → J H') :
    (∀ H, Reached p limits allowed H → J H) ∧ ∀ s, Visited p limits allowed s → I s := by
  have hlead : ∀ {s s'}, Running.Leads p limits.frames s s' → I s → I s' := by
    intro s s' h
    induction h with
    | refl s => exact id
    | step hstep _ ih => exact fun hs => ih (goes _ _ hs hstep)
  have hreached : ∀ H, Reached p limits allowed H → J H := by
    intro H hH
    induction hH with
    | load hm => exact load _ hm
    | @act H H' a reply _ ha e ih =>
      rcases perform_cases e with ⟨hrest, -⟩ | ⟨s, m, o, hs, hrun, rfl⟩
      · exact rests H H' ih hrest
      · obtain ⟨s', hlead', hstop⟩ := Running.leads_of_run hrun
        exact stops H _ s' m o ih (hlead hlead' (begins H a s ih ha hs)) hstop (receives_receiving a)
  refine ⟨hreached, fun s hs => ?_⟩
  obtain ⟨H, a, s₀, hH, ha, hbegin, hleads⟩ := hs
  exact hlead hleads (begins H a s₀ (hreached H hH) ha hbegin)

end

end Host

end CountedMachine
