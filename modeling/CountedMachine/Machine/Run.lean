import CountedMachine.Machine.Step

/-! # Running a program

The host starts the entry unit, calls function values and resumes suspended chains; each runs until
the chain returns or yields. A call is refused when the value is no function or takes another number
of arguments. -/

namespace CountedMachine

/-- Why the host's call is refused. -/
inductive CallError
  | notAFunction
  | arity (expected got : Nat)
  deriving Repr, DecidableEq

namespace CallError

/-- An error in words. -/
def message : CallError → String
  | .notAFunction => "value is not a function"
  | .arity expected got => s!"function takes {expected} arguments, got {got}"

end CallError

namespace Running

/-- Run for at most the given number of steps. -/
def run (p : Program) (frameLimit : Nat) : Nat → Running → Except Fault (Machine × Outcome)
  | 0, _ => .error .exhausted
  | fuel + 1, s =>
    match s.step p frameLimit with
    | .error f => .error f
    | .ok (.stop m o) => .ok (m, o)
    | .ok (.more s) => run p frameLimit fuel s

end Running

namespace Machine

/-- Run a chain whose only frame is `cur`. -/
def start (p : Program) (limits : Limits) (m : Machine) (cur : Frame) :
    Except Fault (Machine × Outcome) :=
  Running.run p limits.frames limits.steps ⟨m.noteDepth 1, #[], cur⟩

/-- **Evaluate the entry unit.** -/
def run (p : Program) (limits : Limits) (m : Machine) : Except Fault (Machine × Outcome) := do
  m.start p limits (← p.frame p.entry [] none none)

/-- What the host learns about a refused call. -/
def callError (p : Program) (m : Machine) (f : Value) (nargs : Nat) :
    CallRefusal → Except Fault CallError
  | .arity => do
    match ← m.heap.closure? f with
    | some c => return .arity (← p.unit c.unit).arity nargs
    | none => return .arity 0 nargs
  | _ => .ok .notAFunction

/-- **Call a function value.** The call owns references to the function and the arguments. -/
def call (p : Program) (limits : Limits) (m : Machine) (f : Value) (args : List Value) :
    Except Fault (Except CallError (Machine × Outcome)) := do
  match ← p.resolveCall m.heap f args.length with
  | .error reason => return .error (← m.callError p f args.length reason)
  | .ok unit =>
    let m ← m.overHeap (·.incAll (f :: args))
    let cur ← p.frame unit args (some f) none
    return .ok (← m.noteCall.start p limits cur)

/-- **Resume a suspended chain.** -/
def resume (p : Program) (limits : Limits) (m : Machine) (s : Suspension) :
    Except Fault (Machine × Outcome) :=
  match s.frames.back? with
  | none => .error .emptySuspension
  | some cur => Running.run p limits.frames limits.steps ⟨m, s.frames.pop, cur⟩

/-- A value as text. -/
def display (p : Program) (m : Machine) (v : Value) : Except Fault String :=
  m.heap.display p.types v

/-- **Give back a reference** obtained from an outcome. -/
def release (m : Machine) (v : Value) : Except Fault Machine := m.overHeap (·.unref v)

end Machine

end CountedMachine
