import CountedMachine.Machine.Run

/-! # The host's view of a machine

The host keeps every value that running has handed out and every chain that has yielded, and refers
to both by number. It runs, calls, resumes, releases and looks at values. A suspension can be
resumed once, a value can be released as often as the machine bears it. -/

namespace CountedMachine

/-- A value the host passes to a call: an immediate, a fresh text, or a value handed out before. -/
inductive HostValue
  | nil
  | bool (b : Bool)
  | num (x : Float)
  | fresh (s : String)
  | held (handle : Nat)

/-- What the host can do. -/
inductive HostAction
  | run
  | call (f : HostValue) (args : List HostValue)
  | resume (handle : Nat)
  | release (handle : Nat)
  | inspect (handle : Nat)

/-- A machine and what it has handed out. -/
structure Host where
  machine : Machine
  values : Array Value := #[]
  suspensions : Array (Option Suspension) := #[]

/-- What the host sees of a value. -/
structure ValueView where
  text : String
  rc : Option Nat
  undefined : Option String
  truthy : Bool

/-- The answer to an action. `depth` is the length of the chain that yielded. -/
inductive HostReply
  | returned (view : ValueView)
  | yielded (view : ValueView) (depth : Nat)
  | refused (e : CallError)
  | released
  | inspected (view : ValueView)

/-- Why an action has no answer: the host names something it does not hold, or a fault. -/
inductive HostFailure
  | unknownHandle
  | fault (f : Fault)

namespace Machine

/-- Look at a value. -/
def view (p : Program) (m : Machine) (v : Value) : Except Fault ValueView := do
  let text ← m.display p v
  let rc ← match v with
    | .obj r => some <$> m.heap.rc r
    | _ => pure none
  let undefined ← m.heap.errorTag? v
  return ⟨text, rc, undefined, v.truthy⟩

end Machine

namespace Host

/-- A computation whose faults are the host's. -/
def faulting {α : Type} (x : Except Fault α) : Except HostFailure α := x.mapError .fault

/-- The value a handle stands for. -/
def held (values : Array Value) (handle : Nat) : Except HostFailure Value :=
  match values[handle]? with
  | some v => .ok v
  | none => .error .unknownHandle

/-- Make a value to pass to a call. -/
def pass (values : Array Value) (m : Machine) : HostValue → Except HostFailure (Machine × Value)
  | .nil => .ok (m, .nil)
  | .bool b => .ok (m, .bool b)
  | .num x => .ok (m, .num x)
  | .fresh s => .ok (m.allocate (.str s))
  | .held handle => do return (m, ← held values handle)

/-- Make the values to pass to a call, from left to right. -/
def passAll (values : Array Value) (m : Machine) :
    List HostValue → Except HostFailure (Machine × List Value)
  | [] => .ok (m, [])
  | a :: rest => do
    let (m, v) ← pass values m a
    let (m, vs) ← passAll values m rest
    return (m, v :: vs)

/-- Take in what running came to. -/
def receive (p : Program) (values : Array Value) (suspensions : Array (Option Suspension)) :
    Machine × Outcome → Except HostFailure (Host × HostReply)
  | (m, .returned v) => do
    let view ← faulting (m.view p v)
    return (⟨m, values.push v, suspensions⟩, .returned view)
  | (m, .yielded v s) => do
    let view ← faulting (m.view p v)
    return (⟨m, values.push v, suspensions.push (some s)⟩, .yielded view s.depth)

/-- **Carry out an action.** -/
def perform (p : Program) (limits : Limits) : Host → HostAction →
    Except HostFailure (Host × HostReply)
  | ⟨m, values, suspensions⟩, .run => do
    receive p values suspensions (← faulting (m.run p limits))
  | ⟨m, values, suspensions⟩, .call f args => do
    let (m, f) ← pass values m f
    let (m, args) ← passAll values m args
    match ← faulting (m.call p limits f args) with
    | .ok out => receive p values suspensions out
    | .error e => return (⟨m, values, suspensions⟩, .refused e)
  | ⟨m, values, suspensions⟩, .resume handle =>
    match suspensions[handle]? with
    | some (some s) => do
      let suspensions := suspensions.setIfInBounds handle none
      receive p values suspensions (← faulting (m.resume p limits s))
    | _ => .error .unknownHandle
  | ⟨m, values, suspensions⟩, .release handle => do
    let v ← held values handle
    return (⟨← faulting (m.release v), values, suspensions⟩, .released)
  | ⟨m, values, suspensions⟩, .inspect handle => do
    let v ← held values handle
    let view ← faulting (m.view p v)
    return (⟨m, values, suspensions⟩, .inspected view)

/-- What the host does next when it has no plans of its own: after the action that was answered,
release the value handed out last, and go on with the chain that yielded it. -/
def followUp (h : Host) : HostReply → Option HostAction
  | .returned _ => some (.release (h.values.size - 1))
  | .yielded _ _ => some (.release (h.values.size - 1))
  | .released =>
    match h.suspensions.back? with
    | some (some _) => some (.resume (h.suspensions.size - 1))
    | _ => none
  | _ => none

end Host

end CountedMachine
