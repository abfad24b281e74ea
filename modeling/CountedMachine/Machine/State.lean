import CountedMachine.Code.Program
import CountedMachine.Heap.Reclaim
import CountedMachine.Heap.Inspect

/-! # The state of the machine

A machine holds a heap, the loaded constants, the stack on which arguments are passed, and counts of
what it has done. While it runs there is also a chain of frames: the current one, and its callers
with the innermost last. A yield hands the whole chain to the host as a suspension. -/

namespace CountedMachine

/-- A call in progress. It owns references to its arguments and its closure. `ret` is the register
of the caller that receives the result, absent where the host called. -/
structure Frame where
  unit : UnitId
  pc : Nat
  regs : Array Value
  args : List Value
  closure : Option Value
  ret : Option Reg
  scopes : List ScopeId
  deriving Inhabited

namespace Frame

/-- The value in a register. -/
def read (f : Frame) (r : Reg) : Except Fault Value :=
  match f.regs[r.index]? with
  | some v => .ok v
  | none => .error .outOfBounds

/-- Put a value into a register. -/
def write (f : Frame) (r : Reg) (v : Value) : Except Fault Frame :=
  if r.index < f.regs.size then .ok { f with regs := f.regs.setIfInBounds r.index v }
  else .error .outOfBounds

/-- The values in some registers. -/
def readAll (f : Frame) (rs : List Reg) : Except Fault (List Value) := rs.mapM f.read

end Frame

/-- What a machine has done so far: calls, tail calls and the length of the longest chain. -/
structure CallCounts where
  calls : Nat := 0
  tailCalls : Nat := 0
  deepest : Nat := 0
  deriving Repr, DecidableEq

/-- How far a run may go: the length of a chain of frames, and the steps until the machine comes
back to the host. A call beyond the first limit results in an error value; the second is far beyond
every run that ends. -/
structure Limits where
  frames : Nat := 10000
  steps : Nat := 1 <<< 60
  deriving Repr, DecidableEq

/-- A loaded machine. The stack has the argument pushed last first. -/
structure Machine where
  heap : Heap
  consts : Array Value
  stack : List Value
  stats : CallCounts

/-- A chain of frames that has yielded, the one that yielded last. -/
structure Suspension where
  frames : Array Frame

/-- The number of frames of a suspended chain. -/
def Suspension.depth (s : Suspension) : Nat := s.frames.size

/-- What running comes to: a result, or a yielded value and the chain that yielded it. The host owns
a reference to the value. -/
inductive Outcome
  | returned (v : Value)
  | yielded (v : Value) (s : Suspension)

/-- A machine at work on the current frame. -/
structure Running where
  machine : Machine
  callers : Array Frame
  cur : Frame

/-- The state after a step: at work, or back at the host. -/
inductive Progress
  | more (s : Running)
  | stop (m : Machine) (o : Outcome)

namespace Program

/-- A unit of the program. -/
def unit (p : Program) (id : UnitId) : Except Fault CodeUnit :=
  match p.units[id.index]? with
  | some u => .ok u
  | none => .error .outOfBounds

/-- A fresh frame for a unit, with all registers nil. -/
def frame (p : Program) (id : UnitId) (args : List Value) (closure : Option Value)
    (ret : Option Reg) : Except Fault Frame := do
  let u ← p.unit id
  return ⟨id, 0, Array.replicate u.nregs .nil, args, closure, ret, []⟩

end Program

namespace Machine

/-- Put a constant into the heap. An undefined constant is made afresh by each load. -/
def loadConst (h : Heap) : Constant → Heap × Value
  | .nil => (h, .nil)
  | .undefined _ => (h, .nil)
  | .bool b => (h, .bool b)
  | .num x => (h, .num x)
  | .str s => h.allocate (.str s)
  | .closure unit => h.allocate (.closure (.plain unit))

/-- Put a constant into the heap and let the pool own it. -/
def loadStep : Heap × Array Value → Constant → Except Fault (Heap × Array Value)
  | (h, consts), k => do
    let (h, v) := loadConst h k
    return (← h.inc v, consts.push v)

/-- **Load a program.** -/
def load (p : Program) : Except Fault Machine := do
  let (heap, consts) ← p.consts.foldlM loadStep (Heap.empty, #[])
  return ⟨heap, consts, [], {}⟩

/-- Change the heap of a machine. -/
def overHeap (f : Heap → Except Fault Heap) : Machine → Except Fault Machine
  | ⟨heap, consts, stack, stats⟩ => do return ⟨← f heap, consts, stack, stats⟩

/-- Allocate an object. -/
def allocate (obj : Object) : Machine → Machine × Value
  | ⟨heap, consts, stack, stats⟩ =>
    let (heap, v) := heap.allocate obj
    (⟨heap, consts, stack, stats⟩, v)

/-- Note the length of a chain. -/
def noteDepth (n : Nat) : Machine → Machine
  | ⟨heap, consts, stack, stats⟩ =>
    ⟨heap, consts, stack, { stats with deepest := max stats.deepest n }⟩

/-- Count a call. -/
def noteCall : Machine → Machine
  | ⟨heap, consts, stack, stats⟩ =>
    ⟨heap, consts, stack, { stats with calls := stats.calls + 1 }⟩

/-- Count a tail call. -/
def noteTailCall : Machine → Machine
  | ⟨heap, consts, stack, stats⟩ =>
    ⟨heap, consts, stack, { stats with tailCalls := stats.tailCalls + 1 }⟩

/-- Put an argument on the stack. -/
def push (v : Value) : Machine → Machine
  | ⟨heap, consts, stack, stats⟩ => ⟨heap, consts, v :: stack, stats⟩

/-- Take the arguments pushed last off the stack, in the order in which they were pushed. -/
def takeArgs (n : Nat) : Machine → Except Fault (Machine × List Value)
  | ⟨heap, consts, stack, stats⟩ =>
    if stack.length < n then .error (.tooFewArguments stack.length n)
    else .ok (⟨heap, consts, stack.drop n, stats⟩, (stack.take n).reverse)

/-- **Unload the machine:** give back the arguments on the stack and the constants. -/
def unload (m : Machine) : Except Fault Heap := do
  let h ← m.heap.unrefAll m.stack.reverse
  h.unrefAll m.consts.toList

end Machine

end CountedMachine
