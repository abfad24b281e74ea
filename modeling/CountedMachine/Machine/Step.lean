import CountedMachine.Machine.State
import CountedMachine.Number.Remainder

/-! # One step of the machine

`step` fetches the instruction at the program counter of the current frame, moves the counter on and
carries the instruction out. Calls push a frame, tail calls replace it, returning pops it; the chain
of frames is data, so nothing here is recursive. -/

namespace CountedMachine

/-- Why a call does not take place. -/
inductive CallRefusal
  | notAFunction
  | arity
  | stackOverflow
  deriving Repr, DecidableEq

/-- The tag of the error value that a refused call results in. -/
def CallRefusal.tag : CallRefusal → String
  | .notAFunction => "not-a-function"
  | .arity => "arity-error"
  | .stackOverflow => "stack-overflow"

namespace Program

/-- The unit that runs when `f` is called with `nargs` arguments, or why there is none. -/
def resolveCall (p : Program) (h : Heap) (f : Value) (nargs : Nat) :
    Except Fault (Except CallRefusal UnitId) := do
  match ← h.closure? f with
  | some c =>
    if c.isFinished then
      if (← p.unit c.unit).arity = nargs then return .ok c.unit
      else return .error .arity
    else return .error .notAFunction
  | none => return .error .notAFunction

end Program

namespace Heap

/-- The value is an object of a pattern's type. -/
def isOfType (h : Heap) (v : Value) (ty : ObjType) : Except Fault Bool :=
  match v with
  | .obj r => do
    match ← h.get r with
    | .cons _ _ => return ty = .cons
    | .undefined _ _ => return ty = .undefined
    | .struct id _ => return ty = .struct id
    | _ => return false
  | _ => .ok false

/-- A field of a pair, a struct or an error value. The tag of an error value is made into a fresh
text. -/
def field (h : Heap) (v : Value) (idx : Nat) : Except Fault (Heap × Value) :=
  match v with
  | .obj r => do
    match ← h.get r with
    | .cons a b =>
      match idx with
      | 0 => return (h, a)
      | 1 => return (h, b)
      | _ => throw (.noConsField idx)
    | .struct _ fields =>
      match fields[idx]? with
      | some v => return (h, v)
      | none => throw .outOfBounds
    | .undefined tag _ => return h.allocate (.str tag)
    | _ => throw .noFields
  | _ => .error .fieldOfImmediate

/-- The text a value is. -/
def textOf? (h : Heap) (v : Value) : Except Fault (Option String) :=
  match v with
  | .obj r => do
    match ← h.get r with
    | .str s => return some s
    | _ => return none
  | _ => .ok none

end Heap

namespace Operator

/-- An operator on two numbers; equality and pairing are not among them. -/
def onNumbers (op : Operator) (x y : Float) : Option Value :=
  match op with
  | .add => some (.num (x + y))
  | .sub => some (.num (x - y))
  | .mul => some (.num (x * y))
  | .div => some (.num (x / y))
  | .mod => some (.num (Number.remainder x y))
  | .lt => some (.bool (x < y))
  | .le => some (.bool (x ≤ y))
  | .gt => some (.bool (y < x))
  | .ge => some (.bool (y ≤ x))
  | .eq => none
  | .ne => none
  | .cons => none

/-- An operator on two texts: joining, or comparing by code points. -/
def onTexts (op : Operator) (h : Heap) (s t : String) : Heap × Value :=
  match op with
  | .add => h.allocate (.str (s ++ t))
  | .lt => (h, .bool (s < t))
  | .le => (h, .bool (!(t < s)))
  | .gt => (h, .bool (t < s))
  | .ge => (h, .bool (!(s < t)))
  | _ => h.undefined "type-error"

/-- An arithmetic or ordering operator. Without `checked`, operands other than numbers are a
fault. -/
def arithmetic (op : Operator) (h : Heap) (a b : Value) (checked : Bool) :
    Except Fault (Heap × Value) := do
  let onOthers : Except Fault (Heap × Value) := do
    if !checked then throw (.uncheckedOperator op)
    let s ← h.textOf? a
    let t ← h.textOf? b
    match s, t with
    | some s, some t => return op.onTexts h s t
    | _, _ => return h.undefined "type-error"
  match a, b with
  | .num x, .num y =>
    match op.onNumbers x y with
    | some v => return (h, v)
    | none => onOthers
  | _, _ => onOthers

/-- **An operator on two values.** -/
def eval (op : Operator) (h : Heap) (a b : Value) (checked : Bool) :
    Except Fault (Heap × Value) := do
  match op with
  | .cons =>
    let h ← h.inc a
    let h ← h.inc b
    return h.allocate (.cons a b)
  | .eq => return (h, .bool (← h.equal a b))
  | .ne => return (h, .bool (!(← h.equal a b)))
  | _ => op.arithmetic h a b checked

end Operator

namespace Running

/-- Change the heap. -/
def overHeap (f : Heap → Except Fault Heap) : Running → Except Fault Running
  | ⟨m, callers, cur⟩ => do return ⟨← m.overHeap f, callers, cur⟩

/-- Put a value into a register of the current frame. -/
def write (dst : Reg) (v : Value) : Running → Except Fault Running
  | ⟨m, callers, cur⟩ => do return ⟨m, callers, ← cur.write dst v⟩

/-- Go on after putting a value into a register. -/
def store (s : Running) (dst : Reg) (v : Value) : Except Fault Progress := do
  return .more (← s.write dst v)

/-- Go on after an operation on the heap whose result goes into a register. -/
def storeFrom (f : Heap → Except Fault (Heap × Value)) (dst : Reg) :
    Running → Except Fault Progress
  | ⟨⟨heap, consts, stack, stats⟩, callers, cur⟩ => do
    let (heap, v) ← f heap
    return .more ⟨⟨heap, consts, stack, stats⟩, callers, ← cur.write dst v⟩

/-- Go on after a change of the heap. -/
def after (f : Heap → Except Fault Heap) (s : Running) : Except Fault Progress := do
  return .more (← s.overHeap f)

/-- Go on elsewhere in the unit. -/
def goto (pc : Nat) : Running → Progress
  | ⟨m, callers, cur⟩ => .more ⟨m, callers, { cur with pc := pc }⟩

/-- **Leave the current frame** with a value that carries one reference: its arguments and closure
are given back, and the caller receives the value without a reference of its own. -/
def returnWith (v : Value) : Running → Except Fault Progress
  | ⟨m, callers, cur⟩ => do
    let m ← m.overHeap (·.unrefAll cur.args)
    let m ← m.overHeap (·.unrefAll cur.closure.toList)
    match callers.back? with
    | none => return .stop m (.returned v)
    | some caller =>
      let m ← m.overHeap (·.release v)
      match cur.ret with
      | none => throw .noResultRegister
      | some dst => return .more ⟨m, callers.pop, ← caller.write dst v⟩

/-- Enter a function: the current frame becomes the last of the callers. -/
def enter (p : Program) (unit : UnitId) (f : Value) (args : List Value) (dst : Reg) :
    Running → Except Fault Progress
  | ⟨m, callers, cur⟩ => do
    let m ← m.overHeap (·.inc f)
    let callee ← p.frame unit args (some f) (some dst)
    let callers := callers.push cur
    return .more ⟨(m.noteCall).noteDepth (callers.size + 1), callers, callee⟩

/-- A call that does not take place gives back its arguments and results in an error value. -/
def refuse (reason : CallRefusal) (args : List Value) (dst : Reg) (s : Running) :
    Except Fault Progress := do
  let s ← s.overHeap (·.unrefAll args)
  s.storeFrom (fun h => .ok (h.undefined reason.tag)) dst

/-- **A call.** It is refused when the chain of frames has reached its limit. -/
def call (p : Program) (frameLimit : Nat) (dst func : Reg) (nargs : Nat) (checked : Bool) :
    Running → Except Fault Progress
  | ⟨m, callers, cur⟩ => do
    let (m, args) ← m.takeArgs nargs
    let f ← cur.read func
    match ← p.resolveCall m.heap f nargs with
    | .ok unit =>
      if frameLimit ≤ callers.size + 1 then refuse .stackOverflow args dst ⟨m, callers, cur⟩
      else enter p unit f args dst ⟨m, callers, cur⟩
    | .error reason =>
      if !checked then throw (.uncheckedCall cur.unit reason.tag)
      refuse reason args dst ⟨m, callers, cur⟩

/-- Replace the current frame by a call whose closure reference it takes over. -/
def replace (p : Program) (unit : UnitId) (f : Value) (args : List Value) :
    Running → Except Fault Progress
  | ⟨m, callers, cur⟩ => do
    let m ← m.overHeap (·.unrefAll cur.args)
    let m ← m.overHeap (·.unrefAll cur.closure.toList)
    let callee ← p.frame unit args (some f) cur.ret
    return .more ⟨m.noteTailCall, callers, callee⟩

/-- **A tail call.** A refused one leaves the current frame with an error value. -/
def tailCall (p : Program) (func : Reg) (nargs : Nat) : Running → Except Fault Progress
  | ⟨m, callers, cur⟩ => do
    let (m, args) ← m.takeArgs nargs
    let f ← cur.read func
    match ← p.resolveCall m.heap f nargs with
    | .ok unit => replace p unit f args ⟨m, callers, cur⟩
    | .error reason =>
      let m ← m.overHeap (·.unrefAll args)
      let m ← m.overHeap (·.unref f)
      let (m, err) := m.allocate (.undefined reason.tag [])
      let m ← m.overHeap (·.inc err)
      returnWith err ⟨m, callers, cur⟩

/-- Hand the chain of frames to the host with a value. -/
def suspend (v : Value) : Running → Except Fault Progress
  | ⟨m, callers, cur⟩ => do
    let m ← m.overHeap (·.inc v)
    return .stop m (.yielded v ⟨callers.push cur⟩)

/-- Give a closure its code and captures, and let it join the innermost open scope. -/
def finishClosure (dst : Reg) (unit : UnitId) (caps : List Reg) (s : Running) :
    Except Fault Progress := do
  let values ← s.cur.readAll caps
  let s ← s.overHeap (·.incAll values)
  match (← s.cur.read dst).asObj? with
  | none => throw .finishNotObject
  | some r =>
    match ← s.machine.heap.get r with
    | .closure c =>
      let c := { c with unit := unit, caps := values, weak := values.map fun _ => false }
      let s ← s.overHeap (·.put r (.closure c))
      match s.cur.scopes with
      | g :: _ => s.after (·.enrol g r)
      | [] => return .more s
    | _ => throw .finishNotClosure

/-- Open a recursive scope. -/
def beginScope (n : Nat) : Running → Progress
  | ⟨⟨heap, consts, stack, stats⟩, callers, cur⟩ =>
    let (heap, g) := heap.openScope n
    .more ⟨⟨heap, consts, stack, stats⟩, callers, { cur with scopes := g :: cur.scopes }⟩

/-- Seal the innermost open scope. -/
def endScope : Running → Except Fault Progress
  | ⟨m, callers, cur⟩ =>
    match cur.scopes with
    | [] => .error .noOpenScope
    | g :: scopes => after (·.sealScope g) ⟨m, callers, { cur with scopes := scopes }⟩

/-- Load a capture of the running closure. -/
def capture (dst : Reg) (idx : Nat) (s : Running) : Except Fault Progress := do
  let closure ← match s.cur.closure with
    | some f => s.machine.heap.closure? f
    | none => pure none
  match closure with
  | none => throw (.noClosure s.cur.unit)
  | some c =>
    match c.caps[idx]? with
    | some v => s.store dst v
    | none => throw .outOfBounds

/-- Load a constant; an undefined one is made afresh. -/
def loadConst (p : Program) (dst : Reg) (k : ConstId) (s : Running) : Except Fault Progress :=
  match p.consts[k.index]? with
  | none => .error .outOfBounds
  | some (.undefined tag) => s.storeFrom (fun h => .ok (h.undefined tag)) dst
  | some _ =>
    match s.machine.consts[k.index]? with
    | some v => s.store dst v
    | none => .error .outOfBounds

/-- The content of the cell a value points at. -/
def unbox (dst cell : Reg) (s : Running) : Except Fault Progress := do
  match (← s.cur.read cell).asObj? with
  | none => throw .derefNotCell
  | some r =>
    match ← s.machine.heap.get r with
    | .cell v => s.store dst v
    | _ => throw .derefNotCell

/-- Overwrite the content of a cell; the new content is acquired before the old one is let go. -/
def assign (cell src : Reg) (s : Running) : Except Fault Progress := do
  let v ← s.cur.read src
  let s ← s.overHeap (·.inc v)
  match (← s.cur.read cell).asObj? with
  | none => throw .setNotCell
  | some r =>
    match ← s.machine.heap.get r with
    | .cell old =>
      let s ← s.overHeap (·.put r (.cell v))
      s.after (·.unref old)
    | _ => throw .setNotCell

/-- A value of another type than the one asked for ends the program. -/
def guard (p : Program) (src : Reg) (ty : ObjType) (s : Running) : Except Fault Progress := do
  let v ← s.cur.read src
  if ← s.machine.heap.isOfType v ty then return .more s
  else throw (.guardFailed s.cur.unit ty (← s.machine.heap.display p.types v))

/-- Note a place on an error value. -/
def trace (src : Reg) (loc : Location) (s : Running) : Except Fault Progress := do
  match (← s.cur.read src).asObj? with
  | none => return .more s
  | some r =>
    match ← s.machine.heap.get r with
    | .undefined tag places => s.after (·.put r (.undefined tag (places ++ [loc])))
    | _ => return .more s

/-- The heap operation of an ownership instruction. -/
def adjust (op : CountOp) (h : Heap) (v : Value) : Except Fault Heap :=
  match op with
  | .inc => h.inc v
  | .dec => h.release v
  | .drop => h.drop v
  | .unref => h.unref v

/-- **Carry out an instruction.** -/
def exec (p : Program) (frameLimit : Nat) (i : Instr Nat) (s : Running) :
    Except Fault Progress := do
  match i with
  | .nop => return .more s
  | .merge _ => return .more s
  | .done => s.returnWith .nil
  | .const dst k => s.loadConst p dst k
  | .param dst idx =>
    match s.cur.args[idx]? with
    | some v => s.store dst v
    | none => throw .outOfBounds
  | .capture dst idx => s.capture dst idx
  | .box dst src =>
    let v ← s.cur.read src
    let s ← s.overHeap (·.inc v)
    s.storeFrom (fun h => .ok (h.allocate (.cell v))) dst
  | .unbox dst cell => s.unbox dst cell
  | .assign cell src => s.assign cell src
  | .operate op dst lhs rhs checked =>
    let a ← s.cur.read lhs
    let b ← s.cur.read rhs
    s.storeFrom (fun h => op.eval h a b checked) dst
  | .test dst src =>
    let v ← s.cur.read src
    s.store dst (.bool v.truthy)
  | .testType dst src ty =>
    let v ← s.cur.read src
    let fits ← s.machine.heap.isOfType v ty
    s.store dst (.bool fits)
  | .flag dst value => s.store dst (.bool value)
  | .field dst src idx =>
    let v ← s.cur.read src
    s.storeFrom (fun h => h.field v idx) dst
  | .make dst ty fields =>
    let values ← s.cur.readAll fields
    let s ← s.overHeap (·.incAll values)
    s.storeFrom (fun h => .ok (h.allocate (.struct ty values))) dst
  | .guard src ty => s.guard p src ty
  | .branch cond no =>
    let v ← s.cur.read cond
    if v.truthy then return .more s else return s.goto no
  | .jump target => return s.goto target
  | .move dst src =>
    let v ← s.cur.read src
    let s ← s.overHeap (·.inc v)
    s.store dst v
  | .push src =>
    let v ← s.cur.read src
    let ⟨m, callers, cur⟩ ← s.overHeap (·.inc v)
    return .more ⟨m.push v, callers, cur⟩
  | .call dst func nargs checked => s.call p frameLimit dst func nargs checked
  | .tailCall func nargs => s.tailCall p func nargs
  | .ret src => s.returnWith (← s.cur.read src)
  | .yield src => s.suspend (← s.cur.read src)
  | .trace src loc => s.trace src loc
  | .adjust op reg =>
    let v ← s.cur.read reg
    s.after fun h => adjust op h v
  | .allocClosure dst =>
    s.storeFrom (fun h => do
      let (h, v) := h.allocate (.closure .blank)
      return (← h.inc v, v)) dst
  | .finishClosure dst unit caps => s.finishClosure dst unit caps
  | .beginScope n => return s.beginScope n
  | .endScope _ => s.endScope

/-- The instruction at the program counter. -/
def fetch (p : Program) (s : Running) : Except Fault (Instr Nat) := do
  match (← p.unit s.cur.unit).code[s.cur.pc]? with
  | some i => return i
  | none => throw .outOfBounds

/-- Move the program counter on. -/
def advance : Running → Running
  | ⟨m, callers, cur⟩ => ⟨m, callers, { cur with pc := cur.pc + 1 }⟩

/-- **One step.** -/
def step (p : Program) (frameLimit : Nat) (s : Running) : Except Fault Progress := do
  let i ← s.fetch p
  s.advance.exec p frameLimit i

end Running

end CountedMachine
