import CountedMachine.Code.Program
import CountedMachine.Generation.Settings
import CountedMachine.Listing.Control
import Std.Data.HashMap

/-! # The draft of a unit

The state of code generation is what has been finished so far (units, constants, known functions)
and the draft of one more unit: its listing, the stack of variables in scope, and what is known
about its registers beyond their recorded types. The steps here write single instructions, branches
and the early return of error values. -/

namespace CountedMachine

/-- A variable in scope. A mutable one is kept in a cell. -/
structure Variable where
  reg : Reg
  mutable : Bool
  deriving Repr, DecidableEq

/-- A function without captures whose code is known where it is called. -/
structure KnownFunction where
  arity : Nat
  body : Expr

/-- A unit in the making. The stack has the most recent variable first. `known` gives the number of
the known function in a register. `narrowed` holds types that are certain only after the error
check of their instruction; they never decide ownership. `inlined` counts the calls around this
point that were replaced by a body. -/
structure Draft where
  listing : Listing := .empty
  stack : List Variable := []
  known : Std.HashMap Reg Nat := ∅
  narrowed : Std.HashMap Reg StaticType := ∅
  inlined : Nat := 0

/-- A branch that is not complete: its node, and the jump at the end of its first arm, once the
other one has begun. -/
structure Branch where
  node : NodeId
  jump : Option NodeId

/-- The state of code generation. -/
structure GenState where
  units : Array CodeUnit := #[]
  pool : Array Constant := #[]
  functions : Array KnownFunction := #[]
  draft : Draft := {}

/-- A step of code generation. -/
abbrev Gen := StateT GenState (Except Failure)

/-- What does not change: the settings and the declared structs. -/
structure Context where
  settings : Settings
  types : Array StructType

namespace Gen

/-- Refuse the module. -/
def refuse {α : Type} (e : Refusal) : Gen α := throw (.refused e)

/-- A computation that may end in a fault. -/
def faulting {α : Type} (x : Except Fault α) : Gen α :=
  match x with
  | .ok a => pure a
  | .error f => throw (.fault f)

/-- The unit in the making. -/
def draft : Gen Draft := do return (← get).draft

/-- Change the unit in the making. -/
def modifyDraft (f : Draft → Draft) : Gen Unit :=
  modify fun s => { s with draft := f s.draft }

/-- Replace the listing. -/
def setListing (l : Listing) : Gen Unit := modifyDraft ({ · with listing := l })

/-- Write an instruction and return its node. -/
def writeNode (i : Instr NodeId) : Gen NodeId := do
  let (l, id) ← faulting ((← draft).listing.insert i)
  setListing l
  return id

/-- Write an instruction. -/
def write (i : Instr NodeId) : Gen Unit := do
  let _ ← writeNode i

/-- Make a register, with a type where it is known. -/
def freshReg (role : RegRole) (type : Option StaticType) : Gen Reg := do
  let (l, r) := (← draft).listing.freshReg role
  let l ← if type.isSome then faulting (l.recordType r type) else pure l
  setListing l
  return r

/-- What is known of the type of a register, narrowed or recorded. -/
def knownType (r : Reg) : Gen (Option StaticType) := do
  let d ← draft
  match d.narrowed[r]? with
  | some t => return some t
  | none => faulting (d.listing.typeOf r)

/-- Note a type that holds after an error check. -/
def narrow (r : Reg) (t : StaticType) : Gen Unit :=
  modifyDraft fun d => { d with narrowed := d.narrowed.insert r t }

/-! ## The stack of variables -/

/-- The variable at an offset from the top. -/
def variableAt (offset : Nat) : Gen Variable := do
  let stack := (← draft).stack
  match stack[offset]? with
  | some v => return v
  | none => refuse (.unboundOffset offset stack.length)

/-- Put a variable on the stack. -/
def pushVariable (v : Variable) : Gen Unit :=
  modifyDraft fun d => { d with stack := v :: d.stack }

/-- Bind an immutable variable to a register. -/
def bindReg (r : Reg) : Gen Unit := pushVariable ⟨r, false⟩

/-- The number of variables in scope. -/
def height : Gen Nat := do return (← draft).stack.length

/-- Forget all variables above a height. -/
def forgetAbove (n : Nat) : Gen Unit :=
  modifyDraft fun d => { d with stack := d.stack.drop (d.stack.length - n) }

/-! ## Constants -/

/-- The pool entry of a constant, added where there is none. -/
def pooled (c : Constant) : Gen ConstId := do
  let pool := (← get).pool
  match pool.findIdx? (·.same c) with
  | some i => return ⟨i⟩
  | none =>
    modify fun s => { s with pool := s.pool.push c }
    return ⟨pool.size⟩

/-- Load a constant into a new register. -/
def loadConstant (c : Constant) : Gen Reg := do
  let k ← pooled c
  let dst ← freshReg .temp (some c.type)
  write (.const dst k)
  return dst

/-- Load nil. -/
def loadNil : Gen Reg := loadConstant .nil

/-! ## Branches -/

/-- Let the instruction at a node lead to a label. -/
def retarget (id label : NodeId) : Gen Unit := do
  let l := (← draft).listing
  let i ← faulting (l.get id)
  setListing (← faulting (l.put id (i.relabel fun _ => label)))

/-- Open a branch on a flag; where its other arm begins is not known yet. -/
def openBranch (flag : Reg) : Gen Branch := do
  return ⟨← writeNode (.branch flag ⟨0⟩), none⟩

/-- Close the first arm of a branch with a jump, whose target is not known yet, and begin the other
arm. -/
def beginElse (branch : Branch) : Gen Branch := do
  let jump ← writeNode (.jump ⟨0⟩)
  let label ← writeNode .nop
  retarget branch.node label
  return { branch with jump := some jump }

/-- Write the place where both arms meet, with the register that merges their values. -/
def meet (branch : Branch) (merged : Option Reg) : Gen Unit := do
  let label ← writeNode (match merged with
    | some dst => .merge dst
    | none => .nop)
  match branch.jump with
  | some jump => retarget jump label
  | none => throw (.fault (.noElseArm branch.node))

/-- Close a branch whose second arm is empty. -/
def closeBranch (branch : Branch) (merged : Option Reg) : Gen Unit := do
  meet (← beginElse branch) merged

/-- Give a merge register the type both arms agree on. -/
def agree (merged a b : Reg) : Gen Unit := do
  let l := (← draft).listing
  let ta ← faulting (l.typeOf a)
  let tb ← faulting (l.typeOf b)
  if ta.isSome && ta = tb then setListing (← faulting (l.recordType merged ta))
  else
    match ← knownType a, ← knownType b with
    | some x, some y => if x = y then narrow merged x
    | _, _ => pure ()

/-- Return early when `r` holds the undefined value, after noting the place of the call. -/
def returnErrors (ctx : Context) (r : Reg) (loc : Option Location) : Gen Unit := do
  if (← knownType r).any StaticType.neverUndefined then return
  let t ← freshReg .flag none
  write (.testType t r .undefined)
  let branch ← openBranch t
  match loc with
  | some loc => if ctx.settings.traces then write (.trace r loc)
  | none => pure ()
  write (.ret r)
  closeBranch branch none

/-- A flag for the truth of a register. -/
def asFlag (c : Reg) : Gen Reg := do
  if (← faulting ((← draft).listing.factsOf c)).role = .flag then return c
  let t ← freshReg .flag none
  write (.test t c)
  return t

end Gen

end CountedMachine
