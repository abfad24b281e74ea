import CountedMachine.Generation.Matching
import CountedMachine.Ownership.Balance
import CountedMachine.Ownership.Tidy

/-! # Units and closures

Every function literal becomes a code unit of its own. A unit loads its captures and parameters and
then evaluates its body; when the listing is complete, the ownership instructions are put in place,
the listing is tidied, audited on demand, and assembled.

A literal without captures is a constant, and known where it is called. Any other literal makes a
closure at run time. The closures of a `fix` are all allocated before the first of them gets its
code, so that they can capture each other, and they get it inside one recursive scope. -/

namespace CountedMachine

namespace Gen

/-- Load the captures, the mutable ones as cells, and bind them. -/
def loadCaptures : Nat → List Bool → Gen Unit
  | _, [] => pure ()
  | idx, mutable :: rest => do
    let reg ← freshReg .captured (if mutable then some .cell else none)
    write (.capture reg idx)
    pushVariable ⟨reg, mutable⟩
    loadCaptures (idx + 1) rest

/-- Load the parameters from `idx` on, `n` of them, and bind them. -/
def loadParams : Nat → Nat → Gen Unit
  | _, 0 => pure ()
  | idx, n + 1 => do
    let reg ← freshReg .param none
    write (.param reg idx)
    bindReg reg
    loadParams (idx + 1) n

/-- A listing after its last improvements, if they are asked for. -/
def tidied (settings : Settings) (pool : Array Constant) (l : Listing) : Except Fault Listing :=
  if settings.tidy then (l.tidy fun k => pool[k.index]?.any Constant.isNil).map (·.1) else .ok l

/-- A listing that the audit finds nothing wrong with, if one is asked for. -/
def audited (settings : Settings) (name : String) (l : Listing) : Except Fault Unit := do
  if settings.verify then
    match ← l.audit with
    | some finding => throw (.unbalanced name finding l.text)
    | none => pure ()

/-- The code of a complete listing, with the registers it needs. -/
def finishListing (settings : Settings) (pool : Array Constant) (name : String) (l : Listing) :
    Except Fault (Array (Instr Nat) × Nat) := do
  let (l, _) ← l.placeOwnership
  let l ← tidied settings pool l
  audited settings name l
  return ((← l.assemble).toArray, l.regs.size)

/-- Build a unit for a body. The unit takes its place before code for the body is generated, so
that units inside it come later. -/
def buildUnit (ctx : Context) (sub : Sub) (name : String) (arity : Nat) (caps : List Bool)
    (body : Expr) : Gen UnitId := do
  let outer ← draft
  let id := (← get).units.size
  modify fun s => { s with
    units := s.units.push ⟨name, arity, caps.length, 0, #[]⟩
    draft := {} }
  loadCaptures 0 caps
  loadParams 0 arity
  sub.tail body
  let s ← get
  let (code, nregs) ← faulting (finishListing ctx.settings s.pool name s.draft.listing)
  modify fun s => { s with
    units := s.units.setIfInBounds id ⟨name, arity, caps.length, nregs, code⟩
    draft := outer }
  return ⟨id⟩

/-- The name of a literal's unit; one without a name is numbered. -/
def unitName (lambda : Lambda Expr) : Gen String := do
  match lambda.name with
  | some name => return name
  | none => return "fn" ++ toString (← get).units.size

/-- Build the unit of a literal, and look up the registers it captures. -/
def buildClosure (ctx : Context) (sub : Sub) (lambda : Lambda Expr) :
    Gen (UnitId × List Reg) := do
  let caps ← lambda.captures.mapM variableAt
  let unit ← buildUnit ctx sub (← unitName lambda) lambda.arity (caps.map (·.mutable)) lambda.body
  return (unit, caps.map (·.reg))

/-- Note that a register holds a known function. -/
def noteFunction (r : Reg) (k : KnownFunction) : Gen Unit :=
  modify fun s => { s with
    functions := s.functions.push k
    draft := { s.draft with known := s.draft.known.insert r s.functions.size } }

/-- Code for a function literal. -/
def genFn (ctx : Context) (sub : Sub) (lambda : Lambda Expr) : Gen Reg := do
  if lambda.captures.isEmpty then
    let unit ← buildUnit ctx sub (← unitName lambda) lambda.arity [] lambda.body
    let r ← loadConstant (.closure unit)
    noteFunction r ⟨lambda.arity, lambda.body⟩
    return r
  else
    let dst ← freshReg .merged (some .fn)
    write (.allocClosure dst)
    let (unit, caps) ← buildClosure ctx sub lambda
    write (.finishClosure dst unit caps)
    return dst

/-- Allocate and bind a closure for every literal of a `fix`. -/
def allocClosures : Nat → List Expr → Gen (List (Reg × Lambda Expr))
  | _, [] => return []
  | index, .fn lambda :: rest => do
    let dst ← freshReg .merged (some .fn)
    write (.allocClosure dst)
    bindReg dst
    return (dst, lambda) :: (← allocClosures (index + 1) rest)
  | index, _ :: _ => refuse (.notAFunctionLiteral index)

/-- Give every closure of a `fix` its code and captures. -/
def finishClosures (ctx : Context) (sub : Sub) : List (Reg × Lambda Expr) → Gen Unit
  | [] => pure ()
  | (dst, lambda) :: rest => do
    let (unit, caps) ← buildClosure ctx sub lambda
    write (.finishClosure dst unit caps)
    finishClosures ctx sub rest

/-- Code for the functions of a `fix`. -/
def genFix (ctx : Context) (sub : Sub) (fns : List Expr) : Gen Unit := do
  let closures ← allocClosures 0 fns
  write (.beginScope closures.length)
  finishClosures ctx sub closures
  write (.endScope closures.length)

end Gen

end CountedMachine
