import CountedMachine.Code.Operand

/-! # Instructions

One instruction set serves code under construction, whose labels are nodes of a listing, and
finished code, whose labels are program counters; `Instr` is parametric in the labels.

`creates`, `inputs` and `consumes` are what the ownership analysis knows of an instruction: the
register it creates, the registers it reads, and whether it consumes a register's reference. They do
not depend on the labels (`creates_relabel`, `inputs_relabel`, `consumes_relabel`). -/

namespace CountedMachine

/-- An instruction with labels of type `L`. -/
inductive Instr (L : Type)
  | nop
  | done
  | const (dst : Reg) (k : ConstId)
  | param (dst : Reg) (idx : Nat)
  | capture (dst : Reg) (idx : Nat)
  | box (dst src : Reg)
  | unbox (dst cell : Reg)
  | assign (cell src : Reg)
  | operate (op : Operator) (dst lhs rhs : Reg) (checked : Bool)
  | test (dst src : Reg)
  | testType (dst src : Reg) (ty : ObjType)
  | flag (dst : Reg) (value : Bool)
  | field (dst src : Reg) (idx : Nat)
  | make (dst : Reg) (ty : Nat) (fields : List Reg)
  | guard (src : Reg) (ty : ObjType)
  | branch (cond : Reg) (no : L)
  | jump (target : L)
  | merge (dst : Reg)
  | move (dst src : Reg)
  | push (src : Reg)
  | call (dst func : Reg) (nargs : Nat) (checked : Bool)
  | tailCall (func : Reg) (nargs : Nat)
  | ret (src : Reg)
  | yield (src : Reg)
  | trace (src : Reg) (loc : Location)
  | adjust (op : CountOp) (reg : Reg)
  | allocClosure (dst : Reg)
  | finishClosure (dst : Reg) (unit : UnitId) (caps : List Reg)
  | beginScope (n : Nat)
  | endScope (n : Nat)
  deriving DecidableEq, Inhabited

namespace Instr

variable {L M : Type}

/-- The register an instruction creates. -/
def creates : Instr L → Option Reg
  | .const dst _ => some dst
  | .param dst _ => some dst
  | .capture dst _ => some dst
  | .box dst _ => some dst
  | .unbox dst _ => some dst
  | .operate _ dst _ _ _ => some dst
  | .test dst _ => some dst
  | .testType dst _ _ => some dst
  | .flag dst _ => some dst
  | .field dst _ _ => some dst
  | .make dst _ _ => some dst
  | .merge dst => some dst
  | .call dst _ _ _ => some dst
  | .allocClosure dst => some dst
  | _ => none

/-- The registers an instruction reads. Ownership instructions count as reading nothing. -/
def inputs : Instr L → List Reg
  | .box _ src => [src]
  | .test _ src => [src]
  | .testType _ src _ => [src]
  | .field _ src _ => [src]
  | .guard src _ => [src]
  | .move _ src => [src]
  | .push src => [src]
  | .ret src => [src]
  | .yield src => [src]
  | .trace src _ => [src]
  | .unbox _ cell => [cell]
  | .assign cell src => [cell, src]
  | .operate _ _ lhs rhs _ => [lhs, rhs]
  | .make _ _ fields => fields
  | .branch cond _ => [cond]
  | .call _ func _ _ => [func]
  | .tailCall func _ => [func]
  | .finishClosure dst _ caps => dst :: caps
  | _ => []

/-- The instruction reads `r`. -/
def reads (i : Instr L) (r : Reg) : Bool := i.inputs.contains r

/-- The instruction consumes the reference that `r` owns. -/
def consumes (i : Instr L) (r : Reg) : Bool :=
  match i with
  | .ret src => src = r
  | .tailCall func _ => func = r
  | _ => false

/-- The instruction is an ownership operation on `r`. -/
def adjusts (i : Instr L) (r : Reg) : Bool :=
  match i with
  | .adjust _ reg => reg = r
  | _ => false

/-- A control path ends with the instruction. -/
def isTerminal : Instr L → Bool
  | .ret _ => true
  | .tailCall _ _ => true
  | .done => true
  | _ => false

/-- The instruction may stand where a branch leads. -/
def isLabel : Instr L → Bool
  | .nop => true
  | .merge _ => true
  | _ => false

/-- The place an instruction may jump to. -/
def label? : Instr L → Option L
  | .branch _ no => some no
  | .jump target => some target
  | _ => none

/-- The instruction with its label replaced. -/
def relabel (f : L → M) : Instr L → Instr M
  | .branch cond no => .branch cond (f no)
  | .jump target => .jump (f target)
  | .nop => .nop
  | .done => .done
  | .const dst k => .const dst k
  | .param dst idx => .param dst idx
  | .capture dst idx => .capture dst idx
  | .box dst src => .box dst src
  | .unbox dst cell => .unbox dst cell
  | .assign cell src => .assign cell src
  | .operate op dst lhs rhs checked => .operate op dst lhs rhs checked
  | .test dst src => .test dst src
  | .testType dst src ty => .testType dst src ty
  | .flag dst value => .flag dst value
  | .field dst src idx => .field dst src idx
  | .make dst ty fields => .make dst ty fields
  | .guard src ty => .guard src ty
  | .merge dst => .merge dst
  | .move dst src => .move dst src
  | .push src => .push src
  | .call dst func nargs checked => .call dst func nargs checked
  | .tailCall func nargs => .tailCall func nargs
  | .ret src => .ret src
  | .yield src => .yield src
  | .trace src loc => .trace src loc
  | .adjust op reg => .adjust op reg
  | .allocClosure dst => .allocClosure dst
  | .finishClosure dst unit caps => .finishClosure dst unit caps
  | .beginScope n => .beginScope n
  | .endScope n => .endScope n

/-- Replacing labels does not change what an instruction reads. -/
@[simp] theorem inputs_relabel (f : L → M) (i : Instr L) : (i.relabel f).inputs = i.inputs := by
  cases i <;> rfl

/-- Replacing labels does not change what an instruction creates. -/
@[simp] theorem creates_relabel (f : L → M) (i : Instr L) :
    (i.relabel f).creates = i.creates := by
  cases i <;> rfl

/-- Replacing labels does not change which references an instruction consumes. -/
@[simp] theorem consumes_relabel (f : L → M) (i : Instr L) (r : Reg) :
    (i.relabel f).consumes r = i.consumes r := by
  cases i <;> rfl

/-- Replacing labels does not change which registers are read. -/
@[simp] theorem reads_relabel (f : L → M) (i : Instr L) (r : Reg) :
    (i.relabel f).reads r = i.reads r := by
  simp [reads]

/-- A control path ends with the same instructions, whatever their labels are. -/
@[simp] theorem isTerminal_relabel (f : L → M) (i : Instr L) :
    (i.relabel f).isTerminal = i.isTerminal := by
  cases i <;> rfl

/-- The label of an instruction is replaced where it has one. -/
@[simp] theorem label?_relabel (f : L → M) (i : Instr L) :
    (i.relabel f).label? = i.label?.map f := by
  cases i <;> rfl

end Instr

end CountedMachine
