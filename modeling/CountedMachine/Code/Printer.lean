import CountedMachine.Code.Instruction

/-! # The text of instructions

The mnemonic, then the operands between blanks; lists of registers stand in brackets. A mark after
the mnemonic shows that the run-time check was left out. -/

namespace CountedMachine

/-- Registers between blanks. -/
def Reg.listText (rs : List Reg) : String := String.intercalate " " (rs.map Reg.text)

/-- A truth value. -/
def boolText (b : Bool) : String := if b then "true" else "false"

/-- The mark of an instruction without its run-time check. -/
def uncheckedMark (checked : Bool) : String := if checked then "" else "!"

/-- **The text of an instruction**, its label written by `label`. -/
def Instr.text {L : Type} (label : L → String) : Instr L → String
  | .nop => "NOP"
  | .done => "END"
  | .const dst k => s!"CONST {dst.text} k{k.index}"
  | .param dst idx => s!"PARAM {dst.text} {idx}"
  | .capture dst idx => s!"LDCAP {dst.text} {idx}"
  | .box dst src => s!"VAR {dst.text} {src.text}"
  | .unbox dst cell => s!"DEREF {dst.text} {cell.text}"
  | .assign cell src => s!"SET {cell.text} {src.text}"
  | .operate op dst lhs rhs checked =>
    s!"BINOP{uncheckedMark checked} {dst.text} {lhs.text} {op.symbol} {rhs.text}"
  | .test dst src => s!"TEST {dst.text} {src.text}"
  | .testType dst src ty => s!"TESTTY {dst.text} {src.text} {ty.text}"
  | .flag dst value => s!"FLAG {dst.text} {boolText value}"
  | .field dst src idx => s!"LDFLD {dst.text} {src.text} {idx}"
  | .make dst ty fields => s!"NEW {dst.text} struct#{ty} [{Reg.listText fields}]"
  | .guard src ty => s!"GUARD {src.text} {ty.text}"
  | .branch cond no => s!"IF {cond.text} else {label no}"
  | .jump target => s!"JMP {label target}"
  | .merge dst => s!"PHI {dst.text}"
  | .move dst src => s!"MOV {dst.text} {src.text}"
  | .push src => s!"PUSH {src.text}"
  | .call dst func nargs checked =>
    s!"APPLY{uncheckedMark checked} {dst.text} {func.text} {nargs}"
  | .tailCall func nargs => s!"APPLYTC {func.text} {nargs}"
  | .ret src => s!"RET {src.text}"
  | .yield src => s!"YIELD {src.text}"
  | .trace src loc => s!"TRACE {src.text} {loc.text}"
  | .adjust op reg => s!"{op.mnemonic} {reg.text}"
  | .allocClosure dst => s!"ALCFN {dst.text}"
  | .finishClosure dst unit caps => s!"FINFN {dst.text} unit{unit.index} [{Reg.listText caps}]"
  | .beginScope n => s!"BEGSCP {n}"
  | .endScope n => s!"ENDSCP {n}"

/-- Fill up with blanks on the left to a width. -/
def padLeft (width : Nat) (s : String) : String :=
  String.ofList (List.replicate (width - s.length) ' ') ++ s

end CountedMachine
