import CountedMachine.Expr.Decode
import CountedMachine.FileTree
import CountedMachine.Generation.Expression
import CountedMachine.Machine.Run

/-! # The command line

A module is read from a file, compiled, and run or shown. Every value the program yields is printed,
then its result; an undefined result goes to the error output. `execute` is a pure function of the
arguments and of what the files hold. -/

namespace CountedMachine.CommandLine

/-- What the arguments ask for. -/
structure Invocation where
  file : Option String := none
  dump : Bool := false
  verbose : Bool := false
  noInline : Bool := false
  noTraces : Bool := false
  verify : Bool := false
  frameLimit : Option Nat := none
  deriving Repr, DecidableEq

/-- A command: run a module, or say something about the program. -/
inductive Command
  | run (i : Invocation)
  | version
  | help
  deriving Repr, DecidableEq

/-- A flag that is set once; a second time is refused. -/
def once (set : Bool) (i : Invocation) : Option Invocation := if set then none else some i

/-- Set a flag by its long name. -/
def longFlag? (name : String) (i : Invocation) : Option Invocation :=
  match name with
  | "dump" => once i.dump { i with dump := true }
  | "verbose" => once i.verbose { i with verbose := true }
  | "no-inline" => once i.noInline { i with noInline := true }
  | "no-traces" => once i.noTraces { i with noTraces := true }
  | "verify" => once i.verify { i with verify := true }
  | _ => none

/-- A number that fits 64 bits, with an optional plus. -/
def number? (s : String) : Option Nat :=
  let cs := match s.toList with
    | '+' :: rest => rest
    | cs => cs
  if cs.isEmpty || !cs.all Char.isDigit then none
  else
    let n := cs.foldl (fun n c => n * 10 + Json.digitValue c) 0
    if n ≤ Json.wordMax then some n else none

/-- Set the limit of frames. -/
def limit? (value : String) (i : Invocation) : Option Invocation := do
  let n ← number? value
  once i.frameLimit.isSome { i with frameLimit := some n }

/-- Set the file. -/
def file? (path : String) (i : Invocation) : Option Invocation :=
  if path.isEmpty then none else once i.file.isSome { i with file := some path }

/-- The argument starts an option. -/
def isOption (arg : String) : Bool := arg.startsWith "-" && arg ≠ "-"

/-- Read a cluster of short flags. -/
def shorts? : List Char → Invocation → Option (Command ⊕ Invocation)
  | [], i => some (.inr i)
  | 'v' :: rest, i => (once i.verbose { i with verbose := true }).bind (shorts? rest)
  | 'V' :: _, _ => some (.inl .version)
  | 'h' :: _, _ => some (.inl .help)
  | _ :: _, _ => none

/-- The arguments after a double dash. -/
def files? : List String → Invocation → Option Invocation
  | [], i => some i
  | path :: rest, i => (file? path i).bind (files? rest)

/-- Read the arguments from left to right. -/
def parse? : List String → Invocation → Option Command
  | [], i => if i.file.isSome then some (.run i) else none
  | "--" :: rest, i => do
    let i ← files? rest i
    if i.file.isSome then some (.run i) else none
  | "--version" :: _, _ => some .version
  | "--help" :: _, _ => some .help
  | ["--max-frames"], _ => none
  | "--max-frames" :: value :: rest, i =>
    if isOption value then none else (limit? value i).bind (parse? rest)
  | arg :: rest, i =>
    if arg.startsWith "--max-frames=" then
      (limit? (String.ofList (arg.toList.drop 13)) i).bind (parse? rest)
    else if arg.startsWith "--" then
      (longFlag? (String.ofList (arg.toList.drop 2)) i).bind (parse? rest)
    else if isOption arg then
      match shorts? (arg.toList.drop 1) i with
      | some (.inr i) => parse? rest i
      | some (.inl c) => some c
      | none => none
    else (file? arg i).bind (parse? rest)

/-- How a command ends. -/
structure Report where
  code : Nat
  stdout : String := ""
  stderr : String := ""
  deriving Repr, DecidableEq

/-- The end of a command with a fault, after some output. -/
def faulted (out : String) (f : Fault) : Report := ⟨101, out, f.message.getD "fault" ++ "\n"⟩

/-- The settings a command line stands for. -/
def Invocation.settings (i : Invocation) : Settings :=
  { inlining := !i.noInline, traces := !i.noTraces }

/-- The limits a command line stands for. -/
def Invocation.limits (i : Invocation) : Limits :=
  match i.frameLimit with
  | some n => { frames := n }
  | none => {}

/-- The last value of a program: whether it is undefined, its text, and the machine after it has
been given back. -/
def finalValue (p : Program) (m : Machine) (v : Value) :
    Except Fault (Bool × String × Machine) := do
  let failed ← m.heap.isError v
  let text ← m.display p v
  return (failed, text, ← m.release v)

/-- Print the result, and unload the machine. -/
def conclude (p : Program) (m : Machine) (v : Value) (out : String) : Report :=
  match finalValue p m v with
  | .error f => faulted out f
  | .ok (true, text, _) => ⟨1, out, text ++ "\n"⟩
  | .ok (false, text, m) =>
    let out := out ++ text ++ "\n"
    match m.unload with
    | .ok _ => ⟨0, out, ""⟩
    | .error f => faulted out f

/-- Print a yielded value, give it back and resume. -/
def proceed (p : Program) (limits : Limits) (m : Machine) (v : Value) (s : Suspension) :
    Except Fault (String × Except Fault (Machine × Outcome)) := do
  let text ← m.display p v
  let line := "yield " ++ text ++ "\n"
  return (line, do (← m.release v).resume p limits s)

/-- Go on until the program returns. -/
def drive (p : Program) (limits : Limits) : Nat → Machine × Outcome → String → Report
  | 0, _, out => faulted out .exhausted
  | _ + 1, (m, .returned v), out => conclude p m v out
  | fuel + 1, (m, .yielded v s), out =>
    match proceed p limits m v s with
    | .error f => faulted out f
    | .ok (line, .error f) => faulted (out ++ line) f
    | .ok (line, .ok next) => drive p limits fuel next (out ++ line)

/-- Run a compiled program. -/
def runProgram (p : Program) (limits : Limits) : Report :=
  match (do (← Machine.load p).run p limits) with
  | .error f => faulted "" f
  | .ok first => drive p limits limits.steps first ""

/-- Compile a module and run or show it. -/
def runModule (i : Invocation) (m : SourceModule) : Report :=
  match m.compile i.settings with
  | .error (.refused e) => ⟨1, "", "Compile error: " ++ e.message ++ "\n"⟩
  | .error (.fault f) => faulted "" f
  | .ok p =>
    if i.dump then ⟨0, p.text, ""⟩
    else runProgram p i.limits

/-- The program and its version. -/
def versionText : String := "opi 0.1.0\n"

/-- How the program is used, line by line. -/
def helpLines : List String :=
  ["Compile a resolved IR module (JSON) to bytecode and run it",
   "",
   "Usage: opi [OPTIONS] <FILE>",
   "",
   "Arguments:",
   "  <FILE>  Path to the module, as JSON",
   "",
   "Options:",
   "      --dump                     Print the disassembled program instead of running it",
   "  -v, --verbose                  Log compilation and collection events",
   "      --no-inline                Never inline known functions",
   "      --no-traces                Omit call-site traces on propagated errors",
   "      --verify                   Simulate ownership of every register after compiling each unit",
   "      --max-frames <MAX_FRAMES>  [default: 10000]",
   "  -h, --help                     Print help",
   "  -V, --version                  Print version"]

/-- How the program is used. -/
def helpText : String := String.join (helpLines.map (· ++ "\n"))

/-- What a file holds, or why it cannot be read. -/
abbrev FileReader := String → Except ReadFailure String

/-- Carry out a command. -/
def Command.execute (read : FileReader) : Command → Report
  | .version => ⟨0, versionText, ""⟩
  | .help => ⟨0, helpText, ""⟩
  | .run i =>
    let path := i.file.getD ""
    match read path with
    | .error f => ⟨1, "", "Error reading " ++ path ++ ": " ++ f.message ++ "\n"⟩
    | .ok source =>
      match SourceModule.read? source with
      | none => ⟨1, "", "Malformed module"⟩
      | some m => runModule i m

/-- **Carry out a command line.** -/
def execute (read : FileReader) (args : List String) : Report :=
  match parse? args {} with
  | none => ⟨2, "", "error: unexpected arguments\n\n" ++ helpText⟩
  | some c => c.execute read

end CountedMachine.CommandLine
