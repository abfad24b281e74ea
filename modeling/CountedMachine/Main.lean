import CountedMachine.CommandLine

/-! # The program

Read the file the command line names, carry the command line out, and print what it reports. -/

namespace CountedMachine.CommandLine

/-- The file a command line names. -/
def fileOf (args : List String) : Option String :=
  match parse? args {} with
  | some (.run i) => i.file
  | _ => none

/-- The number of an error of the system; some calls give it negated. -/
def errorNumber (code : UInt32) : UInt32 := if code < 0x80000000 then code else 0 - code

/-- The cause behind an error of the system. -/
def causeOf : IO.Error → ReadFailure
  | .noFileOrDirectory _ _ _ => .notFound
  | .permissionDenied _ _ _ => .accessDenied
  | .inappropriateType _ code _ =>
    if errorNumber code = 20 then .notADirectory else .isADirectory
  | .invalidArgument _ _ _ => .nameTooLong
  | e => .device (toString e)

/-- What the file holds, or why it cannot be read. -/
def readSource : Option String → IO (Except ReadFailure String)
  | none => return .error .notFound
  | some path => do
    try
      match String.fromUTF8? (← IO.FS.readBinFile path) with
      | some s => return .ok s
      | none => return .error .notText
    catch e => return .error (causeOf e)

end CountedMachine.CommandLine

/-- Carry out the command line and exit with its code. -/
def main (args : List String) : IO UInt32 := do
  let source ← CountedMachine.CommandLine.readSource (CountedMachine.CommandLine.fileOf args)
  let report := CountedMachine.CommandLine.execute (fun _ => source) args
  (← IO.getStdout).putStr report.stdout
  (← IO.getStderr).putStr report.stderr
  return report.code.toUInt32
