/-! # Files and directories

A tree of named files and directories, and what a path into it leads to. A path is followed name by
name from the root or from the directory in use; `read` gives the text of the file it ends at, or
the first reason why there is none. -/

namespace CountedMachine

/-- Why a file cannot be read. -/
inductive ReadFailure
  | notFound
  | accessDenied
  | notADirectory
  | isADirectory
  | nameTooLong
  /-- The content is no text. -/
  | notText
  /-- A reason of the device itself, in its own words. -/
  | device (reason : String)
  deriving Repr, DecidableEq

/-- The wording of a failure that the system knows by a number. -/
def ReadFailure.numbered (reason : String) (code : Nat) : String :=
  reason ++ " (os error " ++ Nat.repr code ++ ")"

/-- The wording of a failure. -/
def ReadFailure.message : ReadFailure → String
  | notFound => numbered "No such file or directory" 2
  | accessDenied => numbered "Permission denied" 13
  | notADirectory => numbered "Not a directory" 20
  | isADirectory => numbered "Is a directory" 21
  | nameTooLong => numbered "File name too long" 36
  | notText => "stream did not contain valid UTF-8"
  | device reason => reason

/-- A file with its content, or a directory with its entries. -/
inductive FileTree
  | file (content : ByteArray)
  | directory (entries : List (String × FileTree))
  deriving Inhabited

namespace FileTree

/-- A file that holds a text. -/
def text (s : String) : FileTree := .file s.toUTF8

/-- A place in a tree: what stands there, and the directories that lead to it, nearest first. -/
structure Place where
  here : FileTree
  above : List FileTree := []

/-- The most bytes a name may have. -/
def nameLimit : Nat := 255

/-- The most bytes a path may have. -/
def pathLimit : Nat := 4095

/-- Follow one name. Names are looked up in directories only; an empty name and a single dot stay,
a double dot goes up, and above the root is the root. -/
def Place.follow (p : Place) (name : String) : Except ReadFailure Place :=
  match p.here with
  | .file _ => .error .notADirectory
  | .directory entries =>
    if name = "" ∨ name = "." then .ok p
    else if name = ".." then
      match p.above with
      | [] => .ok p
      | d :: ds => .ok ⟨d, ds⟩
    else if nameLimit < name.utf8ByteSize then .error .nameTooLong
    else
      match entries.lookup name with
      | none => .error .notFound
      | some t => .ok ⟨t, p.here :: p.above⟩

/-- The text at a place. -/
def Place.text (p : Place) : Except ReadFailure String :=
  match p.here with
  | .directory _ => .error .isADirectory
  | .file content =>
    match String.fromUTF8? content with
    | some s => .ok s
    | none => .error .notText

/-- The parts of a path between its slashes, empty ones included. -/
def names : List Char → List (List Char)
  | [] => [[]]
  | '/' :: rest => [] :: names rest
  | c :: rest =>
    match names rest with
    | [] => [[c]]
    | name :: more => (c :: name) :: more

/-- Follow a path from a place. -/
def Place.walk (p : Place) (path : String) : Except ReadFailure Place :=
  (names path.toList).foldlM (fun q name => q.follow (String.ofList name)) p

/-- **Read the file a path leads to.** A path that starts with a slash is followed from the root,
any other from the directory in use. -/
def read (root : FileTree) (current : Place) (path : String) : Except ReadFailure String := do
  if pathLimit < path.utf8ByteSize then throw .nameTooLong
  let start := if path.startsWith "/" then ⟨root, []⟩ else current
  (← start.walk path).text

/-- A part and what follows its slash are the names of the whole. -/
@[simp] theorem names_slash (rest : List Char) : names ('/' :: rest) = [] :: names rest := by
  simp [names]

end FileTree

end CountedMachine
