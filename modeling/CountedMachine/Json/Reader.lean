import CountedMachine.Json.Number

/-! # Reading JSON text

A strict reader: blanks are space, tab, line feed and carriage return; texts hold no raw control
characters; nothing follows the value. Where a nesting limit is given, an array or object nested
deeper is garbled, and so are numbers beyond every float and texts with an unpaired surrogate. -/

namespace CountedMachine.Json

/-- The blanks between tokens. -/
def blank (c : Char) : Bool := c = ' ' || c = '\t' || c = '\n' || c = '\r'

/-- The text after its leading blanks. -/
def skip (cs : List Char) : List Char := cs.dropWhile blank

/-- The value of a hexadecimal digit. -/
def hexValue? (c : Char) : Option Nat :=
  if c.isDigit then some (c.toNat - '0'.toNat)
  else if 'a' ≤ c && c ≤ 'f' then some (c.toNat - 'a'.toNat + 10)
  else if 'A' ≤ c && c ≤ 'F' then some (c.toNat - 'A'.toNat + 10)
  else none

/-- A piece of text: a 16-bit unit written by its number, or a character. -/
inductive Piece
  | unit (n : Nat)
  | char (c : Char)

/-- The unit written by four hexadecimal digits. -/
def unit? (a b c d : Char) : Option Nat := do
  let a ← hexValue? a
  let b ← hexValue? b
  let c ← hexValue? c
  let d ← hexValue? d
  some (((a * 16 + b) * 16 + c) * 16 + d)

/-- What an escaped letter stands for. -/
def escaped? (c : Char) : Option Char :=
  if c = '"' || c = '\\' || c = '/' then some c
  else if c = 'b' then some (Char.ofNat 8)
  else if c = 'f' then some (Char.ofNat 12)
  else if c = 'n' then some '\n'
  else if c = 'r' then some '\r'
  else if c = 't' then some '\t'
  else none

/-- Read the pieces of a text up to its closing quote. -/
def readPieces : List Char → Option (List Piece × List Char)
  | [] => none
  | '"' :: rest => some ([], rest)
  | '\\' :: 'u' :: a :: b :: c :: d :: rest => do
    let n ← unit? a b c d
    let (ps, rest) ← readPieces rest
    some (.unit n :: ps, rest)
  | '\\' :: c :: rest => do
    let c ← escaped? c
    let (ps, rest) ← readPieces rest
    some (.char c :: ps, rest)
  | c :: rest =>
    if c.toNat < 0x20 then none
    else do
      let (ps, rest) ← readPieces rest
      some (.char c :: ps, rest)

/-- The first unit of a surrogate pair. -/
def leading (n : Nat) : Bool := 0xd800 ≤ n && n < 0xdc00

/-- The second unit of a surrogate pair. -/
def trailing (n : Nat) : Bool := 0xdc00 ≤ n && n < 0xe000

/-- Join the pieces into characters; `none` where a surrogate has no partner. -/
def joinPieces : List Piece → Option (List Char)
  | [] => some []
  | .char c :: rest => (joinPieces rest).map (c :: ·)
  | .unit a :: .unit b :: rest =>
    if leading a then
      if trailing b then
        (joinPieces rest).map
          (Char.ofNat (0x10000 + (a - 0xd800) * 0x400 + (b - 0xdc00)) :: ·)
      else none
    else if trailing a then none
    else (joinPieces (.unit b :: rest)).map (Char.ofNat a :: ·)
  | .unit a :: rest =>
    if leading a || trailing a then none
    else (joinPieces rest).map (Char.ofNat a :: ·)

/-- Read a text after its opening quote; the text is `none` when it is garbled. -/
def readText (cs : List Char) : Option (Option String × List Char) := do
  let (ps, rest) ← readPieces cs
  some ((joinPieces ps).map String.ofList, rest)

/-- The text after a fixed word. -/
def expect : List Char → List Char → Option (List Char)
  | [], rest => some rest
  | w :: ws, c :: cs => if w = c then expect ws cs else none
  | _ :: _, [] => none

/-- A container, garbled when it lies beyond the nesting limit. -/
def within (limit : Option Nat) (v : Json) : Json :=
  if limit = some 0 then .garbled else v

/-- The nesting left inside a container. -/
def inner (limit : Option Nat) : Option Nat := limit.map (· - 1)

/-- The object with these members, garbled when one of its names is. -/
def ofMembers (ps : List (Option String × Json)) : Json :=
  match ps.mapM fun p => p.1.map fun name => (name, p.2) with
  | some ps => .object ps
  | none => .garbled

mutual

/-- Read a value after skipping blanks. -/
def readValue : Nat → Option Nat → List Char → Option (Json × List Char)
  | 0, _, _ => none
  | fuel + 1, limit, cs =>
    match skip cs with
    | '"' :: rest => do
      let (s, rest) ← readText rest
      some (s.elim .garbled .text, rest)
    | '[' :: rest => do
      let (items, rest) ← match skip rest with
        | ']' :: rest => some ([], rest)
        | rest => readItems fuel (inner limit) rest
      some (within limit (.array items), rest)
    | '\x7b' :: rest => do
      let (ps, rest) ← match skip rest with
        | '\x7d' :: rest => some ([], rest)
        | rest => readMembers fuel (inner limit) rest
      some (within limit (ofMembers ps), rest)
    | 'n' :: rest => do some (.null, ← expect ['u', 'l', 'l'] rest)
    | 't' :: rest => do some (.bool true, ← expect ['r', 'u', 'e'] rest)
    | 'f' :: rest => do some (.bool false, ← expect ['a', 'l', 's', 'e'] rest)
    | rest => do
      let (n, rest) ← readNumber rest
      some (n.elim .garbled .number, rest)

/-- Read the items of an array, at least one, up to the closing bracket. -/
def readItems : Nat → Option Nat → List Char → Option (List Json × List Char)
  | 0, _, _ => none
  | fuel + 1, limit, cs => do
    let (v, rest) ← readValue fuel limit cs
    match skip rest with
    | ']' :: rest => some ([v], rest)
    | ',' :: rest => do
      let (vs, rest) ← readItems fuel limit rest
      some (v :: vs, rest)
    | _ => none

/-- Read the members of an object, at least one, up to the closing brace. -/
def readMembers : Nat → Option Nat → List Char →
    Option (List (Option String × Json) × List Char)
  | 0, _, _ => none
  | fuel + 1, limit, cs =>
    match skip cs with
    | '"' :: rest => do
      let (name, rest) ← readText rest
      match skip rest with
      | ':' :: rest => do
        let (v, rest) ← readValue fuel limit rest
        match skip rest with
        | '\x7d' :: rest => some ([(name, v)], rest)
        | ',' :: rest => do
          let (ps, rest) ← readMembers fuel limit rest
          some ((name, v) :: ps, rest)
        | _ => none
      | _ => none
    | _ => none

end

/-- **Read a whole text as one JSON value**, with at most `limit` levels of nesting. -/
def read? (limit : Option Nat) (s : String) : Option Json :=
  let cs := s.toList
  match readValue (2 * cs.length + 2) limit cs with
  | some (v, rest) => if (skip rest).isEmpty then some v else none
  | none => none

end CountedMachine.Json
