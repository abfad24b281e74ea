import CountedMachine.Listing.Basic

/-! # Control flow of a listing

`successors` are the nodes control may go to from a node. `assemble` lays the nodes out in an array
in which every label is the position of its target, and `text` shows a listing line by line. -/

namespace CountedMachine.Listing

variable (l : Listing)

/-- The nodes control may go to after the node `id`: the following one, and for a jump or branch
its target. -/
def successors (id : NodeId) : Except Fault (List NodeId) := do
  let n ← l.node id
  match n.instr with
  | .branch _ no => return n.next.toList ++ [no]
  | .jump target => return [target]
  | i => return if i.isTerminal then [] else n.next.toList

/-- The position of a node among the nodes in order. -/
def position (ids : List NodeId) (target : NodeId) : Except Fault Nat :=
  if l.nodes.size ≤ target.index then .error .outOfBounds
  else
    match ids.idxOf? target with
    | some pc => .ok pc
    | none => .error (.deletedTarget target)

/-- An instruction with its label replaced by the position of the target. -/
def resolve (ids : List NodeId) (i : Instr NodeId) : Except Fault (Instr Nat) :=
  match i.label? with
  | none => .ok (i.relabel fun _ => 0)
  | some target => (l.position ids target).map fun pc => i.relabel fun _ => pc

/-- **The finished code** of a listing. -/
def assemble : Except Fault (List (Instr Nat)) :=
  let ids := l.toList
  l.entries.mapM fun p => l.resolve ids p.2

/-- One line of a listing. -/
def line (p : NodeId × Instr NodeId) : String :=
  padLeft 5 p.1.text ++ "  " ++ p.2.text NodeId.text ++ "\n"

/-- A listing line by line. -/
def text : String := String.join (l.entries.map line)

end CountedMachine.Listing
