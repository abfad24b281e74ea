import CountedMachine.Code.Printer
import CountedMachine.Fault

/-! # Listings

A listing is code under construction: a doubly linked list of instructions between two fixed
nodes, `head` and `tail`, in an arena whose slots are reused last-freed-first. New instructions
are written before the cursor. A node keeps its number while instructions come and go around it,
so nodes serve as labels.

The operations refuse nodes that are not in the list, writing outside the two fixed nodes, and
removing them or the node under the cursor. `Listing.toList` is the list of nodes in order, through
which every operation is a plain operation on sequences. -/

namespace CountedMachine

/-- A node: its instruction and its neighbours. -/
structure Node where
  instr : Instr NodeId
  prev : Option NodeId
  next : Option NodeId
  deriving DecidableEq

/-- Code under construction, with the registers made so far. -/
structure Listing where
  nodes : Array (Option Node)
  free : List NodeId
  cursor : NodeId
  regs : Array RegFacts

namespace Listing

/-- The fixed first node. -/
def head : NodeId := ⟨0⟩

/-- The fixed last node. -/
def tail : NodeId := ⟨1⟩

/-- The listing that holds the two fixed nodes only. -/
def empty : Listing where
  nodes := #[some ⟨.nop, none, some tail⟩, some ⟨.done, some head, none⟩]
  free := []
  cursor := tail
  regs := #[]

instance : Inhabited Listing := ⟨empty⟩

variable (l : Listing)

/-- The node with a given number, where it is in the list. -/
def node? (id : NodeId) : Option Node := l.nodes[id.index]?.join

/-- The node with a given number. -/
def node (id : NodeId) : Except Fault Node :=
  match l.node? id with
  | some n => .ok n
  | none => .error (.notInUnit id)

/-- The instruction at a node. -/
def get (id : NodeId) : Except Fault (Instr NodeId) := (l.node id).map (·.instr)

/-- The node after a given one. -/
def next (id : NodeId) : Except Fault (Option NodeId) := (l.node id).map (·.next)

/-- The node before a given one. -/
def prev (id : NodeId) : Except Fault (Option NodeId) := (l.node id).map (·.prev)

/-- Change a node that is in the list. -/
def modify (id : NodeId) (f : Node → Node) : Listing :=
  { l with nodes := l.nodes.modify id.index (Option.map f) }

/-- Changing a node changes that node alone. -/
theorem node?_modify (l : Listing) (id j : NodeId) (f : Node → Node) :
    (l.modify id f).node? j = if j = id then (l.node? j).map f else l.node? j := by
  obtain ⟨j⟩ := j
  obtain ⟨id⟩ := id
  simp only [node?, modify, Array.getElem?_modify, NodeId.mk.injEq]
  by_cases h : id = j
  · subst h
    cases l.nodes[id]? <;> simp
  · simp [h, Ne.symm h]

/-- Changing a node adds and removes none. -/
@[simp] theorem size_modify (l : Listing) (id : NodeId) (f : Node → Node) :
    (l.modify id f).nodes.size = l.nodes.size := by
  simp [modify]

/-- Overwrite the instruction at a node. -/
def put (id : NodeId) (i : Instr NodeId) : Except Fault Listing := do
  let _ ← l.node id
  return l.modify id ({ · with instr := i })

/-- Write before the given node from now on. -/
def moveCursor (id : NodeId) : Except Fault Listing := do
  let _ ← l.node id
  return { l with cursor := id }

/-- Put a node into the slot freed last, or into a new one. -/
def allot (n : Node) : Listing × NodeId :=
  match l.free with
  | id :: free => ({ l with nodes := l.nodes.setIfInBounds id.index (some n), free := free }, id)
  | [] => ({ l with nodes := l.nodes.push (some n) }, ⟨l.nodes.size⟩)

/-- Link an instruction in right before a node. -/
def linkBefore (place : NodeId) (i : Instr NodeId) : Except Fault (Listing × NodeId) := do
  match (← l.node place).prev with
  | none => throw .beforeHead
  | some before =>
    let (l, id) := l.allot ⟨i, some before, some place⟩
    let l := l.modify before ({ · with next := some id })
    let l := l.modify place ({ · with prev := some id })
    return (l, id)

/-- Link an instruction in right after a node. -/
def linkAfter (place : NodeId) (i : Instr NodeId) : Except Fault (Listing × NodeId) := do
  match (← l.node place).next with
  | none => throw .afterEnd
  | some after => l.linkBefore after i

/-- Write an instruction before the cursor. -/
def insert (i : Instr NodeId) : Except Fault (Listing × NodeId) := l.linkBefore l.cursor i

/-- Write an instruction before the last node. -/
def append (i : Instr NodeId) : Except Fault (Listing × NodeId) := l.linkBefore tail i

/-- Write an instruction after the first node. -/
def prepend (i : Instr NodeId) : Except Fault (Listing × NodeId) := l.linkAfter head i

/-- Let one neighbour skip a node that goes away. -/
def relink (id : Option NodeId) (f : Node → Node) : Listing :=
  match id with
  | none => l
  | some id => l.modify id f

/-- Unlink a node and free its slot. -/
def erase (id : NodeId) : Except Fault Listing := do
  if id = head || id = tail then throw .sentinelRemoved
  if id = l.cursor then throw .cursorRemoved
  let n ← l.node id
  let l := l.relink n.prev ({ · with next := n.next })
  let l := l.relink n.next ({ · with prev := n.prev })
  return { l with nodes := l.nodes.setIfInBounds id.index none, free := id :: l.free }

/-- Remove nodes from `id` on, up to the last one; a cursor among them moves to the last one. -/
def eraseLoop : Nat → Listing → Option NodeId → Except Fault Listing
  | 0, l, _ => .ok l
  | _ + 1, l, none => .ok l
  | fuel + 1, l, some id =>
    if id = tail then .ok l
    else do
      let after ← l.next id
      let l := if l.cursor = id then { l with cursor := tail } else l
      eraseLoop fuel (← l.erase id) after

/-- Remove a node and everything after it up to the last node. -/
def eraseFrom (id : NodeId) : Except Fault Listing :=
  eraseLoop (l.nodes.size + 1) l (some id)

/-- Follow the links from a node, for at most the given number of nodes. -/
def walk : Nat → Option NodeId → List NodeId
  | 0, _ => []
  | _ + 1, none => []
  | fuel + 1, some id => id :: walk fuel ((l.node? id).bind (·.next))

/-- **The nodes in order**, from the first to the last. -/
def toList : List NodeId := l.walk l.nodes.size (some head)

/-- The nodes in order, with their instructions. -/
def entries : List (NodeId × Instr NodeId) :=
  l.toList.filterMap fun id => (l.node? id).map fun n => (id, n.instr)

/-- Nothing stands between the first and the last node. -/
def isEmpty : Bool := (l.node? head).any fun n => n.next = some tail

/-! ## Registers -/

/-- Make a register. A flag is known to hold a truth value. -/
def freshReg (role : RegRole) : Listing × Reg :=
  ({ l with regs := l.regs.push ⟨role, if role = .flag then some .bool else none⟩ },
    ⟨l.regs.size⟩)

/-- What is known about a register. -/
def factsOf (r : Reg) : Except Fault RegFacts :=
  match l.regs[r.index]? with
  | some facts => .ok facts
  | none => .error .outOfBounds

/-- The type known of a register. -/
def typeOf (r : Reg) : Except Fault (Option StaticType) := (l.factsOf r).map (·.type)

/-- Record the type of a register. -/
def recordType (r : Reg) (type : Option StaticType) : Except Fault Listing := do
  let _ ← l.factsOf r
  return { l with regs := l.regs.modify r.index ({ · with type := type }) }

end Listing

end CountedMachine
