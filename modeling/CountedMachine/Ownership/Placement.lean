import CountedMachine.Ownership.Liveness

/-! # Placing the ownership instructions

A counted register starts out floating, or owned where it merges two arms or holds a closure that
is being built. From its creation on:

* a register that no path reads is released right away, by `DROP` when it floats and by `UNREF`
  when it is owned;
* otherwise a floating register is acquired by `INC`, and every last read is followed by `UNREF`,
  unless the reading instruction consumes the reference itself;
* where only one arm of a branch reads the register, the other arm begins with `UNREF`.

`Listing.placeOwnership` plans these edits for every register, in the order of the registers, and
then carries them out, in the order of their places; at one place acquiring comes first and
releasing comes last, so that a value read out of a container is dropped before the container is
let go. -/

namespace CountedMachine

/-- How many registers were counted, and how many instructions of each kind were inserted. -/
structure PlacementCounts where
  counted : Nat := 0
  acquires : Nat := 0
  drops : Nat := 0
  unrefs : Nat := 0
  deriving Repr, DecidableEq

/-- An ownership instruction to insert after a node. -/
structure Edit where
  anchor : NodeId
  op : CountOp
  reg : Reg
  deriving Repr, DecidableEq

namespace Listing

variable (l : Listing)

/-- The nodes that create `r`. -/
def creatorsOf (r : Reg) : List NodeId :=
  (l.entries.filter fun p => p.2.creates = some r).map (·.1)

/-- The registers created in the listing, in ascending order. -/
def createdRegs : List Reg :=
  ((l.entries.filterMap fun p => p.2.creates).mergeSort fun a b => a.index ≤ b.index).eraseReps

/-- The release at a branch one of whose arms does not read `r`. -/
def editsAtBranch (r : Reg) (live : Std.HashMap NodeId Bool) (id no : NodeId) :
    Except Fault (List Edit) := do
  let yesLive := (← l.next id).any fun n => live.getD n false
  let noLive := live.getD no false
  if yesLive && !noLive then
    if (← l.get no).isLabel then return [⟨no, .unref, r⟩]
    else throw (.elseNotLabel no)
  else if noLive && !yesLive then return [⟨id, .unref, r⟩]
  else return []

/-- The release after an instruction that is the last to read `r` without consuming it. -/
def editsAfterRead (r : Reg) (live : Std.HashMap NodeId Bool) (id : NodeId) (i : Instr NodeId) :
    Except Fault (List Edit) := do
  let liveAfter := (← l.successors id).any fun n => live.getD n false
  if i.reads r && !i.consumes r && !liveAfter then
    if i.isTerminal then throw (.readAtPathEnd r id)
    else return [⟨id, .unref, r⟩]
  else return []

/-- The release of `r` at one node. -/
def editsAt (r : Reg) (live : Std.HashMap NodeId Bool) (id : NodeId) :
    Except Fault (List Edit) := do
  match ← l.get id with
  | .branch _ no => l.editsAtBranch r live id no
  | i => l.editsAfterRead r live id i

/-- The edits for a register created at `created`, owned from the start or not. -/
def editsFor (r : Reg) (created : NodeId) (owned : Bool) : Except Fault (List Edit) := do
  match ← l.next created with
  | none => throw (.createdAtEnd r)
  | some first =>
    let live ← l.liveness r first
    if live.getD first false then
      let reachable := live.keys.mergeSort fun a b => a.index ≤ b.index
      let releases ← reachable.mapM (l.editsAt r live)
      return (if owned then [] else [⟨created, .inc, r⟩]) ++ releases.flatten
    else
      return [⟨created, if owned then .unref else .drop, r⟩]

/-- The edits for a register, `none` where it is not counted. -/
def editsIfCounted (r : Reg) : Except Fault (Option (List Edit)) := do
  let facts ← l.factsOf r
  if facts.counted then
    match l.creatorsOf r with
    | [created] => return some (← l.editsFor r created facts.bornOwned)
    | sites => throw (.severalDefinitions r sites.length)
  else return none

end Listing

namespace Edit

/-- At one place acquiring comes first, dropping second and releasing last. -/
def rank (e : Edit) : Nat :=
  match e.op with
  | .inc => 0
  | .drop => 1
  | .dec => 2
  | .unref => 2

/-- The order in which edits are carried out: by place, by kind, by register. -/
def before (a b : Edit) : Bool :=
  if a.anchor.index ≠ b.anchor.index then a.anchor.index < b.anchor.index
  else if a.rank ≠ b.rank then a.rank < b.rank
  else a.reg.index ≤ b.reg.index

end Edit

namespace PlacementCounts

/-- Count an inserted instruction. -/
def count (c : PlacementCounts) (e : Edit) : PlacementCounts :=
  match e.op with
  | .inc => { c with acquires := c.acquires + 1 }
  | .drop => { c with drops := c.drops + 1 }
  | .dec => { c with unrefs := c.unrefs + 1 }
  | .unref => { c with unrefs := c.unrefs + 1 }

end PlacementCounts

namespace Listing

/-- Carry out one edit after the node reached so far. -/
def insertEdit : Listing × NodeId → Edit → Except Fault (Listing × NodeId)
  | (l, place), e => l.linkAfter place (.adjust e.op e.reg)

/-- Carry out the edits of one place, one after the other. -/
def insertEdits (l : Listing) : List Edit → Except Fault Listing
  | [] => .ok l
  | e :: es => do
    let (l, _) ← (e :: es).foldlM insertEdit (l, e.anchor)
    return l

/-- **Insert the ownership instructions** of every register. -/
def placeOwnership (l : Listing) : Except Fault (Listing × PlacementCounts) := do
  let plans ← l.createdRegs.mapM l.editsIfCounted
  let plans := plans.filterMap id
  let edits := plans.flatten.mergeSort Edit.before
  let l ← (edits.splitBy fun a b => a.anchor == b.anchor).foldlM insertEdits l
  return (l, edits.foldl PlacementCounts.count { counted := plans.length })

end Listing

end CountedMachine
