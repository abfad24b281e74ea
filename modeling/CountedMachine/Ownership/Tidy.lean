import CountedMachine.Listing.Control
import Std.Data.HashSet

/-! # Cleaning up a listing

Two local improvements, made once the ownership instructions are in place: loads that nothing reads
go away with the ownership instructions on them, and `INC r; DEC r` vanishes while
`INC r; UNREF r` becomes `DROP r`. Both count the instructions they remove. -/

namespace CountedMachine.Listing

/-- The register of a load without effect: a nil constant, a parameter or a capture. -/
def idleLoad? (isNil : ConstId → Bool) : Instr NodeId → Option Reg
  | .const dst k => if isNil k then some dst else none
  | .param dst _ => some dst
  | .capture dst _ => some dst
  | _ => none

/-- The register a load or an ownership instruction is about. -/
def loadOrAdjust? : Instr NodeId → Option Reg
  | .const dst _ => some dst
  | .param dst _ => some dst
  | .capture dst _ => some dst
  | .adjust _ reg => some reg
  | _ => none

/-- Remove a node that is a load of, or an ownership instruction on, one of the dead registers. -/
def eraseDead (dead : List Reg) :
    Listing × Nat → NodeId × Instr NodeId → Except Fault (Listing × Nat)
  | (l, removed), (id, i) =>
    if (loadOrAdjust? i).any dead.contains && id ≠ l.cursor then do
      return (← l.erase id, removed + 1)
    else .ok (l, removed)

/-- Remove the loads that nothing reads, with their ownership instructions. -/
def eraseUnreadLoads (l : Listing) (isNil : ConstId → Bool) : Except Fault (Listing × Nat) :=
  let instrs := l.entries
  let read := Std.HashSet.ofList (instrs.flatMap fun p => p.2.inputs)
  let dead := (instrs.filterMap fun p => idleLoad? isNil p.2).filter fun r => !read.contains r
  instrs.foldlM (eraseDead dead) (l, 0)

/-- Fold the pair of `id` and its successor `n`, where they form one; the result says where to go
on and how many instructions were removed. -/
def fusePair (l : Listing) (id n : NodeId) (i j : Instr NodeId) :
    Except Fault (Listing × Option NodeId × Nat) := do
  match i, j with
  | .adjust .inc reg, .adjust .dec r =>
    if r = reg && id ≠ l.cursor && n ≠ l.cursor then
      let after ← l.next n
      let l ← l.erase id
      return (← l.erase n, after, 2)
    else return (l, some n, 0)
  | .adjust .inc reg, .adjust .unref r =>
    if r = reg && id ≠ l.cursor then
      let l ← l.put n (.adjust .drop reg)
      return (← l.erase id, some n, 1)
    else return (l, some n, 0)
  | _, _ => return (l, some n, 0)

/-- Fold adjacent pairs from a node on. -/
def fusePairsFrom : Nat → Listing → Option NodeId → Nat → Except Fault (Listing × Nat)
  | 0, l, _, removed => .ok (l, removed)
  | _ + 1, l, none, removed => .ok (l, removed)
  | fuel + 1, l, some id, removed => do
    let node ← l.node id
    match node.next with
    | none => return (l, removed)
    | some n =>
      let (l, after, count) ← l.fusePair id n node.instr (← l.get n)
      fusePairsFrom fuel l after (removed + count)

/-- Fold adjacent pairs of ownership instructions. Every round leaves a node behind or removes
one. -/
def fusePairs (l : Listing) : Except Fault (Listing × Nat) := do
  fusePairsFrom (l.nodes.size + 1) l (← l.next head) 0

/-- **Clean up a listing**, and count the instructions removed. -/
def tidy (l : Listing) (isNil : ConstId → Bool) : Except Fault (Listing × Nat) := do
  let (l, loads) ← l.eraseUnreadLoads isNil
  let (l, pairs) ← l.fusePairs
  return (l, loads + pairs)

end CountedMachine.Listing
