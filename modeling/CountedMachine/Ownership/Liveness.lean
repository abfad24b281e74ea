import CountedMachine.Listing.Control
import Std.Data.HashMap
import Std.Data.HashSet

/-! # Liveness of a register

A register is live at a node when some control path from the node on, the node included, reads it.
`Listing.liveness` finds the live nodes among those reachable from a start by a depth-first search
that enters every node once and decides it when it leaves it, after all its successors. A node that
is reached again while it is still open lies on a loop, and loops are refused. -/

namespace CountedMachine

/-- What the search does next: enter a node, or leave it and decide it. -/
inductive Visit
  | enter (id : NodeId)
  | leave (id : NodeId)

/-- The state of the search: the nodes decided so far, the open ones and what is left to do. -/
structure Search where
  live : Std.HashMap NodeId Bool
  opened : Std.HashSet NodeId
  agenda : List Visit

namespace Search

/-- Start at a node. -/
def start (id : NodeId) : Search := ⟨∅, ∅, [.enter id]⟩

/-- Plan to enter a successor, unless it has been decided. -/
def plan (s : Search) (id : NodeId) : Except Fault Search :=
  if s.opened.contains id then .error (.backEdge id)
  else if s.live.contains id then .ok s
  else .ok { s with agenda := .enter id :: s.agenda }

/-- Enter or leave one node. -/
def visit (l : Listing) (r : Reg) (s : Search) : Visit → Except Fault Search
  | .leave id => do
    let i ← l.get id
    let after ← l.successors id
    return { s with
      opened := s.opened.erase id
      live := s.live.insert id (i.reads r || after.any fun n => s.live.getD n false) }
  | .enter id =>
    if s.live.contains id then return s
    else if s.opened.contains id then throw (.backEdge id)
    else do
      let after ← l.successors id
      after.foldlM plan { s with opened := s.opened.insert id, agenda := .leave id :: s.agenda }

/-- Work off the agenda. -/
def run (l : Listing) (r : Reg) : Nat → Search → Except Fault (Std.HashMap NodeId Bool)
  | _, ⟨live, _, []⟩ => .ok live
  | 0, _ => .error .exhausted
  | fuel + 1, ⟨live, opened, v :: agenda⟩ => do
    run l r fuel (← visit l r ⟨live, opened, agenda⟩ v)

end Search

/-- **The liveness of `r`** at the nodes reachable from `start`. Every node is entered and left once
and every edge is planned once, which bounds the steps. -/
def Listing.liveness (l : Listing) (r : Reg) (start : NodeId) :
    Except Fault (Std.HashMap NodeId Bool) :=
  Search.run l r (3 * l.nodes.size + 2) (.start start)

end CountedMachine
