import CountedMachine.Code.Operand

/-! # Findings of the ownership checkers

What can be wrong with a register along a control path, and how each finding is put into words. -/

namespace CountedMachine

/-- A register that is not released exactly once along every path, or is touched too late. -/
inductive Imbalance
  | touchedDead (reg : Reg) (place : NodeId)
  | unownedRelease (reg : Reg) (place : NodeId)
  | neverReleased (reg : Reg) (place : NodeId)
  | droppedOwned (reg : Reg) (place : NodeId)
  | definedTimes (reg : Reg) (count : Nat)
  | outlived (reg container : Reg) (place : NodeId)
  deriving Repr, DecidableEq

/-- A finding in words. -/
def Imbalance.message : Imbalance → String
  | .touchedDead reg place => s!"{reg.text} is used at {place.text} after its release"
  | .unownedRelease reg place => s!"{reg.text} released at {place.text} without an owned reference"
  | .neverReleased reg place => s!"{reg.text} still owned when the path ends at {place.text}"
  | .droppedOwned reg place => s!"{reg.text} dropped at {place.text} while still owned"
  | .definedTimes reg count => s!"{reg.text} has {count} definitions"
  | .outlived reg container place =>
    s!"{reg.text} is touched at {place.text} after its container {container.text} was released"

end CountedMachine
