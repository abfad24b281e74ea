import CountedMachine.Ownership.Imbalance

/-! # Faults

A fault ends a computation that has broken a rule of the listing, the ownership analysis, the heap
or the machine. Each names its cause; `Fault.message` puts it into words. Three kinds have no words
of their own: an index outside its array, a count that does not fit, and a computation that was
given too few steps. -/

namespace CountedMachine

/-- The cause of a fault. -/
inductive Fault
  | outOfBounds
  | overflow
  | exhausted
  -- the listing
  | notInUnit (place : NodeId)
  | beforeHead
  | afterEnd
  | sentinelRemoved
  | cursorRemoved
  | deletedTarget (place : NodeId)
  -- ownership analysis
  | backEdge (place : NodeId)
  | severalDefinitions (reg : Reg) (count : Nat)
  | createdAtEnd (reg : Reg)
  | elseNotLabel (place : NodeId)
  | readAtPathEnd (reg : Reg) (place : NodeId)
  | unbalanced (unit : String) (finding : Imbalance) (listing : String)
  -- code generation
  | noResult
  | noElseArm (branch : NodeId)
  | irrefutable
  -- the heap
  | freedObject (object : Nat)
  | doubleFree (object : Nat)
  | countUnderflow (object : Nat)
  | scopeCollected (scope : Nat)
  | joinNotClosure
  | memberNotClosure
  | joinSealed
  | scopeOverfilled (size : Nat)
  | sealedTwice
  | missingMembers (members size : Nat)
  -- the machine
  | noClosure (unit : UnitId)
  | derefNotCell
  | setNotCell
  | guardFailed (unit : UnitId) (ty : ObjType) (value : String)
  | tooFewArguments (held wanted : Nat)
  | uncheckedCall (unit : UnitId) (tag : String)
  | uncheckedOperator (op : Operator)
  | finishNotObject
  | finishNotClosure
  | noOpenScope
  | noResultRegister
  | fieldOfImmediate
  | noConsField (index : Nat)
  | noFields
  | emptySuspension
  deriving Repr, DecidableEq

/-- The words of an assertion that compares two numbers. -/
def assertionText (text : String) (left right : Nat) : String :=
  s!"assertion \x60left == right\x60 failed: {text}\n  left: {left}\n right: {right}"

/-- The words of a branch that no computation takes. -/
def unreachableText (text : String) : String :=
  s!"internal error: entered unreachable code: {text}"

/-- **A fault in words**, where it has any. -/
def Fault.message : Fault → Option String
  | .outOfBounds => none
  | .overflow => none
  | .exhausted => none
  | .notInUnit place => some s!"instruction {place.text} is not part of this unit"
  | .beforeHead => some "cannot insert before the head sentinel"
  | .afterEnd => some "cannot insert after the end sentinel"
  | .sentinelRemoved => some "sentinels cannot be removed"
  | .cursorRemoved => some "cannot remove the instruction under the cursor"
  | .deletedTarget place => some s!"branch to deleted instruction {place.text}"
  | .backEdge place =>
    some s!"lifetime analysis: loops are not supported (back edge into {place.text})"
  | .severalDefinitions reg count =>
    some s!"lifetime analysis: {reg.text} has {count} definitions"
  | .createdAtEnd reg => some s!"lifetime analysis: {reg.text} created at the end sentinel"
  | .elseNotLabel place => some s!"lifetime analysis: else target {place.text} is not a label"
  | .readAtPathEnd reg place =>
    some s!"lifetime analysis: {reg.text} read by path end {place.text} without being consumed"
  | .unbalanced unit finding listing =>
    some s!"unbalanced lifetimes in unit {unit}: {finding.message}\n{listing}"
  | .noResult =>
    some (unreachableText "lowering outside tail position always yields a register")
  | .noElseArm branch => some s!"branch at {branch.text} joined without an else arm"
  | .irrefutable => some (unreachableText "irrefutable patterns always fit")
  | .freedObject object => some s!"use of freed object #{object}"
  | .doubleFree object => some s!"double free of object #{object}"
  | .countUnderflow object => some s!"reference count underflow on object #{object}"
  | .scopeCollected scope => some s!"recursive scope {scope} already collected"
  | .joinNotClosure => some "only closures can join a recursive scope"
  | .memberNotClosure => some (unreachableText "group member is a closure")
  | .joinSealed => some "closure joined a sealed recursive scope"
  | .scopeOverfilled size => some s!"recursive scope of {size} overfilled"
  | .sealedTwice => some "recursive scope sealed twice"
  | .missingMembers members size =>
    some (assertionText "recursive scope sealed with missing members" members size)
  | .noClosure unit => some s!"LDCAP outside a closure in unit{unit.index}"
  | .derefNotCell => some "DEREF of a non-cell"
  | .setNotCell => some "SET of a non-cell"
  | .guardFailed unit ty value =>
    some s!"guard failed in unit{unit.index}: expected {ty.describe}, got {value}"
  | .tooFewArguments held wanted =>
    some s!"argument stack holds {held} values, call wants {wanted}"
  | .uncheckedCall unit tag => some s!"unchecked call in unit{unit.index} failed: {tag}"
  | .uncheckedOperator op => some s!"unchecked {op.symbol} on non-numeric operands"
  | .finishNotObject => some "FINFN on a non-closure register"
  | .finishNotClosure => some "FINFN on a non-closure value"
  | .noOpenScope => some "ENDSCP without an open recursive scope"
  | .noResultRegister => some "frame returning into a caller has no result register"
  | .fieldOfImmediate => some "field load from an immediate"
  | .noConsField index => some s!"cons has no field {index}"
  | .noFields => some "field load from a value without fields"
  | .emptySuspension => some "resumed an empty suspension"

/-- A computation that goes well has gone well so far. -/
theorem bind_ok {ε α β : Type} {x : Except ε α} {f : α → Except ε β} {b : β}
    (h : x >>= f = .ok b) : ∃ a, x = .ok a ∧ f a = .ok b := by
  cases x with
  | error e => cases h
  | ok a => exact ⟨a, rfl, h⟩

end CountedMachine
