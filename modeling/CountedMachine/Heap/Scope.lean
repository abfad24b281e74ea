import CountedMachine.Fault

/-! # Recursive scopes

Closures that are bound together may capture each other, so their counts alone never reach zero. A
scope groups them. Once it is sealed, captures among its members hold no reference, a member's
count is the number of references from outside, and the scope is garbage when all counts are zero.

The scope keeps a count of its own, a lower estimate of the members still referenced: it drops with
each report that a member's count has reached zero, and only when it reaches zero are the members
looked at. -/

namespace CountedMachine

/-- An object of the heap. -/
structure ObjId where
  index : Nat
  deriving Repr, DecidableEq, Hashable, Inhabited

/-- A recursive scope of the heap. -/
structure ScopeId where
  index : Nat
  deriving Repr, DecidableEq, Hashable, Inhabited

/-- The answer to a report: keep the members, or discard them all. -/
inductive Decision
  | keep
  | discard
  deriving Repr, DecidableEq

/-- A recursive scope for `size` members. -/
structure Scope where
  size : Nat
  rc : Nat
  members : List ObjId
  isSealed : Bool
  deriving Repr, DecidableEq

namespace Scope

/-- An open scope. -/
def new (size : Nat) : Scope := ⟨size, size, [], false⟩

variable (s : Scope)

/-- Add a member to an open scope. -/
def enrol (member : ObjId) : Except Fault Scope :=
  if s.isSealed then .error .joinSealed
  else if s.size ≤ s.members.length then .error (.scopeOverfilled s.size)
  else .ok { s with members := s.members ++ [member] }

/-- The number of members referenced from outside. -/
def referenced (rcOf : ObjId → Nat) : Nat := (s.members.filter fun m => 0 < rcOf m).length

/-- **A member's count has reached zero.** The scope's count drops; at zero the members are looked
at, and the count starts again from the number of those still referenced. -/
def noteZero (rcOf : ObjId → Nat) : Scope × Decision :=
  if !s.isSealed then (s, .keep)
  else if 1 < s.rc then ({ s with rc := s.rc - 1 }, .keep)
  else if s.referenced rcOf = 0 then ({ s with rc := 0 }, .discard)
  else ({ s with rc := s.referenced rcOf }, .keep)

/-- Report `n` members at zero, until the scope is discarded. -/
def noteZeros (rcOf : ObjId → Nat) : Nat → Scope → Scope × Decision
  | 0, s => (s, .keep)
  | n + 1, s =>
    match s.noteZero rcOf with
    | (s, .discard) => (s, .discard)
    | (s, .keep) => noteZeros rcOf n s

/-- **Seal the scope**, which must be full. The members that nobody references report at once. -/
def close (rcOf : ObjId → Nat) : Except Fault (Scope × Decision) :=
  if s.isSealed then .error .sealedTwice
  else if s.members.length ≠ s.size then .error (.missingMembers s.members.length s.size)
  else
    let zeros := (s.members.filter fun m => rcOf m = 0).length
    .ok (noteZeros rcOf zeros { s with isSealed := true, rc := s.size })

end Scope

end CountedMachine
