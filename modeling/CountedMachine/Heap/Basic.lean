import CountedMachine.Code.Operand
import CountedMachine.Fault
import CountedMachine.Heap.Scope

/-! # The heap

Values are immediate or point at an object in an arena of counted slots. A fresh object has count
zero: the instruction that made it is its only owner until someone acquires it. A freed slot is
used again, last freed first.

Closures that are bound together belong to a recursive scope (see `Scope`); the scope of a closure
decides when it is freed. -/

namespace CountedMachine

/-- A value: immediate, or an object of the heap. -/
inductive Value
  | nil
  | bool (b : Bool)
  | num (x : Float)
  | obj (r : ObjId)
  deriving Inhabited

namespace Value

/-- The object a value points at. -/
def asObj? : Value → Option ObjId
  | .obj r => some r
  | _ => none

/-- All values but nil and false count as true. -/
def truthy : Value → Bool
  | .nil => false
  | .bool b => b
  | _ => true

end Value

/-- A function value: a code unit and its captures. `weak` marks the captures of closures in the
same scope, which hold no reference. -/
structure Closure where
  unit : UnitId
  caps : List Value
  weak : List Bool
  scope : Option ScopeId

namespace Closure

/-- The unit of a closure that has none yet. -/
def noUnit : UnitId := ⟨0xffffffff⟩

/-- A closure without captures. -/
def plain (unit : UnitId) : Closure := ⟨unit, [], [], none⟩

/-- A closure that has been allocated but has no code yet. -/
def blank : Closure := plain noUnit

/-- The closure has its code. -/
def isFinished (c : Closure) : Bool := c.unit ≠ noUnit

/-- The captures that hold a reference: those not marked weak, and all without a mark. -/
def ownedCaps (c : Closure) : List Value :=
  (c.caps.zipIdx.filter fun p => !c.weak.getD p.2 false).map (·.1)

end Closure

/-- An object of the heap. `cell` is a mutable variable; `undefined` is an error value with the
places it came through. -/
inductive Object
  | str (s : String)
  | cons (head tail : Value)
  | struct (ty : Nat) (fields : List Value)
  | cell (content : Value)
  | closure (c : Closure)
  | undefined (tag : String) (trace : List Location)

/-- The values an object holds a reference to. -/
def Object.owned : Object → List Value
  | .str _ => []
  | .undefined _ _ => []
  | .cons a b => [a, b]
  | .struct _ fields => fields
  | .cell v => [v]
  | .closure c => c.ownedCaps

/-- A slot in use: a count and an object. -/
structure Slot where
  rc : Nat
  obj : Object

/-- What has happened to a heap so far. -/
structure HeapCounts where
  allocs : Nat := 0
  frees : Nat := 0
  live : Nat := 0
  scopesCollected : Nat := 0
  deriving Repr, DecidableEq

/-- An arena of counted objects and the recursive scopes opened so far. -/
structure Heap where
  slots : Array (Option Slot) := #[]
  free : List ObjId := []
  scopes : Array (Option Scope) := #[]
  stats : HeapCounts := {}
  deriving Inhabited

namespace Heap

/-- The heap without objects. -/
def empty : Heap := {}

variable (h : Heap)

/-- Allocate an object with count zero, in the slot freed last or in a new one. -/
def allocate (obj : Object) : Heap × Value :=
  let stats := { h.stats with allocs := h.stats.allocs + 1, live := h.stats.live + 1 }
  let slot : Option Slot := some ⟨0, obj⟩
  match h.free with
  | r :: free =>
    ({ h with slots := h.slots.setIfInBounds r.index slot, free := free, stats := stats }, .obj r)
  | [] => ({ h with slots := h.slots.push slot, stats := stats }, .obj ⟨h.slots.size⟩)

/-- The slot of a live object. -/
def slot? (r : ObjId) : Option Slot := h.slots[r.index]?.join

/-- The slot of an object, which must be live. -/
def slot (r : ObjId) : Except Fault Slot :=
  match h.slot? r with
  | some c => .ok c
  | none => .error (.freedObject r.index)

/-- The object behind a reference. -/
def get (r : ObjId) : Except Fault Object := (h.slot r).map (·.obj)

/-- The count of an object. -/
def rc (r : ObjId) : Except Fault Nat := (h.slot r).map (·.rc)

/-- Fill or empty a slot. -/
def setSlot (r : ObjId) (c : Option Slot) : Heap :=
  { h with slots := h.slots.setIfInBounds r.index c }

/-- A live object lies in the arena. -/
theorem lt_size_of_slot? {h : Heap} {r : ObjId} {c : Slot} (hr : h.slot? r = some c) :
    r.index < h.slots.size := by
  rcases Nat.lt_or_ge r.index h.slots.size with hlt | hge
  · exact hlt
  · simp [slot?, Array.getElem?_eq_none hge] at hr

/-- Filling or emptying a slot of the arena changes that slot alone. -/
theorem slot?_setSlot (h : Heap) (r s : ObjId) (c : Option Slot) (hr : r.index < h.slots.size) :
    (h.setSlot r c).slot? s = if s = r then c else h.slot? s := by
  obtain ⟨s⟩ := s
  obtain ⟨r⟩ := r
  simp only [slot?, setSlot, Array.getElem?_setIfInBounds, ObjId.mk.injEq]
  by_cases e : r = s
  · subst e
    simp [hr]
  · simp [e, Ne.symm e]

/-- Overwrite an object, keeping its count. -/
def put (r : ObjId) (obj : Object) : Except Fault Heap := do
  let c ← h.slot r
  return h.setSlot r (some { c with obj := obj })

/-- The closure a value is. -/
def closure? (v : Value) : Except Fault (Option Closure) :=
  match v with
  | .obj r => do
    match ← h.get r with
    | .closure c => return some c
    | _ => return none
  | _ => .ok none

/-- The tag of an error value. -/
def errorTag? (v : Value) : Except Fault (Option String) :=
  match v with
  | .obj r => do
    match ← h.get r with
    | .undefined tag _ => return some tag
    | _ => return none
  | _ => .ok none

/-- The value is an error value. -/
def isError (v : Value) : Except Fault Bool := (h.errorTag? v).map Option.isSome

/-- Allocate an error value. -/
def undefined (tag : String) : Heap × Value := h.allocate (.undefined tag [])

/-- Raise the count of an object. -/
def incObj (r : ObjId) : Except Fault Heap := do
  let c ← h.slot r
  return h.setSlot r (some { c with rc := c.rc + 1 })

/-- Lower the count of an object, and return the new count. -/
def decObj (r : ObjId) : Except Fault (Heap × Nat) := do
  let c ← h.slot r
  if c.rc = 0 then throw (.countUnderflow r.index)
  else return (h.setSlot r (some { c with rc := c.rc - 1 }), c.rc - 1)

/-- **Take a reference.** -/
def inc (v : Value) : Except Fault Heap :=
  match v with
  | .obj r => h.incObj r
  | _ => .ok h

/-- **Give up a reference** without freeing. -/
def release (v : Value) : Except Fault Heap :=
  match v with
  | .obj r => do return (← h.decObj r).1
  | _ => .ok h

/-- Take a reference to each value. -/
def incAll (vs : List Value) : Except Fault Heap := vs.foldlM inc h

end Heap

end CountedMachine
