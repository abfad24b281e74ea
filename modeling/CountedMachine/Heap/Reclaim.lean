import CountedMachine.Heap.Basic

/-! # Freeing objects

An object whose count has reached zero is freed, and with it everything that is left without a
reference: `reclaim` works off a list of objects at zero, the last one first. A closure in a scope
is not freed by itself: it reports to its scope, and when the scope is garbage all its members are
freed together. -/

namespace CountedMachine.Heap

/-- Free a slot and hand out its object. -/
def evict (h : Heap) (r : ObjId) : Except Fault (Heap × Object) :=
  match h.slots[r.index]? with
  | none => .error .outOfBounds
  | some none => .error (.doubleFree r.index)
  | some (some c) =>
    .ok ({ h with
      slots := h.slots.setIfInBounds r.index none
      free := r :: h.free
      stats := { h.stats with frees := h.stats.frees + 1, live := h.stats.live - 1 } }, c.obj)

/-- Give up the reference an object held, and note the target if its count reaches zero. -/
def letGo : Heap × List ObjId → Value → Except Fault (Heap × List ObjId)
  | (h, work), .obj r => do
    let (h, rc) ← h.decObj r
    return (h, if rc = 0 then r :: work else work)
  | s, _ => .ok s

/-- Free an object and give up the references it held. -/
def dissolve : Heap × List ObjId → ObjId → Except Fault (Heap × List ObjId)
  | (h, work), r => do
    let (h, obj) ← h.evict r
    obj.owned.foldlM letGo (h, work)

/-- The scope a live object belongs to. -/
def scopeOf (h : Heap) (r : ObjId) : Except Fault (Option ScopeId) := do
  match ← h.get r with
  | .closure c => return c.scope
  | _ => return none

/-- A scope that has not been collected. -/
def scope (h : Heap) (g : ScopeId) : Except Fault Scope :=
  match h.scopes[g.index]? with
  | some (some s) => .ok s
  | _ => .error (.scopeCollected g.index)

/-- The count of an object, zero where it is freed. -/
def rcOrZero (h : Heap) (r : ObjId) : Nat := ((h.slot? r).map (·.rc)).getD 0

/-- Replace a scope. -/
def setScope (h : Heap) (g : ScopeId) (s : Option Scope) : Heap :=
  { h with scopes := h.scopes.setIfInBounds g.index s }

/-- Free all members of a scope and forget it. -/
def dismantle (h : Heap) (g : ScopeId) (work : List ObjId) :
    Except Fault (Heap × List ObjId) := do
  let s ← h.scope g
  let h := h.setScope g none
  let h := { h with
    stats := { h.stats with scopesCollected := h.stats.scopesCollected + 1 } }
  s.members.foldlM dissolve (h, work)

/-- A member's count has reached zero: tell its scope. -/
def noteZero (h : Heap) (g : ScopeId) (work : List ObjId) :
    Except Fault (Heap × List ObjId) := do
  let s ← h.scope g
  match s.noteZero h.rcOrZero with
  | (s, .keep) => return (h.setScope g (some s), work)
  | (s, .discard) => dismantle (h.setScope g (some s)) g work

/-- Deal with one object at zero. -/
def reclaimOne (h : Heap) (r : ObjId) (work : List ObjId) : Except Fault (Heap × List ObjId) := do
  match ← h.scopeOf r with
  | some g => h.noteZero g work
  | none => dissolve (h, work) r

/-- Work off the objects at zero. -/
def reclaimLoop : Nat → Heap → List ObjId → Except Fault Heap
  | _, h, [] => .ok h
  | 0, _, _ :: _ => .error .exhausted
  | fuel + 1, h, r :: work => do
    let (h, work) ← h.reclaimOne r work
    reclaimLoop fuel h work

/-- **Free what nobody references**, starting from objects at zero. Every object reaches zero at
most once while nothing is acquired, which bounds the rounds. -/
def reclaim (h : Heap) (work : List ObjId) : Except Fault Heap :=
  reclaimLoop (h.slots.size + work.length) h work

/-- **Free a value that nobody owns**; its count is left alone. -/
def drop (h : Heap) (v : Value) : Except Fault Heap :=
  match v with
  | .obj r => do if (← h.rc r) = 0 then h.reclaim [r] else return h
  | _ => .ok h

/-- **Give up a reference** and free what nobody references then. -/
def unref (h : Heap) (v : Value) : Except Fault Heap :=
  match v with
  | .obj r => do
    let (h, rc) ← h.decObj r
    if rc = 0 then h.reclaim [r] else return h
  | _ => .ok h

/-- Give up a reference to each value. -/
def unrefAll (h : Heap) (vs : List Value) : Except Fault Heap := vs.foldlM unref h

/-! ## Recursive scopes of the heap -/

/-- Open a scope for `size` closures. -/
def openScope (h : Heap) (size : Nat) : Heap × ScopeId :=
  ({ h with scopes := h.scopes.push (some (.new size)) }, ⟨h.scopes.size⟩)

/-- Add a closure to a scope. -/
def enrol (h : Heap) (g : ScopeId) (member : ObjId) : Except Fault Heap := do
  let s ← (← h.scope g).enrol member
  let h := h.setScope g (some s)
  match ← h.get member with
  | .closure c => h.put member (.closure { c with scope := some g })
  | _ => throw .joinNotClosure

/-- The value is one of the members. -/
def isMember (members : List ObjId) (v : Value) : Bool :=
  match v with
  | .obj r => members.contains r
  | _ => false

/-- Make a member's captures of its siblings weak, giving up their references. -/
def weaken (members : List ObjId) (h : Heap) (m : ObjId) : Except Fault Heap := do
  match ← h.get m with
  | .closure c =>
    let h ← (c.caps.filter (isMember members)).foldlM release h
    h.put m (.closure { c with weak := c.caps.map (isMember members) })
  | _ => throw .memberNotClosure

/-- **Seal a scope:** captures of siblings become weak, and a scope that nobody references from
outside is collected at once. -/
def sealScope (h : Heap) (g : ScopeId) : Except Fault Heap := do
  let members := (← h.scope g).members
  let h ← members.foldlM (weaken members) h
  match ← (← h.scope g).close h.rcOrZero with
  | (s, .keep) => return h.setScope g (some s)
  | (s, .discard) => do
    let (h, work) ← dismantle (h.setScope g (some s)) g []
    work.foldlM (fun h r => h.reclaim [r]) h

end CountedMachine.Heap
