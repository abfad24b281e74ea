import CountedMachine.Ownership.Placement

/-! # Checking the ownership instructions

`Listing.auditReg` follows every control path from the creation of a register and keeps its
count: the references the register owns, and whether its life has ended. It reports the first
release without a reference, drop of an owned value, touch after the end or path that ends with
the life not ended.

`Listing.auditLoad` follows a value read out of a container together with the container: while
the value owns nothing it must not be touched once the container is gone. `Listing.audit` makes
both checks for every register and every such load. -/

namespace CountedMachine

/-- What a path has done to a register so far. -/
structure Holding where
  count : Nat
  dead : Bool
  deriving Repr, DecidableEq, Hashable

namespace Holding

/-- A register at its creation. -/
def start (facts : RegFacts) : Holding := ⟨if facts.bornOwned then 1 else 0, false⟩

/-- One ownership operation, checked. -/
def adjust (st : Holding) (r : Reg) (place : NodeId) : CountOp → Except Imbalance Holding
  | .inc => .ok { st with count := st.count + 1 }
  | .dec =>
    if st.count = 0 then .error (.unownedRelease r place) else .ok { st with count := st.count - 1 }
  | .unref =>
    if st.count = 0 then .error (.unownedRelease r place)
    else .ok ⟨st.count - 1, st.count = 1⟩
  | .drop => if st.count ≠ 0 then .error (.droppedOwned r place) else .ok { st with dead := true }

/-- A read, checked; a consuming one takes a reference and ends the life. -/
def read (st : Holding) (r : Reg) (place : NodeId) (i : Instr NodeId) : Except Imbalance Holding :=
  if i.consumes r then
    if st.count = 0 then .error (.unownedRelease r place) else .ok ⟨st.count - 1, true⟩
  else .ok st

/-- What one instruction does to `r`, checked. -/
def observe (st : Holding) (r : Reg) (place : NodeId) (i : Instr NodeId) :
    Except Imbalance Holding :=
  match i with
  | .adjust op reg =>
    if reg = r then
      if st.dead then .error (.touchedDead r place) else st.adjust r place op
    else .ok st
  | i =>
    if i.reads r then
      if st.dead then .error (.touchedDead r place) else st.read r place i
    else .ok st

/-- What one instruction does to `r`, without checking. -/
def advance (st : Holding) (r : Reg) (i : Instr NodeId) : Holding :=
  match i with
  | .adjust op reg =>
    if reg = r then
      match op with
      | .inc => { st with count := st.count + 1 }
      | .dec => { st with count := st.count - 1 }
      | .unref => ⟨st.count - 1, st.count - 1 = 0⟩
      | .drop => { st with dead := st.count = 0 }
    else st
  | i => if i.consumes r then ⟨st.count - 1, true⟩ else st

end Holding

/-- The outcome of a check: balanced, or the first finding. -/
abbrev Verdict := Option Imbalance

namespace Listing

variable (l : Listing)

/-- Follow the paths on the work list, the last one first, with a state that `observe` carries over
each instruction. A path that reaches a node in a state in which the node was seen before is not
followed again. Only a loop that goes on acquiring runs out of fuel: its count exceeds every
bound. -/
def follow {σ : Type} [BEq σ] [Hashable σ]
    (observe : NodeId → Instr NodeId → List NodeId → σ → Except Imbalance σ) :
    Nat → Std.HashSet (NodeId × σ) → List (NodeId × σ) → Except Fault Verdict
  | _, _, [] => .ok none
  | 0, _, _ :: _ => .error .overflow
  | fuel + 1, seen, (id, st) :: work =>
    if seen.contains (id, st) then follow observe fuel seen work
    else do
      let i ← l.get id
      let next ← l.successors id
      match observe id i next st with
      | .error finding => return some finding
      | .ok after => follow observe fuel (seen.insert (id, st)) (next.reverse.map (·, after) ++ work)

/-- What one instruction does to `r`, checked; at the end of a path the life must have ended. -/
def observeReg (r : Reg) (id : NodeId) (i : Instr NodeId) (next : List NodeId) (st : Holding) :
    Except Imbalance Holding := do
  let after ← st.observe r id i
  if next.isEmpty && (!after.dead || after.count ≠ 0) then throw (.neverReleased r id)
  else return after

/-- A bound for the states of one register: a node, a count up to the number of nodes, and whether
the life has ended, each reached over at most two edges. -/
def auditRegFuel : Nat :=
  let n := l.nodes.size + 2
  16 * (n * n)

/-- **Is `r` released exactly once** along every path, and never touched afterwards? -/
def auditReg (r : Reg) : Except Fault Verdict := do
  let facts ← l.factsOf r
  if facts.counted then
    match l.creatorsOf r with
    | [created] =>
      let next ← l.successors created
      if next.isEmpty then return some (.neverReleased r created)
      else
        l.follow (observeReg r) l.auditRegFuel ∅ (next.reverse.map (·, Holding.start facts))
    | sites => return some (.definedTimes r sites.length)
  else return none

/-- The instruction reads `r` or changes its count. -/
def touches (i : Instr NodeId) (r : Reg) : Bool := i.reads r || i.adjusts r

/-- A path's view of a container and, once it has been read out, of the value. -/
structure Borrow where
  outer : Holding
  inner : Option Holding
  deriving Repr, DecidableEq, Hashable

/-- What one instruction does to container and value, which must not be touched too late. -/
def observeLoad (load container : Reg) (id : NodeId) (i : Instr NodeId) (_ : List NodeId)
    (b : Borrow) : Except Imbalance Borrow :=
  let outer := b.outer.advance container i
  match b.inner with
  | some st =>
    if st.count = 0 && b.outer.dead && touches i load then .error (.outlived load container id)
    else .ok ⟨outer, some (st.advance load i)⟩
  | none => .ok ⟨outer, if i.creates = some load then some ⟨0, false⟩ else none⟩

/-- A bound for the states of two registers. -/
def auditLoadFuel : Nat :=
  let n := l.nodes.size + 2
  64 * (n * n * n)

/-- **Is the value in `load` covered** by its container until it owns a reference? -/
def auditLoad (load container : Reg) : Except Fault Verdict := do
  let facts ← l.factsOf container
  if !facts.counted then return none
  if !(← l.factsOf load).counted then return none
  match l.creatorsOf container with
  | [created] =>
    let next ← l.successors created
    l.follow (observeLoad load container) l.auditLoadFuel ∅
      (next.reverse.map (·, ⟨Holding.start facts, none⟩))
  | _ => return none

/-- The first finding of a list of checks. -/
def firstFinding {α : Type} (check : α → Except Fault Verdict) : List α → Except Fault Verdict
  | [] => .ok none
  | a :: rest => do
    match ← check a with
    | some finding => return some finding
    | none => firstFinding check rest

/-- The value and the container of a borrowed load. -/
def borrowed? : Instr NodeId → Option (Reg × Reg)
  | .field dst src _ => some (dst, src)
  | .unbox dst cell => some (dst, cell)
  | _ => none

/-- **Check a finished unit:** every register, then every borrowed load. -/
def audit : Except Fault Verdict := do
  let regs := (List.range l.regs.size).map Reg.mk
  let defined := regs.filter fun r => !(l.creatorsOf r).isEmpty
  match ← firstFinding l.auditReg defined with
  | some finding => return some finding
  | none =>
    firstFinding (fun p => l.auditLoad p.1 p.2) (l.entries.filterMap fun p => borrowed? p.2)

end Listing

end CountedMachine
