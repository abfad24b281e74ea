import CountedMachine.Proofs.Heap.Estimates

/-! # The arena stays consistent

Exact counts need users that keep to the rules (`History`). The arena itself needs none: whatever
objects are stored, whichever references are taken and given up and whoever joins a scope, the free
list names the empty slots, each once, and the tallies are those of the slots and of the scopes
(`Consistent`). Each operation changes a live slot in place, empties one, fills an empty one, or gives
up a scope in use, and these are the only changes to look at.

A cascade ends for the same reason in every heap. Counts do not rise while it lasts, and an object is
put on the list when its count leaves the positive ones, so objects with a reference and objects on the
list do not become more together (`InStock`), while every round takes one off. -/

namespace CountedMachine

/-- **The computation comes to an end by itself:** it returns as said, or meets a fault, and is never
cut off for want of steps. -/
def Finishes {α : Type} (x : Except Fault α) (Q : α → Prop) : Prop :=
  match x with
  | .ok a => Q a
  | .error f => f ≠ .exhausted

namespace Finishes

variable {α β : Type} {x : Except Fault α} {f : α → Except Fault β} {Q R : α → Prop} {S : β → Prop}

theorem bind (hx : Finishes x Q) (hf : ∀ a, Q a → Finishes (f a) S) : Finishes (x >>= f) S := by
  cases x with
  | ok a => exact hf a hx
  | error e => exact hx

theorem result (hx : Finishes x Q) {a : α} (h : x = .ok a) : Q a := by
  rw [h] at hx
  exact hx

/-- What every step of a sequence keeps holds at its end. -/
theorem foldlM {step : β → α → Except Fault β} (hstep : ∀ b a, S b → Finishes (step b a) S) :
    ∀ (as : List α) {b : β}, S b → Finishes (as.foldlM step b) S
  | [], _, hb => hb
  | a :: as, b, hb => by
    rw [List.foldlM_cons]
    exact (hstep b a hb).bind fun _ hb' => foldlM hstep as hb'

end Finishes

namespace Heap

/-- The number of slots in use. -/
def occupied (h : Heap) : Nat := h.slots.countP Option.isSome

/-- The number of scopes that have been given up. -/
def givenUp (h : Heap) : Nat := h.scopes.countP Option.isNone

/-- **The arena is consistent:** the free list names the empty slots, each once, the live objects are
the slots in use and those allocated less those freed, and the scopes collected are the ones given
up. -/
structure Consistent (h : Heap) : Prop where
  nodup : h.free.Nodup
  free_iff : ∀ r : ObjId, r ∈ h.free ↔ h.slots[r.index]? = some none
  live : h.stats.live = h.occupied
  allocs : h.stats.allocs = h.stats.frees + h.stats.live
  collected : h.stats.scopesCollected = h.givenUp

variable {h : Heap} {r : ObjId} {c : Slot} {v : Value} {g : ScopeId} {s : Scope} {n : Nat}

theorem consistent_empty : Consistent .empty :=
  ⟨List.nodup_nil, fun r => by simp [empty], rfl, rfl, rfl⟩

/-! ## Changes to the arena -/

/-- A count over an array changes by the entry that is replaced. -/
theorem countP_setIfInBounds {α : Type} (p : α → Bool) {xs : Array α} {i : Nat} {a : α} (b : α)
    (ha : xs[i]? = some a) : (xs.setIfInBounds i b).countP p + (if p a then 1 else 0) =
      xs.countP p + if p b then 1 else 0 := by
  obtain ⟨hi, rfl⟩ := Array.getElem?_eq_some_iff.mp ha
  have hle : (if p xs[i] then 1 else 0) ≤ xs.countP p := Array.boole_getElem_le_countP hi
  rw [Array.setIfInBounds, dif_pos hi, Array.countP_set]
  omega

theorem slots_of_slot? (hr : h.slot? r = some c) : h.slots[r.index]? = some (some c) := by
  simpa [slot?, Option.join_eq_some_iff] using hr

/-- A live object may change. -/
theorem Consistent.setSlot (hc : Consistent h) (hr : h.slot? r = some c) (c' : Slot) :
    Consistent (h.setSlot r (some c')) := by
  have hslot := slots_of_slot? hr
  refine ⟨hc.nodup, fun x => ?_, ?_, hc.allocs, hc.collected⟩
  · rw [free_setSlot, hc.free_iff x, Heap.setSlot, Array.getElem?_setIfInBounds]
    split_ifs with e hlt
    · rw [← e, hslot]
      simp
    · exact absurd (lt_size_of_slot? hr) hlt
    · rfl
  · have hcount := countP_setIfInBounds Option.isSome (some c') hslot
    exact hc.live.trans (Nat.add_right_cancel hcount).symm

/-- A live object may be freed. -/
theorem Consistent.vacate (hc : Consistent h) (hr : h.slot? r = some c) :
    Consistent (h.vacate r) := by
  have hslot := slots_of_slot? hr
  have hlt := lt_size_of_slot? hr
  have hcount : (h.vacate r).occupied + 1 = h.occupied :=
    countP_setIfInBounds Option.isSome none hslot
  have hlive := hc.live
  have hallocs := hc.allocs
  refine ⟨List.nodup_cons.mpr ⟨fun hm => ?_, hc.nodup⟩, fun x => ?_, ?_, ?_, hc.collected⟩
  · rw [hc.free_iff, hslot] at hm
    cases hm
  · obtain ⟨x⟩ := x
    obtain ⟨r⟩ := r
    simp only [Heap.vacate, List.mem_cons, hc.free_iff, Array.getElem?_setIfInBounds, ObjId.mk.injEq]
    by_cases e : r = x
    · subst e
      simpa using hlt
    · simp [e, Ne.symm e]
  · show h.stats.live - 1 = _
    omega
  · show h.stats.allocs = h.stats.frees + 1 + (h.stats.live - 1)
    omega

/-- **A new object goes where no object is.** -/
theorem Consistent.allocate (hc : Consistent h) (obj : Object) : Consistent (h.allocate obj).1 ∧
    ∃ r, (h.allocate obj).2 = .obj r ∧ h.slot? r = none ∧
      (h.allocate obj).1.slot? r = some ⟨0, obj⟩ := by
  have hlive := hc.live
  have hallocs := hc.allocs
  rcases hf : h.free with _ | ⟨r, free⟩
  · refine ⟨?_, ⟨h.slots.size⟩, by simp [Heap.allocate, hf], by simp [slot?], ?_⟩
    · simp only [Heap.allocate, hf]
      refine ⟨List.nodup_nil, fun x => ?_, ?_, ?_, hc.collected⟩
      · have hx := hc.free_iff x
        rw [hf] at hx
        simp only [Array.getElem?_push]
        split_ifs
        · simp
        · exact hx
      · show h.stats.live + 1 = Array.countP _ _
        rw [Array.countP_push, hlive]
        rfl
      · show h.stats.allocs + 1 = h.stats.frees + (h.stats.live + 1)
        omega
    · simp [Heap.allocate, hf, slot?]
  · have hr : h.slots[r.index]? = some none := (hc.free_iff r).mp (by simp [hf])
    have hlt : r.index < h.slots.size := (Array.getElem?_eq_some_iff.mp hr).1
    have hnd := hc.nodup
    rw [hf] at hnd
    obtain ⟨hnot, hnd⟩ := List.nodup_cons.mp hnd
    refine ⟨?_, r, by simp [Heap.allocate, hf], by simp [slot?, hr], ?_⟩
    · simp only [Heap.allocate, hf]
      refine ⟨hnd, fun x => ?_, ?_, ?_, hc.collected⟩
      · have hx := hc.free_iff x
        rw [hf, List.mem_cons] at hx
        obtain ⟨x⟩ := x
        obtain ⟨r⟩ := r
        simp only [Array.getElem?_setIfInBounds]
        by_cases e : r = x
        · subst e
          simpa [hlt] using hnot
        · rw [if_neg e, ← hx]
          simp [Ne.symm e]
      · show h.stats.live + 1 = Array.countP _ _
        rw [hlive]
        exact (countP_setIfInBounds Option.isSome (some ⟨0, obj⟩) hr).symm
      · show h.stats.allocs + 1 = h.stats.frees + (h.stats.live + 1)
        omega
    · simp [Heap.allocate, hf, slot?, hlt]

/-- A scope in use may change. -/
theorem Consistent.rescope (hc : Consistent h) (hg : h.scopeAt g = some s) (s' : Scope) :
    Consistent (h.setScope g (some s')) := by
  have hs : h.scopes[g.index]? = some (some s) := by
    simpa [scopeAt, Option.join_eq_some_iff] using hg
  have hcount := countP_setIfInBounds Option.isNone (some s') hs
  exact ⟨hc.nodup, hc.free_iff, hc.live, hc.allocs,
    hc.collected.trans (Nat.add_right_cancel hcount).symm⟩

/-- A scope in use may be given up, and is counted then. -/
theorem Consistent.unscope (hc : Consistent h) (hg : h.scopeAt g = some s) :
    Consistent { h.setScope g none with
      stats := { h.stats with scopesCollected := h.stats.scopesCollected + 1 } } := by
  have hs : h.scopes[g.index]? = some (some s) := by
    simpa [scopeAt, Option.join_eq_some_iff] using hg
  have hcount := countP_setIfInBounds Option.isNone none hs
  exact ⟨hc.nodup, hc.free_iff, hc.live, hc.allocs,
    (congrArg (· + 1) hc.collected).trans hcount.symm⟩

theorem Consistent.openScope (hc : Consistent h) (size : Nat) : Consistent (h.openScope size).1 := by
  refine ⟨hc.nodup, hc.free_iff, hc.live, hc.allocs, hc.collected.trans ?_⟩
  show _ = (h.scopes.push (some (.new size))).countP _
  rw [Array.countP_push]
  rfl

/-! ## Counts -/

theorem finishes_slot (h : Heap) (r : ObjId) : Finishes (h.slot r) fun c => h.slot? r = some c := by
  unfold slot
  cases hr : h.slot? r with
  | none => exact Fault.noConfusion
  | some c => exact rfl

theorem finishes_get (h : Heap) (r : ObjId) : Finishes (h.get r) fun _ => True := by
  unfold get slot
  cases h.slot? r with
  | none => exact Fault.noConfusion
  | some c => trivial

theorem finishes_scope (h : Heap) (g : ScopeId) :
    Finishes (h.scope g) fun s => h.scopeAt g = some s := by
  unfold scope scopeAt
  rcases h.scopes[g.index]? with _ | _ | s
  · exact Fault.noConfusion
  · exact Fault.noConfusion
  · exact rfl

theorem Consistent.put (hc : Consistent h) (r : ObjId) (obj : Object) :
    Finishes (h.put r obj) Consistent :=
  (finishes_slot h r).bind fun _ hr => hc.setSlot hr _

theorem Consistent.inc (hc : Consistent h) (v : Value) : Finishes (h.inc v) Consistent := by
  cases v with
  | obj r => exact (finishes_slot h r).bind fun _ hr => hc.setSlot hr _
  | _ => exact hc

/-- A count that reaches zero takes one object from those with a reference. -/
theorem Consistent.decObj (hc : Consistent h) (r : ObjId) : Finishes (h.decObj r) fun q =>
    Consistent q.1 ∧ q.1.busy + (if q.2 = 0 then 1 else 0) ≤ h.busy := by
  refine (finishes_slot h r).bind fun c hr => ?_
  split_ifs with h0
  · exact Fault.noConfusion
  · refine ⟨hc.setSlot hr _, ?_⟩
    have hbusy := busy_recount hr (c.rc - 1)
    rw [if_pos (Nat.pos_of_ne_zero h0)] at hbusy
    show (h.setSlot r (some { c with rc := c.rc - 1 })).busy + (if c.rc - 1 = 0 then 1 else 0) ≤ _
    split_ifs at hbusy ⊢ <;> omega

theorem Consistent.release (hc : Consistent h) (v : Value) : Finishes (h.release v) Consistent := by
  cases v with
  | obj r => exact (hc.decObj r).bind fun _ hq => hq.1
  | _ => exact hc

/-! ## Cascades -/

/-- The heap is consistent, and no more than `n` objects have a reference or wait to be freed. -/
def InStock (n : Nat) (q : Heap × List ObjId) : Prop :=
  Consistent q.1 ∧ q.1.busy + q.2.length ≤ n

variable {q : Heap × List ObjId} {work : List ObjId}

theorem InStock.letGo (hq : InStock n q) (v : Value) : Finishes (letGo q v) (InStock n) := by
  obtain ⟨h, work⟩ := q
  cases v with
  | obj r =>
    refine (hq.1.decObj r).bind fun p hp => ⟨hp.1, ?_⟩
    have hn : h.busy + work.length ≤ n := hq.2
    have hb : p.1.busy + (if p.2 = 0 then 1 else 0) ≤ h.busy := hp.2
    show p.1.busy + (if p.2 = 0 then r :: work else work).length ≤ n
    split_ifs at hb ⊢
    · rw [List.length_cons]
      omega
    · omega
  | _ => exact hq

theorem busy_vacate_le (hr : h.slot? r = some c) : (h.vacate r).busy ≤ h.busy := by
  have := sum_setSlot (fun o => if o.any (0 < ·.rc) then 1 else 0) h none (lt_size_of_slot? hr)
  simp only [Option.any_none, Bool.false_eq_true, if_false, Nat.add_zero] at this
  exact Nat.le.intro this

theorem Consistent.evict (hc : Consistent h) (r : ObjId) :
    Finishes (h.evict r) fun q => Consistent q.1 ∧ q.1.busy ≤ h.busy := by
  cases hr : h.slot? r with
  | some c =>
    rw [evict_eq hr]
    exact ⟨hc.vacate hr, busy_vacate_le hr⟩
  | none =>
    unfold Heap.evict
    rcases hs : h.slots[r.index]? with _ | _ | c
    · exact Fault.noConfusion
    · exact Fault.noConfusion
    · simp [slot?, hs] at hr

theorem InStock.dissolve (hq : InStock n q) (r : ObjId) : Finishes (dissolve q r) (InStock n) := by
  obtain ⟨h, work⟩ := q
  refine (hq.1.evict r).bind fun p hp => ?_
  exact Finishes.foldlM (fun _ v hq => InStock.letGo hq v) _ ⟨hp.1, (Nat.add_le_add_right hp.2 _).trans hq.2⟩

theorem InStock.dismantle (hq : InStock n (h, work)) (g : ScopeId) :
    Finishes (h.dismantle g work) (InStock n) := by
  refine (finishes_scope h g).bind fun s hg => ?_
  exact Finishes.foldlM (fun _ r hq => InStock.dissolve hq r) _ ⟨hq.1.unscope hg, hq.2⟩

theorem InStock.noteZero (hq : InStock n (h, work)) (g : ScopeId) :
    Finishes (h.noteZero g work) (InStock n) := by
  refine (finishes_scope h g).bind fun s hg => ?_
  split
  · exact ⟨hq.1.rescope hg _, hq.2⟩
  · exact InStock.dismantle ⟨hq.1.rescope hg _, hq.2⟩ g

theorem InStock.reclaimOne (hq : InStock n (h, work)) (r : ObjId) :
    Finishes (h.reclaimOne r work) (InStock n) := by
  have hscope : Finishes (h.scopeOf r) fun _ => True :=
    (finishes_get h r).bind fun o _ => by split <;> trivial
  refine hscope.bind fun o _ => ?_
  cases o with
  | none => exact InStock.dissolve hq r
  | some g => exact hq.noteZero g

/-- **A cascade ends**, whatever the heap: every round takes an object off the list. -/
theorem InStock.reclaimLoop : ∀ {n : Nat} {h : Heap} {work : List ObjId}, InStock n (h, work) →
    Finishes (reclaimLoop n h work) Consistent
  | _, _, [], hq => by
    rw [Heap.reclaimLoop]
    exact hq.1
  | 0, _, _ :: _, hq => absurd hq.2 (by simp)
  | n + 1, h, r :: work, hq => by
    have hn : h.busy + (work.length + 1) ≤ n + 1 := hq.2
    have hq' : InStock n (h, work) := ⟨hq.1, by show h.busy + work.length ≤ n; omega⟩
    exact (hq'.reclaimOne r).bind fun _ hp => InStock.reclaimLoop hp

theorem Consistent.reclaim (hc : Consistent h) (work : List ObjId) :
    Finishes (h.reclaim work) Consistent :=
  InStock.reclaimLoop ⟨hc, Nat.add_le_add_right (busy_le_size h) _⟩

theorem Consistent.drop (hc : Consistent h) (v : Value) : Finishes (h.drop v) Consistent := by
  cases v with
  | obj r =>
    have hrc : Finishes (h.rc r) fun _ => True := by
      unfold rc slot
      cases h.slot? r with
      | none => exact Fault.noConfusion
      | some c => trivial
    refine hrc.bind fun n _ => ?_
    split_ifs
    · exact hc.reclaim _
    · exact hc
  | _ => exact hc

theorem Consistent.unref (hc : Consistent h) (v : Value) : Finishes (h.unref v) Consistent := by
  cases v with
  | obj r =>
    refine (hc.decObj r).bind fun q hq => ?_
    obtain ⟨h', n⟩ := q
    dsimp only
    split_ifs
    · exact hq.1.reclaim _
    · exact hq.1
  | _ => exact hc

/-! ## Scopes -/

theorem Consistent.enrol (hc : Consistent h) (g : ScopeId) (m : ObjId) :
    Finishes (h.enrol g m) Consistent := by
  refine (finishes_scope h g).bind fun s hg => ?_
  have henrol : Finishes (s.enrol m) fun _ => True := by
    unfold Scope.enrol
    split_ifs
    · exact Fault.noConfusion
    · exact Fault.noConfusion
    · trivial
  refine henrol.bind fun s' _ => ?_
  have hc' := hc.rescope hg s'
  refine (finishes_get _ m).bind fun o _ => ?_
  cases o with
  | closure c => exact hc'.put m _
  | _ => exact Fault.noConfusion

theorem Consistent.weaken (hc : Consistent h) (members : List ObjId) (m : ObjId) :
    Finishes (weaken members h m) Consistent := by
  refine (finishes_get h m).bind fun o _ => ?_
  cases o with
  | closure c =>
    exact (Finishes.foldlM (fun _ v hc => Consistent.release hc v) _ hc).bind fun _ hc' => hc'.put m _
  | _ => exact Fault.noConfusion

theorem Consistent.sealScope (hc : Consistent h) (g : ScopeId) :
    Finishes (h.sealScope g) Consistent := by
  refine (finishes_scope h g).bind fun s _ => ?_
  refine (Finishes.foldlM (fun _ m hc => Consistent.weaken hc s.members m) s.members hc).bind
    fun h₁ hc₁ => ?_
  refine (finishes_scope h₁ g).bind fun s₁ hg => ?_
  have hclose : Finishes (s₁.close h₁.rcOrZero) fun _ => True := by
    unfold Scope.close
    split_ifs
    · exact Fault.noConfusion
    · exact Fault.noConfusion
    · trivial
  refine hclose.bind fun p _ => ?_
  obtain ⟨s₂, _ | _⟩ := p
  · exact hc₁.rescope hg s₂
  · have hq : InStock _ (h₁.setScope g (some s₂), []) := ⟨hc₁.rescope hg s₂, le_rfl⟩
    exact (hq.dismantle g).bind fun q hq =>
      Finishes.foldlM (fun _ r hc => Consistent.reclaim hc [r]) q.2 hq.1

/-! ## Operations in any order -/

/-- **What may be asked of a heap**, with any arguments. `write` stands for all changes of an object
in place. -/
inductive Operation
  | allocate (obj : Object)
  | inc (v : Value)
  | release (v : Value)
  | drop (v : Value)
  | unref (v : Value)
  | openScope (size : Nat)
  | enrol (g : ScopeId) (member : ObjId)
  | sealScope (g : ScopeId)
  | write (r : ObjId) (obj : Object)

/-- Carry out an operation. -/
def Operation.run (h : Heap) : Operation → Except Fault Heap
  | .allocate obj => .ok (h.allocate obj).1
  | .inc v => h.inc v
  | .release v => h.release v
  | .drop v => h.drop v
  | .unref v => h.unref v
  | .openScope size => .ok (h.openScope size).1
  | .enrol g member => h.enrol g member
  | .sealScope g => h.sealScope g
  | .write r obj => h.put r obj

/-- Every operation keeps the arena consistent. -/
theorem Consistent.run (hc : Consistent h) (op : Operation) : Finishes (op.run h) Consistent := by
  cases op with
  | allocate obj => exact (hc.allocate obj).1
  | inc v => exact hc.inc v
  | release v => exact hc.release v
  | drop v => exact hc.drop v
  | unref v => exact hc.unref v
  | openScope size => exact hc.openScope size
  | enrol g m => exact hc.enrol g m
  | sealScope g => exact hc.sealScope g
  | write r obj => exact hc.put r obj

/-- **The arena is consistent after every sequence of operations** that meets no fault of its own:
the next object goes into a slot that is not in use, and no operation is cut off for want of steps. -/
theorem consistent_always (ops : List Operation) :
    ops.foldlM Operation.run .empty ≠ .error .exhausted ∧
    ∀ h, ops.foldlM Operation.run .empty = .ok h → Consistent h ∧
      ∀ obj, ∃ r, (h.allocate obj).2 = .obj r ∧ h.slot? r = none ∧
        (h.allocate obj).1.slot? r = some ⟨0, obj⟩ := by
  have hrun := Finishes.foldlM (fun _ op hc => Consistent.run hc op) ops consistent_empty
  refine ⟨fun e => ?_, fun h e => ?_⟩
  · rw [e] at hrun
    exact hrun rfl
  · rw [e] at hrun
    exact ⟨hrun, fun obj => (hrun.allocate obj).2⟩

/-- Two closures that capture each other, one of them a text too, are freed when the last reference from
outside their scope is given up, and a pair takes the slot of the text. -/
def knotted : List Operation :=
  [.allocate (.closure .blank), .allocate (.closure .blank), .allocate (.str "k"),
    .openScope 2, .enrol ⟨0⟩ ⟨0⟩, .enrol ⟨0⟩ ⟨1⟩,
    .inc (.obj ⟨1⟩), .inc (.obj ⟨2⟩), .inc (.obj ⟨0⟩), .inc (.obj ⟨0⟩),
    .write ⟨0⟩ (.closure ⟨⟨0⟩, [.obj ⟨1⟩, .obj ⟨2⟩], [], some ⟨0⟩⟩),
    .write ⟨1⟩ (.closure ⟨⟨1⟩, [.obj ⟨0⟩], [], some ⟨0⟩⟩),
    .sealScope ⟨0⟩, .unref (.obj ⟨0⟩), .allocate (.cons .nil .nil)]

/-- What is left then. -/
def untied : Heap where
  slots := #[none, none, some ⟨0, .cons .nil .nil⟩]
  free := [⟨1⟩, ⟨0⟩]
  scopes := #[none]
  stats := ⟨4, 3, 1, 1⟩

theorem run_knotted : knotted.foldlM Operation.run .empty = .ok untied := by
  cbv

theorem consistent_knotted : knotted.foldlM Operation.run .empty = .ok untied ∧ Consistent untied ∧
    ∃ r, (untied.allocate (.str "x")).2 = .obj r ∧ untied.slot? r = none := by
  obtain ⟨hc, hnew⟩ := (consistent_always knotted).2 untied run_knotted
  obtain ⟨r, hr, hfree, -⟩ := hnew (.str "x")
  exact ⟨run_knotted, hc, r, hr, hfree⟩

end Heap

end CountedMachine
