import CountedMachine.Proofs.Heap.Untraced

/-! # The heap without estimates

A scope's own count is only an estimate: `Heap.blurred` forgets the estimates. The operations that consult
none of them act on the blurred heap as they act on the heap. -/

namespace CountedMachine

/-- A scope without its estimate. -/
def Scope.blurred (s : Scope) : Scope := { s with rc := 0 }

/-- **The heap without its scopes' estimates.** -/
def Heap.blurred (h : Heap) : Heap := { h with scopes := h.scopes.map (Option.map Scope.blurred) }

namespace Scope

variable {s t : Scope} {f : ObjId → Nat}

theorem enrol_blurred (s : Scope) (m : ObjId) : s.blurred.enrol m = tell blurred (s.enrol m) := by
  unfold enrol
  split_ifs <;> first | rfl | contradiction

theorem noteZero_blurred (s : Scope) (f : ObjId → Nat) : (s.noteZero f).1.blurred = s.blurred := by
  unfold noteZero
  split_ifs <;> rfl

/-- Sealing starts the estimate afresh. -/
theorem close_congr (h : t.blurred = s.blurred) : t.close f = s.close f := by
  obtain ⟨size, rc, members, isSealed⟩ := s
  obtain ⟨size', rc', members', isSealed'⟩ := t
  cases h
  rfl

end Scope

namespace Heap

variable (h : Heap) (r : ObjId) (v : Value)

/-- The heap without estimates, beside a list. -/
def blurredBeside (x : Heap × List ObjId) : Heap × List ObjId := (x.1.blurred, x.2)

/-! ## Operations that consult no estimate -/

theorem inc_blurred : h.blurred.inc v = tell blurred (h.inc v) := by
  cases v with
  | obj r => exact tell_bind_same rfl fun _ => rfl
  | _ => rfl

theorem incAll_blurred (vs : List Value) : h.blurred.incAll vs = tell blurred (h.incAll vs) :=
  tell_foldlM (fun h v => h.inc_blurred v) vs h

theorem decObj_blurred : h.blurred.decObj r = tell (fun x => (x.1.blurred, x.2)) (h.decObj r) := by
  refine tell_bind_same rfl fun c => ?_
  by_cases hc : c.rc = 0
  · rw [if_pos hc, if_pos hc]
    rfl
  · rw [if_neg hc, if_neg hc]
    rfl

theorem release_blurred : h.blurred.release v = tell blurred (h.release v) := by
  cases v with
  | obj r => exact tell_bind (h.decObj_blurred r) fun _ => rfl
  | _ => rfl

theorem put_blurred (o : Object) : h.blurred.put r o = tell blurred (h.put r o) :=
  tell_bind_same rfl fun _ => rfl

theorem allocate_blurred (o : Object) :
    h.blurred.allocate o = ((h.allocate o).1.blurred, (h.allocate o).2) := by
  obtain ⟨slots, free, scopes, stats⟩ := h
  cases free <;> rfl

theorem letGo_blurred (x : Heap × List ObjId) :
    letGo (blurredBeside x) v = tell blurredBeside (letGo x v) := by
  cases v with
  | obj r => exact tell_bind (x.1.decObj_blurred r) fun _ => rfl
  | _ => rfl

theorem dissolve_blurred (x : Heap × List ObjId) :
    dissolve (blurredBeside x) r = tell blurredBeside (dissolve x r) := by
  have hev : x.1.blurred.evict r = tell (fun y => (y.1.blurred, y.2)) (x.1.evict r) := by
    simp only [evict, blurred]
    rcases x.1.slots[r.index]? with _ | _ | c <;> rfl
  exact tell_bind hev fun y => tell_foldlM (fun x v => letGo_blurred v x) y.2.owned (y.1, x.2)

theorem scope_blurred (g : ScopeId) : h.blurred.scope g = tell Scope.blurred (h.scope g) := by
  unfold scope
  simp only [blurred, Array.getElem?_map]
  rcases h.scopes[g.index]? with _ | _ | s <;> rfl

theorem setScope_blurred (g : ScopeId) (o : Option Scope) :
    h.blurred.setScope g (o.map Scope.blurred) = (h.setScope g o).blurred := by
  simp [setScope, blurred]

theorem dismantle_blurred (g : ScopeId) (work : List ObjId) :
    h.blurred.dismantle g work = tell blurredBeside (h.dismantle g work) := by
  refine tell_bind (h.scope_blurred g) fun s => ?_
  have := h.setScope_blurred g none
  simp only [Option.map_none] at this
  rw [this]
  exact tell_foldlM (fun x m => dissolve_blurred m x) s.members ({ h.setScope g none with
    stats := { h.stats with scopesCollected := h.stats.scopesCollected + 1 } }, work)

theorem enrol_blurred (g : ScopeId) : h.blurred.enrol g r = tell blurred (h.enrol g r) := by
  refine tell_bind (h.scope_blurred g) fun s => tell_bind (s.enrol_blurred r) fun s => ?_
  have hset := h.setScope_blurred g (some s)
  rw [Option.map_some] at hset
  rw [hset]
  refine tell_bind_same rfl fun o => ?_
  cases o with
  | closure c => exact put_blurred _ r _
  | _ => rfl

theorem weaken_blurred (ms : List ObjId) : weaken ms h.blurred r = tell blurred (weaken ms h r) := by
  refine tell_bind_same rfl fun o => ?_
  cases o with
  | closure c =>
    exact tell_bind (tell_foldlM (fun h v => h.release_blurred v) _ h) fun h => h.put_blurred r _
  | _ => rfl

theorem equalWithin_blurred : ∀ (fuel : Nat) (a b : Value),
    h.blurred.equalWithin fuel a b = h.equalWithin fuel a b
  | 0, _, _ => rfl
  | fuel + 1, a, b => by
    have ih : h.blurred.equalWithin fuel = h.equalWithin fuel := by
      funext a b
      exact equalWithin_blurred fuel a b
    cases a <;> cases b <;> try rfl
    simp only [equalWithin, ih]
    rfl

theorem equal_blurred (a b : Value) : h.blurred.equal a b = h.equal a b :=
  h.equalWithin_blurred _ a b

theorem displayWithin_blurred (types : Array StructType) : ∀ (fuel : Nat) (v : Value),
    h.blurred.displayWithin types fuel v = h.displayWithin types fuel v
  | 0, _ => rfl
  | fuel + 1, v => by
    have ih : h.blurred.displayWithin types fuel = h.displayWithin types fuel := by
      funext v
      exact displayWithin_blurred types fuel v
    cases v <;> try rfl
    simp only [displayWithin, ih]
    rfl

theorem display_blurred (types : Array StructType) (v : Value) :
    h.blurred.display types v = h.display types v :=
  h.displayWithin_blurred types _ v

theorem field_blurred (idx : Nat) :
    h.blurred.field v idx = tell (fun x => (x.1.blurred, x.2)) (h.field v idx) := by
  cases v with
  | obj r =>
    refine tell_bind_same rfl fun o => ?_
    cases o with
    | cons a b =>
      rcases idx with _ | _ | idx <;> rfl
    | struct ty fields =>
      dsimp only
      cases fields[idx]? <;> rfl
    | undefined tag places => exact congrArg Except.ok (h.allocate_blurred (.str tag))
    | _ => rfl
  | _ => rfl

end Heap

/-- What is no pair of numbers is taken for texts. -/
theorem Operator.onOthers_blurred (op : Operator) (h : Heap) (a b : Value) (checked : Bool) :
    (do
      if !checked then throw (.uncheckedOperator op)
      let s ← h.blurred.textOf? a
      let t ← h.blurred.textOf? b
      match s, t with
      | some s, some t => return op.onTexts h.blurred s t
      | _, _ => return h.blurred.undefined "type-error" : Except Fault (Heap × Value)) =
    tell (fun x => (x.1.blurred, x.2)) (do
      if !checked then throw (.uncheckedOperator op)
      let s ← h.textOf? a
      let t ← h.textOf? b
      match s, t with
      | some s, some t => return op.onTexts h s t
      | _, _ => return h.undefined "type-error") := by
  have htexts : ∀ s t, op.onTexts h.blurred s t =
      ((op.onTexts h s t).1.blurred, (op.onTexts h s t).2) := by
    intro s t
    cases op <;> first | rfl | exact h.allocate_blurred _
  cases checked
  · rfl
  · refine tell_bind_same (by cases a <;> rfl) fun s => tell_bind_same (by cases b <;> rfl) fun t => ?_
    rcases s with _ | s
    · exact congrArg Except.ok (h.allocate_blurred _)
    · rcases t with _ | t
      · exact congrArg Except.ok (h.allocate_blurred _)
      · exact congrArg Except.ok (htexts s t)

theorem Operator.eval_blurred (op : Operator) (h : Heap) (a b : Value) (checked : Bool) :
    op.eval h.blurred a b checked = tell (fun x => (x.1.blurred, x.2)) (op.eval h a b checked) := by
  have harith : op.arithmetic h.blurred a b checked =
      tell (fun x => (x.1.blurred, x.2)) (op.arithmetic h a b checked) := by
    unfold arithmetic
    cases a <;> cases b <;> first | exact op.onOthers_blurred h _ _ checked | skip
    dsimp only
    split
    · rfl
    · exact op.onOthers_blurred h _ _ checked
  cases op with
  | cons =>
    refine tell_bind (h.inc_blurred a) fun h => tell_bind (h.inc_blurred b) fun h => ?_
    exact congrArg Except.ok (h.allocate_blurred (.cons a b))
  | eq =>
    exact tell_bind_same (h.equal_blurred a b) fun _ => rfl
  | ne =>
    exact tell_bind_same (h.equal_blurred a b) fun _ => rfl
  | _ => exact harith

end CountedMachine
