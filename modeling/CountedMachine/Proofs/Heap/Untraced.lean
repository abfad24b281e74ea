import CountedMachine.Machine.Step
import Mathlib

/-! # The heap without its traces

The places an error value came through have no part in anything the heap does: `Heap.untraced` forgets
them, and every operation on the heap leads to the same fault, or to the same result over the heap
without traces. -/

namespace CountedMachine

/-- An object without the places it came through. -/
def Object.untraced : Object → Object
  | .undefined tag _ => .undefined tag []
  | obj => obj

/-- A slot whose object has no trace. -/
def Slot.untraced (c : Slot) : Slot := { c with obj := c.obj.untraced }

/-- **The heap without its traces.** -/
def Heap.untraced (h : Heap) : Heap := { h with slots := h.slots.map (Option.map Slot.untraced) }

@[simp] theorem Object.owned_untraced (obj : Object) : obj.untraced.owned = obj.owned := by
  cases obj <;> rfl

/-- The outcome of a computation, told of the heap without traces. -/
abbrev tell {ε α β : Type} (f : α → β) (x : Except ε α) : Except ε β := x.map f

section
variable {ε α β γ δ : Type}

/-- Both steps of a computation are told of the heap without traces. -/
theorem tell_bind {x : Except ε α} {x' : Except ε β} {k : α → Except ε γ} {k' : β → Except ε δ}
    {f : α → β} {g : γ → δ} (hx : x' = tell f x) (hk : ∀ a, k' (f a) = tell g (k a)) :
    x' >>= k' = tell g (x >>= k) := by
  subst hx
  cases x with
  | error e => rfl
  | ok a => exact hk a

/-- The first step does not depend on traces. -/
theorem tell_bind_same {x x' : Except ε α} {k : α → Except ε γ} {k' : α → Except ε δ} {g : γ → δ}
    (hx : x' = x) (hk : ∀ a, k' a = tell g (k a)) : x' >>= k' = tell g (x >>= k) := by
  subst hx
  cases x' with
  | error e => rfl
  | ok a => exact hk a

/-- Every step of a fold is told of the heap without traces. -/
theorem tell_foldlM {k : β → α → Except ε β} {f : β → β} (hk : ∀ b a, k (f b) a = tell f (k b a)) :
    ∀ (as : List α) (b : β), as.foldlM k (f b) = tell f (as.foldlM k b)
  | [], _ => rfl
  | a :: as, b => by
    rw [List.foldlM_cons, List.foldlM_cons]
    exact tell_bind (hk b a) fun b' => tell_foldlM hk as b'

end

namespace Heap

variable (h : Heap) (r : ObjId) (v : Value) (obj : Object)

@[simp] theorem free_untraced : h.untraced.free = h.free := rfl

@[simp] theorem scopes_untraced : h.untraced.scopes = h.scopes := rfl

@[simp] theorem stats_untraced : h.untraced.stats = h.stats := rfl

@[simp] theorem size_untraced : h.untraced.slots.size = h.slots.size := by simp [untraced]

theorem getElem?_untraced (k : Nat) :
    h.untraced.slots[k]? = h.slots[k]?.map (Option.map Slot.untraced) := by simp [untraced]

@[simp] theorem slot?_untraced : h.untraced.slot? r = (h.slot? r).map Slot.untraced := by
  rw [slot?, slot?, getElem?_untraced]
  rcases h.slots[r.index]? with _ | _ | c <;> rfl

@[simp] theorem slot_untraced : h.untraced.slot r = tell Slot.untraced (h.slot r) := by
  rw [slot, slot, slot?_untraced]
  cases h.slot? r <;> rfl

@[simp] theorem get_untraced : h.untraced.get r = tell Object.untraced (h.get r) := by
  rw [get, get, slot_untraced]
  cases h.slot r <;> rfl

@[simp] theorem rc_untraced : h.untraced.rc r = h.rc r := by
  rw [rc, rc, slot_untraced]
  cases h.slot r <;> rfl

theorem scope_untraced (g : ScopeId) : h.untraced.scope g = h.scope g := rfl

theorem rcOrZero_untraced : h.untraced.rcOrZero = h.rcOrZero := by
  funext r
  rw [rcOrZero, rcOrZero, slot?_untraced]
  cases h.slot? r <;> rfl

theorem setSlot_untraced (c : Option Slot) :
    h.untraced.setSlot r (c.map Slot.untraced) = (h.setSlot r c).untraced := by
  simp [setSlot, untraced]

/-! ## Looking at objects -/

theorem closure?_untraced : h.untraced.closure? v = h.closure? v := by
  cases v with
  | obj r =>
    rw [closure?, closure?, get_untraced]
    rcases h.get r with e | obj
    · rfl
    · cases obj <;> rfl
  | _ => rfl

theorem errorTag?_untraced : h.untraced.errorTag? v = h.errorTag? v := by
  cases v with
  | obj r =>
    rw [errorTag?, errorTag?, get_untraced]
    rcases h.get r with e | obj
    · rfl
    · cases obj <;> rfl
  | _ => rfl

theorem textOf?_untraced : h.untraced.textOf? v = h.textOf? v := by
  cases v with
  | obj r =>
    rw [textOf?, textOf?, get_untraced]
    rcases h.get r with e | obj
    · rfl
    · cases obj <;> rfl
  | _ => rfl

theorem isOfType_untraced (ty : ObjType) : h.untraced.isOfType v ty = h.isOfType v ty := by
  cases v with
  | obj r =>
    rw [isOfType, isOfType, get_untraced]
    rcases h.get r with e | obj
    · rfl
    · cases obj <;> rfl
  | _ => rfl

theorem scopeOf_untraced : h.untraced.scopeOf r = h.scopeOf r := by
  rw [scopeOf, scopeOf, get_untraced]
  rcases h.get r with e | obj
  · rfl
  · cases obj <;> rfl

theorem equalWithin_untraced : ∀ (fuel : Nat) (a b : Value),
    h.untraced.equalWithin fuel a b = h.equalWithin fuel a b
  | 0, _, _ => rfl
  | fuel + 1, a, b => by
    have ih : h.untraced.equalWithin fuel = h.equalWithin fuel := by
      funext a b
      exact equalWithin_untraced fuel a b
    cases a <;> cases b <;> try rfl
    rename_i x y
    simp only [equalWithin, get_untraced, ih]
    rcases h.get x with e | ox
    · rfl
    · rcases h.get y with e | oy
      · rfl
      · cases ox <;> cases oy <;> rfl

/-- **Equality does not look at traces.** -/
theorem equal_untraced (a b : Value) : h.untraced.equal a b = h.equal a b := by
  rw [equal, equal, size_untraced, equalWithin_untraced]

/-! ## Allocating and counting -/

theorem allocate_untraced : h.untraced.allocate obj.untraced =
    ((h.allocate obj).1.untraced, (h.allocate obj).2) := by
  rw [allocate, allocate, free_untraced]
  cases h.free with
  | nil => simp [untraced, Slot.untraced]
  | cons r free => simp [untraced, Slot.untraced]

theorem put_untraced : h.untraced.put r obj.untraced = tell untraced (h.put r obj) := by
  rw [put, put]
  exact tell_bind (slot_untraced h r) fun c =>
    congrArg Except.ok (setSlot_untraced h r (some { c with obj := obj }))

theorem incObj_untraced : h.untraced.incObj r = tell untraced (h.incObj r) := by
  rw [incObj, incObj]
  exact tell_bind (slot_untraced h r) fun c =>
    congrArg Except.ok (setSlot_untraced h r (some { c with rc := c.rc + 1 }))

theorem decObj_untraced :
    h.untraced.decObj r = tell (fun x => (untraced x.1, x.2)) (h.decObj r) := by
  rw [decObj, decObj]
  refine tell_bind (slot_untraced h r) fun c => ?_
  by_cases hc : c.rc = 0
  · simp [Slot.untraced, hc]
    rfl
  · simp only [Slot.untraced, hc, if_false]
    exact congrArg (fun x => Except.ok (x, c.rc - 1))
      (setSlot_untraced h r (some { c with rc := c.rc - 1 }))

theorem inc_untraced : h.untraced.inc v = tell untraced (h.inc v) := by
  cases v with
  | obj r => exact incObj_untraced h r
  | _ => rfl

theorem release_untraced : h.untraced.release v = tell untraced (h.release v) := by
  cases v with
  | obj r => exact tell_bind (decObj_untraced h r) fun _ => rfl
  | _ => rfl

theorem incAll_untraced (vs : List Value) : h.untraced.incAll vs = tell untraced (h.incAll vs) :=
  tell_foldlM (fun h v => inc_untraced h v) vs h

/-! ## Freeing -/

/-- A heap and what is left to do, without traces. -/
def untracedWork (x : Heap × List ObjId) : Heap × List ObjId := (x.1.untraced, x.2)

theorem evict_untraced : h.untraced.evict r =
    tell (fun x => (untraced x.1, Object.untraced x.2)) (h.evict r) := by
  rw [evict, evict, getElem?_untraced]
  rcases h.slots[r.index]? with _ | _ | c
  · rfl
  · rfl
  · simp [untraced, Slot.untraced, Except.map]

theorem letGo_untraced (x : Heap × List ObjId) :
    letGo (untracedWork x) v = tell untracedWork (letGo x v) := by
  obtain ⟨h, work⟩ := x
  cases v with
  | obj r => exact tell_bind (decObj_untraced h r) fun _ => rfl
  | _ => rfl

theorem dissolve_untraced (x : Heap × List ObjId) :
    dissolve (untracedWork x) r = tell untracedWork (dissolve x r) := by
  obtain ⟨h, work⟩ := x
  refine tell_bind (evict_untraced h r) fun y => ?_
  dsimp only
  rw [Object.owned_untraced]
  exact tell_foldlM (fun x v => letGo_untraced v x) y.2.owned (y.1, work)

theorem dismantle_untraced (g : ScopeId) (work : List ObjId) :
    h.untraced.dismantle g work = tell untracedWork (h.dismantle g work) := by
  refine tell_bind_same (scope_untraced h g) fun s => ?_
  exact tell_foldlM (fun x r => dissolve_untraced r x) s.members
    ({ h.setScope g none with
      stats := { h.stats with scopesCollected := h.stats.scopesCollected + 1 } }, work)

theorem noteZero_untraced (g : ScopeId) (work : List ObjId) :
    h.untraced.noteZero g work = tell untracedWork (h.noteZero g work) := by
  refine tell_bind_same (scope_untraced h g) fun s => ?_
  rw [rcOrZero_untraced]
  rcases s.noteZero h.rcOrZero with ⟨s', _ | _⟩
  · rfl
  · exact dismantle_untraced (h.setScope g (some s')) g work

theorem reclaimOne_untraced (work : List ObjId) :
    h.untraced.reclaimOne r work = tell untracedWork (h.reclaimOne r work) := by
  refine tell_bind_same (scopeOf_untraced h r) fun o => ?_
  cases o with
  | none => exact dissolve_untraced r (h, work)
  | some g => exact noteZero_untraced h g work

theorem reclaimLoop_untraced : ∀ (fuel : Nat) (h : Heap) (work : List ObjId),
    reclaimLoop fuel h.untraced work = tell untraced (reclaimLoop fuel h work)
  | 0, _, [] => rfl
  | _ + 1, _, [] => rfl
  | 0, _, _ :: _ => rfl
  | fuel + 1, h, r :: work =>
    tell_bind (reclaimOne_untraced h r work) fun x => reclaimLoop_untraced fuel x.1 x.2

theorem reclaim_untraced (work : List ObjId) :
    h.untraced.reclaim work = tell untraced (h.reclaim work) := by
  rw [reclaim, reclaim, size_untraced, reclaimLoop_untraced]

theorem drop_untraced : h.untraced.drop v = tell untraced (h.drop v) := by
  cases v with
  | obj r =>
    refine tell_bind_same (rc_untraced h r) fun n => ?_
    by_cases hn : n = 0
    · simpa [hn] using reclaim_untraced h [r]
    · simp [hn]
      rfl
  | _ => rfl

theorem unref_untraced : h.untraced.unref v = tell untraced (h.unref v) := by
  cases v with
  | obj r =>
    refine tell_bind (decObj_untraced h r) fun x => ?_
    by_cases hx : x.2 = 0
    · simpa [hx] using reclaim_untraced x.1 [r]
    · simp [hx]
      rfl
  | _ => rfl

theorem unrefAll_untraced (vs : List Value) :
    h.untraced.unrefAll vs = tell untraced (h.unrefAll vs) :=
  tell_foldlM (fun h v => unref_untraced h v) vs h

/-! ## Recursive scopes -/

theorem enrol_untraced (g : ScopeId) (m : ObjId) :
    h.untraced.enrol g m = tell untraced (h.enrol g m) := by
  refine tell_bind_same (scope_untraced h g) fun s => ?_
  refine tell_bind_same rfl fun s' => ?_
  refine tell_bind (get_untraced (h.setScope g (some s')) m) fun obj => ?_
  cases obj with
  | closure c => exact put_untraced (h.setScope g (some s')) m (.closure { c with scope := some g })
  | _ => rfl

theorem weaken_untraced (members : List ObjId) (m : ObjId) :
    weaken members h.untraced m = tell untraced (weaken members h m) := by
  refine tell_bind (get_untraced h m) fun obj => ?_
  cases obj with
  | closure c =>
    refine tell_bind (tell_foldlM (fun h v => release_untraced h v) _ h) fun h' => ?_
    exact put_untraced h' m (.closure { c with weak := c.caps.map (isMember members) })
  | _ => rfl

theorem sealScope_untraced (g : ScopeId) :
    h.untraced.sealScope g = tell untraced (h.sealScope g) := by
  refine tell_bind_same (scope_untraced h g) fun s => ?_
  refine tell_bind (tell_foldlM (fun h m => weaken_untraced h s.members m) s.members h) fun h' => ?_
  refine tell_bind_same (scope_untraced h' g) fun s' => ?_
  refine tell_bind_same (by rw [rcOrZero_untraced]) fun x => ?_
  obtain ⟨s'', _ | _⟩ := x
  · rfl
  · refine tell_bind (dismantle_untraced (h'.setScope g (some s'')) g []) fun x => ?_
    exact tell_foldlM (fun h r => reclaim_untraced h [r]) x.2 x.1

/-! ## Reading fields, operators -/

/-- A heap and a value, without traces. -/
def untracedValue (x : Heap × Value) : Heap × Value := (x.1.untraced, x.2)

theorem field_untraced (idx : Nat) : h.untraced.field v idx = tell untracedValue (h.field v idx) := by
  cases v with
  | obj r =>
    refine tell_bind (get_untraced h r) fun obj => ?_
    cases obj with
    | cons a b => rcases idx with _ | _ | idx <;> rfl
    | struct ty fields =>
      simp only [Object.untraced]
      cases fields[idx]? <;> rfl
    | undefined tag trace => exact congrArg Except.ok (allocate_untraced h (.str tag))
    | _ => rfl
  | _ => rfl

theorem undefined_untraced (tag : String) :
    h.untraced.undefined tag = untracedValue (h.undefined tag) :=
  allocate_untraced h (.undefined tag [])

end Heap

namespace Operator

variable (op : Operator) (h : Heap) (a b : Value) (checked : Bool)

theorem onTexts_untraced (s t : String) :
    op.onTexts h.untraced s t = Heap.untracedValue (op.onTexts h s t) := by
  cases op with
  | add => exact Heap.allocate_untraced h (.str (s ++ t))
  | lt | le | gt | ge => rfl
  | _ => exact Heap.undefined_untraced h "type-error"

/-- What is no pair of numbers is taken for texts. -/
theorem onOthers_untraced :
    (do
      if !checked then throw (.uncheckedOperator op)
      let s ← h.untraced.textOf? a
      let t ← h.untraced.textOf? b
      match s, t with
      | some s, some t => return op.onTexts h.untraced s t
      | _, _ => return h.untraced.undefined "type-error") = tell Heap.untracedValue (do
      if !checked then throw (.uncheckedOperator op)
      let s ← h.textOf? a
      let t ← h.textOf? b
      match s, t with
      | some s, some t => return op.onTexts h s t
      | _, _ => return h.undefined "type-error") := by
  simp only [Heap.textOf?_untraced, onTexts_untraced, Heap.undefined_untraced]
  cases checked
  · rfl
  · rcases h.textOf? a with e | s
    · rfl
    · rcases h.textOf? b with e | t
      · rfl
      · cases s <;> cases t <;> rfl

theorem arithmetic_untraced :
    op.arithmetic h.untraced a b checked = tell Heap.untracedValue (op.arithmetic h a b checked) := by
  unfold arithmetic
  cases a <;> cases b <;> try exact onOthers_untraced op h _ _ checked
  rename_i x y
  dsimp only
  cases op.onNumbers x y with
  | some v => rfl
  | none => exact onOthers_untraced op h _ _ checked

/-- **Operators do not look at traces.** -/
theorem eval_untraced :
    op.eval h.untraced a b checked = tell Heap.untracedValue (op.eval h a b checked) := by
  have harith := arithmetic_untraced op h a b checked
  cases op with
  | cons =>
    refine tell_bind (Heap.inc_untraced h a) fun h₁ => ?_
    refine tell_bind (Heap.inc_untraced h₁ b) fun h₂ => ?_
    exact congrArg Except.ok (Heap.allocate_untraced h₂ (.cons a b))
  | eq =>
    exact tell_bind_same (Heap.equal_untraced h a b) fun _ => rfl
  | ne =>
    exact tell_bind_same (Heap.equal_untraced h a b) fun _ => rfl
  | _ => exact harith

end Operator

end CountedMachine
