import CountedMachine.Heap.Reclaim
import Mathlib

/-! # Accounting for references

The references to an object come from outside, a multiset `R` that the users of the heap keep, and
from live objects, together the multiset `held`. A heap is `Counted` for `R` when all these
references point at live objects and the count of every live object is the number of references to
it. Taking a reference apart from the object that held it moves it from `held` to `R`, so that
`R + held` stays the same; freeing an object is nothing but such a move.

`Sound` adds what the arena and the scopes need: free slots are empty and listed once, a closure in
a scope is a member of it, members are live closures, and exactly the captures of siblings in a
sealed scope are weak. Objects that are about to be freed with their scope are exempt. -/

namespace CountedMachine

/-- The objects that a list of values points at, each as often as it occurs. -/
def refsOf (vs : List Value) : Multiset ObjId := ↑(vs.filterMap Value.asObj?)

theorem refsOf_nil : refsOf [] = 0 := rfl

theorem refsOf_cons (v : Value) (vs : List Value) : refsOf (v :: vs) = refsOf [v] + refsOf vs := by
  cases v <;> simp [refsOf, Value.asObj?, List.filterMap_cons]

theorem refsOf_obj (r : ObjId) : refsOf [.obj r] = {r} := rfl

/-- The references an object holds. -/
def Object.refs (o : Object) : Multiset ObjId := refsOf o.owned

/-- The scope an object says it belongs to. -/
def Object.scope? : Object → Option ScopeId
  | .closure c => c.scope
  | _ => none

namespace Heap

/-- The references held in a slot. -/
def slotRefs : Option Slot → Multiset ObjId
  | none => 0
  | some c => c.obj.refs

/-- **The references held by live objects.** -/
def held (h : Heap) : Multiset ObjId := (h.slots.toList.map slotRefs).sum

/-- The number of live objects with a reference, as far as their counts go. -/
def busy (h : Heap) : Nat := (h.slots.toList.map fun o => if o.any (0 < ·.rc) then 1 else 0).sum

/-- A scope that is in use. -/
def scopeAt (h : Heap) (g : ScopeId) : Option Scope := h.scopes[g.index]?.join

/-! ## Slots -/

theorem sum_map_set {α β : Type} [AddCommMonoid β] (f : α → β) (x : α) :
    ∀ (l : List α) (i : Nat) (hi : i < l.length),
      ((l.set i x).map f).sum + f (l.get ⟨i, hi⟩) = (l.map f).sum + f x
  | a :: l, 0, _ => by simp [add_comm, add_left_comm]
  | a :: l, i + 1, hi => by
    have := sum_map_set f x l i (by simpa using hi)
    simp only [List.set_cons_succ, List.map_cons, List.sum_cons, List.get_cons_succ, add_assoc]
    rw [this]

/-- A sum over the slots changes by the slot that is filled or emptied. -/
theorem sum_setSlot {β : Type} [AddCommMonoid β] (f : Option Slot → β) (h : Heap) {r : ObjId}
    (o : Option Slot) (hr : r.index < h.slots.size) :
    ((h.setSlot r o).slots.toList.map f).sum + f (h.slot? r) =
      (h.slots.toList.map f).sum + f o := by
  have hget : h.slot? r = h.slots.toList.get ⟨r.index, by simpa using hr⟩ := by
    simp [slot?, hr]
  rw [hget, ← sum_map_set f o h.slots.toList r.index (by simpa using hr)]
  simp [setSlot]

theorem held_setSlot (h : Heap) {r : ObjId} (o : Option Slot) (hr : r.index < h.slots.size) :
    (h.setSlot r o).held + slotRefs (h.slot? r) = h.held + slotRefs o :=
  sum_setSlot slotRefs h o hr

theorem busy_le_size (h : Heap) : h.busy ≤ h.slots.size := by
  have : ∀ l : List (Option Slot),
      (l.map fun o => if o.any (0 < ·.rc) then 1 else 0).sum ≤ l.length := by
    intro l
    induction l with
    | nil => simp
    | cons o l ih => simp only [List.map_cons, List.sum_cons, List.length_cons]; split_ifs <;> omega
  simpa [busy] using this h.slots.toList

@[simp] theorem scopes_setSlot (h : Heap) (r : ObjId) (o : Option Slot) :
    (h.setSlot r o).scopes = h.scopes := rfl

@[simp] theorem free_setSlot (h : Heap) (r : ObjId) (o : Option Slot) :
    (h.setSlot r o).free = h.free := rfl

@[simp] theorem size_setSlot (h : Heap) (r : ObjId) (o : Option Slot) :
    (h.setSlot r o).slots.size = h.slots.size := by
  simp [setSlot]

@[simp] theorem slot?_setScope (h : Heap) (g : ScopeId) (s : Option Scope) (r : ObjId) :
    (h.setScope g s).slot? r = h.slot? r := rfl

/-- A heap whose slot `r` has been freed. -/
def vacate (h : Heap) (r : ObjId) : Heap :=
  { h with
    slots := h.slots.setIfInBounds r.index none
    free := r :: h.free
    stats := { h.stats with frees := h.stats.frees + 1, live := h.stats.live - 1 } }

theorem evict_eq {h : Heap} {r : ObjId} {c : Slot} (hr : h.slot? r = some c) :
    h.evict r = .ok (h.vacate r, c.obj) := by
  have : h.slots[r.index]? = some (some c) := by
    simpa [slot?, Option.join_eq_some_iff] using hr
  simp [evict, this, vacate]

theorem slot?_vacate {h : Heap} {r : ObjId} {c : Slot} (hr : h.slot? r = some c) (x : ObjId) :
    (h.vacate r).slot? x = if x = r then none else h.slot? x :=
  slot?_setSlot h r x none (lt_size_of_slot? hr)

theorem held_vacate {h : Heap} {r : ObjId} {c : Slot} (hr : h.slot? r = some c) :
    (h.vacate r).held + c.obj.refs = h.held := by
  have := held_setSlot h none (lt_size_of_slot? hr)
  rw [hr] at this
  exact this.trans (add_zero _)

theorem decObj_eq {h : Heap} {r : ObjId} {c : Slot} (hr : h.slot? r = some c) (hc : 0 < c.rc) :
    h.decObj r = .ok (h.setSlot r (some { c with rc := c.rc - 1 }), c.rc - 1) := by
  simp [decObj, slot, hr, bind, Except.bind, pure, Except.pure, Nat.ne_of_gt hc]

theorem incObj_eq {h : Heap} {r : ObjId} {c : Slot} (hr : h.slot? r = some c) :
    h.incObj r = .ok (h.setSlot r (some { c with rc := c.rc + 1 })) := by
  simp [incObj, slot, hr, bind, Except.bind, pure, Except.pure]

/-- Filling a slot with what it holds changes nothing. -/
theorem setSlot_slot? {h : Heap} {r : ObjId} {c : Slot} (hr : h.slot? r = some c) :
    h.setSlot r (some c) = h := by
  have hget : h.slots[r.index]? = some (some c) := by
    simpa [slot?, Option.join_eq_some_iff] using hr
  obtain ⟨slots, free, scopes, stats⟩ := h
  simp only [setSlot]
  congr
  refine Array.ext_getElem? fun k => ?_
  rw [Array.getElem?_setIfInBounds]
  by_cases e : r.index = k
  · rw [if_pos e, if_pos (Array.getElem?_eq_some_iff.mp hget).1, ← e]
    exact hget.symm
  · rw [if_neg e]

theorem setSlot_setSlot (h : Heap) (r : ObjId) (c c' : Option Slot) :
    (h.setSlot r c).setSlot r c' = h.setSlot r c' := by
  simp only [setSlot, Array.setIfInBounds_setIfInBounds]

/-- A count that is raised and lowered is what it was. -/
theorem decObj_incObj {h : Heap} {r : ObjId} {c : Slot} (hr : h.slot? r = some c) :
    (h.setSlot r (some { c with rc := c.rc + 1 })).decObj r = .ok (h, c.rc) := by
  have hr₁ : (h.setSlot r (some { c with rc := c.rc + 1 })).slot? r = some { c with rc := c.rc + 1 } := by
    rw [slot?_setSlot _ _ _ _ (lt_size_of_slot? hr), if_pos rfl]
  rw [decObj_eq hr₁ (Nat.succ_pos _)]
  simp only [Nat.add_sub_cancel, setSlot_setSlot, setSlot_slot? hr]

theorem put_eq {h : Heap} {r : ObjId} {c : Slot} (hr : h.slot? r = some c) (obj : Object) :
    h.put r obj = .ok (h.setSlot r (some { c with obj := obj })) := by
  simp [put, slot, hr, bind, Except.bind, pure, Except.pure]

theorem get_eq {h : Heap} {r : ObjId} {c : Slot} (hr : h.slot? r = some c) :
    h.get r = .ok c.obj := by
  simp [get, slot, hr, Except.map]

theorem get_cases {h : Heap} {r : ObjId} {o : Object} (e : h.get r = .ok o) :
    ∃ c, h.slot? r = some c ∧ c.obj = o := by
  cases hr : h.slot? r with
  | none => simp [get, slot, hr, Except.map] at e
  | some c =>
    rw [get_eq hr] at e
    exact ⟨c, rfl, Except.ok.inj e⟩

/-! ## Exact counts -/

/-- **Every reference points at a live object, and counts are exact.** -/
structure Counted (h : Heap) (R : Multiset ObjId) : Prop where
  live : ∀ r ∈ R + h.held, ∃ c, h.slot? r = some c
  exact : ∀ {r c}, h.slot? r = some c → c.rc = (R + h.held).count r

section Counted
variable {h : Heap} {R : Multiset ObjId} {r : ObjId} {c : Slot}

theorem Counted.notMem (hc : Counted h R) (hr : h.slot? r = some c) (h0 : c.rc = 0) :
    r ∉ R + h.held := by
  rw [← Multiset.count_eq_zero, ← hc.exact hr, h0]

theorem Counted.pos (hc : Counted h R) (hr : h.slot? r = some c) (hm : r ∈ R) : 0 < c.rc := by
  rw [hc.exact hr, Multiset.count_pos]
  exact Multiset.mem_add.mpr (Or.inl hm)

/-- Freeing an object that nobody references turns the references it held into outside ones. -/
theorem Counted.vacate (hc : Counted h R) (hr : h.slot? r = some c) (h0 : c.rc = 0) :
    Counted (h.vacate r) (R + c.obj.refs) := by
  have hsum : R + c.obj.refs + (h.vacate r).held = R + h.held := by
    rw [← held_vacate hr, add_assoc, add_comm c.obj.refs]
  have hr0 := hc.notMem hr h0
  refine ⟨fun x hx => ?_, fun {x cx} hx => ?_⟩
  · rw [hsum] at hx
    obtain ⟨cx, hcx⟩ := hc.live x hx
    have hne : x ≠ r := fun e => hr0 (e ▸ hx)
    exact ⟨cx, by rw [slot?_vacate hr, if_neg hne, hcx]⟩
  · rw [slot?_vacate hr] at hx
    split_ifs at hx
    rw [hsum]
    exact hc.exact hx

/-- Changing a count by a reference from outside keeps counts exact. -/
theorem Counted.recount {R' : Multiset ObjId} {n : Nat} (hc : Counted h R)
    (hr : h.slot? r = some c) (hR' : ∀ x ∈ R', x ∈ R ∨ x = r)
    (hcount : ∀ x, x ≠ r → R'.count x = R.count x) (hn : n + R.count r = c.rc + R'.count r) :
    Counted (h.setSlot r (some { c with rc := n })) R' := by
  have hlt := lt_size_of_slot? hr
  have hheld : (h.setSlot r (some { c with rc := n })).held = h.held := by
    have := held_setSlot h (some { c with rc := n }) hlt
    rw [hr] at this
    exact add_right_cancel this
  refine ⟨fun x hx => ?_, fun {x cx} hx => ?_⟩
  · rw [slot?_setSlot h r x _ hlt]
    split_ifs with e
    · exact ⟨_, rfl⟩
    · rw [hheld] at hx
      refine hc.live x (Multiset.mem_add.mpr ?_)
      rcases Multiset.mem_add.mp hx with hx | hx
      · exact Or.inl ((hR' x hx).resolve_right e)
      · exact Or.inr hx
  · rw [slot?_setSlot h r x _ hlt] at hx
    rw [hheld, Multiset.count_add]
    split_ifs at hx with e
    · subst e
      cases hx
      have := hc.exact hr
      rw [Multiset.count_add] at this
      show n = _
      omega
    · rw [hcount x e, ← Multiset.count_add]
      exact hc.exact hx

theorem Counted.dec (hc : Counted h R) (hr : h.slot? r = some c) (hm : r ∈ R) :
    Counted (h.setSlot r (some { c with rc := c.rc - 1 })) (R.erase r) := by
  have hpos := hc.pos hr hm
  have hcount : 0 < R.count r := Multiset.count_pos.mpr hm
  refine hc.recount hr (fun x hx => Or.inl (Multiset.mem_of_mem_erase hx))
    (fun x hx => Multiset.count_erase_of_ne hx R) ?_
  rw [Multiset.count_erase_self]
  omega

theorem Counted.inc (hc : Counted h R) (hr : h.slot? r = some c) :
    Counted (h.setSlot r (some { c with rc := c.rc + 1 })) (r ::ₘ R) := by
  refine hc.recount hr (fun x hx => ?_) (fun x hx => Multiset.count_cons_of_ne hx R) ?_
  · exact (Multiset.mem_cons.mp hx).symm
  · rw [Multiset.count_cons_self]
    omega

/-- Overwriting an object keeps counts exact when the references it gives up and those it takes
balance with the outside. -/
theorem Counted.put {R' : Multiset ObjId} (hc : Counted h R) (hr : h.slot? r = some c)
    {obj : Object} (hR : R' + obj.refs = R + c.obj.refs) :
    Counted (h.setSlot r (some { c with obj := obj })) R' := by
  have hlt := lt_size_of_slot? hr
  have hsum : R' + (h.setSlot r (some { c with obj := obj })).held = R + h.held := by
    have hheld := held_setSlot h (some { c with obj := obj }) hlt
    rw [hr] at hheld
    refine add_right_cancel (b := c.obj.refs) ?_
    calc _ = R' + ((h.setSlot r (some { c with obj := obj })).held + c.obj.refs) := add_assoc ..
      _ = R' + (h.held + obj.refs) := congrArg (R' + ·) hheld
      _ = (R' + obj.refs) + h.held := by rw [add_comm h.held, add_assoc]
      _ = _ := by rw [hR, add_assoc, add_comm c.obj.refs, add_assoc]
  refine ⟨fun x hx => ?_, fun {x cx} hx => ?_⟩
  · rw [slot?_setSlot h r x _ hlt]
    split_ifs
    · exact ⟨_, rfl⟩
    · exact hc.live x (hsum ▸ hx)
  · rw [slot?_setSlot h r x _ hlt] at hx
    rw [hsum]
    split_ifs at hx with e
    · subst e
      cases hx
      show c.rc = _
      exact hc.exact hr
    · exact hc.exact hx

end Counted

/-! ## Scopes and their members -/

/-- The members of the sealed scope a closure belongs to; none where there is no such scope. -/
def siblings (h : Heap) (c : Closure) : List ObjId :=
  match c.scope.bind h.scopeAt with
  | some s => if s.isSealed then s.members else []
  | none => []

/-- **Exactly the captures of the given objects are weak.** -/
def WeakExactly (c : Closure) (members : List ObjId) : Prop :=
  ∀ i, c.weak.getD i false = c.caps[i]?.any (isMember members)

/-- What the heap knows about scopes: closures that say they are in a scope are its members, and
its members are live closures that say so. The objects in `ds`, which are about to be freed, are
exempt. -/
structure Grouped (h : Heap) (ds : List ObjId) : Prop where
  home : ∀ {r rc c g}, h.slot? r = some ⟨rc, .closure c⟩ → c.scope = some g → r ∉ ds →
    ∃ s, h.scopeAt g = some s ∧ r ∈ s.members
  distinct : ∀ {g s}, h.scopeAt g = some s → s.members.Nodup
  member : ∀ {g s m}, h.scopeAt g = some s → m ∈ s.members →
    ∃ rc c, h.slot? m = some ⟨rc, .closure c⟩ ∧ c.scope = some g

/-- The weak captures are those of siblings in a sealed scope, but for the objects in `ds`. -/
def Marked (h : Heap) (ds : List ObjId) : Prop :=
  ∀ r rc c, h.slot? r = some ⟨rc, .closure c⟩ → r ∉ ds → WeakExactly c (h.siblings c)

/-- The free list names empty slots of the arena, each once. -/
structure Arena (h : Heap) : Prop where
  nodup : h.free.Nodup
  empty : ∀ r ∈ h.free, h.slots[r.index]? = some none

/-- **The invariant of the heap**, with `R` the references from outside and `ds` the objects that are
about to be freed with their scope. -/
structure Sound (h : Heap) (R : Multiset ObjId) (ds : List ObjId) : Prop where
  counted : Counted h R
  grouped : Grouped h ds
  marked : Marked h ds
  arena : Arena h

theorem siblings_congr {h h' : Heap} (hs : h'.scopes = h.scopes) (c : Closure) :
    h'.siblings c = h.siblings c := by
  have hat : h'.scopeAt = h.scopeAt := funext fun g => by simp only [scopeAt, hs]
  rw [siblings, siblings, hat]

/-- What is left of the objects after some of them, all in `D`, have been freed and counts have
dropped. -/
structure Shrinks (h h' : Heap) (D : List ObjId) : Prop where
  back : ∀ {x c'}, h'.slot? x = some c' → ∃ c, h.slot? x = some c ∧ c'.obj = c.obj ∧ c'.rc ≤ c.rc
  kept : ∀ {x c}, h.slot? x = some c → x ∉ D → ∃ c', h'.slot? x = some c'
  gone : ∀ {x}, x ∈ D → h'.slot? x = none

theorem Shrinks.refl (h : Heap) : Shrinks h h [] :=
  ⟨fun {_ c'} hx => ⟨c', hx, rfl, le_rfl⟩, fun {_ c} hx _ => ⟨c, hx⟩, fun hx => by simp at hx⟩

theorem Shrinks.dead {h h' : Heap} {D : List ObjId} (hsh : Shrinks h h' D) {x : ObjId}
    (hx : h.slot? x = none) : h'.slot? x = none := by
  cases hx' : h'.slot? x with
  | none => rfl
  | some c' =>
    obtain ⟨c, hc, -⟩ := hsh.back hx'
    rw [hx] at hc
    cases hc

theorem Shrinks.trans {h₁ h₂ h₃ : Heap} {D₁ D₂ : List ObjId} (a : Shrinks h₁ h₂ D₁)
    (b : Shrinks h₂ h₃ D₂) : Shrinks h₁ h₃ (D₁ ++ D₂) := by
  refine ⟨fun {x c₃} hx => ?_, fun {x c₁} hx hD => ?_, fun {x} hx => ?_⟩
  · obtain ⟨c₂, h₂x, ho, hle⟩ := b.back hx
    obtain ⟨c₁, h₁x, ho', hle'⟩ := a.back h₂x
    exact ⟨c₁, h₁x, ho.trans ho', hle.trans hle'⟩
  · rw [List.mem_append, not_or] at hD
    obtain ⟨c₂, h₂x⟩ := a.kept hx hD.1
    exact b.kept h₂x hD.2
  · rcases List.mem_append.mp hx with hx | hx
    · exact b.dead (a.gone hx)
    · exact b.gone hx

/-- Freeing objects outside all scopes, or such that are exempt, keeps the scopes in order. -/
theorem Grouped.shrink {h h' : Heap} {D ds ds' : List ObjId} (hg : Grouped h ds)
    (hs : h'.scopes = h.scopes) (hsh : Shrinks h h' D)
    (hD : ∀ {g s m}, h.scopeAt g = some s → m ∈ s.members → m ∉ D)
    (hds : ∀ {d c}, d ∈ ds → h'.slot? d = some c → d ∈ ds') : Grouped h' ds' := by
  have hat : ∀ g, h'.scopeAt g = h.scopeAt g := fun g => by simp only [scopeAt, hs]
  refine ⟨fun {r rc c g} hr hc hn => ?_, fun {g s} hgs => hg.distinct (hat g ▸ hgs),
    fun {g s m} hgs hm => ?_⟩
  · obtain ⟨⟨rc₀, o⟩, hr₀, ho, -⟩ := hsh.back hr
    obtain rfl : Object.closure c = o := ho
    rw [hat]
    exact hg.home hr₀ hc fun hd => hn (hds hd hr)
  · rw [hat] at hgs
    obtain ⟨rc, c, hr, hc⟩ := hg.member hgs hm
    obtain ⟨⟨rc', o⟩, hr'⟩ := hsh.kept hr (hD hgs hm)
    obtain ⟨c₀, hr₀, ho, -⟩ := hsh.back hr'
    obtain rfl : (⟨rc, .closure c⟩ : Slot) = c₀ := Option.some.inj (hr.symm.trans hr₀)
    obtain rfl : o = Object.closure c := ho
    exact ⟨rc', c, hr', hc⟩

theorem Marked.shrink {h h' : Heap} {D ds ds' : List ObjId} (hm : Marked h ds)
    (hs : h'.scopes = h.scopes) (hsh : Shrinks h h' D)
    (hds : ∀ {d c}, d ∈ ds → h'.slot? d = some c → d ∈ ds') : Marked h' ds' := by
  intro r rc c hr hn
  obtain ⟨⟨rc₀, o⟩, hr₀, ho, -⟩ := hsh.back hr
  obtain rfl : Object.closure c = o := ho
  rw [siblings_congr hs]
  exact hm r rc₀ c hr₀ fun hd => hn (hds hd hr)

/-- Free slots stay free while live ones change. -/
theorem Arena.setSlot {h : Heap} {r : ObjId} {c : Slot} (ha : Arena h) (hr : h.slot? r = some c)
    (c' : Slot) : Arena (h.setSlot r (some c')) := by
  refine ⟨ha.nodup, fun y hy => ?_⟩
  have hy0 := ha.empty y hy
  have hne : r.index ≠ y.index := fun e => by
    rw [slot?, e, hy0] at hr
    simp at hr
  simpa [Heap.setSlot, Array.getElem?_setIfInBounds, hne] using hy0

theorem Arena.of_slots {h h' : Heap} (ha : Arena h) (hfree : h'.free = h.free)
    (hsize : h'.slots.size = h.slots.size) (hslot : ∀ x, h.slot? x = none → h'.slot? x = none) :
    Arena h' := by
  refine ⟨hfree ▸ ha.nodup, fun r hr => ?_⟩
  have hr0 := ha.empty r (hfree ▸ hr)
  have hlt : r.index < h'.slots.size := by
    rw [hsize]
    exact (Array.getElem?_eq_some_iff.mp hr0).1
  have hnone := hslot r (by simp [slot?, hr0])
  simpa [slot?, hlt] using hnone

theorem Arena.vacate {h : Heap} {r : ObjId} {c : Slot} (ha : Arena h) (hr : h.slot? r = some c) :
    Arena (h.vacate r) := by
  have hlt := lt_size_of_slot? hr
  refine ⟨List.nodup_cons.mpr ⟨fun hm => ?_, ha.nodup⟩, fun y hy => ?_⟩
  · rw [slot?, ha.empty r hm] at hr
    simp at hr
  · by_cases e : r.index = y.index
    · simp [Heap.vacate, ← e, hlt]
    · have hy : y ∈ h.free := (List.mem_cons.mp hy).resolve_left fun hyr => e (by rw [hyr])
      simpa [Heap.vacate, Array.getElem?_setIfInBounds, e] using ha.empty y hy

end Heap

end CountedMachine
