import CountedMachine.Proofs.Heap.Histories

/-! # What the operations do to objects and open scopes

The users of a heap rely on more than exact counts: an object they hold a reference to stays what it
is, and a scope that is not sealed yet stays as it is. After an operation that takes or gives up
references the heap has no objects that it did not have before (`Fades`); allocating adds one object
(`Gains`).

`Ensures` states what a computation returns. A computation may end with a fault instead, but only
with one that is excused: a value of another type than asked for, an index or a bound out of range,
or a member of a scope that was freed while it waited for its turn. -/

namespace CountedMachine

/-- Faults that do not come from a wrong count, a wrong type or a scope in disorder. In a `crowded`
program the mark of closures without code is the number of a unit, and calls without a check may
fail. -/
def Fault.Excused (crowded : Prop) : Fault → Prop
  | .outOfBounds => True
  | .exhausted => True
  | .freedObject _ => True
  | .guardFailed _ _ _ => True
  | .uncheckedCall _ _ => crowded
  | _ => False

/-- **The computation returns as said**, or ends with an excused fault. -/
def Ensures (crowded : Prop) {α : Type} (x : Except Fault α) (Q : α → Prop) : Prop :=
  match x with
  | .ok a => Q a
  | .error f => f.Excused crowded

namespace Ensures

variable {crowded : Prop} {α β : Type} {x : Except Fault α} {f : α → Except Fault β} {Q R : α → Prop} {S : β → Prop}

theorem ok {a : α} (h : Q a) : Ensures crowded (.ok a) Q := h

theorem bind (hx : Ensures crowded x Q) (hf : ∀ a, Q a → Ensures crowded (f a) S) : Ensures crowded (x >>= f) S := by
  cases x with
  | ok a => exact hf a hx
  | error e => exact hx

theorem mono (hx : Ensures crowded x Q) (h : ∀ a, Q a → R a) : Ensures crowded x R := by
  cases x with
  | ok a => exact h a hx
  | error e => exact hx

theorem of_eq {a : α} (h : x = .ok a) (hq : Q a) : Ensures crowded x Q := by
  rw [h]
  exact hq

theorem result (hx : Ensures crowded x Q) {a : α} (h : x = .ok a) : Q a := by
  rw [h] at hx
  exact hx

/-- What is known of a result can be used in what is ensured. -/
theorem of_result (hx : Ensures crowded x fun _ => True) (h : ∀ a, x = .ok a → Q a) : Ensures crowded x Q := by
  cases x with
  | ok a => exact h a rfl
  | error e => exact hx

end Ensures

/-- The second object is what has become of the first. -/
def Object.Alike : Object → Object → Prop
  | .closure k, .closure k' => k'.unit = k.unit ∧ k'.caps = k.caps ∧ k'.scope = k.scope
  | .cell _, .cell _ => True
  | .undefined t _, .undefined t' _ => t' = t
  | o, o' => o' = o

theorem Object.alike_refl (o : Object) : o.Alike o := by
  cases o <;> simp [Alike]

theorem Object.Alike.trans {o o' o'' : Object} (h : o.Alike o') (h' : o'.Alike o'') : o.Alike o'' := by
  cases o with
  | closure k =>
    cases o' with
    | closure k' =>
      cases o'' with
      | closure k'' => exact ⟨h'.1.trans h.1, h'.2.1.trans h.2.1, h'.2.2.trans h.2.2⟩
      | _ => cases h'
    | _ => cases h
  | cell v =>
    cases o' with
    | cell v' =>
      cases o'' with
      | cell v'' => trivial
      | _ => cases h'
    | _ => cases h
  | undefined t l =>
    cases o' with
    | undefined t' l' =>
      cases o'' with
      | undefined t'' l'' => exact Eq.trans h' h
      | _ => cases h'
    | _ => cases h
  | _ => cases h; exact h'

namespace Heap

variable {crowded : Prop} {h h' h₁ h₂ : Heap} {R : Multiset ObjId} {r : ObjId} {v : Value}
  {vs : List Value}

@[simp] theorem refsOf_nilValue : refsOf [.nil] = 0 := rfl

@[simp] theorem refsOf_bool (b : Bool) : refsOf [.bool b] = 0 := rfl

@[simp] theorem refsOf_num (x : Float) : refsOf [.num x] = 0 := rfl

/-- The object behind a value, if there is one, is live. -/
def Live (h : Heap) (v : Value) : Prop := ∀ r, v = .obj r → ∃ c, h.slot? r = some c

/-! ## No new objects -/

/-- **The second heap has no objects that the first does not have**, and the scopes that are not
sealed are the same. -/
structure Fades (h h' : Heap) : Prop where
  back : ∀ {x c'}, h'.slot? x = some c' → ∃ c, h.slot? x = some c ∧ c'.obj = c.obj
  scopes : ∀ {g s}, h.scopeAt g = some s → s.isSealed = false → h'.scopeAt g = some s

theorem Fades.refl (h : Heap) : Fades h h := ⟨fun hx => ⟨_, hx, rfl⟩, fun hg _ => hg⟩

theorem Fades.trans (a : Fades h h₁) (b : Fades h₁ h₂) : Fades h h₂ where
  back hx := by
    obtain ⟨c₁, h₁x, e₁⟩ := b.back hx
    obtain ⟨c, hx, e⟩ := a.back h₁x
    exact ⟨c, hx, e₁.trans e⟩
  scopes hg ho := b.scopes (a.scopes hg ho) ho

theorem SameObjs.fades (ho : SameObjs h h') (hsc : h'.scopes = h.scopes) : Fades h h' where
  back {x c'} hx := by
    obtain ⟨rc, hx'⟩ := ho.back (show h'.slot? x = some ⟨c'.rc, c'.obj⟩ from hx)
    exact ⟨_, hx', rfl⟩
  scopes {g s} hg _ := by
    rw [scopeAt, hsc]
    exact hg

theorem SameObjs.live (ho : SameObjs h h') (hv : h.Live v) : h'.Live v := by
  intro r e
  obtain ⟨c, hc⟩ := hv r e
  obtain ⟨rc, hc'⟩ := ho.symm.back (show h.slot? r = some ⟨c.rc, c.obj⟩ from hc)
  exact ⟨_, hc'⟩

/-- The heaps differ in counts only. -/
structure Recounts (h h' : Heap) : Prop where
  objs : SameObjs h h'
  scopes : h'.scopes = h.scopes

theorem Recounts.fades (hr : Recounts h h') : Fades h h' := hr.objs.fades hr.scopes

theorem Recounts.trans (a : Recounts h h₁) (b : Recounts h₁ h₂) : Recounts h h₂ :=
  ⟨fun x => (b.objs x).trans (a.objs x), b.scopes.trans a.scopes⟩

theorem recounts_setSlot {c : Slot} (hr : h.slot? r = some c) (n : Nat) :
    Recounts h (h.setSlot r (some { c with rc := n })) :=
  ⟨objs_recount hr n, rfl⟩

/-! ## Taking and giving up references -/

theorem Sound.inc_value (hs : Sound h R []) (hv : h.Live v) :
    ∃ h', h.inc v = .ok h' ∧ Sound h' (refsOf [v] + R) [] ∧ Recounts h h' := by
  cases v with
  | obj r =>
    obtain ⟨c, hr⟩ := hv r rfl
    have e : h.inc (.obj r) = _ := incObj_eq hr
    refine ⟨_, e, ?_, recounts_setSlot hr _⟩
    rw [refsOf_obj, Multiset.singleton_add]
    exact hs.inc e
  | _ => exact ⟨h, rfl, by simpa using hs, fun _ => rfl, rfl⟩

theorem Sound.release_value (hs : Sound h (refsOf [v] + R) []) :
    ∃ h', h.release v = .ok h' ∧ Sound h' R [] ∧ Recounts h h' := by
  cases v with
  | obj r =>
    obtain ⟨c, hr, hpos, ed, hs'⟩ := hs.dec (r := r) (by simp [refsOf_obj])
    refine ⟨_, by rw [Heap.release, ed]; rfl, ?_, recounts_setSlot hr _⟩
    simpa [refsOf_obj] using hs'
  | _ => exact ⟨h, rfl, by simpa using hs, fun _ => rfl, rfl⟩

theorem Sound.incAll_values : ∀ {h : Heap} {R : Multiset ObjId} (vs : List Value), Sound h R [] →
    (∀ v ∈ vs, h.Live v) →
      ∃ h', h.incAll vs = .ok h' ∧ Sound h' (refsOf vs + R) [] ∧ Recounts h h'
  | h, R, [], hs, _ => ⟨h, rfl, by simpa [refsOf_nil] using hs, fun _ => rfl, rfl⟩
  | h, R, v :: vs, hs, hl => by
    obtain ⟨h₁, e₁, hs₁, hr₁⟩ := hs.inc_value (hl v (by simp))
    obtain ⟨h₂, e₂, hs₂, hr₂⟩ := Sound.incAll_values vs hs₁ fun x hx =>
      hr₁.objs.live (hl x (by simp [hx]))
    refine ⟨h₂, ?_, ?_, hr₁.trans hr₂⟩
    · rw [incAll, List.foldlM_cons, e₁]
      exact e₂
    · rw [refsOf_cons, add_comm (refsOf [v]), add_assoc]
      exact hs₂

/-! ## Freeing -/

theorem scopes_letGo {st st' : Heap × List ObjId} (e : letGo st v = .ok st') :
    st'.1.scopes = st.1.scopes := by
  obtain ⟨h, work⟩ := st
  cases v with
  | obj r =>
    cases hr : h.slot? r with
    | none => simp [letGo, decObj, slot, hr, bind, Except.bind] at e
    | some c =>
      simp only [letGo, decObj, slot, hr, bind, Except.bind] at e
      split_ifs at e
      cases e
      rfl
  | _ => cases e; rfl

theorem scopes_foldlM_pair {α : Type} {f : Heap × List ObjId → α → Except Fault (Heap × List ObjId)}
    (hf : ∀ st st' a, f st a = .ok st' → st'.1.scopes = st.1.scopes) :
    ∀ {st st' : Heap × List ObjId} (l : List α), l.foldlM f st = .ok st' → st'.1.scopes = st.1.scopes
  | st, st', [], e => by cases e; rfl
  | st, st', a :: l, e => by
    rw [List.foldlM_cons] at e
    cases ha : f st a with
    | error x => rw [ha] at e; cases e
    | ok st₁ =>
      rw [ha] at e
      exact (scopes_foldlM_pair hf l e).trans (hf _ _ _ ha)

theorem scopes_dissolve {st st' : Heap × List ObjId} (e : dissolve st r = .ok st') :
    st'.1.scopes = st.1.scopes := by
  obtain ⟨h, work⟩ := st
  cases hr : h.slots[r.index]? with
  | none => simp [dissolve, evict, hr, bind, Except.bind] at e
  | some o =>
    cases o with
    | none => simp [dissolve, evict, hr, bind, Except.bind] at e
    | some c =>
      simp only [dissolve, evict, hr, bind, Except.bind] at e
      have hfold := scopes_foldlM_pair (f := letGo) (fun _ _ _ => scopes_letGo) _ e
      exact hfold

theorem scopeAt_congr (hs : h'.scopes = h.scopes) (g : ScopeId) : h'.scopeAt g = h.scopeAt g := by
  simp only [scopeAt, hs]

/-- A scope that is not sealed takes no notice of reports. -/
theorem scopeAt_reclaimOne {work work' : List ObjId} {g : ScopeId} {s : Scope}
    (e : h.reclaimOne r work = .ok (h', work')) (hg : h.scopeAt g = some s)
    (ho : s.isSealed = false) : h'.scopeAt g = some s := by
  unfold reclaimOne at e
  cases hsc : h.scopeOf r with
  | error f => simp [hsc, bind, Except.bind] at e
  | ok o =>
    rw [hsc] at e
    rcases o with _ | g'
    · have e : dissolve (h, work) r = .ok (h', work') := e
      rw [scopeAt_congr (scopes_dissolve e), hg]
    · change h.noteZero g' work = _ at e
      unfold noteZero at e
      cases hs' : h.scope g' with
      | error f => simp [hs', bind, Except.bind] at e
      | ok s' =>
        have hg' := scopeAt_of_scope hs'
        simp only [hs', bind, Except.bind] at e
        by_cases eg : g = g'
        · subst eg
          rw [hg] at hg'
          obtain rfl := Option.some.inj hg'
          have hkeep : s.noteZero h.rcOrZero = (s, .keep) := by simp [Scope.noteZero, ho]
          rw [hkeep] at e
          cases e
          rw [scopeAt_setScope hg, if_pos rfl]
        · rcases hn : s'.noteZero h.rcOrZero with ⟨s₁, _ | _⟩
          · rw [hn] at e
            cases e
            rw [scopeAt_setScope hg', if_neg eg, hg]
          · rw [hn] at e
            have hg₁ : (h.setScope g' (some s₁)).scopeAt g' = some s₁ := by
              rw [scopeAt_setScope hg', if_pos rfl]
            simp only [dismantle, scope_eq hg₁, bind, Except.bind] at e
            rw [scopeAt_congr (scopes_foldlM_pair (f := dissolve) (fun _ _ _ => scopes_dissolve) _ e)]
            show ((h.setScope g' (some s₁)).setScope g' none).scopeAt g = some s
            rw [scopeAt_setScope hg₁, if_neg eg, scopeAt_setScope hg', if_neg eg, hg]

theorem Sound.reclaimOne_fades {work work' : List ObjId} {c : Slot} (hs : Sound h R [])
    (hr : h.slot? r = some c) (h0 : c.rc = 0) (e : h.reclaimOne r work = .ok (h', work')) :
    Fades h h' := by
  obtain ⟨h₁, D, new, e₁, -, ha⟩ := hs.reclaimOne hr h0 work
  obtain ⟨rfl, -⟩ := Prod.mk.inj (Except.ok.inj (e.symm.trans e₁))
  refine ⟨fun hx => ?_, fun hg ho => scopeAt_reclaimOne e hg ho⟩
  obtain ⟨c₀, hx₀, ho, -⟩ := ha.back hx
  exact ⟨c₀, hx₀, ho⟩

theorem reclaimLoop_fades : ∀ (fuel : Nat) {h h' : Heap} {work : List ObjId}, Sound h R [] →
    AtZero h work → reclaimLoop fuel h work = .ok h' → Fades h h'
  | fuel, h, h', [], _, _, e => by
    obtain rfl : h = h' := by simpa [reclaimLoop] using e
    exact .refl h
  | 0, h, h', r :: work, _, _, e => by simp [reclaimLoop] at e
  | fuel + 1, h, h', r :: work, hs, hz, e => by
    cases hr : h.slot? r with
    | none => simp [reclaimLoop, reclaimOne_dead hr, bind, Except.bind] at e
    | some c =>
      have h0 := hz r (by simp) c hr
      obtain ⟨h₁, D, new, e₁, hs₁, ha⟩ := hs.reclaimOne hr h0 work
      simp only [reclaimLoop, e₁, bind, Except.bind] at e
      exact (hs.reclaimOne_fades hr h0 e₁).trans (reclaimLoop_fades fuel hs₁ (ha.atZero hz) e)

/-- **Reclaiming one object at zero.** -/
theorem Sound.ensures_reclaim {c : Slot} (hs : Sound h R []) (hr : h.slot? r = some c)
    (h0 : c.rc = 0) : Ensures crowded (h.reclaim [r]) fun h' => Sound h' R [] ∧ Fades h h' := by
  have hp := hs.pending hr h0
  have hfuel : h.busy + [r].length ≤ h.slots.size + [r].length :=
    Nat.add_le_add_right (busy_le_size h) _
  by_cases ho : Overtaken h [r]
  · obtain ⟨n, e⟩ := reclaimLoop_overtaken ho _ hp hfuel
    rw [Heap.reclaim, e]
    exact trivial
  · obtain ⟨h', e⟩ := reclaimLoop_ok _ hp (fun m hm => ⟨c, List.mem_singleton.mp hm ▸ hr⟩) hfuel ho
    refine .of_eq e ⟨(reclaimLoop_sound _ hs hp.atZero e).1, reclaimLoop_fades _ hs hp.atZero e⟩

/-- **Giving up a reference.** -/
theorem Sound.ensures_unref (hs : Sound h (refsOf [v] + R) []) :
    Ensures crowded (h.unref v) fun h' => Sound h' R [] ∧ Fades h h' := by
  cases v with
  | obj r =>
    obtain ⟨c, hr, hpos, ed, hs'⟩ := hs.dec (r := r) (by simp [refsOf_obj])
    have hs' : Sound (h.setSlot r (some { c with rc := c.rc - 1 })) R [] := by
      simpa [refsOf_obj] using hs'
    have hfade := (recounts_setSlot hr (c.rc - 1)).fades
    simp only [Heap.unref, ed, bind, Except.bind]
    split_ifs with h0
    · refine (hs'.ensures_reclaim (r := r) (c := { c with rc := c.rc - 1 }) ?_ h0).mono fun h' h₁ =>
        ⟨h₁.1, hfade.trans h₁.2⟩
      rw [slot?_setSlot_of hr, if_pos rfl]
    · exact .ok ⟨hs', hfade⟩
  | _ => exact .ok ⟨by simpa using hs, .refl h⟩

theorem Sound.ensures_unrefAll : ∀ {h : Heap} (vs : List Value), Sound h (refsOf vs + R) [] →
    Ensures crowded (h.unrefAll vs) fun h' => Sound h' R [] ∧ Fades h h'
  | h, [], hs => .ok ⟨by simpa [refsOf_nil] using hs, .refl h⟩
  | h, v :: vs, hs => by
    rw [refsOf_cons, add_assoc] at hs
    rw [unrefAll, List.foldlM_cons]
    refine hs.ensures_unref.bind fun h₁ h₁s => ?_
    exact (Sound.ensures_unrefAll vs h₁s.1).mono fun h₂ h₂s => ⟨h₂s.1, h₁s.2.trans h₂s.2⟩

/-- **Freeing what nobody owns.** -/
theorem Sound.ensures_drop (hs : Sound h R []) (hv : h.Live v) :
    Ensures crowded (h.drop v) fun h' => Sound h' R [] ∧ Fades h h' := by
  cases v with
  | obj r =>
    obtain ⟨c, hr⟩ := hv r rfl
    simp only [Heap.drop, rc, slot, hr, Except.map, bind, Except.bind]
    split_ifs with h0
    · exact hs.ensures_reclaim hr h0
    · exact .ok ⟨hs, .refl h⟩
  | _ => exact .ok ⟨hs, .refl h⟩

/-! ## New objects -/

/-- **One object more**, at count zero. -/
structure Gains (h h' : Heap) (r : ObjId) (o : Object) : Prop where
  free : h.slot? r = none
  slot : ∀ x, h'.slot? x = if x = r then some ⟨0, o⟩ else h.slot? x
  scopes : h'.scopes = h.scopes

theorem Sound.allocate_gains {o : Object} (hs : Sound h (o.refs + R) []) (ho : Fresh o) :
    ∃ r, (h.allocate o).2 = .obj r ∧ Gains h (h.allocate o).1 r o ∧
      Sound (h.allocate o).1 R [] := by
  obtain ⟨r, hr, hv, hslot, -, hsc, -⟩ := allocate_spec hs.arena o
  exact ⟨r, hv, ⟨hr, hslot, hsc⟩, hs.allocate ho⟩

theorem Gains.self {o : Object} (hg : Gains h h' r o) : h'.slot? r = some ⟨0, o⟩ := by
  rw [hg.slot, if_pos rfl]

theorem Gains.kept {o : Object} (hg : Gains h h' r o) {x : ObjId} {c : Slot}
    (hx : h.slot? x = some c) : h'.slot? x = some c := by
  rw [hg.slot, if_neg, hx]
  rintro rfl
  rw [hg.free] at hx
  cases hx

/-! ## Changed objects -/

/-- **Overwriting an object that is no closure** by another one. -/
theorem Sound.put_plain {c : Slot} {o : Object} {R' : Multiset ObjId} (hs : Sound h R [])
    (hr : h.slot? r = some c) (hc : ∀ k, c.obj ≠ .closure k) (ho : ∀ k, o ≠ .closure k)
    (hR : R' + o.refs = R + c.obj.refs) :
    Sound (h.setSlot r (some { c with obj := o })) R' [] := by
  have hslot := slot?_setSlot_of hr { c with obj := o }
  have hback : ∀ {x rc k}, (h.setSlot r (some { c with obj := o })).slot? x = some ⟨rc, .closure k⟩ →
      h.slot? x = some ⟨rc, .closure k⟩ := fun {x rc k} hx => by
    rw [hslot] at hx
    split_ifs at hx
    · exact absurd (congrArg Slot.obj (Option.some.inj hx)) (ho k)
    · exact hx
  refine ⟨hs.counted.put hr hR, ⟨fun hx hk hn => hs.grouped.home (hback hx) hk hn,
    fun hg => hs.grouped.distinct hg, fun {g s m} hg hm => ?_⟩, fun x rc k hx hn => ?_,
    hs.arena.setSlot hr _⟩
  · obtain ⟨rc, k, hm', hk⟩ := hs.grouped.member hg hm
    refine ⟨rc, k, ?_, hk⟩
    rw [hslot, if_neg, hm']
    rintro rfl
    exact hc k (congrArg Slot.obj (Option.some.inj (hr.symm.trans hm')))
  · rw [siblings_congr (scopes_setSlot h r _)]
    exact hs.marked x rc k (hback hx) hn

/-- **Giving a closure its code**: the references to its captures move into the heap. -/
theorem Sound.finish {rc : Nat} {k : Closure} {unit : UnitId} {vs : List Value}
    (hs : Sound h (refsOf vs + R) []) (hr : h.slot? r = some ⟨rc, .closure k⟩)
    (hcaps : k.caps = []) (hscope : k.scope = none) :
    Sound (h.setSlot r (some ⟨rc, .closure { k with
      unit := unit, caps := vs, weak := vs.map fun _ => false }⟩)) R [] := by
  set k' : Closure := { k with unit := unit, caps := vs, weak := vs.map fun _ => false } with hk'
  have hmarks : ∀ i, k'.weak.getD i false = false := fun i => by
    simp only [hk', List.getD_eq_getElem?_getD, List.getElem?_map]
    cases vs[i]? <;> rfl
  have hnone : k.ownedCaps = [] := by simp [Closure.ownedCaps, hcaps]
  refine ⟨hs.counted.put hr ?_, hs.grouped.rewrite hr rfl, hs.marked.rewrite hr ?_,
    hs.arena.setSlot hr _⟩
  · simp only [Object.refs, Object.owned]
    rw [ownedCaps_of_unmarked hmarks, hnone, refsOf_nil, add_zero, add_comm]
  · rw [siblings_of_unsealed (fun g s hg => by rw [show k'.scope = none from hscope] at hg; cases hg)]
    exact weakExactly_nil.mpr hmarks

/-! ## Scopes -/

/-- **A closure joins a scope that is not full.** -/
theorem enrol_ok {g : ScopeId} {s : Scope} {rc : Nat} {k : Closure}
    (hr : h.slot? r = some ⟨rc, .closure k⟩) (hg : h.scopeAt g = some s) (ho : s.isSealed = false)
    (hlt : s.members.length < s.size) :
    h.enrol g r = .ok ((h.setScope g (some { s with members := s.members ++ [r] })).setSlot r
      (some ⟨rc, .closure { k with scope := some g }⟩)) := by
  have hen : s.enrol r = .ok { s with members := s.members ++ [r] } := by
    rw [Scope.enrol, if_neg (by simp [ho]), if_neg (by omega)]
  have hr₁ : (h.setScope g (some { s with members := s.members ++ [r] })).slot? r = _ := hr
  simp only [enrol, scope_eq hg, hen, bind, Except.bind, get_eq hr₁, put_eq hr₁]

/-- The second heap has no objects that the first does not have, but they may have changed. -/
structure Ages (h h' : Heap) : Prop where
  back : ∀ {x c'}, h'.slot? x = some c' → ∃ c, h.slot? x = some c ∧ c.obj.Alike c'.obj

theorem Fades.ages (hf : Fades h h') : Ages h h' where
  back hx := by
    obtain ⟨c, hc, ho⟩ := hf.back hx
    exact ⟨c, hc, ho ▸ Object.alike_refl _⟩

theorem Ages.trans (a : Ages h h₁) (b : Ages h₁ h₂) : Ages h h₂ where
  back hx := by
    obtain ⟨c₁, h₁x, e₁⟩ := b.back hx
    obtain ⟨c, hx, e⟩ := a.back h₁x
    exact ⟨c, hx, e.trans e₁⟩

theorem SameObjs.trans (a : SameObjs h h₁) (b : SameObjs h₁ h₂) : SameObjs h h₂ :=
  fun x => (b x).trans (a x)

theorem sameObjs_foldlM_release : ∀ {h h' : Heap} (vs : List Value),
    vs.foldlM Heap.release h = .ok h' → SameObjs h h'
  | h, h', [], e => by cases e; exact fun _ => rfl
  | h, h', v :: vs, e => by
    rw [List.foldlM_cons] at e
    cases e₁ : h.release v with
    | error f => rw [e₁] at e; cases e
    | ok h₁ =>
      rw [e₁] at e
      refine SameObjs.trans ?_ (sameObjs_foldlM_release vs e)
      cases v with
      | obj r =>
        cases hr : h.slot? r with
        | none => simp [Heap.release, decObj, slot, hr, bind, Except.bind] at e₁
        | some c =>
          simp only [Heap.release, decObj, slot, hr, bind, Except.bind] at e₁
          split_ifs at e₁ with h0
          cases e₁
          exact objs_recount hr _
      | _ => cases e₁; exact fun _ => rfl

/-- Marking captures as weak changes nothing else about a closure. -/
theorem ages_weaken {ms : List ObjId} {m : ObjId} (e : weaken ms h m = .ok h') : Ages h h' := by
  unfold weaken at e
  cases hm : h.slot? m with
  | none => simp [get, slot, hm, Except.map, bind, Except.bind] at e
  | some c =>
    obtain ⟨rc, o⟩ := c
    simp only [get_eq hm, bind, Except.bind] at e
    cases o with
    | closure k =>
      dsimp only at e
      cases e₁ : (k.caps.filter (isMember ms)).foldlM Heap.release h with
      | error f => rw [e₁] at e; cases e
      | ok h₁ =>
        have ho := sameObjs_foldlM_release _ e₁
        obtain ⟨rc₁, hm₁⟩ := ho.symm.back hm
        rw [e₁] at e
        dsimp only at e
        rw [put_eq hm₁] at e
        cases e
        refine ⟨fun {x c'} hx => ?_⟩
        rw [slot?_setSlot_of hm₁] at hx
        split_ifs at hx with ex
        · cases hx
          exact ⟨⟨rc, .closure k⟩, ex ▸ hm, rfl, rfl, rfl⟩
        · obtain ⟨rc', hx'⟩ := ho.back (show h₁.slot? x = some ⟨c'.rc, c'.obj⟩ from hx)
          exact ⟨_, hx', Object.alike_refl _⟩
    | _ => cases e

theorem ages_foldlM_weaken {ms : List ObjId} : ∀ {h h' : Heap} (todo : List ObjId),
    todo.foldlM (weaken ms) h = .ok h' → Ages h h'
  | h, h', [], e => by cases e; exact (Fades.refl h).ages
  | h, h', m :: todo, e => by
    rw [List.foldlM_cons] at e
    cases e₁ : weaken ms h m with
    | error f => rw [e₁] at e; cases e
    | ok h₁ =>
      rw [e₁] at e
      exact (ages_weaken e₁).trans (ages_foldlM_weaken todo e)

theorem Sound.ensures_reclaimEach : ∀ {h : Heap} (work : List ObjId), Sound h R [] → AtZero h work →
    Ensures crowded (work.foldlM (fun h r => h.reclaim [r]) h) fun h' => Sound h' R [] ∧ Fades h h'
  | h, [], hs, _ => .ok ⟨hs, .refl h⟩
  | h, r :: work, hs, hz => by
    rw [List.foldlM_cons]
    cases hr : h.slot? r with
    | none =>
      have e : h.reclaim [r] = .error (.freedObject r.index) := by
        simp [Heap.reclaim, reclaimLoop, reclaimOne_dead hr, bind, Except.bind]
      rw [e]
      exact trivial
    | some c =>
      have h0 := hz r (by simp) c hr
      have hrec : Ensures crowded _ _ := hs.ensures_reclaim hr h0
      refine Ensures.bind (Q := fun h₁ => h.reclaim [r] = .ok h₁)
        (.of_result (hrec.mono fun _ _ => trivial) fun _ e₁ => e₁) fun h₁ e₁ => ?_
      have hz₁ : AtZero h₁ work :=
        (hs.reclaim (atZero_singleton hr h0) e₁).2 fun m hm => hz m (by simp [hm])
      exact (Sound.ensures_reclaimEach work (hrec.result e₁).1 hz₁).mono fun h₂ h₂s =>
        ⟨h₂s.1, (hrec.result e₁).2.trans h₂s.2⟩

/-- **Sealing a full scope.** -/
theorem Sound.ensures_sealScope {g : ScopeId} {s : Scope} (hs : Sound h R [])
    (hg : h.scopeAt g = some s) (ho : s.isSealed = false) (hfull : s.members.length = s.size) :
    Ensures crowded (h.sealScope g) fun h' => Sound h' R [] ∧ Ages h h' := by
  obtain ⟨h₁, e₁, hs₁, hsc₁⟩ := Sealing.weakenAll s.members []
    ⟨hs.counted, hs.grouped, hs.marked, hs.arena, fun hm => by simp at hm⟩ hg ho
    (fun _ h => h) (hs.grouped.distinct hg) (by simp)
  have hages := ages_foldlM_weaken _ e₁
  have hg₁ : h₁.scopeAt g = some s := by rw [scopeAt_congr hsc₁, hg]
  obtain ⟨⟨s', d⟩, hcl⟩ : ∃ q, s.close h₁.rcOrZero = .ok q := by
    rw [Scope.close, if_neg (by simp [ho]), if_neg (by simp [hfull])]
    exact ⟨_, rfl⟩
  obtain ⟨-, hm, hsealed, hz⟩ := close_cases hcl
  have hs₃ := hs₁.sound (by simp) hg₁ hm hsealed
  have hages₃ : Ages h (h₁.setScope g (some s')) := ⟨fun hx => hages.back hx⟩
  simp only [Heap.sealScope, scope_eq hg, bind, Except.bind, e₁, scope_eq hg₁, hcl]
  cases d with
  | keep => exact ⟨hs₃, hages₃⟩
  | discard =>
    have hat := scopeAt_setScope hg₁ (some s')
    obtain ⟨h₄, new, e₄, hs₄, hd, -⟩ := hs₃.dismantle (s := s') (by rw [hat, if_pos rfl])
      (fun m hmem => hz rfl m (hm ▸ hmem)) []
    simp only [e₄, List.append_nil]
    refine (Sound.ensures_reclaimEach new hs₄ fun m hm c hc => ?_).mono fun h' hs' =>
      ⟨hs'.1, hages₃.trans (Ages.trans ⟨fun hx => ?_⟩ hs'.2.ages)⟩
    · obtain ⟨-, c', hc', h0⟩ := hd.fresh hm
      rw [hc] at hc'
      cases hc'
      exact h0
    · obtain ⟨c, hc, hobj, -⟩ := hd.back hx
      exact ⟨c, hc, hobj ▸ Object.alike_refl _⟩

end Heap

end CountedMachine
