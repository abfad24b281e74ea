import CountedMachine.Machine.Step
import CountedMachine.Proofs.Heap.Effects
import CountedMachine.Proofs.Kinds.Finished

/-! # Values and their kinds in a heap

`Has` relates a value in a heap to its kind. A function value is of the kind of its unit, and also of
the kind `fn noUnit`, which says no more than that it is a function: so a value keeps its kinds also
when a closure gets its code.

A heap is `Good` for a program when it is sound and structs have their declared number of fields and
closures the captures that their unit works with, except for closures that have no code yet.
Operations of the heap keep it good, and they preserve what is known of the objects that somebody
holds a reference to (`Preserves`). -/

namespace CountedMachine

open Heap

/-- A closure that has been allocated and nothing else. -/
def Closure.Blank (k : Closure) : Prop := k.unit = noUnit ∧ k.caps = [] ∧ k.scope = none

/-- The object is of the kind. -/
def Object.Fits : Object → Kind → Prop
  | .str _, κ => κ = .str
  | .cons _ _, κ => κ = .obj .cons
  | .struct ty _, κ => κ = .obj (.struct ty)
  | .cell _, κ => κ = .cell
  | .undefined _ _, κ => κ = .obj .undefined
  | .closure k, κ => κ = .fn k.unit ∨ κ = .fn Closure.noUnit ∨ (κ = .shell ∧ k.Blank)

/-- **The value is of the kind.** -/
def Has (h : Heap) : Value → Kind → Prop
  | .nil, κ => κ = .nil
  | .bool b, κ => κ = .bool b
  | .num _, κ => κ = .num
  | .obj r, κ => ∃ c, h.slot? r = some c ∧ c.obj.Fits κ

section Kinds
variable {h h' : Heap} {v : Value} {κ : Kind} {o o' : Object}

theorem Object.exists_fits (o : Object) : ∃ κ, κ ≠ .shell ∧ o.Fits κ := by
  cases o with
  | closure k => exact ⟨.fn k.unit, by simp, Or.inl rfl⟩
  | _ => exact ⟨_, by simp, rfl⟩

theorem Has.live (hv : Has h v κ) : h.Live v := by
  rintro r rfl
  obtain ⟨c, hc, -⟩ := hv
  exact ⟨c, hc⟩

/-- A live value is of some kind. -/
theorem exists_has (hv : h.Live v) : ∃ κ, κ ≠ .shell ∧ Has h v κ := by
  cases v with
  | nil => exact ⟨.nil, by simp, rfl⟩
  | bool b => exact ⟨.bool b, by simp, rfl⟩
  | num x => exact ⟨.num, by simp, rfl⟩
  | obj r =>
    obtain ⟨c, hc⟩ := hv r rfl
    obtain ⟨κ, hκ, hf⟩ := c.obj.exists_fits
    exact ⟨κ, hκ, c, hc, hf⟩

theorem Object.Fits.counted (ho : o.Fits κ) : κ.type.isUncounted = false := by
  cases o with
  | closure k => rcases ho with rfl | rfl | ⟨rfl, -⟩ <;> rfl
  | _ => cases ho; rfl

/-- Values of kinds without a count are immediate. -/
theorem Has.refsOf_eq (hv : Has h v κ) (hκ : κ.type.isUncounted = true) : refsOf [v] = 0 := by
  cases v with
  | obj r =>
    obtain ⟨c, -, hf⟩ := hv
    rw [hf.counted] at hκ
    cases hκ
  | _ => rfl

theorem Has.bool {b : Bool} (hv : Has h v (.bool b)) : v = .bool b := by
  cases v with
  | bool b' => cases hv; rfl
  | obj r =>
    obtain ⟨c, -, hf⟩ := hv
    cases hf.counted
  | _ => cases hv

theorem Has.num (hv : Has h v .num) : ∃ x, v = .num x := by
  cases v with
  | num x => exact ⟨x, rfl⟩
  | obj r =>
    obtain ⟨c, -, hf⟩ := hv
    cases hf.counted
  | _ => cases hv

theorem Has.obj {ty : ObjType} (hv : Has h v (.obj ty)) : ∃ r c, v = .obj r ∧ h.slot? r = some c ∧
    c.obj.Fits (.obj ty) := by
  cases v with
  | obj r =>
    obtain ⟨c, hc, hf⟩ := hv
    exact ⟨r, c, rfl, hc, hf⟩
  | _ => cases hv

theorem Has.cell (hv : Has h v .cell) : ∃ r rc x, v = .obj r ∧ h.slot? r = some ⟨rc, .cell x⟩ := by
  cases v with
  | obj r =>
    obtain ⟨⟨rc, o⟩, hc, hf⟩ := hv
    cases o with
    | cell x => exact ⟨r, rc, x, rfl, hc⟩
    | closure k => rcases hf with hf | hf | ⟨hf, -⟩ <;> cases hf
    | _ => cases hf
  | _ => cases hv

theorem Has.shell (hv : Has h v .shell) :
    ∃ r rc k, v = .obj r ∧ h.slot? r = some ⟨rc, .closure k⟩ ∧ k.Blank := by
  cases v with
  | obj r =>
    obtain ⟨⟨rc, o⟩, hc, hf⟩ := hv
    cases o with
    | closure k =>
      rcases hf with hf | hf | ⟨-, hk⟩
      · cases hf
      · cases hf
      · exact ⟨r, rc, k, rfl, hc, hk⟩
    | _ => cases hf
  | _ => cases hv

/-- A value is a function of a unit, where the unit is one. -/
theorem Has.fn {unit : UnitId} (hv : Has h v (.fn unit)) : ∃ r rc k, v = .obj r ∧
    h.slot? r = some ⟨rc, .closure k⟩ ∧ (unit ≠ Closure.noUnit → k.unit = unit) := by
  cases v with
  | obj r =>
    obtain ⟨⟨rc, o⟩, hc, hf⟩ := hv
    cases o with
    | closure k =>
      refine ⟨r, rc, k, rfl, hc, fun hu => ?_⟩
      rcases hf with hf | hf | ⟨hf, -⟩
      · cases hf; rfl
      · cases hf; exact absurd rfl hu
      · cases hf
    | _ => cases hf
  | _ => cases hv

/-- A test of the type looks at the kind. -/
theorem Has.isOfType (hv : Has h v κ) (ty : ObjType) :
    h.isOfType v ty = .ok (decide (κ = .obj ty)) := by
  cases v with
  | obj r =>
    obtain ⟨⟨rc, o⟩, hc, hf⟩ := hv
    simp only [Heap.isOfType, get_eq hc, bind, Except.bind, pure, Except.pure]
    cases o with
    | closure k => rcases hf with rfl | rfl | ⟨rfl, -⟩ <;> rfl
    | cons a b => cases hf; simp [eq_comm]
    | struct id fs => cases hf; simp [eq_comm]
    | undefined t l => cases hf; simp [eq_comm]
    | _ => cases hf; rfl
  | _ => cases hv; rfl

/-- A text is what has the kind of texts. -/
theorem Has.textOf? (hv : Has h v κ) :
    ∃ t, h.textOf? v = .ok t ∧ (t.isSome = true ↔ κ = .str) := by
  cases v with
  | obj r =>
    obtain ⟨⟨rc, o⟩, hc, hf⟩ := hv
    simp only [Heap.textOf?, get_eq hc, bind, Except.bind, pure, Except.pure]
    cases o with
    | closure k => rcases hf with rfl | rfl | ⟨rfl, -⟩ <;> exact ⟨_, rfl, by simp⟩
    | _ => cases hf; exact ⟨_, rfl, by simp⟩
  | _ => cases hv; exact ⟨_, rfl, by simp⟩

end Kinds

/-! ## What stays of an object -/

theorem Object.Alike.fits {o o' : Object} (h : o.Alike o') {κ : Kind} (ho : o.Fits κ) :
    o'.Fits κ := by
  cases o with
  | closure k =>
    cases o' with
    | closure k' =>
      obtain ⟨hu, hc, hs⟩ := h
      rcases ho with rfl | rfl | ⟨rfl, hb⟩
      · exact Or.inl (by rw [hu])
      · exact Or.inr (Or.inl rfl)
      · exact Or.inr (Or.inr ⟨rfl, hu.trans hb.1, hc.trans hb.2.1, hs.trans hb.2.2⟩)
    | _ => cases h
  | cell v =>
    cases o' with
    | cell v' => exact ho
    | _ => cases h
  | undefined t l =>
    cases o' with
    | undefined t' l' => exact ho
    | _ => cases h
  | _ => cases h; exact ho

/-- **Objects that are in both heaps are alike.** -/
structure Steady (h h' : Heap) : Prop where
  alike : ∀ {x c c'}, h.slot? x = some c → h'.slot? x = some c' → c.obj.Alike c'.obj

theorem Heap.Ages.steady {h h' : Heap} (hf : Ages h h') : CountedMachine.Steady h h' where
  alike hx hx' := by
    obtain ⟨c, hc, ho⟩ := hf.back hx'
    obtain rfl := Option.some.inj (hx.symm.trans hc)
    exact ho

theorem Heap.Gains.steady {h h' : Heap} {r : ObjId} {o : Object} (hg : Gains h h' r o) :
    CountedMachine.Steady h h' where
  alike hx hx' := by
    rw [hg.kept hx] at hx'
    cases hx'
    exact Object.alike_refl _

theorem Steady.has {h h' : Heap} {v : Value} {κ : Kind} (hs : Steady h h') (hl : h'.Live v)
    (hv : Has h v κ) : Has h' v κ := by
  cases v with
  | obj r =>
    obtain ⟨c, hc, hf⟩ := hv
    obtain ⟨c', hc'⟩ := hl r rfl
    exact ⟨c', hc', (hs.alike hc hc').fits hf⟩
  | _ => exact hv

/-! ## Good heaps -/

/-- The captures of a closure are as many as said, and those said to be cells are cells. -/
structure Furnished (h : Heap) (k : Closure) (cells : List Bool) : Prop where
  length : k.caps.length = cells.length
  cell : ∀ {idx : Nat} {v : Value}, cells[idx]? = some true → k.caps[idx]? = some v → Has h v .cell

/-- Structs have their declared fields, and closures the captures that their unit works with, but for
the objects in `P`. -/
structure Typed (p : Program) [p.Origin] (h : Heap) (P : Set ObjId) : Prop where
  structs : ∀ {r rc ty fields}, h.slot? r = some ⟨rc, .struct ty fields⟩ →
    ∃ d, p.types[ty]? = some d ∧ d.fields.length = fields.length
  closures : ∀ {r rc k}, h.slot? r = some ⟨rc, .closure k⟩ → r ∉ P →
    ∃ cells, UnitOk p.settings p k.unit cells ∧ Furnished h k cells

/-- **A heap that the machine can work with**, for the references `R` from outside. -/
structure Good (p : Program) [p.Origin] (h : Heap) (R : Multiset ObjId) (P : Set ObjId) : Prop where
  sound : Sound h R []
  typed : Typed p h P

/-- **What is known of the objects in `E` is still so**: they are of the same kinds, closures with
code have the same captures, and open scopes are the same. -/
structure Respects (E : Multiset ObjId) (h h' : Heap) : Prop where
  kinds : ∀ {x κ}, x ∈ E → κ ≠ .shell → Has h (.obj x) κ → Has h' (.obj x) κ
  closures : ∀ {x rc k}, x ∈ E → h.slot? x = some ⟨rc, .closure k⟩ → k.isFinished = true →
    ∃ rc' k', h'.slot? x = some ⟨rc', .closure k'⟩ ∧ k'.unit = k.unit ∧ k'.caps = k.caps ∧
      ∀ v ∈ k.caps, ∀ κ, κ ≠ .shell → Has h v κ → Has h' v κ

/-- As much of closures without code. -/
structure Retains (E : Multiset ObjId) (h h' : Heap) : Prop extends Respects E h h' where
  shells : ∀ {x}, x ∈ E → Has h (.obj x) .shell → Has h' (.obj x) .shell

/-- And open scopes are the same. -/
structure Preserves (E : Multiset ObjId) (h h' : Heap) : Prop extends Retains E h h' where
  scopes : ∀ {g s}, h.scopeAt g = some s → s.isSealed = false → h'.scopeAt g = some s

section Good
variable {crowded : Prop} {p : Program} [p.Origin] {h h' h₁ h₂ : Heap} {R E : Multiset ObjId} {P Q : Set ObjId}
  {r : ObjId} {v : Value} {κ : Kind}

theorem Respects.refl (E : Multiset ObjId) (h : Heap) : Respects E h h :=
  ⟨fun _ _ hx => hx, fun _ hx _ => ⟨_, _, hx, rfl, rfl, fun _ _ _ _ hv => hv⟩⟩

theorem Respects.trans (a : Respects E h h₁) (b : Respects E h₁ h₂) : Respects E h h₂ where
  kinds hx hκ hv := b.kinds hx hκ (a.kinds hx hκ hv)
  closures hx hc hf := by
    obtain ⟨rc₁, k₁, h₁x, hu₁, hc₁, hv₁⟩ := a.closures hx hc hf
    obtain ⟨rc₂, k₂, h₂x, hu₂, hc₂, hv₂⟩ := b.closures hx h₁x (by rwa [Closure.isFinished, hu₁])
    refine ⟨rc₂, k₂, h₂x, hu₂.trans hu₁, hc₂.trans hc₁, fun v hv κ hκ hh => ?_⟩
    exact hv₂ v (hc₁ ▸ hv) κ hκ (hv₁ v hv κ hκ hh)

theorem Respects.mono {E' : Multiset ObjId} (a : Respects E h h') (hE : E' ≤ E) :
    Respects E' h h' :=
  ⟨fun hx => a.kinds (Multiset.mem_of_le hE hx), fun hx => a.closures (Multiset.mem_of_le hE hx)⟩

theorem Retains.trans (a : Retains E h h₁) (b : Retains E h₁ h₂) : Retains E h h₂ where
  toRespects := a.toRespects.trans b.toRespects
  shells hx hv := b.shells hx (a.shells hx hv)

theorem Retains.mono {E' : Multiset ObjId} (a : Retains E h h') (hE : E' ≤ E) : Retains E' h h' :=
  ⟨a.toRespects.mono hE, fun hx => a.shells (Multiset.mem_of_le hE hx)⟩

theorem Preserves.refl (E : Multiset ObjId) (h : Heap) : Preserves E h h :=
  ⟨⟨.refl E h, fun _ hx => hx⟩, fun hg _ => hg⟩

theorem Preserves.trans (a : Preserves E h h₁) (b : Preserves E h₁ h₂) : Preserves E h h₂ where
  toRetains := a.toRetains.trans b.toRetains
  scopes hg ho := b.scopes (a.scopes hg ho) ho

theorem Preserves.mono {E' : Multiset ObjId} (a : Preserves E h h') (hE : E' ≤ E) :
    Preserves E' h h' :=
  ⟨a.toRetains.mono hE, a.scopes⟩

theorem Retains.has (a : Retains E h h') (hv : refsOf [v] ≤ E) (hκ : Has h v κ) :
    Has h' v κ := by
  cases v with
  | obj r =>
    have hr : r ∈ E := Multiset.mem_of_le hv (by simp [refsOf_obj])
    by_cases e : κ = .shell
    · subst e
      exact a.shells hr hκ
    · exact a.kinds hr e hκ
  | _ => exact hκ

theorem Respects.has (a : Respects E h h') (hv : refsOf [v] ≤ E) (hκ : Has h v κ)
    (hs : κ ≠ .shell) : Has h' v κ := by
  cases v with
  | obj r => exact a.kinds (Multiset.mem_of_le hv (by simp [refsOf_obj])) hs hκ
  | _ => exact hκ

/-! ### What objects hold is live -/

theorem refs_le_held {c : Slot} (hr : h.slot? r = some c) : c.obj.refs ≤ h.held := by
  rw [← held_vacate hr]
  exact Multiset.le_add_left _ _

theorem mem_refsOf {vs : List Value} {x : ObjId} : x ∈ refsOf vs ↔ .obj x ∈ vs := by
  simp only [refsOf, Multiset.mem_coe, List.mem_filterMap]
  constructor
  · rintro ⟨v, hv, e⟩
    cases v with
    | obj y => cases e; exact hv
    | _ => cases e
  · exact fun hv => ⟨_, hv, rfl⟩

theorem refsOf_le_of_mem {vs : List Value} (hv : v ∈ vs) : refsOf [v] ≤ refsOf vs := by
  obtain ⟨as, bs, rfl⟩ := List.append_of_mem hv
  simp only [refsOf]
  exact Multiset.coe_le.mpr ((List.Sublist.filterMap _ (List.singleton_sublist.mpr hv)).subperm)

theorem live_of_mem (hs : Sound h R []) {x : ObjId} (hx : x ∈ R) : ∃ c, h.slot? x = some c :=
  hs.counted.live x (Multiset.mem_add.mpr (Or.inl hx))

theorem live_of_le (hs : Sound h R []) (hv : refsOf [v] ≤ R) : h.Live v := by
  rintro x rfl
  exact live_of_mem hs (Multiset.mem_of_le hv (by simp [refsOf_obj]))

theorem live_owned {c : Slot} (hs : Sound h R []) (hr : h.slot? r = some c) (hv : v ∈ c.obj.owned) :
    h.Live v := by
  rintro x rfl
  refine hs.counted.live x (Multiset.mem_add.mpr (Or.inr ?_))
  exact Multiset.mem_of_le (refs_le_held hr) (mem_refsOf.mpr hv)

/-- Also the weak captures of a closure are live. -/
theorem live_capture {rc : Nat} {k : Closure} (hs : Sound h R [])
    (hr : h.slot? r = some ⟨rc, .closure k⟩) (hv : v ∈ k.caps) : h.Live v := by
  have hown := ownedCaps_of_weakExactly (hs.marked r rc k hr (by simp))
  by_cases hm : isMember (h.siblings k) v = true
  · rintro x rfl
    have hx : x ∈ h.siblings k := by simpa [isMember] using hm
    unfold siblings at hx
    split at hx
    · next s hg =>
      obtain ⟨g, hk, hg⟩ := Option.bind_eq_some_iff.mp hg
      split_ifs at hx
      · obtain ⟨rc', k', hx', -⟩ := hs.grouped.member hg hx
        exact ⟨_, hx'⟩
      · cases hx
    · cases hx
  · refine live_owned hs hr ?_
    rw [Object.owned, hown]
    exact List.mem_filter.mpr ⟨hv, by simpa using hm⟩

/-- **Objects with a reference are preserved.** -/
theorem Steady.retains {S : Multiset ObjId} (hst : Steady h h') (hs' : Sound h' S []) (hE : E ≤ S) :
    Retains E h h' := by
  have hlive : ∀ {x}, x ∈ E → h'.Live (.obj x) := fun hx y e => by
    cases e
    exact live_of_mem hs' (Multiset.mem_of_le hE hx)
  refine ⟨⟨fun hx _ hv => hst.has (hlive hx) hv, fun {x rc k} hx hc _ => ?_⟩,
    fun hx hv => hst.has (hlive hx) hv⟩
  obtain ⟨⟨rc', o⟩, hc'⟩ := hlive hx x rfl
  have ha := hst.alike hc hc'
  cases o with
  | closure k' =>
    obtain ⟨hu, hcaps, -⟩ := ha
    exact ⟨rc', k', hc', hu, hcaps, fun v hv κ _ hh =>
      hst.has (live_capture hs' hc' (hcaps ▸ hv)) hh⟩
  | _ => cases ha

theorem Furnished.steady {k k' : Closure} {rc : Nat} {cells : List Bool} (hf : Furnished h k cells)
    (hst : Steady h h') (hs' : Sound h' R []) (hr : h'.slot? r = some ⟨rc, .closure k'⟩)
    (hcaps : k'.caps = k.caps) : Furnished h' k' cells where
  length := by rw [hcaps, hf.length]
  cell hm hv := hst.has (live_capture hs' hr (List.mem_of_getElem? hv)) (hf.cell hm (hcaps ▸ hv))

/-- A heap without new objects is typed as before. -/
theorem Typed.steady (ht : Typed p h P) (hst : Steady h h')
    (hback : ∀ {x c'}, h'.slot? x = some c' → ∃ c, h.slot? x = some c) (hs' : Sound h' R []) :
    Typed p h' P where
  structs hr := by
    obtain ⟨⟨rc, o⟩, hr₀⟩ := hback hr
    have ha := hst.alike hr₀ hr
    cases o <;> cases ha
    exact ht.structs hr₀
  closures {r rc' k'} hr hn := by
    obtain ⟨⟨rc, o⟩, hr₀⟩ := hback hr
    have ha := hst.alike hr₀ hr
    cases o with
    | closure k =>
      obtain ⟨hu, hcaps, -⟩ := ha
      obtain ⟨cells, hok, hf⟩ := ht.closures hr₀ hn
      exact ⟨cells, hu ▸ hok, hf.steady hst hs' hr hcaps⟩
    | _ => cases ha

theorem Good.ages (hg : Good p h R P) (ha : Ages h h') (hs' : Sound h' E []) : Good p h' E P :=
  ⟨hs', hg.typed.steady ha.steady (fun hx => (ha.back hx).imp fun _ hc => hc.1) hs'⟩

theorem Heap.Fades.preserves (hf : Fades h h') (hs' : Sound h' E []) : Preserves E h h' :=
  ⟨hf.ages.steady.retains hs' le_rfl, hf.scopes⟩

/-! ### Taking and giving up references -/

/-- **Giving up a reference.** -/
theorem Good.unref (hg : Good p h (refsOf [v] + R) P) :
    Ensures crowded (h.unref v) fun h' => Good p h' R P ∧ Preserves R h h' :=
  hg.sound.ensures_unref.mono fun _ hs => ⟨hg.ages hs.2.ages hs.1, hs.2.preserves hs.1⟩

theorem Good.unrefAll {vs : List Value} (hg : Good p h (refsOf vs + R) P) :
    Ensures crowded (h.unrefAll vs) fun h' => Good p h' R P ∧ Preserves R h h' :=
  (hg.sound.ensures_unrefAll vs).mono fun _ hs => ⟨hg.ages hs.2.ages hs.1, hs.2.preserves hs.1⟩

theorem Good.drop (hg : Good p h R P) (hv : h.Live v) :
    Ensures crowded (h.drop v) fun h' => Good p h' R P ∧ Preserves R h h' :=
  (hg.sound.ensures_drop hv).mono fun _ hs => ⟨hg.ages hs.2.ages hs.1, hs.2.preserves hs.1⟩

theorem Heap.Recounts.has (hr : Recounts h h') (hv : Has h v κ) : Has h' v κ :=
  hr.fades.ages.steady.has (hr.objs.live hv.live) hv

theorem Heap.Recounts.preserves (hr : Recounts h h') (E : Multiset ObjId) : Preserves E h h' where
  kinds _ _ hv := hr.has hv
  shells _ hv := hr.has hv
  closures _ hx _ := by
    obtain ⟨rc', hx'⟩ := hr.objs.symm.back hx
    exact ⟨rc', _, hx', rfl, rfl, fun _ _ _ _ hv => hr.has hv⟩
  scopes := hr.fades.scopes

/-- **Taking a reference.** -/
theorem Good.inc (hg : Good p h R P) (hv : h.Live v) :
    ∃ h', h.inc v = .ok h' ∧ Good p h' (refsOf [v] + R) P ∧ Recounts h h' := by
  obtain ⟨h', e, hs', hr⟩ := hg.sound.inc_value hv
  exact ⟨h', e, hg.ages hr.fades.ages hs', hr⟩

theorem Good.incAll {vs : List Value} (hg : Good p h R P) (hv : ∀ v ∈ vs, h.Live v) :
    ∃ h', h.incAll vs = .ok h' ∧ Good p h' (refsOf vs + R) P ∧ Recounts h h' := by
  obtain ⟨h', e, hs', hr⟩ := hg.sound.incAll_values vs hv
  exact ⟨h', e, hg.ages hr.fades.ages hs', hr⟩

theorem Good.release (hg : Good p h (refsOf [v] + R) P) :
    ∃ h', h.release v = .ok h' ∧ Good p h' R P ∧ Recounts h h' := by
  obtain ⟨h', e, hs', hr⟩ := hg.sound.release_value
  exact ⟨h', e, hg.ages hr.fades.ages hs', hr⟩

/-! ### New objects -/

theorem Heap.Gains.has {o : Object} (hr : Gains h h' r o) (hv : Has h v κ) : Has h' v κ :=
  hr.steady.has (fun _ e => (hv.live _ e).imp fun _ hc => hr.kept hc) hv

theorem Heap.Gains.preserves {o : Object} (hr : Gains h h' r o) (E : Multiset ObjId) :
    Preserves E h h' where
  kinds _ _ hv := hr.has hv
  shells _ hv := hr.has hv
  closures _ hx _ := ⟨_, _, hr.kept hx, rfl, rfl, fun _ _ _ _ hv => hr.has hv⟩
  scopes hgs _ := by rw [scopeAt_congr hr.scopes, hgs]

/-- The object can be put into a heap: a struct has its declared fields, a closure the captures that
its unit works with, or it is in `P`. -/
def Object.Proper (p : Program) [p.Origin] (h : Heap) (P : Set ObjId) (r : ObjId) : Object → Prop
  | .struct ty fields => ∃ d, p.types[ty]? = some d ∧ d.fields.length = fields.length
  | .closure k => r ∉ P → ∃ cells, UnitOk p.settings p k.unit cells ∧ Furnished h k cells
  | _ => True

theorem Typed.gains {o : Object} (ht : Typed p h P) (hr : Gains h h' r o) (hPQ : P ⊆ Q)
    (ho : o.Proper p h Q r) : Typed p h' Q where
  structs {x rc ty fields} hx := by
    rw [hr.slot] at hx
    split_ifs at hx
    · cases hx
      exact ho
    · exact ht.structs hx
  closures {x rc k} hx hn := by
    have hkeep : (∃ cells, UnitOk p.settings p k.unit cells ∧ Furnished h k cells) →
        ∃ cells, UnitOk p.settings p k.unit cells ∧ Furnished h' k cells := fun ⟨cells, hok, hf⟩ =>
      ⟨cells, hok, hf.length, fun hm hv => hr.has (hf.cell hm hv)⟩
    rw [hr.slot] at hx
    split_ifs at hx with e
    · cases hx
      exact hkeep (ho (e ▸ hn))
    · exact hkeep (ht.closures hx fun hP => hn (hPQ hP))

/-- **Allocating an object.** -/
theorem Good.allocate {o : Object} (hg : Good p h (o.refs + R) P) (hfresh : Fresh o)
    (ho : ∀ r, o.Proper p h P r) :
    ∃ r, (h.allocate o).2 = .obj r ∧ Good p (h.allocate o).1 R P ∧ Gains h (h.allocate o).1 r o := by
  obtain ⟨r, hv, hgain, hs'⟩ := hg.sound.allocate_gains hfresh
  exact ⟨r, hv, ⟨hs', hg.typed.gains hgain subset_rfl (ho r)⟩, hgain⟩

/-- **A value that has just been made.** -/
theorem Good.allocated {o : Object} (hg : Good p h (o.refs + R) P) (hfresh : Fresh o)
    (ho : ∀ r, o.Proper p h P r) (hκ : o.Fits κ) :
    Good p (h.allocate o).1 R P ∧ (∀ E, Preserves E h (h.allocate o).1) ∧
      Has (h.allocate o).1 (h.allocate o).2 κ := by
  obtain ⟨r, hv, hg', hgain⟩ := hg.allocate hfresh ho
  refine ⟨hg', hgain.preserves, ?_⟩
  rw [hv]
  exact ⟨_, hgain.self, hκ⟩

/-- **Allocating a closure that has no code yet.** -/
theorem Good.allocate_blank (hg : Good p h R P) :
    ∃ r, (h.allocate (.closure .blank)).2 = .obj r ∧
      Good p (h.allocate (.closure .blank)).1 R (insert r P) ∧
      Gains h (h.allocate (.closure .blank)).1 r (.closure .blank) := by
  obtain ⟨r, hv, hgain, hs'⟩ := Sound.allocate_gains (o := .closure .blank) (R := R)
    (by simpa [Object.refs, Object.owned, Closure.ownedCaps, Closure.blank, Closure.plain, refsOf_nil]
      using hg.sound) ⟨rfl, fun _ => rfl⟩
  exact ⟨r, hv, ⟨hs', hg.typed.gains hgain (Set.subset_insert r P) fun hn =>
    absurd (Set.mem_insert r P) hn⟩, hgain⟩

/-! ### Changed objects -/

/-- Nothing is lost when one object becomes another one like it. -/
theorem Good.put_plain {c : Slot} {o : Object} {T : Multiset ObjId} (hg : Good p h R P)
    (hr : h.slot? r = some c) (hc : ∀ k, c.obj ≠ .closure k) (ho : ∀ k, o ≠ .closure k)
    (ha : c.obj.Alike o) (hR : T + o.refs = R + c.obj.refs) :
    ∃ h', h.put r o = .ok h' ∧ Good p h' T P ∧ (∀ E, Preserves E h h') ∧
      ∀ {v κ}, Has h v κ → Has h' v κ := by
  have hs' := hg.sound.put_plain hr hc ho hR
  have hslot := slot?_setSlot_of hr { c with obj := o }
  set h' := h.setSlot r (some { c with obj := o }) with hh'
  have hst : Steady h h' := ⟨fun {x c₀ c₁} hx hx' => by
      rw [hslot] at hx'
      split_ifs at hx' with e
      · subst e
        cases hx'
        obtain rfl := Option.some.inj (hr.symm.trans hx)
        exact ha
      · obtain rfl := Option.some.inj (hx.symm.trans hx')
        exact Object.alike_refl _⟩
  have hlive : ∀ {v}, h.Live v → h'.Live v := fun hv x e => by
    rw [hslot]
    split_ifs
    · exact ⟨_, rfl⟩
    · exact hv x e
  have hback : ∀ {x c'}, h'.slot? x = some c' → ∃ c, h.slot? x = some c := fun {x c'} hx => by
    rw [hslot] at hx
    split_ifs at hx with e
    · exact ⟨c, e ▸ hr⟩
    · exact ⟨c', hx⟩
  have hhas : ∀ {v κ}, Has h v κ → Has h' v κ := fun hv => hst.has (hlive hv.live) hv
  refine ⟨h', put_eq hr o, ⟨hs', hg.typed.steady hst hback hs'⟩,
    fun E => ⟨⟨⟨fun _ _ hv => hhas hv, fun {x rc k} _ hx _ => ?_⟩, fun _ hv => hhas hv⟩,
      fun hgs _ => hgs⟩, hhas⟩
  obtain ⟨⟨rc', o'⟩, hx'⟩ := hlive (v := .obj x) (fun _ e => by cases e; exact ⟨_, hx⟩) x rfl
  have hk := hst.alike hx hx'
  cases o' with
  | closure k' => exact ⟨rc', k', hx', hk.1, hk.2.1, fun _ _ _ _ hv => hhas hv⟩
  | _ => cases hk

/-- **A closure is changed**: it gets its code, or keeps code and captures. -/
structure Recasts (h h' : Heap) (r : ObjId) (k k' : Closure) : Prop where
  before : ∃ rc, h.slot? r = some ⟨rc, .closure k⟩
  after : ∃ rc, h'.slot? r = some ⟨rc, .closure k'⟩
  kept : ∀ {x}, x ≠ r → h'.slot? x = h.slot? x
  code : k.unit = Closure.noUnit ∨ (k'.unit = k.unit ∧ k'.caps = k.caps)

section Recasts
variable {k k' : Closure} (hr : Recasts h h' r k k')
include hr

theorem Recasts.has (hv : Has h v κ) (hκ : κ ≠ .shell) : Has h' v κ := by
  cases v with
  | obj x =>
    by_cases e : x = r
    · subst e
      obtain ⟨c, hc, hf⟩ := hv
      obtain ⟨rc, hx⟩ := hr.before
      obtain ⟨rc', hx'⟩ := hr.after
      obtain rfl := Option.some.inj (hx.symm.trans hc)
      refine ⟨_, hx', ?_⟩
      rcases hf with rfl | rfl | ⟨rfl, -⟩
      · rcases hr.code with e | ⟨e, -⟩
        · exact Or.inr (Or.inl (by rw [e]))
        · exact Or.inl (by rw [e])
      · exact Or.inr (Or.inl rfl)
      · exact absurd rfl hκ
    · obtain ⟨c, hc, hf⟩ := hv
      exact ⟨c, (hr.kept e).trans hc, hf⟩
  | _ => exact hv

theorem Recasts.shell {x : ObjId} (hx : x ≠ r) (hv : Has h (.obj x) .shell) :
    Has h' (.obj x) .shell := by
  obtain ⟨c, hc, hf⟩ := hv
  exact ⟨c, (hr.kept hx).trans hc, hf⟩

theorem Recasts.respects (E : Multiset ObjId) : Respects E h h' where
  kinds _ hκ hv := hr.has hv hκ
  closures {x rc kx} _ hx hfin := by
    by_cases e : x = r
    · subst e
      obtain ⟨rc₀, hx₀⟩ := hr.before
      obtain ⟨rc', hx'⟩ := hr.after
      obtain ⟨rfl, rfl⟩ : rc₀ = rc ∧ k = kx := by
        have := Option.some.inj (hx₀.symm.trans hx)
        cases this
        exact ⟨rfl, rfl⟩
      obtain ⟨hu, hc⟩ := hr.code.resolve_left (by simpa [Closure.isFinished] using hfin)
      exact ⟨rc', k', hx', hu, hc, fun _ _ κ hκ hv => hr.has hv hκ⟩
    · exact ⟨rc, kx, (hr.kept e).trans hx, rfl, rfl, fun _ _ κ hκ hv => hr.has hv hκ⟩

theorem Recasts.typed (ht : Typed p h P) (hQ : ∀ {x}, x ∉ Q → x ≠ r → x ∉ P)
    (hk : ∃ cells, UnitOk p.settings p k'.unit cells ∧ Furnished h k' cells) : Typed p h' Q := by
  obtain ⟨rc', hr'⟩ := hr.after
  have hkeep : ∀ {kx : Closure}, (∃ cells, UnitOk p.settings p kx.unit cells ∧ Furnished h kx cells) →
      ∃ cells, UnitOk p.settings p kx.unit cells ∧ Furnished h' kx cells := fun ⟨cells, hok, hf⟩ =>
    ⟨cells, hok, hf.length, fun hm hv => hr.has (hf.cell hm hv) (by simp)⟩
  refine ⟨fun {x rc ty fields} hx => ?_, fun {x rc kx} hx hn => ?_⟩
  · by_cases e : x = r
    · subst e
      rw [hr'] at hx
      cases hx
    · exact ht.structs ((hr.kept e).symm.trans hx)
  · by_cases e : x = r
    · subst e
      rw [hr'] at hx
      cases hx
      exact hkeep hk
    · exact hkeep (ht.closures ((hr.kept e).symm.trans hx) (hQ hn e))

end Recasts

/-- **Giving a closure its code.** -/
theorem Good.finish {rc : Nat} {k : Closure} {unit : UnitId} {vs : List Value} {cells : List Bool}
    (hg : Good p h (refsOf vs + R) P) (hr : h.slot? r = some ⟨rc, .closure k⟩) (hk : k.Blank)
    (hok : UnitOk p.settings p unit cells) (hlen : vs.length = cells.length)
    (hcell : ∀ {idx : Nat} {v : Value}, cells[idx]? = some true → vs[idx]? = some v → Has h v .cell) :
    ∃ h' k', h.put r (.closure { k with unit := unit, caps := vs, weak := vs.map fun _ => false }) =
      .ok h' ∧ Good p h' R (P \ {r}) ∧ Recasts h h' r k k' ∧ h'.scopes = h.scopes ∧
      k'.unit = unit ∧ k'.scope = none := by
  set k' : Closure := { k with unit := unit, caps := vs, weak := vs.map fun _ => false } with hk'
  have hslot := slot?_setSlot_of hr ⟨rc, .closure k'⟩
  have hre : Recasts h (h.setSlot r (some ⟨rc, .closure k'⟩)) r k k' :=
    ⟨⟨rc, hr⟩, ⟨rc, by rw [hslot, if_pos rfl]⟩, fun e => by rw [hslot, if_neg e], Or.inl hk.1⟩
  refine ⟨_, k', put_eq hr _, ⟨hg.sound.finish hr hk.2.1 hk.2.2, hre.typed hg.typed
    (fun hx e hP => hx ⟨hP, e⟩) ⟨cells, hok, hlen, hcell⟩⟩, hre, rfl, rfl, hk.2.2⟩

/-- **A closure joins a scope.** -/
theorem Good.enrol {g : ScopeId} {s : Scope} {rc : Nat} {k : Closure} (hg : Good p h R P)
    (hr : h.slot? r = some ⟨rc, .closure k⟩) (hk : k.scope = none) (hn : r ∉ P)
    (hs : h.scopeAt g = some s) (ho : s.isSealed = false) (hlt : s.members.length < s.size) :
    ∃ h', h.enrol g r = .ok h' ∧ Good p h' R P ∧
      Recasts h h' r k { k with scope := some g } ∧
      h'.scopeAt g = some { s with members := s.members ++ [r] } := by
  have e := enrol_ok hr hs ho hlt
  set h₁ := h.setScope g (some { s with members := s.members ++ [r] })
  have hr₁ : h₁.slot? r = some ⟨rc, .closure k⟩ := hr
  have hslot := slot?_setSlot_of hr₁ ⟨rc, .closure { k with scope := some g }⟩
  have hre : Recasts h (h₁.setSlot r (some ⟨rc, .closure { k with scope := some g }⟩)) r k
      { k with scope := some g } :=
    ⟨⟨rc, hr⟩, ⟨rc, by rw [hslot, if_pos rfl]⟩, fun e => by rw [hslot, if_neg e]; rfl,
      Or.inr ⟨rfl, rfl⟩⟩
  obtain ⟨cells, hok, hf⟩ := hg.typed.closures hr hn
  refine ⟨_, e, ⟨hg.sound.enrol hr hk e, hre.typed hg.typed (fun hx _ => hx)
    ⟨cells, hok, hf.length, hf.cell⟩⟩, hre, ?_⟩
  show h₁.scopeAt g = _
  rw [scopeAt_setScope hs, if_pos rfl]

/-- **Sealing a full scope.** -/
theorem Good.sealScope {g : ScopeId} {s : Scope} (hg : Good p h R P) (hs : h.scopeAt g = some s)
    (ho : s.isSealed = false) (hfull : s.members.length = s.size) :
    Ensures crowded (h.sealScope g) fun h' => Good p h' R P ∧ Retains R h h' :=
  (hg.sound.ensures_sealScope hs ho hfull).mono fun _ hs' =>
    ⟨hg.ages hs'.2 hs'.1, hs'.2.steady.retains hs'.1 le_rfl⟩

/-- **Opening a scope.** -/
theorem Good.openScope (hg : Good p h R P) (n : Nat) :
    Good p (h.openScope n).1 R P ∧ ∀ E, Preserves E h (h.openScope n).1 := by
  refine ⟨⟨hg.sound.openScope n, hg.typed.structs, fun hr hn => (hg.typed.closures hr hn).imp
    fun _ hf => ⟨hf.1, hf.2.length, fun hm hv => hf.2.cell hm hv⟩⟩, fun E =>
    ⟨⟨⟨fun _ _ hv => hv, fun _ hx _ => ⟨_, _, hx, rfl, rfl, fun _ _ _ _ hv => hv⟩⟩, fun _ hv => hv⟩,
      fun {g s} hgs _ => ?_⟩⟩
  rw [scopeAt_openScope, if_neg, hgs]
  rintro rfl
  exact absurd (lt_size_of_scopeAt hgs) (lt_irrefl _)

end Good

end CountedMachine
