import CountedMachine.Proofs.Heap.Layers
import CountedMachine.Proofs.Machine.Values

/-! # Objects that correspond

Two heaps can hold the same data in different slots, each beside data of its own. A pairing relates objects
of the one to objects of the other, each to at most one, so that what paired objects hold corresponds again
(`Paired`); scopes and weak marks are left out, since they only decide when an object is freed.

Operations that are carried out on both heaps leave them paired (`Advance`): objects that are freed drop out of
the pairing, new ones join it. What can be reached from the references that are held outside throughout lasts
in either heap (`Lasting`). -/

namespace CountedMachine

/-- **Values that correspond:** the same immediate, or paired objects. -/
inductive Value.PairedBy (β : ObjId → ObjId → Prop) : Value → Value → Prop
  | nil : PairedBy β .nil .nil
  | bool (b : Bool) : PairedBy β (.bool b) (.bool b)
  | num (x : Float) : PairedBy β (.num x) (.num x)
  | obj {x y : ObjId} : β x y → PairedBy β (.obj x) (.obj y)

/-- Lists of values that correspond. -/
abbrev Values.PairedBy (β : ObjId → ObjId → Prop) : List Value → List Value → Prop := List.Forall₂ (Value.PairedBy β)

/-- The values in an object, weak captures included. -/
def Object.contents : Object → List Value
  | .str _ => []
  | .undefined _ _ => []
  | .cons a b => [a, b]
  | .struct _ fields => fields
  | .cell v => [v]
  | .closure k => k.caps

/-- **Objects that correspond**, whatever scopes they belong to. -/
inductive Object.PairedBy (β : ObjId → ObjId → Prop) : Object → Object → Prop
  | str (s : String) : PairedBy β (.str s) (.str s)
  | cons {a b c d : Value} : a.PairedBy β c → b.PairedBy β d → PairedBy β (.cons a b) (.cons c d)
  | struct (ty : Nat) {fs gs : List Value} : Values.PairedBy β fs gs → PairedBy β (.struct ty fs) (.struct ty gs)
  | cell {v w : Value} : v.PairedBy β w → PairedBy β (.cell v) (.cell w)
  | closure {k l : Closure} : l.unit = k.unit → Values.PairedBy β k.caps l.caps → PairedBy β (.closure k) (.closure l)
  | undefined (tag : String) (trace : List Location) : PairedBy β (.undefined tag trace) (.undefined tag trace)

section PairedBy
variable {β γ : ObjId → ObjId → Prop} {v w u : Value} {vs ws us : List Value} {o o' o'' : Object}

theorem Value.PairedBy.imp (hl : v.PairedBy β w) (h : ∀ x y, v = .obj x → w = .obj y → β x y → γ x y) :
    v.PairedBy γ w := by
  cases hl with
  | nil => exact .nil
  | bool b => exact .bool b
  | num x => exact .num x
  | obj hxy => exact .obj (h _ _ rfl rfl hxy)

theorem Values.PairedBy.imp (hl : Values.PairedBy β vs ws)
    (h : ∀ x y, .obj x ∈ vs → .obj y ∈ ws → β x y → γ x y) : Values.PairedBy γ vs ws := by
  induction hl with
  | nil => exact .nil
  | cons hv _ ih =>
    refine .cons (hv.imp fun x y ex ey => h x y (by simp [ex]) (by simp [ey])) (ih fun x y hx hy => ?_)
    exact h x y (List.mem_cons_of_mem _ hx) (List.mem_cons_of_mem _ hy)

theorem Object.PairedBy.imp (hl : o.PairedBy β o')
    (h : ∀ x y, .obj x ∈ o.contents → .obj y ∈ o'.contents → β x y → γ x y) : o.PairedBy γ o' := by
  cases hl with
  | str s => exact .str s
  | cons ha hb =>
    exact .cons (ha.imp fun x y ex ey => h x y (by simp [contents, ex]) (by simp [contents, ey]))
      (hb.imp fun x y ex ey => h x y (by simp [contents, ex]) (by simp [contents, ey]))
  | struct ty hf => exact .struct ty (Values.PairedBy.imp hf h)
  | cell hv => exact .cell (hv.imp fun x y ex ey => h x y (by simp [contents, ex]) (by simp [contents, ey]))
  | closure hu hc => exact .closure hu (Values.PairedBy.imp hc h)
  | undefined tag trace => exact .undefined tag trace

theorem Object.PairedBy.contents (hl : o.PairedBy β o') : Values.PairedBy β o.contents o'.contents := by
  cases hl with
  | cons ha hb => exact .cons ha (.cons hb .nil)
  | struct _ hf => exact hf
  | cell hv => exact .cons hv .nil
  | closure _ hc => exact hc
  | _ => exact .nil

theorem Value.PairedBy.symm (hl : v.PairedBy β w) : w.PairedBy (flip β) v := by
  cases hl with
  | nil => exact .nil
  | bool b => exact .bool b
  | num x => exact .num x
  | obj hxy => exact .obj hxy

theorem Values.PairedBy.symm (hl : Values.PairedBy β vs ws) : Values.PairedBy (flip β) ws vs := by
  induction hl with
  | nil => exact .nil
  | cons hv _ ih => exact .cons hv.symm ih

theorem Object.PairedBy.symm (hl : o.PairedBy β o') : o'.PairedBy (flip β) o := by
  cases hl with
  | str s => exact .str s
  | cons ha hb => exact .cons ha.symm hb.symm
  | struct ty hf => exact .struct ty (Values.PairedBy.symm hf)
  | cell hv => exact .cell hv.symm
  | closure hu hc => exact .closure hu.symm (Values.PairedBy.symm hc)
  | undefined tag trace => exact .undefined tag trace

@[simp] theorem Value.pairedBy_eq : v.PairedBy Eq w ↔ v = w := by
  constructor
  · intro hl
    cases hl with
    | obj e => rw [e]
    | _ => rfl
  · rintro rfl
    cases v with
    | nil => exact .nil
    | bool b => exact .bool b
    | num x => exact .num x
    | obj x => exact .obj rfl

@[simp] theorem Values.pairedBy_eq : Values.PairedBy Eq vs ws ↔ vs = ws := by
  have e : Value.PairedBy Eq = Eq := by
    funext v w
    exact propext Value.pairedBy_eq
  rw [Values.PairedBy, e, List.forall₂_eq_eq_eq]

/-- An object is the same but for its scope and its weak marks. -/
theorem Object.pairedBy_refl (o : Object) : o.PairedBy Eq o := by
  cases o with
  | str s => exact .str s
  | cons a b => exact .cons (by simp) (by simp)
  | struct ty fields => exact .struct ty (by simp)
  | cell v => exact .cell (by simp)
  | closure k => exact .closure rfl (by simp)
  | undefined tag trace => exact .undefined tag trace

theorem Object.PairedBy.right (hl : o.PairedBy β o') (h : o'.PairedBy Eq o'') : o.PairedBy β o'' := by
  cases h with
  | str => exact hl
  | undefined => exact hl
  | cons ha hb =>
    obtain rfl := Value.pairedBy_eq.mp ha
    obtain rfl := Value.pairedBy_eq.mp hb
    exact hl
  | struct ty hf =>
    obtain rfl := Values.pairedBy_eq.mp hf
    exact hl
  | cell hv =>
    obtain rfl := Value.pairedBy_eq.mp hv
    exact hl
  | closure hu hc =>
    cases hl with
    | closure hu' hc' => exact .closure (hu.trans hu') (Values.pairedBy_eq.mp hc ▸ hc')

theorem Object.PairedBy.left (hl : o.PairedBy β o') (h : o.PairedBy Eq o'') : o''.PairedBy β o' :=
  (hl.symm.right h).symm

theorem Object.PairedBy.contents_eq (h : o.PairedBy Eq o') : o'.contents = o.contents :=
  (Values.pairedBy_eq.mp h.contents).symm

theorem Values.PairedBy.getElem? (hl : Values.PairedBy β vs ws) {i : Nat} (hv : vs[i]? = some v)
    (hw : ws[i]? = some w) : v.PairedBy β w := by
  obtain ⟨hi, rfl⟩ := List.getElem?_eq_some_iff.mp hv
  obtain ⟨hi', rfl⟩ := List.getElem?_eq_some_iff.mp hw
  exact List.Forall₂.get hl hi hi'

end PairedBy

namespace Heap

variable {β β' β'' : ObjId → ObjId → Prop} {S T S' T' E R : Set ObjId} {h h' h₁ h₂ k k' k₁ k₂ : Heap}
  {x y r r' : ObjId} {c c' : Slot} {o o' : Object}

/-! ## What can be reached -/

/-- What is held outside is live, and what live objects hold is, too. -/
structure Closed (E : Set ObjId) (h : Heap) : Prop where
  roots : ∀ {x}, x ∈ E → ∃ c, h.slot? x = some c
  parts : ∀ {x y c}, h.slot? x = some c → .obj y ∈ c.obj.contents → ∃ c', h.slot? y = some c'

theorem Sound.closed {R : Multiset ObjId} (hs : Sound h R []) (hE : ∀ x ∈ E, x ∈ R) : Closed E h where
  roots hx := live_of_mem hs (hE _ hx)
  parts {x y c} hx hy := by
    have hlive : h.Live (.obj y) := by
      obtain ⟨rc, o⟩ := c
      cases o with
      | closure k => exact live_capture hs hx hy
      | str s => cases hy
      | undefined tag trace => cases hy
      | _ => exact live_owned hs hx hy
    exact hlive y rfl

/-- **What can be reached** from what is held outside. -/
inductive Reach (h : Heap) (E : Set ObjId) : ObjId → Prop
  | root {x : ObjId} : x ∈ E → Reach h E x
  | part {x y : ObjId} {c : Slot} : Reach h E x → h.slot? x = some c → .obj y ∈ c.obj.contents → Reach h E y

theorem Reach.live (hc : Closed E h) (hx : Reach h E x) : ∃ c, h.slot? x = some c := by
  cases hx with
  | root hx => exact hc.roots hx
  | part _ hy hp => exact hc.parts hy hp

/-- **What can be reached lasts:** it is live before and after, and holds the same. -/
def Lasting (E : Set ObjId) (h h' : Heap) : Prop :=
  ∀ ⦃x⦄, Reach h E x → ∃ c c', h.slot? x = some c ∧ h'.slot? x = some c' ∧ c.obj.PairedBy Eq c'.obj

theorem Lasting.reach (hl : Lasting E h h') (hx : Reach h E x) : Reach h' E x := by
  induction hx with
  | root hx => exact .root hx
  | part hx hc hp ih =>
    obtain ⟨c, c', hc₀, hc', ho⟩ := hl hx
    cases hc.symm.trans hc₀
    exact .part ih hc' (ho.contents_eq ▸ hp)

theorem Lasting.back (hl : Lasting E h h') (hx : Reach h' E x) : Reach h E x := by
  induction hx with
  | root hx => exact .root hx
  | part _ hc' hp ih =>
    obtain ⟨c, c₁, hc, hc₁, ho⟩ := hl ih
    cases hc'.symm.trans hc₁
    exact .part ih hc (ho.contents_eq ▸ hp)

theorem Lasting.trans (a : Lasting E h h₁) (b : Lasting E h₁ h₂) : Lasting E h h₂ := fun _ hx => by
  obtain ⟨c, c₁, hc, hc₁, ho⟩ := a hx
  obtain ⟨c₁', c₂, hc₁', hc₂, ho'⟩ := b (a.reach hx)
  cases hc₁.symm.trans hc₁'
  exact ⟨c, c₂, hc, hc₂, ho.right ho'⟩

/-! ## Changes to one heap -/

/-- **No new objects:** what is live was live before and held the same. -/
def Wanes (h h' : Heap) : Prop :=
  ∀ ⦃x c'⦄, h'.slot? x = some c' → ∃ c, h.slot? x = some c ∧ c.obj.PairedBy Eq c'.obj

theorem Wanes.trans (a : Wanes h h₁) (b : Wanes h₁ h₂) : Wanes h h₂ := fun _ _ hx => by
  obtain ⟨c₁, hc₁, ho⟩ := b hx
  obtain ⟨c, hc, ho'⟩ := a hc₁
  exact ⟨c, hc, ho'.right ho⟩

theorem wanes_of_back (hback : ∀ {x c'}, h'.slot? x = some c' → ∃ c, h.slot? x = some c ∧ c'.obj = c.obj) :
    Wanes h h' := fun _ _ hx => by
  obtain ⟨c, hc, e⟩ := hback hx
  exact ⟨c, hc, e ▸ Object.pairedBy_refl _⟩

theorem Wanes.refl (h : Heap) : Wanes h h := wanes_of_back fun hx => ⟨_, hx, rfl⟩

theorem SameObjs.wanes (hs : SameObjs h h') : Wanes h h' := fun x c' hx => by
  obtain ⟨rc, o⟩ := c'
  obtain ⟨rc', hx'⟩ := hs.back hx
  exact ⟨_, hx', Object.pairedBy_refl o⟩

theorem SameObjs.closed (hs : SameObjs h h') (hc : Closed E h) : Closed E h' where
  roots hx := by
    obtain ⟨⟨rc, o⟩, hr⟩ := hc.roots hx
    obtain ⟨rc', hr'⟩ := hs.symm.back hr
    exact ⟨_, hr'⟩
  parts {x y c'} hx hy := by
    obtain ⟨rc, o⟩ := c'
    obtain ⟨rc', hx'⟩ := hs.back hx
    obtain ⟨⟨rc₁, o₁⟩, hr⟩ := hc.parts hx' hy
    obtain ⟨rc₂, hr'⟩ := hs.symm.back hr
    exact ⟨_, hr'⟩

theorem Wanes.lasting (hw : Wanes h h') (hc : Closed E h') : Lasting E h h' := fun x hx => by
  suffices ∃ c', h'.slot? x = some c' by
    obtain ⟨c', hc'⟩ := this
    obtain ⟨c, hx', ho⟩ := hw hc'
    exact ⟨c, c', hx', hc', ho⟩
  induction hx with
  | root hx => exact hc.roots hx
  | part _ hx hp ih =>
    obtain ⟨c', hc'⟩ := ih
    obtain ⟨c, hx', ho⟩ := hw hc'
    cases hx.symm.trans hx'
    exact hc.parts hc' (ho.contents_eq ▸ hp)

theorem Gains.closed (hg : Gains h h' r o) (hc : Closed E h) (ho : ∀ y, .obj y ∈ o.contents → ∃ c, h.slot? y = some c) :
    Closed E h' where
  roots hx := (hc.roots hx).imp fun _ hr => hg.kept hr
  parts {x y c'} hx hy := by
    rw [hg.slot] at hx
    split_ifs at hx with e
    · cases hx
      exact (ho y hy).imp fun _ hr => hg.kept hr
    · exact (hc.parts hx hy).imp fun _ hr => hg.kept hr

theorem Gains.lasting (hg : Gains h h' r o) (hc : Closed E h) : Lasting E h h' := fun _ hx => by
  obtain ⟨c, hr⟩ := hx.live hc
  exact ⟨c, c, hr, hg.kept hr, Object.pairedBy_refl _⟩

theorem slot?_put (hr : h.slot? r = some c) (e : h.put r o = .ok h') (x : ObjId) :
    h'.slot? x = if x = r then some { c with obj := o } else h.slot? x := by
  rw [put_eq hr] at e
  obtain rfl := Except.ok.inj e
  exact slot?_setSlot_of hr _ x

theorem lasting_put (hr : h.slot? r = some c) (e : h.put r o = .ok h') (hc : Closed E h) (hn : ¬ Reach h E r) :
    Lasting E h h' := fun x hx => by
  obtain ⟨d, hd⟩ := hx.live hc
  have hne : x ≠ r := fun e => hn (e ▸ hx)
  exact ⟨d, d, hd, by rw [slot?_put hr e, if_neg hne, hd], Object.pairedBy_refl _⟩

/-! ## Paired heaps -/

/-- **Paired heaps:** related objects are live and correspond, and each is related to one object at most. -/
structure Paired (β : ObjId → ObjId → Prop) (h k : Heap) : Prop where
  objs : ∀ {x y}, β x y → ∃ c d, h.slot? x = some c ∧ k.slot? y = some d ∧ c.obj.PairedBy β d.obj
  one : ∀ {x y x' y'}, β x y → β x' y' → (x = x' ↔ y = y')

theorem Paired.symm (hp : Paired β h k) : Paired (flip β) k h where
  objs hxy := by
    obtain ⟨c, d, hc, hd, ho⟩ := hp.objs hxy
    exact ⟨d, c, hd, hc, ho.symm⟩
  one hxy hxy' := (hp.one hxy hxy').symm

theorem Paired.like (hp : Paired β h k) (hxy : β x y) {d : Slot} (hc : h.slot? x = some c)
    (hd : k.slot? y = some d) : c.obj.PairedBy β d.obj := by
  obtain ⟨c', d', hc', hd', ho⟩ := hp.objs hxy
  cases hc.symm.trans hc'
  cases hd.symm.trans hd'
  exact ho

/-- A heap is paired with itself. -/
theorem Closed.paired (hc : Closed E h) : Paired (fun x y => x = y ∧ ∃ c, h.slot? x = some c) h h where
  objs {x y} hxy := by
    obtain ⟨rfl, c, hx⟩ := hxy
    refine ⟨c, c, hx, hx, (Object.pairedBy_refl _).imp fun y z hy _ e => ⟨e, hc.parts hx hy⟩⟩
  one hxy hxy' := by rw [hxy.1, hxy'.1]

/-- **The pairing goes on:** the heaps are paired after a change of both, what stays in both stays related, and
in the first heap what can be reached from `E` lasts. -/
structure Advance (β β' : ObjId → ObjId → Prop) (S T E : Set ObjId) (h h' k k' : Heap) : Prop where
  paired : Paired β' h' k'
  kept : ∀ {x y}, β x y → x ∈ S → y ∈ T → β' x y
  lasting : Lasting E h h'

theorem Advance.trans (a : Advance β β' S T E h h₁ k k₁) (b : Advance β' β'' S T E h₁ h' k₁ k') :
    Advance β β'' S T E h h' k k' :=
  ⟨b.paired, fun hxy hx hy => b.kept (a.kept hxy hx hy) hx hy, a.lasting.trans b.lasting⟩

theorem Advance.mono (a : Advance β β' S T E h h' k k') (hS : S' ⊆ S) (hT : T' ⊆ T) :
    Advance β β' S' T' E h h' k k' :=
  ⟨a.paired, fun hxy hx hy => a.kept hxy (hS hx) (hT hy), a.lasting⟩

/-- The live objects. -/
def alive (h : Heap) : Set ObjId := {x | ∃ c, h.slot? x = some c}

/-- What is freed on either side drops out. -/
theorem Paired.wane (hp : Paired β h k) (hh : Wanes h h') (hk : Wanes k k') (hc : Closed E h') (hd : Closed R k') :
    Advance β (fun x y => β x y ∧ x ∈ alive h' ∧ y ∈ alive k') (alive h') (alive k') E h h' k k' where
  paired :=
    { objs := fun {x y} hxy => by
        obtain ⟨hβ, ⟨c', hc'⟩, ⟨d', hd'⟩⟩ := hxy
        obtain ⟨c, hx, ho⟩ := hh hc'
        obtain ⟨d, hy, ho'⟩ := hk hd'
        refine ⟨c', d', hc', hd', (((hp.like hβ hx hy).left ho).right ho').imp fun x' y' hx' hy' hβ' => ?_⟩
        exact ⟨hβ', hc.parts hc' hx', hd.parts hd' hy'⟩
      one := fun hxy hxy' => hp.one hxy.1 hxy'.1 }
  kept hβ hx hy := ⟨hβ, hx, hy⟩
  lasting := hh.lasting hc

theorem Paired.same (hp : Paired β h k) (hh : SameObjs h h') (hk : SameObjs k k') (hc : Closed E h) :
    Advance β β S T E h h' k k' where
  paired :=
    { objs := fun {x y} hxy => by
        obtain ⟨⟨rc, o⟩, ⟨rc', o'⟩, hx, hy, ho⟩ := hp.objs hxy
        obtain ⟨rc₁, hx₁⟩ := hh.symm.back hx
        obtain ⟨rc₂, hy₁⟩ := hk.symm.back hy
        exact ⟨_, _, hx₁, hy₁, ho⟩
      one := hp.one }
  kept hβ _ _ := hβ
  lasting := hh.wanes.lasting (hh.closed hc)

/-- The same is put in the place of two objects that are related. -/
theorem Paired.put {d : Slot} (hp : Paired β h k) (hβ : β r r') (hr : h.slot? r = some c)
    (hr' : k.slot? r' = some d) (e : h.put r o = .ok h') (e' : k.put r' o' = .ok k') (ho : o.PairedBy β o')
    (hc : Closed E h) (hn : ¬ Reach h E r) : Advance β β S T E h h' k k' where
  paired :=
    { objs := fun {x y} hxy => by
        have hone := hp.one hxy hβ
        by_cases hx : x = r
        · have hy := hone.mp hx
          exact ⟨_, _, by rw [slot?_put hr e, if_pos hx], by rw [slot?_put hr' e', if_pos hy], ho⟩
        · have hy : y ≠ r' := fun hy => hx (hone.mpr hy)
          obtain ⟨c₁, d₁, hc₁, hd₁, hl⟩ := hp.objs hxy
          exact ⟨c₁, d₁, by rw [slot?_put hr e, if_neg hx, hc₁], by rw [slot?_put hr' e', if_neg hy, hd₁], hl⟩
      one := hp.one }
  kept hβ _ _ := hβ
  lasting := lasting_put hr e hc hn

/-! ## What is seen -/

section
variable {v w v' w' : Value} (hp : Paired β h k)
include hp

theorem Paired.get_pairedBy (hβ : β x y) (e : h.get x = .ok o) (e' : k.get y = .ok o') : o.PairedBy β o' := by
  obtain ⟨c, hc, rfl⟩ := get_cases e
  obtain ⟨d, hd, rfl⟩ := get_cases e'
  exact hp.like hβ hc hd

/-- Values that correspond are closures of the same unit, or neither is a closure. -/
theorem Paired.closure?_pairedBy {a b : Option Closure} (hl : v.PairedBy β w) (e : h.closure? v = .ok a)
    (e' : k.closure? w = .ok b) : (a = none ∧ b = none) ∨
      ∃ f g, a = some f ∧ b = some g ∧ g.unit = f.unit ∧ Values.PairedBy β f.caps g.caps := by
  cases hl with
  | obj hβ =>
    obtain ⟨o, ho, e⟩ := bind_ok e
    obtain ⟨o', ho', e'⟩ := bind_ok e'
    cases hp.get_pairedBy hβ ho ho' with
    | closure hu hc =>
      cases e
      cases e'
      exact Or.inr ⟨_, _, rfl, rfl, hu, hc⟩
    | _ =>
      cases e
      cases e'
      exact Or.inl ⟨rfl, rfl⟩
  | _ =>
    cases e
    cases e'
    exact Or.inl ⟨rfl, rfl⟩

end

end Heap

end CountedMachine
