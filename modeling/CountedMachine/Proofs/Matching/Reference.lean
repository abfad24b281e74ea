import CountedMachine.Generation.Matching
import CountedMachine.Machine.Step
import CountedMachine.Proofs.Heap.Effects
import CountedMachine.Proofs.Heap.Operations

/-! # What a pattern asks of a value

A pattern is matched against a `Part` of a value: a value, or the text that is made of the tag of an
error value when it is read. `Pattern.fits` says whether a part matches, `Pattern.bound` which parts
are bound then, in depth-first order, and `Pattern.reads` which fields are read to find out: those of
a part whose type has been tested, up to the first part that does not match.

All of this is about the objects of one heap, and it is the same for a later heap that still has
them (`Heap.Extends`). -/

namespace CountedMachine

open Heap

/-- The type of an object. -/
def Object.type : Object → StaticType
  | .str _ => .str
  | .cons _ _ => .obj .cons
  | .struct id _ => .obj (.struct id)
  | .cell _ => .cell
  | .closure _ => .fn
  | .undefined _ _ => .obj .undefined

/-- The fields of an object that a pattern can name. -/
inductive Part
  | value (v : Value)
  | text (s : String)

/-- The parts of an object, in the order of its fields. -/
def Object.parts : Object → List Part
  | .cons a b => [.value a, .value b]
  | .struct _ fields => fields.map .value
  | .undefined tag _ => [.text tag]
  | _ => []

namespace Heap

/-- The type of a value at run time; a value that points at no object has none. -/
def typeOf (h : Heap) : Value → Option StaticType
  | .nil => some .nil
  | .bool _ => some .bool
  | .num _ => some .num
  | .obj r => (h.slot? r).map (·.obj.type)

/-- Objects hold live values only, and structs have their declared number of fields. -/
structure Proper (types : Array StructType) (h : Heap) : Prop where
  arena : Arena h
  closed : ∀ {r c}, h.slot? r = some c → ∀ v ∈ c.obj.owned, h.Live v
  widths : ∀ {r n ty fields}, h.slot? r = some ⟨n, .struct ty fields⟩ →
    ObjType.width types (.struct ty) = .ok fields.length

end Heap

/-- A field of a value. -/
def Heap.part? (h : Heap) (idx : Nat) : Value → Option Part
  | .obj r => (h.slot? r).bind fun c => c.obj.parts[idx]?
  | _ => none

namespace Part

/-- The type of a part. -/
def type (h : Heap) : Part → Option StaticType
  | .value v => h.typeOf v
  | .text _ => some .str

/-- The object behind a part, if there is one, is live. -/
def Live (h : Heap) : Part → Prop
  | .value v => h.Live v
  | .text _ => True

/-- **A value is the part**: the very value, or a text with the characters. -/
def Is (h : Heap) : Part → Value → Prop
  | .value v, w => w = v
  | .text s, w => ∃ r n, w = .obj r ∧ h.slot? r = some ⟨n, .str s⟩

end Part

section
variable {types : Array StructType} {h h' k k' : Heap} {x y : Part} {v w : Value} {ty : ObjType}
  {n idx : Nat}

/-! ## Later heaps -/

namespace Heap

theorem Extends.live (hk : Extends h k) (hv : h.Live v) : k.Live v := fun r hr => by
  obtain ⟨c, hc⟩ := hv r hr
  obtain ⟨n, hn⟩ := hk r c hc
  exact ⟨_, hn⟩

theorem Extends.typeOf (hk : Extends h k) (hv : h.Live v) : k.typeOf v = h.typeOf v := by
  cases v with
  | obj r =>
    obtain ⟨c, hc⟩ := hv r rfl
    obtain ⟨n, hn⟩ := hk r c hc
    simp [Heap.typeOf, hc, hn]
  | _ => rfl

theorem exists_inc (hv : h.Live v) : ∃ h', h.inc v = .ok h' := by
  cases v with
  | obj r =>
    obtain ⟨c, hc⟩ := hv r rfl
    exact ⟨_, incObj_eq hc⟩
  | _ => exact ⟨h, rfl⟩

theorem isOfType_eq (hv : h.Live v) (ty : ObjType) :
    h.isOfType v ty = .ok (h.typeOf v = some (.obj ty)) := by
  cases v with
  | obj r =>
    obtain ⟨c, hc⟩ := hv r rfl
    rw [isOfType, get_eq hc]
    simp only [Heap.typeOf, hc, Option.map_some, Option.some.injEq]
    cases c.obj <;> simp [Object.type, bind, Except.bind, pure, Except.pure, eq_comm]
  | _ => simp [isOfType, Heap.typeOf]

end Heap

namespace Part

theorem Is.keeps (hk : Extends h k) (hx : x.Is h v) : x.Is k v := by
  cases x with
  | value w => exact hx
  | text s =>
    obtain ⟨r, n, rfl, hr⟩ := hx
    obtain ⟨n', hr'⟩ := hk r _ hr
    exact ⟨r, n', rfl, hr'⟩

/-- A value that is a live part is live and of its type. -/
theorem Is.live (hk : Extends h k) (hl : x.Live h) (hx : x.Is k v) : k.Live v := by
  cases x with
  | value w =>
    obtain rfl : v = w := hx
    exact Heap.Extends.live hk hl
  | text s =>
    obtain ⟨r, n, rfl, hr⟩ := hx
    rintro _ ⟨⟩
    exact ⟨_, hr⟩

theorem Is.typeOf (hk : Extends h k) (hl : x.Live h) (hx : x.Is k v) : k.typeOf v = x.type h := by
  cases x with
  | value w =>
    obtain rfl : v = w := hx
    exact hk.typeOf hl
  | text s =>
    obtain ⟨r, n, rfl, hr⟩ := hx
    simp [Heap.typeOf, hr, Object.type, type]

end Part

/-! ## Fields -/

theorem exists_slot_of_type (hv : h.typeOf v = some (.obj ty)) :
    ∃ r c, v = .obj r ∧ h.slot? r = some c ∧ c.obj.type = .obj ty := by
  cases v with
  | obj r =>
    obtain ⟨c, hc, ht⟩ := Option.map_eq_some_iff.mp (show (h.slot? r).map _ = _ from hv)
    exact ⟨r, c, rfl, hc, ht⟩
  | _ => cases hv

/-- **Reading a field of a value of a known type.** -/
theorem Heap.Proper.exists_part (hp : h.Proper types) (hk : Extends h k) (ha : k.Arena)
    (hv : h.typeOf v = some (.obj ty)) (hn : ty.width types = .ok n) (hidx : idx < n) :
    ∃ y k' w, h.part? idx v = some y ∧ y.Live h ∧ k.field v idx = .ok (k', w) ∧ y.Is k' w ∧
      Extends k k' ∧ k'.Arena ∧ (ty = .undefined → y.type h = some .str) := by
  obtain ⟨r, c, rfl, hc, ht⟩ := exists_slot_of_type hv
  obtain ⟨m, hm⟩ := hk r c hc
  have hpart : h.part? idx (.obj r) = c.obj.parts[idx]? := by simp [part?, hc]
  have hclosed := hp.closed hc
  have hsame : ∀ w, h.Live w → k.field (.obj r) idx = .ok (k, w) → c.obj.parts[idx]? = some (.value w) →
      ty ≠ .undefined → ∃ y k' w, h.part? idx (.obj r) = some y ∧ y.Live h ∧
        k.field (.obj r) idx = .ok (k', w) ∧ y.Is k' w ∧ Extends k k' ∧ k'.Arena ∧
          (ty = .undefined → y.type h = some .str) := fun w hw e he hne =>
    ⟨.value w, k, w, hpart.trans he, hw, e, rfl, Extends.refl k, ha, fun e => absurd e hne⟩
  cases hobj : c.obj with
  | cons a b =>
    rw [hobj] at ht hclosed
    obtain rfl : ObjType.cons = ty := by simpa [Object.type] using ht
    obtain rfl : 2 = n := by simpa [ObjType.width] using hn
    obtain rfl | rfl : idx = 0 ∨ idx = 1 := by omega
    · have hget : k.field (.obj r) 0 = .ok (k, a) := by
        rw [Heap.field, get_eq hm, hobj]
        rfl
      exact hsame a (hclosed a (by simp [Object.owned])) hget (by simp [hobj, Object.parts]) (by simp)
    · have hget : k.field (.obj r) 1 = .ok (k, b) := by
        rw [Heap.field, get_eq hm, hobj]
        rfl
      exact hsame b (hclosed b (by simp [Object.owned])) hget (by simp [hobj, Object.parts]) (by simp)
  | struct id fields =>
    rw [hobj] at ht hclosed
    obtain rfl : ObjType.struct id = ty := by simpa [Object.type] using ht
    have hlen : n = fields.length := by
      have hslot : h.slot? r = some ⟨c.rc, .struct id fields⟩ := by rw [hc, ← hobj]
      exact Except.ok.inj (hn.symm.trans (hp.widths hslot))
    have hlt : idx < fields.length := hlen ▸ hidx
    have hget : k.field (.obj r) idx = .ok (k, fields[idx]) := by
      rw [Heap.field, get_eq hm, hobj]
      simp [bind, Except.bind, hlt]
      rfl
    exact hsame fields[idx] (hclosed _ (by simp [Object.owned])) hget
      (by simp [hobj, Object.parts, hlt]) (by simp)
  | undefined tag trace =>
    rw [hobj] at ht
    obtain rfl : ObjType.undefined = ty := by simpa [Object.type] using ht
    obtain rfl : 1 = n := by simpa [ObjType.width] using hn
    obtain rfl : idx = 0 := by omega
    obtain ⟨q, hq, hval, hslot, -, -, ha'⟩ := allocate_spec ha (.str tag)
    refine ⟨.text tag, (k.allocate (.str tag)).1, .obj q, ?_, trivial, ?_, ⟨q, 0, rfl, ?_⟩,
      extends_allocate ha _, ha', fun _ => rfl⟩
    · rw [hpart, hobj]
      rfl
    · rw [Heap.field, get_eq hm, hobj]
      exact congrArg Except.ok (Prod.ext rfl hval)
    · rw [hslot, if_pos rfl]
  | str s => rw [hobj] at ht; cases ht
  | cell v => rw [hobj] at ht; cases ht
  | closure k => rw [hobj] at ht; cases ht

end

/-! ## Patterns -/

/-- A field that is read: of which value, taken to be of which type. -/
structure Read where
  object : Value
  type : ObjType
  idx : Nat

namespace Pattern

mutual

/-- **The part matches the pattern**: it is of the type that is asked for, and each field that is
named matches its own pattern. -/
def fits (h : Heap) (x : Part) : Pattern → Bool
  | .bind => true
  | .ignore => true
  | .unpack ty fields =>
    match x with
    | .value v => h.typeOf v = some (.obj ty) && fitsFields h v fields
    | .text _ => false

def fitsFields (h : Heap) (v : Value) : List (Nat × Pattern) → Bool
  | [] => true
  | (idx, p) :: rest =>
    (match h.part? idx v with
      | some y => fits h y p
      | none => false) && fitsFields h v rest

end

mutual

/-- **The parts that a pattern binds**, in depth-first order. -/
def bound (h : Heap) (x : Part) : Pattern → List Part
  | .bind => [x]
  | .ignore => []
  | .unpack _ fields =>
    match x with
    | .value v => boundFields h v fields
    | .text _ => []

def boundFields (h : Heap) (v : Value) : List (Nat × Pattern) → List Part
  | [] => []
  | (idx, p) :: rest =>
    (match h.part? idx v with
      | some y => bound h y p
      | none => []) ++ boundFields h v rest

end

mutual

/-- **The fields that are read to match a part**: none of a value that is not of the type asked for,
and none after the first part that does not match. What is ignored is not read. -/
def reads (h : Heap) (x : Part) : Pattern → List Read
  | .bind => []
  | .ignore => []
  | .unpack ty fields =>
    match x with
    | .value v => if h.typeOf v = some (.obj ty) then readsFields h v ty fields else []
    | .text _ => []

def readsFields (h : Heap) (v : Value) (ty : ObjType) : List (Nat × Pattern) → List Read
  | [] => []
  | (idx, p) :: rest =>
    match h.part? idx v with
    | some y =>
      (if p.isIgnore then [] else ⟨v, ty, idx⟩ :: reads h y p) ++
        if fits h y p then readsFields h v ty rest else []
    | none => []

end

variable {h : Heap} {x : Part} {types : Array StructType}

mutual

/-- **A field is read of a value of the type that its level of the pattern names.** -/
theorem typeOf_of_reads : ∀ (p : Pattern) (x : Part), ∀ r ∈ p.reads h x, h.typeOf r.object = some (.obj r.type)
  | .bind, _, r, hr => by cases hr
  | .ignore, _, r, hr => by cases hr
  | .unpack ty fields, .text _, r, hr => by cases hr
  | .unpack ty fields, .value v, r, hr => by
    rw [reads] at hr
    split at hr
    · next hv => exact typeOf_of_readsFields hv fields r hr
    · cases hr

theorem typeOf_of_readsFields {v : Value} {ty : ObjType} (hv : h.typeOf v = some (.obj ty)) :
    ∀ fields : List (Nat × Pattern), ∀ r ∈ readsFields h v ty fields, h.typeOf r.object = some (.obj r.type)
  | [], r, hr => by cases hr
  | (idx, p) :: rest, r, hr => by
    rw [readsFields] at hr
    split at hr
    · next y _ =>
      obtain hr | hr := List.mem_append.mp hr
      · split at hr
        · cases hr
        · obtain rfl | hr := List.mem_cons.mp hr
          · exact hv
          · exact typeOf_of_reads p y r hr
      · split at hr
        · exact typeOf_of_readsFields hv rest r hr
        · cases hr
    · cases hr

end

theorem fits_of_depth {p : Pattern} (hp : p.depth = 0) : p.fits h x = true := by
  cases p with
  | bind => rfl
  | ignore => rfl
  | unpack ty fields => simp [depth] at hp

theorem depthFields_eq_zero {fields : List (Nat × Pattern)} :
    depthFields fields = 0 ↔ ∀ f ∈ fields, f.2.depth = 0 := by
  induction fields with
  | nil => simp [depthFields]
  | cons f rest ih =>
    obtain ⟨idx, p⟩ := f
    simp [depthFields, ih]

/-- Fields that ask nothing match, if they are fields of the type. -/
theorem fitsFields_of_depth (hh : h.Proper types) {v : Value} {ty : ObjType} {n : Nat}
    (hv : h.typeOf v = some (.obj ty)) (hn : ty.width types = .ok n) :
    ∀ {fields : List (Nat × Pattern)}, (∀ f ∈ fields, f.1 < n) → (∀ f ∈ fields, f.2.depth = 0) →
      fitsFields h v fields = true
  | [], _, _ => by simp [fitsFields]
  | (idx, p) :: rest, hwidth, hdepth => by
    obtain ⟨y, -, -, hy, -⟩ := hh.exists_part (Extends.refl h) hh.arena hv hn (hwidth (idx, p) (.head _))
    have hrest := fitsFields_of_depth hh hv hn (fun f hf => hwidth f (.tail _ hf))
      fun f hf => hdepth f (.tail _ hf)
    rw [fitsFields, hy, hrest, Bool.and_true]
    exact fits_of_depth (hdepth (idx, p) (.head _))

end Pattern

end CountedMachine
