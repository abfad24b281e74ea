import CountedMachine.Expr.Decode
import Mathlib

/-! # Modules survive being written and read

A module is written as JSON with every field present, and read with defaults for fields that are absent.
The two agree: a module whose numbers fit their words is read back as it was written
(`Expr.ofJsonWithin?_toJson`), and what has been read always fits (`Expr.fits_of_ofJsonWithin?`), so that
writing and reading it again changes nothing.

Both directions are inductions on the nesting that the reader allows; a node's parts are written less
deeply nested than the node, so that one lemma per kind of node is all there is to say. -/

namespace CountedMachine

/-! ## Numbers that fit -/

/-- The identity of a struct type is a 32-bit word. -/
def ObjType.Fits : ObjType → Prop
  | .struct id => id < 0x100000000
  | _ => True

/-- The line of a place is a 32-bit word. -/
def Location.Fits (l : Location) : Prop := l.line < 0x100000000

namespace Pattern

mutual

/-- The positions of a pattern are 64-bit words, and its types fit. -/
def Fits : Pattern → Prop
  | .bind => True
  | .ignore => True
  | .unpack ty fields => ty.Fits ∧ FieldsFit fields

/-- The positions and patterns of all fields fit. -/
def FieldsFit : List (Nat × Pattern) → Prop
  | [] => True
  | (offset, p) :: rest => offset < 0x10000000000000000 ∧ Fits p ∧ FieldsFit rest

end

end Pattern

namespace Expr

mutual

/-- **The numbers in an expression fit their words:** 64 bits for offsets and arities, 32 bits for
struct types and lines. -/
def Fits : Expr → Prop
  | .lit _ => True
  | .var offset _ => offset < 0x10000000000000000
  | .apply callee args _ loc => Fits callee ∧ ListFits args ∧ ∀ l ∈ loc, l.Fits
  | .operate _ lhs rhs => Fits lhs ∧ Fits rhs
  | .fn ⟨arity, captures, body, _⟩ =>
    arity < 0x10000000000000000 ∧ (∀ n ∈ captures, n < 0x10000000000000000) ∧ Fits body
  | .letIn binds body => BindsFit binds ∧ OptionFits body
  | .fix fns body => ListFits fns ∧ OptionFits body
  | .ite test yes no => Fits test ∧ Fits yes ∧ Fits no
  | .matchWith pattern value yes no => pattern.Fits ∧ Fits value ∧ Fits yes ∧ OptionFits no
  | .block exprs _ => ListFits exprs
  | .ret value => Fits value
  | .assign offset value => offset < 0x10000000000000000 ∧ Fits value
  | .yield value => Fits value
  | .struct ty fields => ty < 0x100000000 ∧ ListFits fields

/-- All expressions fit. -/
def ListFits : List Expr → Prop
  | [] => True
  | e :: rest => Fits e ∧ ListFits rest

/-- All bindings fit. -/
def BindsFit : List (Binding Expr) → Prop
  | [] => True
  | ⟨value, _⟩ :: rest => Fits value ∧ BindsFit rest

/-- The expression fits, if there is one. -/
def OptionFits : Option Expr → Prop
  | none => True
  | some e => Fits e

end

end Expr

/-- **The numbers in a module fit their words.** -/
def SourceModule.Fits (m : SourceModule) : Prop := m.body.Fits

/-! ## Small values -/

namespace Json

@[simp] theorem asWord32?_ofNat {n : Nat} (h : n < 0x100000000) : (ofNat n).asWord32? = some n := by
  simp [ofNat, asWord32?, asNatBelow?, h]

@[simp] theorem asWord64?_ofNat {n : Nat} (h : n < 0x10000000000000000) :
    (ofNat n).asWord64? = some n := by
  simp [ofNat, asWord64?, asNatBelow?, h]

theorem lt_of_asNatBelow? {bound n : Nat} {v : Json} (h : v.asNatBelow? bound = some n) :
    n < bound := by
  unfold asNatBelow? at h
  split at h
  · split_ifs at h with hlt
    cases h
    exact hlt
  · cases h

/-- A list is read back when its items are. -/
theorem asListOf?_map {α : Type} {f : Json → Option α} {g : α → Json} {xs : List α}
    (h : ∀ x ∈ xs, f (g x) = some x) : asListOf? f (.array (xs.map g)) = some xs := by
  show (xs.map g).mapM f = some xs
  induction xs with
  | nil => rfl
  | cons x xs ih =>
    rw [List.map_cons, List.mapM_cons, h x (by simp), ih fun y hy => h y (by simp [hy])]
    rfl

/-- What has been read of a list has been read item by item. -/
theorem exists_of_asListOf? {α : Type} {f : Json → Option α} {v : Json} {xs : List α}
    (h : asListOf? f v = some xs) : ∀ x ∈ xs, ∃ w, f w = some x := by
  cases v with
  | array items =>
    replace h : items.mapM f = some xs := h
    induction items generalizing xs with
    | nil =>
      cases h
      simp
    | cons w items ih =>
      rw [List.mapM_cons] at h
      obtain ⟨y, hy, h⟩ := Option.bind_eq_some_iff.mp h
      obtain ⟨ys, hys, h⟩ := Option.bind_eq_some_iff.mp h
      cases h
      intro x hx
      rcases List.mem_cons.mp hx with rfl | hx
      · exact ⟨w, hy⟩
      · exact ih hys x hx
  | _ => cases h

/-- An optional part that is there has been read from something. -/
theorem exists_of_nullable {α : Type} {f : Json → Option α} {ps : List (String × Json)} {key : String}
    {x : α} (h : defaulted ps key none (nullable f) = some (some x)) : ∃ w, f w = some x := by
  unfold defaulted at h
  split at h
  · cases h
  · unfold nullable at h
    split at h
    · cases h
    · obtain ⟨y, hy, h⟩ := Option.map_eq_some_iff.mp h
      cases h
      exact ⟨_, hy⟩
  · cases h

theorem depth_le_depthItems {v : Json} : ∀ {items : List Json}, v ∈ items → v.depth ≤ depthItems items
  | w :: rest, h => by
    rw [depthItems]
    rcases List.mem_cons.mp h with rfl | h
    · exact le_max_left ..
    · exact (depth_le_depthItems h).trans (le_max_right ..)

end Json

theorem Operator.ofName?_name (op : Operator) : Operator.ofName? op.name = some op := by
  cases op <;> decide

theorem ObjType.ofJson?_toJson {ty : ObjType} (h : ty.Fits) : ObjType.ofJson? ty.toJson = some ty := by
  cases ty with
  | cons => rfl
  | undefined => rfl
  | struct id =>
    have h : id < 0x100000000 := h
    simp [ObjType.toJson, ObjType.ofJson?, Json.tagged, Json.asNode?, h]

theorem Literal.ofJson?_toJson (c : Literal) : Literal.ofJson? c.toJson = some c := by
  cases c <;> rfl

theorem Location.ofJson?_toJson {l : Location} (h : l.Fits) :
    Location.ofJson? (Location.toJson (some l)) = some l := by
  have h : l.line < 0x100000000 := h
  simp [Location.toJson, Location.ofJson?, Json.asFields?, Json.required, Json.named, Json.asText?, h]

theorem Location.fits_of_ofJson? {v : Json} {l : Location} (h : Location.ofJson? v = some l) :
    l.Fits := by
  simp only [Location.ofJson?, Option.bind_eq_bind, Option.bind_eq_some_iff] at h
  obtain ⟨ps, -, _, -, file, -, w, -, line, hline, h⟩ := h
  cases h
  exact Json.lt_of_asNatBelow? hline

theorem ObjType.fits_of_ofJson? {v : Json} {ty : ObjType} (h : ObjType.ofJson? v = some ty) :
    ty.Fits := by
  unfold ObjType.ofJson? at h
  split at h
  · obtain ⟨id, hid, rfl⟩ := Option.map_eq_some_iff.mp h
    exact Json.lt_of_asNatBelow? hid
  · split at h
    · cases h
      trivial
    · cases h
      trivial
    · cases h

/-! ## Patterns -/

namespace Pattern

theorem fieldsToJson_eq : ∀ fields : List (Nat × Pattern),
    fieldsToJson fields = fields.map fun p => .array [.ofNat p.1, toJson p.2]
  | [] => rfl
  | (offset, p) :: rest => by rw [fieldsToJson, fieldsToJson_eq rest]; rfl

theorem fieldsFit_iff : ∀ fields : List (Nat × Pattern),
    FieldsFit fields ↔ ∀ p ∈ fields, p.1 < 0x10000000000000000 ∧ p.2.Fits
  | [] => by simp [FieldsFit]
  | (offset, p) :: rest => by simp [FieldsFit, fieldsFit_iff rest, and_assoc]

/-- **A pattern is read back as it was written.** -/
theorem ofJsonWithin?_toJson : ∀ {n : Nat} {p : Pattern}, p.toJson.depth < n → p.Fits →
    ofJsonWithin? n p.toJson = some p
  | n + 1, .bind, _, _ => rfl
  | n + 1, .ignore, _, _ => rfl
  | n + 1, .unpack ty fields, hd, hf => by
    obtain ⟨hty, hfields⟩ := hf
    rw [fieldsFit_iff] at hfields
    have hread : Json.asListOf? (fieldOfJson? (ofJsonWithin? n)) (.array (fieldsToJson fields)) =
        some fields := by
      rw [fieldsToJson_eq]
      refine Json.asListOf?_map fun q hq => ?_
      have hdepth := Json.depth_le_depthItems (fieldsToJson_eq fields ▸
        List.mem_map_of_mem (f := fun q : Nat × Pattern => Json.array [.ofNat q.1, toJson q.2]) hq)
      simp only [toJson, Json.tagged, Json.depth, Json.depthMembers, Json.depthItems] at hd hdepth
      obtain ⟨ho, hp⟩ := hfields q hq
      simp [fieldOfJson?, ho, ofJsonWithin?_toJson (n := n) (by omega) hp]
    simp [ofJsonWithin?, nodeOfJson?, toJson, Json.tagged, Json.asNode?, Json.asFields?, Json.required,
      Json.named, ObjType.ofJson?_toJson hty, hread]

theorem ofJson?_toJson {p : Pattern} (h : p.Fits) : Pattern.ofJson? p.toJson = some p :=
  ofJsonWithin?_toJson (Nat.lt_succ_self _) h

/-- **What has been read as a pattern fits.** -/
theorem fits_of_ofJsonWithin? : ∀ {n : Nat} {v : Json} {p : Pattern}, ofJsonWithin? n v = some p →
    p.Fits
  | n + 1, v, p, h => by
    simp only [ofJsonWithin?, nodeOfJson?] at h
    split at h
    · simp only [Option.bind_eq_bind, Option.bind_eq_some_iff] at h
      obtain ⟨ps, -, t, -, ty, hty, fs, -, fields, hfields, h⟩ := h
      cases h
      refine ⟨ObjType.fits_of_ofJson? hty, (fieldsFit_iff fields).mpr fun q hq => ?_⟩
      obtain ⟨w, hw⟩ := Json.exists_of_asListOf? hfields q hq
      unfold fieldOfJson? at hw
      split at hw
      · simp only [Option.bind_eq_bind, Option.bind_eq_some_iff] at hw
        obtain ⟨offset, ho, p', hp', hw⟩ := hw
        cases hw
        exact ⟨Json.lt_of_asNatBelow? ho, fits_of_ofJsonWithin? hp'⟩
      · cases hw
    · split at h
      · cases h
        trivial
      · cases h
        trivial
      · cases h

end Pattern

/-! ## Expressions -/

namespace Expr

theorem listToJson_eq : ∀ es : List Expr, listToJson es = es.map toJson
  | [] => rfl
  | e :: rest => by rw [listToJson, listToJson_eq rest]; rfl

theorem bindsToJson_eq : ∀ bs : List (Binding Expr), bindsToJson bs =
    bs.map fun b => .object [("value", toJson b.value), ("mutable", .bool b.mutable)]
  | [] => rfl
  | ⟨value, mutable⟩ :: rest => by rw [bindsToJson, bindsToJson_eq rest]; rfl

theorem listFits_iff : ∀ es : List Expr, ListFits es ↔ ∀ e ∈ es, e.Fits
  | [] => by simp [ListFits]
  | e :: rest => by simp [ListFits, listFits_iff rest]

theorem bindsFit_iff : ∀ bs : List (Binding Expr), BindsFit bs ↔ ∀ b ∈ bs, b.value.Fits
  | [] => by simp [BindsFit]
  | ⟨value, mutable⟩ :: rest => by simp [BindsFit, bindsFit_iff rest]

theorem optionFits_iff (o : Option Expr) : OptionFits o ↔ ∀ e ∈ o, e.Fits := by
  cases o <;> simp [OptionFits]

section Written

variable {sub : Json → Option Expr} {n : Nat}
  (hsub : ∀ {e : Expr}, e.toJson.depth < n → e.Fits → sub e.toJson = some e)

include hsub

theorem asListOf?_listToJson (es : List Expr) (hd : Json.depthItems (listToJson es) < n)
    (hf : ListFits es) : Json.asListOf? sub (.array (listToJson es)) = some es := by
  rw [listToJson_eq] at hd ⊢
  rw [listFits_iff] at hf
  refine Json.asListOf?_map fun e he => hsub ?_ (hf e he)
  exact (Json.depth_le_depthItems (List.mem_map_of_mem he)).trans_lt hd

theorem asListOf?_bindsToJson (bs : List (Binding Expr)) (hd : Json.depthItems (bindsToJson bs) < n)
    (hf : BindsFit bs) :
    Json.asListOf? (bindingOfJson? sub) (.array (bindsToJson bs)) = some bs := by
  rw [bindsToJson_eq] at hd ⊢
  rw [bindsFit_iff] at hf
  refine Json.asListOf?_map fun b hb => ?_
  have hdepth := Json.depth_le_depthItems (List.mem_map_of_mem (f := fun b : Binding Expr =>
    Json.object [("value", toJson b.value), ("mutable", .bool b.mutable)]) hb)
  simp only [Json.depth, Json.depthMembers] at hdepth
  simp [bindingOfJson?, Json.asFields?, Json.required, Json.defaulted, Json.named, Json.asBool?,
    hsub (e := b.value) (by omega) (hf b hb)]

theorem nullable_optionToJson (o : Option Expr) (hd : (optionToJson o).depth < n)
    (hf : OptionFits o) : Json.nullable sub (optionToJson o) = some o := by
  cases o with
  | none => rfl
  | some e =>
    have hread := hsub hd hf
    show Json.nullable sub (toJson e) = some (some e)
    unfold Json.nullable
    split
    · cases e <;> simp_all [toJson, Json.tagged]
    · rw [hread]
      rfl

/-- **A node is read back as it was written** when its parts are. -/
theorem nodeOfJson?_toJson {e : Expr} (hd : e.toJson.depth < n + 1) (hf : e.Fits) :
    nodeOfJson? sub e.toJson = some e := by
  have hlist := asListOf?_listToJson hsub
  have hbinds := asListOf?_bindsToJson hsub
  have hoption := nullable_optionToJson hsub
  cases e with
  | lit c => simp [toJson, nodeOfJson?, Json.tagged, Literal.ofJson?_toJson]
  | var offset mutable =>
    have hf : offset < 0x10000000000000000 := hf
    simp [toJson, nodeOfJson?, fieldsOfJson?, Json.tagged, Json.asFields?, Json.required, Json.defaulted,
      Json.named, Json.asBool?, hf]
  | apply callee args guard loc =>
    obtain ⟨hcallee, hargs, hloc⟩ := hf
    simp only [toJson, Json.tagged, Json.depth, Json.depthMembers] at hd
    have hplace : Json.nullable Location.ofJson? (Location.toJson loc) = some loc := by
      cases loc with
      | none => rfl
      | some l => exact congrArg (Option.map some) (Location.ofJson?_toJson (hloc l rfl))
    simp [toJson, nodeOfJson?, fieldsOfJson?, Json.tagged, Json.asFields?, Json.required, Json.defaulted,
      Json.named, Json.asBool?, hsub (e := callee) (by omega) hcallee, hlist args (by omega) hargs,
      hplace]
  | operate op lhs rhs =>
    obtain ⟨hl, hr⟩ := hf
    simp only [toJson, Json.tagged, Json.depth, Json.depthMembers] at hd
    simp [toJson, nodeOfJson?, fieldsOfJson?, Json.tagged, Json.asFields?, Json.required, Json.asName?,
      Json.asNode?, Json.named, Operator.ofName?_name, hsub (e := lhs) (by omega) hl,
      hsub (e := rhs) (by omega) hr]
  | fn lambda =>
    obtain ⟨arity, captures, body, name⟩ := lambda
    obtain ⟨harity, hcaptures, hbody⟩ := hf
    simp only [toJson, Json.tagged, Json.depth, Json.depthMembers] at hd
    have hcaps : Json.asListOf? Json.asWord64? (.array (captures.map .ofNat)) = some captures :=
      Json.asListOf?_map fun k hk => Json.asWord64?_ofNat (hcaptures k hk)
    have hname : Json.nullable Json.asText? (.ofTextOption name) = some name := by cases name <;> rfl
    simp [toJson, nodeOfJson?, lambdaOfJson?, Json.tagged, Json.asFields?, Json.required, Json.defaulted,
      Json.named, harity, hcaps, hname, hsub (e := body) (by omega) hbody]
  | letIn binds body =>
    obtain ⟨hbs, hbody⟩ := hf
    simp only [toJson, Json.tagged, Json.depth, Json.depthMembers] at hd
    simp [toJson, nodeOfJson?, fieldsOfJson?, Json.tagged, Json.asFields?, Json.required, Json.defaulted,
      Json.named, hbinds binds (by omega) hbs, hoption body (by omega) hbody]
  | fix fns body =>
    obtain ⟨hfns, hbody⟩ := hf
    simp only [toJson, Json.tagged, Json.depth, Json.depthMembers] at hd
    simp [toJson, nodeOfJson?, fieldsOfJson?, Json.tagged, Json.asFields?, Json.required, Json.defaulted,
      Json.named, hlist fns (by omega) hfns, hoption body (by omega) hbody]
  | ite test yes no =>
    obtain ⟨htest, hyes, hno⟩ := hf
    simp only [toJson, Json.tagged, Json.depth, Json.depthMembers] at hd
    simp [toJson, nodeOfJson?, fieldsOfJson?, Json.tagged, Json.asFields?, Json.required, Json.named,
      hsub (e := test) (by omega) htest, hsub (e := yes) (by omega) hyes, hsub (e := no) (by omega) hno]
  | matchWith pattern value yes no =>
    obtain ⟨hpattern, hvalue, hyes, hno⟩ := hf
    simp only [toJson, Json.tagged, Json.depth, Json.depthMembers] at hd
    simp [toJson, nodeOfJson?, fieldsOfJson?, Json.tagged, Json.asFields?, Json.required, Json.defaulted,
      Json.named, Pattern.ofJson?_toJson hpattern, hsub (e := value) (by omega) hvalue,
      hsub (e := yes) (by omega) hyes, hoption no (by omega) hno]
  | block exprs keep =>
    simp only [toJson, Json.tagged, Json.depth, Json.depthMembers] at hd
    simp [toJson, nodeOfJson?, fieldsOfJson?, Json.tagged, Json.asFields?, Json.required, Json.defaulted,
      Json.named, Json.asBool?, hlist exprs (by omega) hf]
  | ret value =>
    simp only [toJson, Json.tagged, Json.depth, Json.depthMembers] at hd
    simp [toJson, nodeOfJson?, Json.tagged, hsub (e := value) (by omega) hf]
  | assign offset value =>
    obtain ⟨hoffset, hvalue⟩ := hf
    simp only [toJson, Json.tagged, Json.depth, Json.depthMembers] at hd
    simp [toJson, nodeOfJson?, fieldsOfJson?, Json.tagged, Json.asFields?, Json.required, Json.named,
      hoffset, hsub (e := value) (by omega) hvalue]
  | yield value =>
    simp only [toJson, Json.tagged, Json.depth, Json.depthMembers] at hd
    simp [toJson, nodeOfJson?, Json.tagged, hsub (e := value) (by omega) hf]
  | struct ty fields =>
    obtain ⟨hty, hfields⟩ := hf
    simp only [toJson, Json.tagged, Json.depth, Json.depthMembers] at hd
    simp [toJson, nodeOfJson?, fieldsOfJson?, Json.tagged, Json.asFields?, Json.required, Json.named,
      hty, hlist fields (by omega) hfields]

end Written

/-- **An expression is read back as it was written.** -/
theorem ofJsonWithin?_toJson : ∀ {n : Nat} {e : Expr}, e.toJson.depth < n → e.Fits →
    ofJsonWithin? n e.toJson = some e
  | _ + 1, _, hd, hf => nodeOfJson?_toJson ofJsonWithin?_toJson hd hf

section Read

variable {sub : Json → Option Expr} (hsub : ∀ {v : Json} {e : Expr}, sub v = some e → e.Fits)

include hsub

theorem listFits_of_read {v : Json} {es : List Expr} (h : Json.asListOf? sub v = some es) :
    ListFits es := by
  refine (listFits_iff es).mpr fun e he => ?_
  obtain ⟨w, hw⟩ := Json.exists_of_asListOf? h e he
  exact hsub hw

theorem bindsFit_of_read {v : Json} {bs : List (Binding Expr)}
    (h : Json.asListOf? (bindingOfJson? sub) v = some bs) : BindsFit bs := by
  refine (bindsFit_iff bs).mpr fun b hb => ?_
  obtain ⟨w, hw⟩ := Json.exists_of_asListOf? h b hb
  simp only [bindingOfJson?, Option.bind_eq_bind, Option.bind_eq_some_iff] at hw
  obtain ⟨ps, -, _, -, value, hvalue, mutable, -, hw⟩ := hw
  cases hw
  exact hsub hvalue

/-- An optional part fits, whether it was given, `null` or absent. -/
theorem optionFits_of_read {ps : List (String × Json)} {key : String} {o : Option Expr}
    (h : Json.defaulted ps key none (Json.nullable sub) = some o) : OptionFits o := by
  refine (optionFits_iff o).mpr fun e he => ?_
  obtain rfl : o = some e := he
  obtain ⟨w, hw⟩ := Json.exists_of_nullable h
  exact hsub hw

theorem fits_of_lambdaOfJson? {v : Json} {lambda : Lambda Expr}
    (h : lambdaOfJson? sub v = some lambda) : (Expr.fn lambda).Fits := by
  simp only [lambdaOfJson?, Option.bind_eq_bind, Option.bind_eq_some_iff] at h
  obtain ⟨ps, -, _, -, arity, harity, captures, hcaptures, _, -, body, hbody, name, -, h⟩ := h
  cases h
  refine ⟨Json.lt_of_asNatBelow? harity, fun k hk => ?_, hsub hbody⟩
  unfold Json.defaulted at hcaptures
  split at hcaptures
  · cases hcaptures
    cases hk
  · obtain ⟨w, hw⟩ := Json.exists_of_asListOf? hcaptures k hk
    exact Json.lt_of_asNatBelow? hw
  · cases hcaptures

theorem fits_of_fieldsOfJson? {name : String} {ps : List (String × Json)} {e : Expr}
    (h : fieldsOfJson? sub name ps = some e) : e.Fits := by
  unfold fieldsOfJson? at h
  -- one case for each name, in the order in which they are looked for
  split at h <;> simp only [Option.bind_eq_bind, Option.bind_eq_some_iff, reduceCtorEq] at h
  case h_1 =>
    obtain ⟨_, -, offset, hoffset, mutable, -, h⟩ := h
    cases h
    exact Json.lt_of_asNatBelow? hoffset
  case h_2 =>
    obtain ⟨_, -, callee, hcallee, _, -, args, hargs, guard, -, loc, hloc, h⟩ := h
    cases h
    refine ⟨hsub hcallee, listFits_of_read hsub hargs, fun l hl => ?_⟩
    obtain rfl : loc = some l := hl
    obtain ⟨w, hw⟩ := Json.exists_of_nullable hloc
    exact Location.fits_of_ofJson? hw
  case h_3 =>
    obtain ⟨_, -, _, -, op, -, _, -, lhs, hlhs, _, -, rhs, hrhs, h⟩ := h
    cases h
    exact ⟨hsub hlhs, hsub hrhs⟩
  case h_4 =>
    obtain ⟨_, -, binds, hbinds, body, hbody, h⟩ := h
    cases h
    exact ⟨bindsFit_of_read hsub hbinds, optionFits_of_read hsub hbody⟩
  case h_5 =>
    obtain ⟨_, -, fns, hfns, body, hbody, h⟩ := h
    cases h
    exact ⟨listFits_of_read hsub hfns, optionFits_of_read hsub hbody⟩
  case h_6 =>
    obtain ⟨_, -, test, htest, _, -, yes, hyes, _, -, no, hno, h⟩ := h
    cases h
    exact ⟨hsub htest, hsub hyes, hsub hno⟩
  case h_7 =>
    obtain ⟨_, -, pattern, hpattern, _, -, value, hvalue, _, -, yes, hyes, no, hno, h⟩ := h
    cases h
    exact ⟨Pattern.fits_of_ofJsonWithin? hpattern, hsub hvalue, hsub hyes, optionFits_of_read hsub hno⟩
  case h_8 =>
    obtain ⟨_, -, exprs, hexprs, keep, -, h⟩ := h
    cases h
    exact listFits_of_read hsub hexprs
  case h_9 =>
    obtain ⟨_, -, offset, hoffset, _, -, value, hvalue, h⟩ := h
    cases h
    exact ⟨Json.lt_of_asNatBelow? hoffset, hsub hvalue⟩
  case h_10 =>
    obtain ⟨_, -, ty, hty, _, -, fields, hfields, h⟩ := h
    cases h
    exact ⟨Json.lt_of_asNatBelow? hty, listFits_of_read hsub hfields⟩

/-- **A node that has been read fits** when its parts do. -/
theorem fits_of_nodeOfJson? {v : Json} {e : Expr} (h : nodeOfJson? sub v = some e) : e.Fits := by
  unfold nodeOfJson? at h
  split at h
  · split at h
    · obtain ⟨c, -, rfl⟩ := Option.map_eq_some_iff.mp h
      trivial
    · obtain ⟨value, hvalue, rfl⟩ := Option.map_eq_some_iff.mp h
      exact show value.Fits from hsub hvalue
    · obtain ⟨value, hvalue, rfl⟩ := Option.map_eq_some_iff.mp h
      exact show value.Fits from hsub hvalue
    · obtain ⟨lambda, hlambda, rfl⟩ := Option.map_eq_some_iff.mp h
      exact fits_of_lambdaOfJson? hsub hlambda
    · obtain ⟨ps, -, h⟩ := Option.bind_eq_some_iff.mp h
      exact fits_of_fieldsOfJson? hsub h
  · cases h

end Read

/-- **What has been read as an expression fits.** -/
theorem fits_of_ofJsonWithin? : ∀ {n : Nat} {v : Json} {e : Expr}, ofJsonWithin? n v = some e → e.Fits
  | _ + 1, _, _, h => fits_of_nodeOfJson? fits_of_ofJsonWithin? h

end Expr

/-! ## Modules -/

theorem StructType.ofJson?_toJson (d : StructType) : StructType.ofJson? d.toJson = some d := by
  have hfields : Json.asListOf? Json.asText? (.array (d.fields.map .text)) = some d.fields :=
    Json.asListOf?_map fun _ _ => rfl
  simp [StructType.toJson, StructType.ofJson?, Json.asFields?, Json.required, Json.named, Json.asText?,
    hfields]

namespace SourceModule

theorem ofJson?_toJson {m : SourceModule} (h : m.Fits) : SourceModule.ofJson? m.toJson = some m := by
  have htypes : Json.asListOf? StructType.ofJson? (.array (m.types.map StructType.toJson)) =
      some m.types :=
    Json.asListOf?_map fun d _ => d.ofJson?_toJson
  have hbody : Expr.ofJson? m.body.toJson = some m.body :=
    Expr.ofJsonWithin?_toJson (Nat.lt_succ_self _) h
  simp [SourceModule.toJson, SourceModule.ofJson?, Json.asFields?, Json.required, Json.defaulted,
    Json.named, htypes, hbody]

theorem fits_of_ofJson? {v : Json} {m : SourceModule} (h : SourceModule.ofJson? v = some m) :
    m.Fits := by
  simp only [SourceModule.ofJson?, Option.bind_eq_bind, Option.bind_eq_some_iff] at h
  obtain ⟨ps, -, types, -, _, -, body, hbody, h⟩ := h
  cases h
  exact Expr.fits_of_ofJsonWithin? hbody

/-- **The JSON form of modules round-trips.** A module whose offsets, arities, struct types and lines
fit their words is read back from its JSON form, and whatever has been read as a module, with defaults
and surplus members or without, is read back from the form in which it is written then. -/
theorem json_roundTrip :
    (∀ m : SourceModule, m.Fits → SourceModule.ofJson? m.toJson = some m) ∧
      ∀ (v : Json) (m : SourceModule), SourceModule.ofJson? v = some m →
        SourceModule.ofJson? m.toJson = some m :=
  ⟨fun _ h => ofJson?_toJson h, fun _ _ h => ofJson?_toJson (fits_of_ofJson? h)⟩

/-- A call that says nothing about guard and place, with a member that nobody knows, of a variable whose
fields are given as a list. -/
def barelyWritten : Json :=
  .object [("body", .object [("Apply", .object [("callee", .object [("Var", .array [.ofNat 0])]),
    ("note", .text "ignored"), ("args", .array [.object [("Const", .object [("Nil", .null)])]])])])]

/-- The call is read with its defaults, and survives being written and read again. -/
theorem json_roundTrip_barelyWritten :
    let m : SourceModule := ⟨[], .apply (.var 0 false) [.lit .nil] true none⟩
    m.Fits ∧ SourceModule.ofJson? barelyWritten = some m ∧ SourceModule.ofJson? m.toJson = some m := by
  have hfits : SourceModule.Fits ⟨[], .apply (.var 0 false) [.lit .nil] true none⟩ := by
    simp [SourceModule.Fits, Expr.Fits, Expr.ListFits]
  exact ⟨hfits, rfl, json_roundTrip.1 _ hfits⟩

end SourceModule

end CountedMachine
