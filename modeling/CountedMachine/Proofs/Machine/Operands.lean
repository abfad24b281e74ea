import CountedMachine.Proofs.Machine.Values

/-! # Operators, fields and texts

What operators and field loads give, in terms of kinds. Looking at values, for equality or as text,
leaves the heap alone and may only run too deep. -/

namespace CountedMachine

open Heap

variable {crowded : Prop} {p : Program} [p.Origin] {h : Heap} {R : Multiset ObjId} {P : Set ObjId} {a b v : Value}
  {κ κa κb : Kind}

/-! ## Looking at values -/

theorem ensures_get (h : Heap) (r : ObjId) : Ensures crowded (h.get r) fun _ => True := by
  cases hr : h.slot? r with
  | none =>
    rw [Heap.get, Heap.slot, hr]
    exact trivial
  | some c => exact .of_eq (get_eq hr) trivial

theorem ensures_allPairs {test : Value → Value → Except Fault Bool}
    (ht : ∀ a b, Ensures crowded (test a b) fun _ => True) :
    ∀ as bs, Ensures crowded (allPairs test as bs) fun _ => True
  | a :: as, b :: bs => by
    rw [allPairs]
    refine (ht a b).bind fun fits _ => ?_
    cases fits with
    | true => exact ensures_allPairs ht as bs
    | false => exact .ok trivial
  | [], _ => .ok trivial
  | _ :: _, [] => .ok trivial

theorem ensures_equalWithin (h : Heap) : ∀ (fuel : Nat) (a b : Value),
    Ensures crowded (h.equalWithin fuel a b) fun _ => True
  | 0, _, _ => trivial
  | fuel + 1, .obj x, .obj y => by
    rw [equalWithin]
    split_ifs
    · exact .ok trivial
    · refine (ensures_get h x).bind fun o _ => (ensures_get h y).bind fun o' _ => ?_
      split
      · exact .ok trivial
      · refine (ensures_equalWithin h fuel _ _).bind fun fits _ => ?_
        cases fits with
        | true => exact ensures_equalWithin h fuel _ _
        | false => exact .ok trivial
      · split_ifs
        · exact ensures_allPairs (ensures_equalWithin h fuel) _ _
        · exact .ok trivial
      · exact .ok trivial
  | _ + 1, .nil, _ => .ok trivial
  | _ + 1, .bool _, _ => .ok trivial
  | _ + 1, .num _, _ => .ok trivial
  | _ + 1, .obj _, .nil => .ok trivial
  | _ + 1, .obj _, .bool _ => .ok trivial
  | _ + 1, .obj _, .num _ => .ok trivial

theorem ensures_equal (h : Heap) (a b : Value) : Ensures crowded (h.equal a b) fun _ => True :=
  ensures_equalWithin h _ a b

theorem ensures_mapM {α β : Type} {g : α → Except Fault β}
    (hg : ∀ a, Ensures crowded (g a) fun _ => True) :
    ∀ as : List α, Ensures crowded (as.mapM g) fun _ => True
  | [] => .ok trivial
  | a :: as => by
    rw [List.mapM_cons]
    exact (hg a).bind fun _ _ => (ensures_mapM hg as).bind fun _ _ => .ok trivial

theorem ensures_displayWithin (h : Heap) (types : Array StructType) : ∀ (fuel : Nat) (v : Value),
    Ensures crowded (h.displayWithin types fuel v) fun _ => True
  | 0, _ => trivial
  | _ + 1, .nil => .ok trivial
  | _ + 1, .bool _ => .ok trivial
  | _ + 1, .num _ => .ok trivial
  | fuel + 1, .obj r => by
    rw [displayWithin]
    refine (ensures_get h r).bind fun o _ => ?_
    cases o with
    | str s => exact .ok trivial
    | cons a b =>
      exact (ensures_displayWithin h types fuel a).bind fun _ _ =>
        (ensures_displayWithin h types fuel b).bind fun _ _ => .ok trivial
    | struct ty fields =>
      exact (ensures_mapM (ensures_displayWithin h types fuel) fields).bind fun _ _ => .ok trivial
    | cell v => exact (ensures_displayWithin h types fuel v).bind fun _ _ => .ok trivial
    | closure c => exact .ok trivial
    | undefined tag places => exact .ok trivial

theorem ensures_display (h : Heap) (types : Array StructType) (v : Value) :
    Ensures crowded (h.display types v) fun _ => True :=
  ensures_displayWithin h types _ v

/-! ## Operators -/

/-- What an operation on the heap comes to: a heap as good as before, and a value of a kind. -/
def Yields (p : Program) [p.Origin] (h : Heap) (R : Multiset ObjId) (P : Set ObjId) (Q : Kind → Prop)
    (q : Heap × Value) : Prop :=
  Good p q.1 R P ∧ Preserves R h q.1 ∧ ∃ κ, Q κ ∧ Has q.1 q.2 κ

theorem Good.yields (hg : Good p h R P) {Q : Kind → Prop} (hκ : Q κ) (hv : Has h v κ) :
    Yields p h R P Q (h, v) :=
  ⟨hg, .refl R h, κ, hκ, hv⟩

/-- A fresh object that holds no references. -/
theorem Good.yields_fresh {o : Object} (hg : Good p h R P) (hrefs : o.refs = 0) (hfresh : Fresh o)
    (ho : ∀ r, o.Proper p h P r) {Q : Kind → Prop} (hκ : Q κ) (hf : o.Fits κ) :
    Yields p h R P Q (h.allocate o) := by
  have hg' : Good p h (o.refs + R) P := by rwa [hrefs, zero_add]
  obtain ⟨hg₁, hp, hh⟩ := hg'.allocated hfresh ho hf
  exact ⟨hg₁, hp R, κ, hκ, hh⟩

theorem Good.yields_str (hg : Good p h R P) (s : String) {Q : Kind → Prop} (hκ : Q .str) :
    Yields p h R P Q (h.allocate (.str s)) :=
  hg.yields_fresh (o := .str s) rfl trivial (fun _ => trivial) hκ rfl

theorem Good.yields_undefined (hg : Good p h R P) (tag : String) {Q : Kind → Prop}
    (hκ : Q (.obj .undefined)) : Yields p h R P Q (h.undefined tag) :=
  hg.yields_fresh (o := .undefined tag []) rfl trivial (fun _ => trivial) hκ rfl

theorem Good.onTexts (hg : Good p h R P) {op : Operator} (hop : op.computes) (s t : String) :
    Yields p h R P (op.Gives .str .str) (op.onTexts h s t) := by
  have hgives : ∀ κ, (κ = .obj .undefined ∨ (op = .add ∧ κ = .str) ∨
      (op.comparesOrder = true ∧ ∃ x, κ = .bool x)) → op.Gives .str .str κ := fun κ hκ => by
    rw [Operator.gives_of_computes hop, if_neg (by simp)]
    exact hκ.imp id fun hκ => ⟨rfl, rfl, hκ⟩
  have hbool : ∀ x, op.comparesOrder = true → Yields p h R P (op.Gives .str .str) (h, .bool x) :=
    fun x ho => hg.yields (hgives _ (Or.inr (Or.inr ⟨ho, x, rfl⟩))) rfl
  have herr : Yields p h R P (op.Gives .str .str) (h.undefined "type-error") :=
    hg.yields_undefined _ (hgives _ (Or.inl rfl))
  cases op
  case add => exact hg.yields_str _ (hgives _ (Or.inr (Or.inl ⟨rfl, rfl⟩)))
  case lt => exact hbool _ rfl
  case le => exact hbool _ rfl
  case gt => exact hbool _ rfl
  case ge => exact hbool _ rfl
  all_goals exact herr

/-- What is no pair of numbers is taken for texts. -/
theorem Operator.arithmetic_texts {op : Operator} {s t : Option String}
    (hnum : ∀ x y, ¬ (a = .num x ∧ b = .num y)) (hs : h.textOf? a = .ok s) (ht : h.textOf? b = .ok t) :
    op.arithmetic h a b true = match s, t with
      | some s, some t => .ok (op.onTexts h s t)
      | _, _ => .ok (h.undefined "type-error") := by
  unfold Operator.arithmetic
  simp only [hs, ht, Bool.not_true, Bool.false_eq_true, if_false, bind, Except.bind, pure, Except.pure]
  split
  · next x y => exact absurd ⟨rfl, rfl⟩ (hnum x y)
  · cases s <;> cases t <;> rfl

theorem Good.arithmetic (hg : Good p h R P) {op : Operator} (hop : op.computes) (ha : Has h a κa)
    (hb : Has h b κb) {checked : Bool} (hc : checked = true ∨ (κa = .num ∧ κb = .num)) :
    Ensures crowded (op.arithmetic h a b checked) (Yields p h R P (op.Gives κa κb)) := by
  by_cases hnum : κa = .num ∧ κb = .num
  · obtain ⟨rfl, rfl⟩ := hnum
    obtain ⟨x, rfl⟩ := ha.num
    obtain ⟨y, rfl⟩ := hb.num
    have hgives : ∀ κ, (if op.comparesOrder then ∃ x, κ = .bool x else κ = .num) →
        op.Gives .num .num κ := fun κ hκ => by
      rw [Operator.gives_of_computes hop, if_pos ⟨rfl, rfl⟩]
      exact hκ
    have hnum : op.comparesOrder = false → ∀ z : Float,
        Yields p h R P (op.Gives .num .num) (h, .num z) := fun ho z =>
      hg.yields (κ := .num) (hgives _ (by simp [ho])) rfl
    have hbool : op.comparesOrder = true → ∀ z : Bool,
        Yields p h R P (op.Gives .num .num) (h, .bool z) := fun ho z =>
      hg.yields (κ := .bool z) (hgives _ (by simp [ho])) rfl
    cases op
    case cons => exact absurd rfl hop.1
    case eq => exact absurd rfl hop.2.1
    case ne => exact absurd rfl hop.2.2
    all_goals first
      | exact .ok (hnum rfl _)
      | exact .ok (hbool rfl _)
  · obtain rfl : checked = true := hc.resolve_right hnum
    obtain ⟨s, hs, hstr⟩ := ha.textOf?
    obtain ⟨t, ht, hstr'⟩ := hb.textOf?
    have hnn : ∀ x y, ¬ (a = .num x ∧ b = .num y) := by
      rintro x y ⟨rfl, rfl⟩
      exact hnum ⟨ha, hb⟩
    rw [Operator.arithmetic_texts hnn hs ht]
    have herr : Ensures crowded (.ok (h.undefined "type-error") : Except Fault (Heap × Value))
        (Yields p h R P (op.Gives κa κb)) := by
      refine .ok (hg.yields_undefined _ ?_)
      rw [Operator.gives_of_computes hop, if_neg hnum]
      exact Or.inl rfl
    cases s with
    | none => exact herr
    | some s =>
      cases t with
      | none => exact herr
      | some t =>
        obtain rfl := hstr.mp rfl
        obtain rfl := hstr'.mp rfl
        exact .ok (hg.onTexts hop s t)

/-- **Operators.** -/
theorem Good.eval (hg : Good p h R P) {op : Operator} (ha : Has h a κa) (hb : Has h b κb)
    {checked : Bool} (hc : checked = true ∨ op = .cons ∨ op = .eq ∨ op = .ne ∨
      (κa = .num ∧ κb = .num)) :
    Ensures crowded (op.eval h a b checked) (Yields p h R P (op.Gives κa κb)) := by
  by_cases hop : op.computes
  · have hcomp : checked = true ∨ (κa = .num ∧ κb = .num) := by
      rcases hc with hc | hc | hc | hc | hc
      · exact Or.inl hc
      · exact absurd hc hop.1
      · exact absurd hc hop.2.1
      · exact absurd hc hop.2.2
      · exact Or.inr hc
    have hrun : Ensures crowded _ _ := hg.arithmetic hop ha hb hcomp
    cases op
    case cons => exact absurd rfl hop.1
    case eq => exact absurd rfl hop.2.1
    case ne => exact absurd rfl hop.2.2
    all_goals exact hrun
  · cases op
    case cons =>
      obtain ⟨h₁, e₁, hg₁, hr₁⟩ := hg.inc ha.live
      obtain ⟨h₂, e₂, hg₂, hr₂⟩ := hg₁.inc (hr₁.has hb).live
      have hrefs : (Object.cons a b).refs + R = refsOf [b] + (refsOf [a] + R) := by
        show refsOf [a, b] + R = _
        rw [refsOf_cons]
        abel
      obtain ⟨hg₃, hp₃, hh⟩ := (hrefs ▸ hg₂).allocated (o := .cons a b) (κ := .obj .cons) trivial
        (fun _ => trivial) rfl
      simp only [Operator.eval, e₁, e₂, bind, Except.bind]
      exact .ok ⟨hg₃, ((hr₁.preserves R).trans (hr₂.preserves R)).trans (hp₃ R), _, rfl, hh⟩
    case eq => exact (ensures_equal h a b).bind fun x _ => .ok (hg.yields ⟨x, rfl⟩ rfl)
    case ne => exact (ensures_equal h a b).bind fun x _ => .ok (hg.yields ⟨!x, rfl⟩ rfl)
    all_goals exact absurd ⟨by simp, by simp, by simp⟩ hop

/-! ## Fields -/

/-- **Fields.** -/
theorem Good.field (hg : Good p h R P) {ty : ObjType} {n idx : Nat} (hv : Has h v (.obj ty))
    (hwidth : ty.width p.types = .ok n) (hidx : idx < n) :
    Ensures crowded (h.field v idx)
      (Yields p h R P fun κ => κ ≠ .shell ∧ (ty = .undefined → κ = .str)) := by
  obtain ⟨r, ⟨rc, o⟩, rfl, hr, hf⟩ := hv.obj
  have hpart : ∀ {x}, x ∈ o.owned → ty ≠ .undefined →
      Ensures crowded (.ok (h, x) : Except Fault (Heap × Value))
        (Yields p h R P fun κ => κ ≠ .shell ∧ (ty = .undefined → κ = .str)) := fun hx hne => by
    obtain ⟨κ, hκ, hh⟩ := exists_has (live_owned hg.sound hr hx)
    exact .ok (hg.yields ⟨hκ, fun e => absurd e hne⟩ hh)
  simp only [Heap.field, get_eq hr, bind, Except.bind]
  cases o with
  | cons x y =>
    cases hf
    cases hwidth
    match idx, hidx with
    | 0, _ => exact hpart (by simp [Object.owned]) (by simp)
    | 1, _ => exact hpart (by simp [Object.owned]) (by simp)
  | struct id fields =>
    cases hf
    obtain ⟨d, hd, hlen⟩ := hg.typed.structs hr
    obtain rfl : d.fields.length = n := by
      simpa [ObjType.width, hd] using hwidth
    have hlt : idx < fields.length := hlen ▸ hidx
    simp only [List.getElem?_eq_getElem hlt]
    exact hpart (List.getElem_mem hlt) (by simp)
  | undefined tag places =>
    cases hf
    exact .ok (hg.yields_str tag ⟨by simp, fun _ => rfl⟩)
  | closure k => rcases hf with hf | hf | ⟨hf, -⟩ <;> cases hf
  | _ => cases hf

end CountedMachine
