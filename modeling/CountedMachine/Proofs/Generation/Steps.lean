import CountedMachine.Proofs.Generation.Runs

/-! # Single steps of the code generator

What the steps that the generator is made of do to a state in which they may start. Each is stated
over the code drawn so far, so that the register that merges two arms, made before them and created
after them, can be followed through both (`Held`). -/

namespace CountedMachine

open Listing

theorem getElem?_push_of_some {β : Type} {f k : β} {fs : Array β} {j : Nat}
    (h : fs[j]? = some f) : (fs.push k)[j]? = some f := by
  obtain ⟨hj, rfl⟩ := Array.getElem?_eq_some_iff.mp h
  exact Array.getElem?_push_lt hj

namespace GenState

/-- The state with another listing. -/
def withListing (s : GenState) (l : Listing) : GenState :=
  { s with draft := { s.draft with listing := l } }

@[simp] theorem regs_withListing (s : GenState) (l : Listing) : (s.withListing l).regs = l.regs :=
  rfl

theorem later_withListing {s : GenState} {l : Listing} (hsize : s.regs.size ≤ l.regs.size)
    (hfacts : ∀ {r : Reg}, r.index < s.regs.size → l.regs[r.index]? = s.regs[r.index]?) :
    s.Later (s.withListing l) :=
  ⟨hsize, hfacts, fun _ => rfl, fun _ => rfl, id, id, id⟩

/-- The state with another stack. -/
def withStack (s : GenState) (vs : List Variable) : GenState :=
  { s with draft := { s.draft with stack := vs } }

/-- The state with one more known function. -/
def noting (s : GenState) (r : Reg) (k : KnownFunction) : GenState :=
  { s with
    functions := s.functions.push k
    draft := { s.draft with known := s.draft.known.insert r s.functions.size } }

/-- The state with a narrowed type. -/
def narrowing (s : GenState) (r : Reg) (t : StaticType) : GenState :=
  { s with draft := { s.draft with narrowed := s.draft.narrowed.insert r t } }

theorem typeOf?_narrowing (s : GenState) (r q : Reg) (t : StaticType) :
    (s.narrowing r t).typeOf? q = if q = r then some t else s.typeOf? q := by
  unfold typeOf? narrowing
  rw [Std.HashMap.getElem?_insert]
  by_cases h : r = q
  · subst h
    simp
  · rw [if_neg (by simpa using h), if_neg (Ne.symm h)]
    rfl

/-- **More is noted of a register** of which nothing had been noted but its type. -/
structure Notes (s s' : GenState) (r : Reg) : Prop where
  regs : s'.regs = s.regs
  pool : s'.pool = s.pool
  units : s'.units = s.units
  functions : ∀ {k : Nat} {f : KnownFunction}, s.functions[k]? = some f → s'.functions[k]? = some f
  narrowed : ∀ {q : Reg}, q ≠ r → s'.draft.narrowed[q]? = s.draft.narrowed[q]?
  known : ∀ {q : Reg}, q ≠ r → s'.draft.known[q]? = s.draft.known[q]?
  bare : s.draft.narrowed[r]? = none ∧ s.draft.known[r]? = none

theorem notes_narrowing {s : GenState} {r : Reg} (t : StaticType)
    (h : s.draft.narrowed[r]? = none ∧ s.draft.known[r]? = none) : s.Notes (s.narrowing r t) r := by
  refine ⟨rfl, rfl, rfl, id, fun {q} hq => ?_, fun _ => rfl, h⟩
  show (s.draft.narrowed.insert r t)[q]? = _
  rw [Std.HashMap.getElem?_insert, if_neg (by simpa using hq.symm)]

theorem notes_noting {s : GenState} {r : Reg} (k : KnownFunction)
    (h : s.draft.narrowed[r]? = none ∧ s.draft.known[r]? = none) : s.Notes (s.noting r k) r := by
  refine ⟨rfl, rfl, rfl, getElem?_push_of_some, fun _ => rfl, fun {q} hq => ?_, h⟩
  show (s.draft.known.insert r s.functions.size)[q]? = _
  rw [Std.HashMap.getElem?_insert, if_neg (by simpa using hq.symm)]

end GenState

/-- What is written before more is noted of a register fits the world without these notes. -/
theorem Site.Admits.forget {σ : Site} {w : World} {s s₁ s₂ : GenState} {r : Reg} (h : σ.Admits w s s₂)
    (hn : s₁.Notes s₂ r) : σ.Admits (w.forget r) s s₁ where
  within := ⟨fun hk => h.within.pool (hn.pool ▸ hk), fun hk => h.within.units (hn.units ▸ hk)⟩
  ctx := h.ctx
  caps := h.caps
  keeps {q} hq hlt := by
    have hk := h.keeps hq (hn.regs ▸ hlt)
    refine ⟨hn.regs ▸ hk.facts, ?_, ?_, fun hf => hk.functions (hn.functions hf)⟩
    · show (w.drafted.draft.narrowed.erase r)[q]? = _
      rw [Std.HashMap.getElem?_erase]
      by_cases e : r = q
      · subst e
        rw [if_pos (by simp), hn.bare.1]
      · rw [if_neg (by simpa using e), hk.narrowed, hn.narrowed (Ne.symm e)]
    · show (w.drafted.draft.known.erase r)[q]? = _
      rw [Std.HashMap.getElem?_erase]
      by_cases e : r = q
      · subst e
        rw [if_pos (by simp), hn.bare.2]
      · rw [if_neg (by simpa using e), hk.known, hn.known (Ne.symm e)]
  ok := h.ok

namespace Listing

/-- The listings hold the same code. -/
structure Alike (l l' : Listing) : Prop where
  nodes : l'.nodes = l.nodes
  free : l'.free = l.free
  cursor : l'.cursor = l.cursor

theorem Linked.alike {l l' : Listing} {code : Code} (hl : Linked l code) (h : Alike l l') :
    Linked l' code := by
  refine hl.of_nodes h.nodes h.free ?_
  rw [h.cursor]
  exact hl.cursor

/-- Recording a type leaves the code and the roles as they are. -/
theorem recordType_eq {l : Listing} {r : Reg} {f : RegFacts} (hr : l.regs[r.index]? = some f)
    (type : Option StaticType) :
    ∃ l', l.recordType r type = .ok l' ∧ Alike l l' ∧ l'.regs.size = l.regs.size ∧
      ∀ q : Reg, l'.regs[q.index]? = if q = r then some { f with type := type }
        else l.regs[q.index]? := by
  refine ⟨{ l with regs := l.regs.modify r.index ({ · with type := type }) }, ?_, ⟨rfl, rfl, rfl⟩,
    by simp, fun q => ?_⟩
  · rw [recordType, factsOf_eq hr]
    rfl
  · obtain ⟨q⟩ := q
    obtain ⟨r⟩ := r
    simp only [Array.getElem?_modify, Reg.mk.injEq]
    by_cases h : r = q
    · subst h
      simp [hr]
    · rw [if_neg h, if_neg (Ne.symm h)]

end Listing

/-- The type with which a register is made. -/
def RegRole.typed (role : RegRole) (type : Option StaticType) : Option StaticType :=
  if type.isSome then type else if role = .flag then some .bool else none

namespace Gen

variable {α β : Type} {σ : Site} {s s₁ s₂ : GenState} {body xs ys zs : Code} {l : Listing}
  {i : Instr NodeId} {r : Reg} {role : RegRole} {f : RegFacts} {P P₁ P₂ : Point} {t : Block}

/-- A register of which no more is known than when it was made. -/
structure New (s s₁ : GenState) (f : RegFacts) (r : Reg) : Prop where
  new : s.regs.size ≤ r.index
  facts : s₁.regs[r.index]? = some f
  narrowed : s₁.draft.narrowed[r]? = none
  known : s₁.draft.known[r]? = none

/-- **A register made for later**: it is as new as the stretch of code, which does not create it. -/
structure Held (s s₁ : GenState) (ys : Code) (f : RegFacts) (r : Reg) : Prop extends
    New s s₁ f r where
  unmade : r ∉ owners s₁.regs ys

theorem New.lt (h : New s s₁ f r) : r.index < s₁.regs.size :=
  (Array.getElem?_eq_some_iff.mp h.facts).1

theorem New.role_eq (h : New s s₁ f r) : roleOf s₁.regs r = some f.role := by
  rw [roleOf, h.facts]
  rfl

theorem New.typeOf? (h : New s s₁ f r) : s₁.typeOf? r = f.type := by
  rw [GenState.typeOf?, h.narrowed, h.facts]
  rfl

theorem New.later (h : New s s₁ f r) (hl : s₁.Later s₂) : New s s₂ f r where
  new := h.new
  facts := (hl.facts h.lt).trans h.facts
  narrowed := (hl.narrowed h.lt).trans h.narrowed
  known := (hl.known h.lt).trans h.known

theorem Held.trans (hr : Held s s₁ xs f r) (h : Drawn σ s body s₁ xs P₁)
    (h' : Drawn σ s₁ (body ++ xs) s₂ ys P₂) : Held s s₂ (xs ++ ys) f r where
  toNew := hr.toNew.later h'.later
  unmade := by
    rw [owners_append, owners_grow h.writes.good h'.writes.grows, List.mem_append, not_or]
    exact ⟨hr.unmade, h'.writes.notMem hr.lt⟩

/-! ## The same code at another point -/

/-- Another point at which the registers of the stack hold values. -/
theorem Drawn.move (h : Drawn σ s body s₁ ys P₁) (hm : P₂.Made s₁)
    (hstack : ∀ v ∈ s₁.draft.stack, v.reg ∈ P₂.regs) : Drawn σ s body s₁ ys P₂ where
  fine := { h.fine with
    made := hm
    stack := fun v hv => ⟨hstack v hv, (h.fine.stack v hv).2⟩ }
  writes := h.writes
  later := h.later

theorem Drawn.move_le (h : Drawn σ s body s₁ ys P₁) (hle : P₁ ≤ P₂) (hm : P₂.Made s₁) :
    Drawn σ s body s₁ ys P₂ :=
  h.move hm fun v hv => hle.1 (h.fine.stack v hv).1

theorem Fine.withListing (h : Fine σ s body P) (hl : Linked l (ys ++ [(tail, Instr.done)]))
    (hc : l.cursor = tail) (hlater : s.Later (s.withListing l))
    (hflags : ∀ {r : Reg} {f : RegFacts}, l.regs[r.index]? = some f → f.role = .flag →
      f.type = some .bool) : Fine σ (s.withListing l) ys P where
  linked := hl
  cursor := hc
  flags := hflags
  made := h.made.later hlater
  stack v hv := ⟨(h.stack v hv).1, fun hmut =>
    (hlater.typeOf? (h.lt (h.stack v hv).1)).trans ((h.stack v hv).2 hmut)⟩
  known hk := ⟨(h.known hk).1.trans_le hlater.size, (h.known hk).2⟩
  narrowed hk := (h.narrowed hk).trans_le hlater.size
  inlined := h.inlined
  plain hk p hp := h.plain hk p ⟨hp.pool, hp.units⟩

theorem Drawn.withListing (h : Drawn σ s body s₁ xs P₁)
    (hl : Linked l (body ++ ys ++ [(tail, Instr.done)])) (hc : l.cursor = tail)
    (hlater : s₁.Later (s₁.withListing l)) (hw : Writes s.regs l.regs ys)
    (hflags : ∀ {r : Reg} {f : RegFacts}, l.regs[r.index]? = some f → f.role = .flag →
      f.type = some .bool) : Drawn σ s body (s₁.withListing l) ys P₁ where
  fine := h.fine.withListing hl hc hlater hflags
  writes := hw
  later := h.later.trans hlater

/-! ## Looking at the state -/

theorem draft_run (s : GenState) : draft.run s = .ok (s.draft, s) := rfl

theorem height_run (s : GenState) : height.run s = .ok (s.draft.stack.length, s) := rfl

theorem factsOf_run (hr : s.regs[r.index]? = some f) :
    (faulting (s.draft.listing.factsOf r)).run s = .ok (f, s) := by
  rw [factsOf_eq hr]
  rfl

theorem typeOf_run (hr : s.regs[r.index]? = some f) :
    (faulting (s.draft.listing.typeOf r)).run s = .ok (f.type, s) := by
  rw [typeOf, factsOf_eq hr]
  rfl

theorem knownType_run (hr : r.index < s.regs.size) :
    (knownType r).run s = .ok (s.typeOf? r, s) := by
  unfold knownType
  rw [run_bind_of_eq (draft_run s)]
  rw [GenState.typeOf?]
  cases s.draft.narrowed[r]? with
  | some t => rfl
  | none =>
    have hf : s.regs[r.index]? = some s.regs[r.index] := Array.getElem?_eq_getElem hr
    rw [hf]
    exact typeOf_run hf

/-! ## Writing -/

/-- The code is never empty: its first node is there from the start. -/
theorem Fine.exists_last (h : Fine σ s body P) : ∃ xs b j, body = xs ++ [(b, j)] := by
  rcases List.eq_nil_or_concat body with rfl | ⟨xs, ⟨b, j⟩, rfl⟩
  · have := h.linked.first
    simp [firstId, head, tail] at this
  · exact ⟨xs, b, j, by simp⟩

theorem Fine.insert_eq (h : Fine σ s body P) (i : Instr NodeId) :
    ∃ l id, s.draft.listing.insert i = .ok (l, id) ∧
      Linked l (body ++ [(id, i)] ++ [(tail, Instr.done)]) ∧ l.cursor = tail ∧ l.regs = s.regs := by
  obtain ⟨xs, b, j, rfl⟩ := h.exists_last
  have hl := h.linked
  rw [List.append_assoc, List.singleton_append] at hl
  obtain ⟨l, id, e, hl', hc, hr⟩ := hl.linkBefore i
  refine ⟨l, id, ?_, by simpa using hl', hc.trans h.cursor, hr⟩
  rw [Listing.insert, h.cursor]
  exact e

/-- The states differ in the code alone. -/
structure Recoded (s s' : GenState) : Prop where
  later : s.Later s'
  regs : s'.regs = s.regs
  stack : s'.draft.stack = s.draft.stack
  narrowed : s'.draft.narrowed = s.draft.narrowed
  known : s'.draft.known = s.draft.known

theorem Recoded.refl (s : GenState) : Recoded s s := ⟨.refl s, rfl, rfl, rfl, rfl⟩

theorem Recoded.trans (h : Recoded s s₁) (h' : Recoded s₁ s₂) : Recoded s s₂ :=
  ⟨h.later.trans h'.later, h'.regs.trans h.regs, h'.stack.trans h.stack,
    h'.narrowed.trans h.narrowed, h'.known.trans h.known⟩

theorem recoded_withListing (s : GenState) (hr : l.regs = s.regs) : Recoded s (s.withListing l) where
  later := GenState.later_withListing (le_of_eq (congrArg Array.size hr.symm)) fun _ => by rw [hr]
  regs := hr
  stack := rfl
  narrowed := rfl
  known := rfl

/-- A register stays held as long as the same registers are created. -/
theorem Held.congr (h : Held s s₁ xs f r) (hs : Recoded s₁ s₂)
    (ho : owners s₁.regs ys = owners s₁.regs xs) : Held s s₂ ys f r := by
  refine ⟨h.toNew.later hs.later, ?_⟩
  rw [hs.regs, ho]
  exact h.unmade

/-- **Writing an instruction** after the code drawn so far. -/
theorem Drawn.writeNode (h : Drawn σ s body s₁ ys P₁) (hi : Good s₁.regs i)
    (hcr : ∀ r, i.creates = some r → roleOf s₁.regs r ≠ some .flag →
      s.regs.size ≤ r.index ∧ r ∉ owners s₁.regs ys) :
    Runs (Gen.writeNode i) (Gen.writeNode i) s₁ fun id s₂ =>
      Drawn σ s body s₂ (ys ++ [(id, i)]) P₁ ∧ Recoded s₁ s₂ := by
  obtain ⟨l, id, e, hl, hc, hr⟩ := h.fine.insert_eq i
  have hrun : (Gen.writeNode i).run s₁ = .ok (id, s₁.withListing l) := by
    unfold Gen.writeNode
    rw [run_bind_of_eq (draft_run s₁), e]
    rfl
  have hw : Writes s.regs l.regs (ys ++ [(id, i)]) := by
    rw [hr]
    exact h.writes.snoc hi hcr
  have hsame := recoded_withListing s₁ hr
  exact .of_eq hrun
    ⟨h.withListing (by simpa using hl) hc hsame.later hw (hr.symm ▸ h.fine.flags), hsame⟩

/-- **Making a register**, with or without a type. -/
theorem Drawn.freshReg (h : Drawn σ s body s₁ ys P₁) (role : RegRole) {type : Option StaticType}
    (hflag : role = .flag → type = none) :
    Runs (Gen.freshReg role type) (Gen.freshReg role type) s₁ fun r s₂ =>
      Drawn σ s body s₂ ys P₁ ∧ Held s s₂ ys ⟨role, role.typed type⟩ r ∧ s₁.Later s₂ ∧
        s₁.regs.size ≤ r.index ∧ s₂.draft.stack = s₁.draft.stack := by
  set r : Reg := ⟨s₁.regs.size⟩ with hr
  obtain ⟨l, hrun, halike, hsize, hold, hnew⟩ : ∃ l : Listing,
      (Gen.freshReg role type).run s₁ = .ok (r, s₁.withListing l) ∧ Alike s₁.draft.listing l ∧
      l.regs.size = s₁.regs.size + 1 ∧
      (∀ {q : Reg}, q.index < s₁.regs.size → l.regs[q.index]? = s₁.regs[q.index]?) ∧
      l.regs[r.index]? = some ⟨role, role.typed type⟩ := by
    set l₁ : Listing := (s₁.draft.listing.freshReg role).1 with hl₁
    have hsize : l₁.regs.size = s₁.regs.size + 1 := Array.size_push ..
    have hold : ∀ {q : Reg}, q.index < s₁.regs.size → l₁.regs[q.index]? = s₁.regs[q.index]? := by
      intro q hq
      exact (Array.getElem?_push_lt hq).trans (Array.getElem?_eq_getElem hq).symm
    have hnew : l₁.regs[r.index]? = some ⟨role, if role = .flag then some .bool else none⟩ :=
      Array.getElem?_push_size
    unfold Gen.freshReg
    rw [run_bind_of_eq (draft_run s₁)]
    cases type with
    | none => exact ⟨l₁, rfl, ⟨rfl, rfl, rfl⟩, hsize, hold, hnew⟩
    | some t =>
      obtain ⟨l, e, halike, hsize', hfacts⟩ := recordType_eq hnew (some t)
      refine ⟨l, ?_, ⟨halike.nodes, halike.free, halike.cursor⟩, hsize'.trans hsize,
        fun {q} hq => ?_, ?_⟩
      · show StateT.run (faulting (l₁.recordType r (some t)) >>= _) s₁ = _
        rw [e]
        rfl
      · rw [hfacts, if_neg (by rintro rfl; exact absurd hq (Nat.lt_irrefl _)), hold hq]
      · rw [hfacts, if_pos rfl]
        rfl
  have hlater : s₁.Later (s₁.withListing l) := GenState.later_withListing (by omega) hold
  have hg : Grows s₁.regs l.regs := by
    refine ⟨by omega, fun {q} hq => ?_⟩
    rw [roleOf, roleOf, hold hq]
  have hl : Linked l (body ++ ys ++ [(tail, Instr.done)]) := h.fine.linked.alike halike
  have hw : Writes s.regs l.regs ys := by
    simpa using h.writes.trans (.nil hg)
  have hnot : ∀ {q : Reg}, q.index < s₁.regs.size → q ≠ r := by
    rintro q hq rfl
    exact absurd hq (Nat.lt_irrefl _)
  refine .of_eq hrun ⟨h.withListing hl (halike.cursor.trans h.fine.cursor) hlater hw
    fun {q f} hq hrole => ?_, ⟨⟨h.writes.grows.size, hnew, ?_, ?_⟩, ?_⟩, hlater, le_rfl, rfl⟩
  · by_cases hlt : q.index < s₁.regs.size
    · exact h.fine.flags ((hold hlt).symm.trans hq) hrole
    · have hlt' := (Array.getElem?_eq_some_iff.mp hq).1
      obtain ⟨q⟩ := q
      obtain rfl : q = s₁.regs.size := by
        simp only at hlt hlt'
        omega
      obtain rfl := Option.some.inj (hnew.symm.trans hq)
      rw [show role = .flag from hrole, hflag hrole]
      rfl
  · cases e : s₁.draft.narrowed[r]? with
    | none => exact e
    | some t => exact absurd rfl (hnot (h.fine.narrowed e))
  · cases e : s₁.draft.known[r]? with
    | none => exact e
    | some k => exact absurd rfl (hnot (h.fine.known e).1)
  · show r ∉ owners l.regs ys
    rw [owners_grow h.writes.good hg]
    exact fun hmem => hnot (h.writes.lt_size hmem) rfl

/-! ## Instructions by what they create -/

/-- An instruction that creates nothing and changes no register. -/
structure Plain (σ : Site) (s : GenState) (P : Point) (i : Instr NodeId) : Prop where
  label : i.label? = none
  creates : i.creates = none
  unadjusted : ∀ op r, i ≠ .adjust op r
  inputs : ∀ r ∈ i.inputs, r ∈ P.regs
  needs : ∀ {w : World} {ρ : Env}, σ.Knows w s → P.At w s ρ → w.Needs ρ i

/-- An instruction that creates a register of a role out of registers that hold values. -/
structure Makes (σ : Site) (s : GenState) (P : Point) (role : RegRole) (type : Option StaticType)
    (mk : Reg → Instr NodeId) : Prop where
  label : ∀ r, (mk r).label? = none
  creates : ∀ r, (mk r).creates = some r
  unowned : ∀ r, (mk r).createsOwner = false
  inputs : ∀ r, ∀ q ∈ (mk r).inputs, q ∈ P.regs
  unmerged : role ≠ .merged
  flag : role = .flag → type = none
  needs : ∀ {w : World} {ρ : Env}, σ.Knows w s → P.At w s ρ → ∀ r, w.Needs ρ (mk r)
  fires : ∀ {w : World} {ρ ρ' : Env} {r}, w.Fires ρ (mk r) ρ' →
    ∃ κ, w.Gives ρ (mk r) κ ∧ ρ' = ρ.set r (.val κ)
  gives : ∀ {w : World} {ρ : Env} {r κ}, σ.Knows w s → P.At w s ρ → w.Gives ρ (mk r) κ →
    κ ≠ .shell ∧ ∀ t, role.typed type = some t → κ.type = t

theorem good_of_plain {regs : Array RegFacts} (hl : i.label? = none) (hcr : i.creates = none)
    (hin : ∀ r ∈ i.inputs, r.index < regs.size) : Good regs i where
  known hr := by
    rcases hr with hr | hr
    · rw [hcr] at hr
      cases hr
    · exact hin _ (by simpa [Instr.reads] using hr)
  test e := by
    rw [e] at hl
    cases hl
  merged hr := by
    rw [hcr] at hr
    cases hr
  owner hr := by
    rw [hcr] at hr
    cases hr

theorem Plain.good (h : Plain σ s P i) (hf : Fine σ s body P) : Good s.regs i :=
  good_of_plain h.label h.creates fun r hr => hf.lt (h.inputs r hr)

/-- A created register that was made for it. -/
theorem good_of_creates {regs : Array RegFacts} (hl : i.label? = none) (hcr : i.creates = some r)
    (hin : ∀ q ∈ i.inputs, q.index < regs.size) (hr : roleOf regs r = some role)
    (hrole : role = .merged → i = .merge r ∨ i = .allocClosure r)
    (hown : i.createsOwner = true → role = .merged) : Good regs i where
  known hq := by
    rcases hq with hq | hq
    · rw [hcr] at hq
      rw [← Option.some.inj hq]
      rw [roleOf] at hr
      obtain ⟨f, hf, -⟩ := Option.map_eq_some_iff.mp hr
      exact (Array.getElem?_eq_some_iff.mp hf).1
    · exact hin _ (by simpa [Instr.reads] using hq)
  test e := by
    rw [e] at hl
    cases hl
  merged hq hmerged := by
    rw [hcr] at hq
    rw [← Option.some.inj hq] at hmerged ⊢
    rw [hr] at hmerged
    exact hrole (Option.some.inj hmerged)
  owner hq ho := by
    rw [hcr] at hq
    rw [← Option.some.inj hq, hr, hown ho]

/-- Writing as a step by itself. -/
theorem Drawn.write (h : Drawn σ s body s₁ ys P₁) (hi : Good s₁.regs i)
    (hcr : ∀ r, i.creates = some r → roleOf s₁.regs r ≠ some .flag →
      s.regs.size ≤ r.index ∧ r ∉ owners s₁.regs ys) :
    Runs (Gen.write i) (Gen.write i) s₁ fun _ s₂ =>
      ∃ id, Drawn σ s body s₂ (ys ++ [(id, i)]) P₁ ∧ Recoded s₁ s₂ :=
  Runs.bind (h.writeNode hi hcr) fun id _ hd => runs_pure ⟨id, hd⟩

/-- **Writing a plain instruction** that changes nothing. -/
theorem Fine.writeIdle (h : Fine σ s body P) (hi : Plain σ s P i)
    (hidle : ∀ {w ρ ρ'}, World.Fires w ρ i ρ' → ρ' = ρ) :
    Runs (Gen.write i) (Gen.write i) s fun _ s' => ∃ id, Drawn σ s body s' (Block.single id i).code P ∧
      (Block.single id i).Proper ∧ Leads σ s P (.single id i) s' P ∧ Recoded s s' := by
  refine (h.drawn.write (hi.good h) (by simp [hi.creates])).mono fun _ s₁ hd => ?_
  obtain ⟨id, hd, hs⟩ := hd
  refine ⟨id, hd, ⟨hi.label, hi.unadjusted, trivial⟩, ⟨le_rfl, fun hw => ?_, absurd⟩, hs⟩
  refine Block.does_single (fun ρ hρ => ?_) fun ρ ρ' hρ hf => ?_
  · exact ⟨hρ.noted, hρ.reads hi.inputs, hi.needs (hw.toKnows.of_later hs.later) hρ,
    hρ.unheld, hρ.shields _⟩
  · rw [hidle hf]
    exact ⟨hρ.later h.made hs.later, Kept.refl s ρ⟩

theorem Fine.write (h : Fine σ s body P) (hi : Plain σ s P i)
    (hidle : ∀ {w ρ ρ'}, World.Fires w ρ i ρ' → ρ' = ρ) :
    Emits σ (Gen.write i) (Gen.write i) s body P fun _ s' P' => P' = P ∧ Recoded s s' :=
  (h.writeIdle hi hidle).mono fun _ _ ⟨_, hd, hp, hl, hs⟩ => ⟨_, P, hd, hp, hl, rfl, hs⟩

/-- **Writing an instruction that ends the path.** -/
theorem Fine.writeEnd (h : Fine σ s body P) (hi : Plain σ s P i) (hend : i.isTerminal = true)
    (hlast : ∀ {w ρ ρ'}, ¬ World.Fires w ρ i ρ') :
    Runs (Gen.write i) (Gen.write i) s fun _ s' => ∃ id, Drawn σ s body s' (Block.single id i).code P.stop ∧
      (Block.single id i).Proper ∧ Leads σ s P (.single id i) s' P.stop ∧ Recoded s s' := by
  refine (h.drawn.write (hi.good h) (by simp [hi.creates])).mono fun _ s₁ hd => ?_
  obtain ⟨id, hd, hs⟩ := hd
  have hd' := hd.move_le P.le_stop ⟨hd.fine.made.regs, hd.fine.made.sure⟩
  refine ⟨id, hd', ⟨hi.label, hi.unadjusted, trivial⟩,
    ⟨P.le_stop, fun hw => ?_, fun _ _ => Or.inl hend⟩, hs⟩
  refine Block.does_single (fun ρ hρ => ?_) fun ρ ρ' hρ hf => absurd hf hlast
  exact ⟨hρ.noted, hρ.reads hi.inputs, hi.needs (hw.toKnows.of_later hs.later) hρ,
    hρ.unheld, hρ.shields _⟩

theorem Fine.writeLast (h : Fine σ s body P) (hi : Plain σ s P i) (hend : i.isTerminal = true)
    (hlast : ∀ {w ρ ρ'}, ¬ World.Fires w ρ i ρ') :
    Emits σ (Gen.write i) (Gen.write i) s body P fun _ s' P' => P' = P.stop ∧ Recoded s s' :=
  (h.writeEnd hi hend hlast).mono fun _ _ ⟨_, hd, hp, hl, hs⟩ => ⟨_, P.stop, hd, hp, hl, rfl, hs⟩

/-- **Making a register and writing the instruction that creates it.** -/
theorem Fine.make (h : Fine σ s body P) {type : Option StaticType} (mk : Reg → Instr NodeId)
    {f f' : Reg → Gen β} {R : β → GenState → Prop} (hmk : Makes σ s P role type mk)
    (hf : ∀ r s₁ id, Drawn σ s body s₁ (Block.single id (mk r)).code (P.add r) →
      (Block.single id (mk r)).Proper → Leads σ s P (.single id (mk r)) s₁ (P.add r) →
      (∀ {w}, σ.Admits w s s₁ → (Block.single id (mk r)).Does w (P.At w s) fun ρ ρ' =>
        ∃ κ, w.Gives ρ (mk r) κ ∧ ρ'.regs r = .val κ) →
      Held s s₁ [] ⟨role, role.typed type⟩ r → s₁.draft.stack = s.draft.stack →
      Runs (f r) (f' r) s₁ R) :
    Runs (Gen.freshReg role type >>= fun r => Gen.write (mk r) >>= fun _ => f r)
      (Gen.freshReg role type >>= fun r => Gen.write (mk r) >>= fun _ => f' r) s R := by
  refine Runs.bind (h.drawn.freshReg role hmk.flag) fun r s₁ hr => ?_
  obtain ⟨hd, hr, hlater, -, hstack⟩ := hr
  have hunadj : ∀ op q, mk r ≠ .adjust op q := fun op q e => by
    have := hmk.creates r
    rw [e] at this
    cases this
  have hgood : Good s₁.regs (mk r) :=
    good_of_creates (hmk.label r) (hmk.creates r) (fun q hq => hd.lt (h.lt (hmk.inputs r q hq)))
      hr.role_eq (fun e => absurd e hmk.unmerged) (by simp [hmk.unowned])
  have hcr : ∀ q, (mk r).creates = some q → roleOf s₁.regs q ≠ some .flag →
      s.regs.size ≤ q.index ∧ q ∉ owners s₁.regs [] := by
    intro q hq _
    rw [hmk.creates] at hq
    rw [← Option.some.inj hq]
    exact ⟨hr.new, hr.unmade⟩
  refine Runs.bind (hd.write hgood hcr) fun _ s₂ hd₂ => ?_
  obtain ⟨id, hd₂, hs⟩ := hd₂
  have hr₂ : Held s s₂ [] ⟨role, role.typed type⟩ r := hr.congr hs rfl
  have hlater₂ := hlater.trans hs.later
  have hd₂' : Drawn σ s body s₂ [(id, mk r)] (P.add r) :=
    hd₂.move_le (P.le_add r) (hd₂.fine.made.add hr₂.lt)
  have hsafe : ∀ {w}, σ.Admits w s s₂ → ∀ ρ, P.At w s ρ → w.Safe ρ (mk r) := fun hw ρ hρ =>
    ⟨hρ.noted, hρ.reads (hmk.inputs r), hmk.needs (hw.toKnows.of_later hlater₂) hρ r, hρ.unheld, hρ.shields _⟩
  refine hf r s₂ id hd₂' ⟨hmk.label r, hunadj, trivial⟩ ⟨P.le_add r, fun {w} hw => ?_, absurd⟩
    (fun {w} hw => ?_) hr₂ (hs.stack.trans hstack)
  · refine Block.does_single (hsafe hw) fun ρ ρ' hρ hfire => ?_
    obtain ⟨κ, hκ, rfl⟩ := hmk.fires hfire
    obtain ⟨hwhole, htype⟩ := hmk.gives (hw.toKnows.of_later hlater₂) hρ hκ
    refine ⟨hρ.fill h.made hlater₂ hr₂.new hr₂.lt ⟨by simp, hwhole, fun ht => ?_, fun hf ht => ?_,
      fun hk => ?_⟩ (hw.keeps hr₂.new hr₂.lt) hd₂.fine.flags, Kept.set s ρ hr₂.new⟩
    · exact htype _ (hr₂.typeOf?.symm.trans ht)
    · rw [hr₂.facts] at hf
      obtain rfl := Option.some.inj hf
      exact htype _ ht
    · rw [hr₂.known] at hk
      cases hk
  · refine Block.does_single (hsafe hw) fun ρ ρ' hρ hfire => ?_
    obtain ⟨κ, hκ, rfl⟩ := hmk.fires hfire
    exact ⟨κ, hκ, by simp⟩

theorem Fine.create (h : Fine σ s body P) {type : Option StaticType} (mk : Reg → Instr NodeId)
    {f f' : Reg → Gen β} {R : β → GenState → Point → Prop} (hmk : Makes σ s P role type mk)
    (hf : ∀ r s₁ t P₁, Drawn σ s body s₁ (Block.code t) P₁ → P ≤ P₁ → r ∈ P₁.regs →
      Held s s₁ [] ⟨role, role.typed type⟩ r → s₁.draft.stack = s.draft.stack →
      Emits σ (f r) (f' r) s₁ (body ++ t.code) P₁ R) :
    Emits σ (Gen.freshReg role type >>= fun r => Gen.write (mk r) >>= fun _ => f r)
      (Gen.freshReg role type >>= fun r => Gen.write (mk r) >>= fun _ => f' r) s body P R :=
  h.make mk hmk fun r s₁ _ hd hp hl _ hr hstack =>
    (hf r s₁ _ _ hd hl.le (P.mem_add r) hr hstack).after hd hp hl

/-- **A step that adds a block** of a known form, after which more is known of the environment. -/
def Shows (σ : Site) (x x' : Gen α) (s : GenState) (body : Code) (P : Point) (T : α → Block → Prop)
    (S : α → World → Env → Prop) (Q : α → GenState → Point → Prop) : Prop :=
  Runs x x' s fun a s' => ∃ t P', Drawn σ s body s' t.code P' ∧ t.Proper ∧ Leads σ s P t s' P' ∧ T a t ∧
    (∀ {w}, σ.Admits w s s' → t.Does w (P.At w s) fun _ ρ' => S a w ρ') ∧ Q a s' P'

theorem Shows.emits {x x' : Gen α} {T : α → Block → Prop} {S : α → World → Env → Prop}
    {Q : α → GenState → Point → Prop} (h : Shows σ x x' s body P T S Q) : Emits σ x x' s body P Q :=
  Runs.mono h fun _ _ ⟨t, P', hd, hp, hl, _, _, hq⟩ => ⟨t, P', hd, hp, hl, hq⟩

/-! ## Changing what is known -/

/-- A step that writes nothing. -/
theorem Fine.quiet (h : Fine σ s body P) {x : Gen α} {a : α} {Q : α → GenState → Point → Prop}
    (hrun : x.run s = .ok (a, s₁)) (hf : Fine σ s₁ body P) (hl : s.Later s₁)
    (hregs : s₁.regs = s.regs) (hq : Q a s₁ P) : Emits σ x x s body P Q := by
  refine .of_eq hrun ⟨.nil, P, ⟨?_, ?_, hl⟩, trivial, ⟨le_rfl, fun _ => ?_, absurd⟩, hq⟩
  · rwa [Block.code, List.append_nil]
  · rw [hregs]
    exact .nil (.refl _)
  · exact Block.does_nil fun ρ hρ => ⟨hρ.later h.made hl, Kept.refl s ρ⟩

theorem later_withStack (s : GenState) (vs : List Variable) : s.Later (s.withStack vs) :=
  ⟨le_rfl, fun _ => rfl, fun _ => rfl, fun _ => rfl, id, id, id⟩

theorem Fine.withStack (h : Fine σ s body P) {vs : List Variable}
    (hvs : ∀ v ∈ vs, v.reg ∈ P.regs ∧ (v.mutable = true → s.typeOf? v.reg = some .cell)) :
    Fine σ (s.withStack vs) body P where
  linked := h.linked
  cursor := h.cursor
  flags := h.flags
  made := ⟨h.made.regs, h.made.sure⟩
  stack := hvs
  known := h.known
  narrowed := h.narrowed
  inlined := h.inlined
  plain hk p hp := h.plain hk p ⟨hp.pool, hp.units⟩

theorem Fine.pushVariable (h : Fine σ s body P) {v : Variable} (hv : v.reg ∈ P.regs)
    (hm : v.mutable = true → s.typeOf? v.reg = some .cell) :
    Emits σ (Gen.pushVariable v) (Gen.pushVariable v) s body P fun _ s' P' =>
      P' = P ∧ s'.draft.stack = v :: s.draft.stack := by
  have hl := later_withStack s (v :: s.draft.stack)
  refine h.quiet rfl (h.withStack fun u hu => ?_) hl rfl ⟨rfl, rfl⟩
  rcases List.mem_cons.mp hu with rfl | hu
  · exact ⟨hv, hm⟩
  · exact h.stack u hu

theorem Fine.bindReg (h : Fine σ s body P) (hr : r ∈ P.regs) :
    Emits σ (Gen.bindReg r) (Gen.bindReg r) s body P fun _ s' P' =>
      P' = P ∧ s'.draft.stack = ⟨r, false⟩ :: s.draft.stack :=
  h.pushVariable hr (by simp)

theorem Fine.forgetAbove (h : Fine σ s body P) (k : Nat) :
    Emits σ (Gen.forgetAbove k) (Gen.forgetAbove k) s body P fun _ s' P' =>
      P' = P ∧ s'.draft.stack = s.draft.stack.drop (s.draft.stack.length - k) :=
  h.quiet rfl (h.withStack fun v hv => h.stack v (List.mem_of_mem_drop hv))
    (later_withStack _ _) rfl ⟨rfl, rfl⟩

/-- Forgetting variables over the code drawn so far. -/
theorem Drawn.forgetAbove (h : Drawn σ s body s₁ ys P₁) (k : Nat) :
    Runs (Gen.forgetAbove k) (Gen.forgetAbove k) s₁ fun _ s₂ => Drawn σ s body s₂ ys P₁ ∧
      s₂ = s₁.withStack (s₁.draft.stack.drop (s₁.draft.stack.length - k)) :=
  .of_eq rfl ⟨⟨h.fine.withStack fun v hv => h.fine.stack v (List.mem_of_mem_drop hv), h.writes,
    h.later.trans (later_withStack _ _)⟩, rfl⟩

/-- Binding a register over the code drawn so far. -/
theorem Drawn.bindReg (h : Drawn σ s body s₁ ys P₁) (hr : r ∈ P₁.regs) :
    Runs (Gen.bindReg r) (Gen.bindReg r) s₁ fun _ s₂ => Drawn σ s body s₂ ys P₁ ∧
      s₂ = s₁.withStack (⟨r, false⟩ :: s₁.draft.stack) := by
  refine .of_eq rfl ⟨⟨h.fine.withStack fun v hv => ?_, h.writes,
    h.later.trans (later_withStack _ _)⟩, rfl⟩
  rcases List.mem_cons.mp hv with rfl | hv
  · exact ⟨hr, by simp⟩
  · exact h.fine.stack v hv

theorem drop_of_suffix {α : Type} {xs ys : List α} (h : xs <:+ ys) :
    ys.drop (ys.length - xs.length) = xs := by
  obtain ⟨zs, rfl⟩ := h
  simp

/-- Narrowing the type of a register that is new. -/
theorem Drawn.narrowing (h : Drawn σ s body s₁ ys P₁) (hnew : s.regs.size ≤ r.index)
    (hlt : r.index < s₁.regs.size) (htype : s₁.typeOf? r = none) (t : StaticType) :
    Drawn σ s body (s₁.narrowing r t) ys P₁ where
  fine := by
    refine ⟨h.fine.linked, h.fine.cursor, h.fine.flags, ⟨h.fine.made.regs, h.fine.made.sure⟩, fun v hv => ?_,
      h.fine.known, fun {q u} hq => ?_, h.fine.inlined,
      fun hk p hp => h.fine.plain hk p ⟨hp.pool, hp.units⟩⟩
    · obtain ⟨hreg, hcell⟩ := h.fine.stack v hv
      refine ⟨hreg, fun hmut => ?_⟩
      have hne : v.reg ≠ r := by
        rintro e
        rw [e] at hcell
        rw [hcell hmut] at htype
        cases htype
      rw [GenState.typeOf?_narrowing, if_neg hne]
      exact hcell hmut
    · have hq' : (s₁.draft.narrowed.insert r t)[q]? = some u := hq
      rw [Std.HashMap.getElem?_insert] at hq'
      split_ifs at hq' with e
      · obtain rfl : r = q := by simpa using e
        exact hlt
      · exact h.fine.narrowed hq'
  writes := h.writes
  later := by
    have hl := h.later
    refine ⟨hl.size, hl.facts, fun {q} hq => ?_, hl.known, hl.functions, hl.pool, hl.units⟩
    have hne : r ≠ q := by
      rintro rfl
      omega
    show (s₁.draft.narrowed.insert r t)[q]? = _
    rw [Std.HashMap.getElem?_insert, if_neg (by simpa using hne)]
    exact hl.narrowed hq

theorem at_narrowing {w : World} {ρ : Env} (h : P.At w s ρ) {t : StaticType}
    (ht : ∀ κ, ρ.regs r = .val κ → κ.type = t) : P.At w (s.narrowing r t) ρ where
  live := h.live
  holds q hq := by
    obtain ⟨κ, hκ⟩ := h.holds q hq
    refine ⟨κ, hκ.value, hκ.whole, fun {u} hu => ?_, hκ.recorded, hκ.known⟩
    rw [GenState.typeOf?_narrowing] at hu
    split_ifs at hu with e
    · rw [← Option.some.inj hu]
      exact ht κ (e ▸ hκ.value)
    · exact hκ.type hu
  sure := h.sure
  fresh := h.fresh
  calm := h.calm
  pushed := h.pushed
  strict := h.strict

theorem Drawn.noting (h : Drawn σ s body s₁ ys P₁) (hnew : s.regs.size ≤ r.index)
    (hlt : r.index < s₁.regs.size) {k : KnownFunction} (hk : k.body.size < σ.size) :
    Drawn σ s body (s₁.noting r k) ys P₁ where
  fine := by
    refine ⟨h.fine.linked, h.fine.cursor, h.fine.flags, ⟨h.fine.made.regs, h.fine.made.sure⟩, h.fine.stack,
      fun {q j} hq => ?_, h.fine.narrowed, h.fine.inlined,
      fun hk p hp => h.fine.plain hk p ⟨hp.pool, hp.units⟩⟩
    have hq' : (s₁.draft.known.insert r s₁.functions.size)[q]? = some j := hq
    rw [Std.HashMap.getElem?_insert] at hq'
    split_ifs at hq' with e
    · obtain rfl := Option.some.inj hq'
      obtain rfl : r = q := by simpa using e
      exact ⟨hlt, k, Array.getElem?_push_size, hk⟩
    · obtain ⟨hq, f, hf, hsize⟩ := h.fine.known hq'
      exact ⟨hq, f, getElem?_push_of_some hf, hsize⟩
  writes := h.writes
  later := by
    have hl := h.later
    refine ⟨hl.size, hl.facts, hl.narrowed, fun {q} hq => ?_,
      fun hf => getElem?_push_of_some (hl.functions hf), hl.pool, hl.units⟩
    have hne : r ≠ q := by
      rintro rfl
      omega
    show (s₁.draft.known.insert r s₁.functions.size)[q]? = _
    rw [Std.HashMap.getElem?_insert, if_neg (by simpa using hne)]
    exact hl.known hq

theorem at_noting {w : World} {ρ : Env} (h : P.At w s ρ) {k : KnownFunction} {unit : UnitId}
    (hr : ρ.regs r = .val (.fn unit)) (hk : k.Runs w.ctx w.program unit) : P.At w (s.noting r k) ρ where
  live := h.live
  holds q hq := by
    obtain ⟨κ, hκ⟩ := h.holds q hq
    refine ⟨κ, hκ.value, hκ.whole, hκ.type, hκ.recorded, fun {j} hj => ?_⟩
    have hj' : (s.draft.known.insert r s.functions.size)[q]? = some j := hj
    rw [Std.HashMap.getElem?_insert] at hj'
    split_ifs at hj' with e
    · obtain rfl := Option.some.inj hj'
      obtain rfl : r = q := by simpa using e
      have hval := hr.symm.trans hκ.value
      simp only [Status.val.injEq] at hval
      exact ⟨k, unit, Array.getElem?_push_size, hval.symm, hk⟩
    · obtain ⟨f, unit, hf, hrest⟩ := hκ.known hj'
      exact ⟨f, unit, getElem?_push_of_some hf, hrest⟩
  sure := h.sure
  fresh := h.fresh
  calm := h.calm
  pushed := h.pushed
  strict := h.strict

theorem Fine.variableAt (h : Fine σ s body P) (offset : Nat) :
    Emits σ (Gen.variableAt offset) (Gen.variableAt offset) s body P fun v s' P' =>
      P' = P ∧ s' = s ∧ v.reg ∈ P.regs ∧ (v.mutable = true → s.typeOf? v.reg = some .cell) := by
  unfold Gen.variableAt
  refine Runs.read (draft_run s) ?_
  dsimp only
  cases hv : s.draft.stack[offset]? with
  | none => exact runs_refuse _
  | some v => exact h.pure ⟨rfl, rfl, h.stack v (List.mem_of_getElem? hv)⟩

/-! ## Constants -/

theorem pooled_run (c : Constant) (s : GenState) : (pooled c).run s =
    match s.pool.findIdx? (·.same c) with
    | some i => .ok (⟨i⟩, s)
    | none => .ok (⟨s.pool.size⟩, { s with pool := s.pool.push c }) := by
  unfold pooled
  rw [run_bind_of_eq (show (get : Gen GenState).run s = .ok (s, s) from rfl)]
  dsimp only
  cases s.pool.findIdx? (·.same c) <;> rfl

/-- The constant may be in the pool: a closure names a unit that works without captures. -/
def Sound (σ : Site) (s : GenState) (c : Constant) : Prop :=
  ∀ u, c = .closure u → ∀ p : Program, s.Within p → p.types = σ.types → UnitOk σ.ctx.settings p u []

theorem Fine.pooled (h : Fine σ s body P) {c : Constant} (hc : Sound σ s c) :
    Runs (Gen.pooled c) (Gen.pooled c) s fun k s' => Drawn σ s body s' [] P ∧ s'.regs = s.regs ∧
      s'.draft.stack = s.draft.stack ∧
        ∃ c', s'.pool[k.index]? = some c' ∧ Kind.ofConstant c' = Kind.ofConstant c := by
  unfold Gen.pooled
  refine Runs.read (a := s) rfl ?_
  dsimp only
  cases hfind : s.pool.findIdx? (·.same c) with
  | some i =>
    obtain ⟨hi, hsame, -⟩ := Array.findIdx?_eq_some_iff_getElem.mp hfind
    exact runs_pure ⟨h.drawn, rfl, rfl, s.pool[i], Array.getElem?_eq_getElem hi,
      Kind.ofConstant_eq_of_same hsame⟩
  | none =>
    set s₁ : GenState := { s with pool := s.pool.push c } with hs₁
    have hl : s.Later s₁ :=
      ⟨le_rfl, fun _ => rfl, fun _ => rfl, fun _ => rfl, id, getElem?_push_of_some, id⟩
    have hf : Fine σ s₁ body P := by
      refine ⟨h.linked, h.cursor, h.flags, ⟨h.made.regs, h.made.sure⟩, h.stack, h.known, h.narrowed,
        h.inlined, fun {k u} hk p hp htypes => ?_⟩
      have hk' : (s.pool.push c)[k]? = some (.closure u) := hk
      rw [Array.getElem?_push] at hk'
      split_ifs at hk'
      · exact hc u (Option.some.inj hk') p (hl.within hp) htypes
      · exact h.plain hk' p (hl.within hp) htypes
    refine .of_eq rfl ⟨⟨?_, .nil (.refl _), hl⟩, rfl, rfl, c, Array.getElem?_push_size, rfl⟩
    rwa [List.append_nil]

/-- **Loading a constant.** -/
theorem Fine.loadConstant_shows (h : Fine σ s body P) {c : Constant} (hc : Sound σ s c) :
    Shows σ (Gen.loadConstant c) (Gen.loadConstant c) s body P
      (fun r t => ∃ id k, t = .single id (.const r k)) (fun r _ ρ => ρ.regs r = .val (.ofConstant c))
      fun r s' P' => P' = P.add r ∧ New s s' ⟨.temp, some c.type⟩ r ∧ s'.draft.stack = s.draft.stack := by
  refine Runs.bind (h.pooled hc) fun k s₁ hd => ?_
  obtain ⟨hd, hregs, hstack, c', hk, hkind⟩ := hd
  have hf : Fine σ s₁ body P := by simpa using hd.fine
  have hmk : Makes σ s₁ P .temp (some c.type) (.const · k) := by
    have hgives : ∀ {w : World} {ρ : Env} {r κ}, σ.Knows w s₁ →
        w.Gives ρ (.const r k : Instr NodeId) κ → κ = .ofConstant c := by
      rintro w ρ r κ hw ⟨c'', hc'', rfl⟩
      rw [hw.within.pool hk] at hc''
      rw [← Option.some.inj hc'', hkind]
    refine ⟨fun _ => rfl, fun _ => rfl, fun _ => rfl, by simp [Instr.inputs], by simp, by simp,
      fun hw hρ _ => ⟨hρ.calm, c', hw.within.pool hk⟩, fun hf => hf, fun hw _ hg => ?_⟩
    rw [hgives hw hg]
    refine ⟨Kind.ofConstant_ne_shell c, fun t ht => ?_⟩
    rw [Kind.type_ofConstant]
    exact Option.some.inj ht
  refine hf.make (.const · k) hmk fun r s₂ id hd₂ hp hl hgives hr hstack₂ => ?_
  have hstart : ∀ {w : World} {ρ : Env}, P.At w s ρ → P.At w s₁ ρ := fun hρ => hρ.later h.made hd.later
  refine runs_pure ⟨.single id (.const r k), _, by simpa using hd.trans (by simpa using hd₂), hp,
    ⟨hl.le, fun {w} hw => ?_, hl.stops⟩, ⟨id, k, rfl⟩, fun {w} hw => ?_, rfl,
    ⟨?_, hr.facts, hr.narrowed, hr.known⟩, hstack₂.trans hstack⟩
  · refine (hl.does (hw.right hd.later.size)).mono (fun _ => hstart) fun ρ ρ' _ hq => ⟨hq.1, fun q hq' => ?_⟩
    exact hq.2 q (by rwa [hregs])
  · refine (hgives (hw.right hd.later.size)).mono (fun _ => hstart) fun ρ ρ' _ hq => ?_
    obtain ⟨κ, ⟨c'', hc'', rfl⟩, hval⟩ := hq
    rw [(hd₂.later.within hw.within).pool hk] at hc''
    rw [hval, ← Option.some.inj hc'', hkind]
  · rw [← hregs]
    exact hr.new

theorem Fine.loadConstant (h : Fine σ s body P) {c : Constant} (hc : Sound σ s c) :
    Emits σ (Gen.loadConstant c) (Gen.loadConstant c) s body P fun r s' P' =>
      r ∈ P'.regs ∧ s'.draft.stack = s.draft.stack :=
  (h.loadConstant_shows hc).emits.mono fun r _ _ _ _ _ hq => ⟨hq.1 ▸ P.mem_add r, hq.2.2⟩

theorem Fine.loadNil (h : Fine σ s body P) :
    Emits σ Gen.loadNil Gen.loadNil s body P fun r s' P' =>
      r ∈ P'.regs ∧ s'.draft.stack = s.draft.stack :=
  h.loadConstant (c := .nil) (by simp [Sound])

end Gen

end CountedMachine
