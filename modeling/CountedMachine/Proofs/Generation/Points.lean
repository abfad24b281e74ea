import CountedMachine.Generation.Draft
import CountedMachine.Proofs.Kinds.Blocks
import CountedMachine.Proofs.Kinds.Finished

/-! # What is certain where code is written

While a unit is drafted, a `Point` says what is certain at the place where the next instruction goes:
whether control gets there at all, which registers hold a value then, and which of them an object of
a type that has been tested. `Point.At` relates it to the environments in which finished code reaches
the place: values are of the types that are recorded or narrowed, known functions are functions with
as many parameters, registers not made yet are empty and nothing is half done.

A stretch of code `Leads` from one point to another whatever program the draft becomes part of. -/

namespace CountedMachine

open Listing

namespace GenState

/-- What is known of the type of a register, narrowed or recorded. -/
def typeOf? (s : GenState) (r : Reg) : Option StaticType :=
  match s.draft.narrowed[r]? with
  | some t => some t
  | none => s.regs[r.index]?.bind (·.type)

/-- **The program may come from the state**: it has the constants and units so far; units that are
not finished have their number of parameters. -/
structure Within (s : GenState) (p : Program) : Prop where
  pool : ∀ {k : Nat} {c : Constant}, s.pool[k]? = some c → p.consts[k]? = some c
  units : ∀ {k : Nat} {u : CodeUnit}, s.units[k]? = some u →
    ∃ u', p.units[k]? = some u' ∧ u'.arity = u.arity ∧ (u.code ≠ #[] → u' = u)

/-- **A later state**: what was there is still there, and what was known of registers still holds. -/
structure Later (s s' : GenState) : Prop where
  size : s.regs.size ≤ s'.regs.size
  facts : ∀ {r : Reg}, r.index < s.regs.size → s'.regs[r.index]? = s.regs[r.index]?
  narrowed : ∀ {r : Reg}, r.index < s.regs.size → s'.draft.narrowed[r]? = s.draft.narrowed[r]?
  known : ∀ {r : Reg}, r.index < s.regs.size → s'.draft.known[r]? = s.draft.known[r]?
  functions : ∀ {k : Nat} {f : KnownFunction}, s.functions[k]? = some f → s'.functions[k]? = some f
  pool : ∀ {k : Nat} {c : Constant}, s.pool[k]? = some c → s'.pool[k]? = some c
  units : ∀ {k : Nat} {u : CodeUnit}, s.units[k]? = some u → s'.units[k]? = some u

variable {s s₁ s₂ : GenState}

theorem Later.refl (s : GenState) : Later s s :=
  ⟨Nat.le_refl _, fun _ => rfl, fun _ => rfl, fun _ => rfl, id, id, id⟩

theorem Later.trans (h : Later s s₁) (h' : Later s₁ s₂) : Later s s₂ where
  size := h.size.trans h'.size
  facts hr := (h'.facts (hr.trans_le h.size)).trans (h.facts hr)
  narrowed hr := (h'.narrowed (hr.trans_le h.size)).trans (h.narrowed hr)
  known hr := (h'.known (hr.trans_le h.size)).trans (h.known hr)
  functions hk := h'.functions (h.functions hk)
  pool hk := h'.pool (h.pool hk)
  units hk := h'.units (h.units hk)

theorem Later.within {p : Program} (h : Later s s₁) (hp : s₁.Within p) : s.Within p :=
  ⟨fun hk => hp.pool (h.pool hk), fun hk => hp.units (h.units hk)⟩

theorem Later.typeOf? (h : Later s s₁) {r : Reg} (hr : r.index < s.regs.size) :
    s₁.typeOf? r = s.typeOf? r := by
  rw [GenState.typeOf?, GenState.typeOf?, h.narrowed hr, h.facts hr]

end GenState

/-- **Where code is generated**: known functions are smaller than `size`, `depth` calls around this
place were replaced by a body, these are the settings and structs, and these captures of the unit are
cells. -/
structure Site where
  size : Nat
  depth : Nat
  ctx : Context
  caps : List Bool

/-- The structs that are declared. -/
def Site.types (σ : Site) : Array StructType := σ.ctx.types

variable {σ : Site} {w : World} {s s' s₁ s₂ : GenState} {ρ ρ' ρ₁ : Env} {r : Reg}

/-- The program of the world may come from the state, and the unit from the site. -/
structure Site.Knows (σ : Site) (w : World) (s : GenState) : Prop where
  within : s.Within w.program
  ctx : w.ctx = σ.ctx
  caps : w.caps = σ.caps

theorem Site.Knows.types (h : σ.Knows w s) : w.program.types = σ.types := congrArg Context.types h.ctx

theorem Site.Knows.of_later (h : σ.Knows w s₁) (hl : s.Later s₁) : σ.Knows w s :=
  ⟨hl.within h.within, h.ctx, h.caps⟩

/-- **What is noted of a register in the end** is what is noted of it in the state. -/
structure World.Keeps (w : World) (s : GenState) (r : Reg) : Prop where
  facts : w.facts[r.index]? = s.regs[r.index]?
  narrowed : w.drafted.draft.narrowed[r]? = s.draft.narrowed[r]?
  known : w.drafted.draft.known[r]? = s.draft.known[r]?
  functions : ∀ {k : Nat} {f : KnownFunction}, s.functions[k]? = some f → w.drafted.functions[k]? = some f

theorem World.Keeps.earlier (h : w.Keeps s₁ r) (hl : s.Later s₁) (hr : r.index < s.regs.size) : w.Keeps s r where
  facts := h.facts.trans (hl.facts hr)
  narrowed := h.narrowed.trans (hl.narrowed hr)
  known := h.known.trans (hl.known hr)
  functions hk := h.functions (hl.functions hk)

/-- The world fits a draft between two states. -/
structure Site.Admits (σ : Site) (w : World) (s s' : GenState) : Prop extends σ.Knows w s' where
  keeps : ∀ {r : Reg}, s.regs.size ≤ r.index → r.index < s'.regs.size → w.Keeps s' r
  ok : ∀ {u ms}, UnitOk σ.ctx.settings w.program u ms → w.ok u ms

theorem Site.Admits.left (h : σ.Admits w s s₂) (hl : s₁.Later s₂) : σ.Admits w s s₁ where
  toKnows := h.toKnows.of_later hl
  keeps hr hr' := (h.keeps hr (hr'.trans_le hl.size)).earlier hl hr'
  ok := h.ok

theorem Site.Admits.right (h : σ.Admits w s s₂) (hl : s.regs.size ≤ s₁.regs.size) :
    σ.Admits w s₁ s₂ where
  toKnows := h.toKnows
  keeps hr hr' := h.keeps (hl.trans hr) hr'
  ok := h.ok

/-- What is certain at a place: that control may get there, registers that hold a value, and
registers that hold an object of a type. -/
structure Point where
  live : Prop
  regs : Set Reg
  sure : Set (Reg × ObjType)

/-- **The value in a register is as it is known to be.** -/
structure Holds (w : World) (s : GenState) (ρ : Env) (r : Reg) (κ : Kind) : Prop where
  value : ρ.regs r = .val κ
  whole : κ ≠ .shell
  type : ∀ {t}, s.typeOf? r = some t → κ.type = t
  recorded : ∀ {f t}, s.regs[r.index]? = some f → f.type = some t → κ.type = t
  known : ∀ {k : Nat}, s.draft.known[r]? = some k → ∃ (f : KnownFunction) (unit : UnitId),
    s.functions[k]? = some f ∧ κ = .fn unit ∧ f.Runs w.ctx w.program unit

theorem Holds.later {κ : Kind} (hh : Holds w s ρ r κ) (h : s.Later s₁) (hr : r.index < s.regs.size)
    (hkept : ρ'.regs r = ρ.regs r) : Holds w s₁ ρ' r κ where
  value := hkept.trans hh.value
  whole := hh.whole
  type ht := hh.type (h.typeOf? hr ▸ ht)
  recorded hf ht := hh.recorded ((h.facts hr) ▸ hf) ht
  known hk := by
    rw [h.known hr] at hk
    obtain ⟨f, unit, hf, hrest⟩ := hh.known hk
    exact ⟨f, unit, h.functions hf, hrest⟩

/-- What is known of a register whose ownership is not managed. -/
theorem uncounted_type {facts : RegFacts} (h : facts.counted = false)
    (hflag : facts.role = .flag → facts.type = some .bool) :
    ∃ t, facts.type = some t ∧ t.isUncounted = true := by
  unfold RegFacts.counted at h
  by_cases hf : facts.role = .flag
  · exact ⟨_, hflag hf, rfl⟩
  · have hany : facts.type.any StaticType.isUncounted = true := by simpa [hf] using h
    cases ht : facts.type with
    | none => simp [ht] at hany
    | some t => exact ⟨t, rfl, by simpa [ht] using hany⟩

/-- The value is as it will have been noted. -/
theorem Holds.suits {κ : Kind} (hh : Holds w s ρ r κ) (hk : w.Keeps s r)
    (hflag : ∀ {f}, s.regs[r.index]? = some f → f.role = .flag → f.type = some .bool) : w.Suits False r κ where
  uncounted hu := by
    obtain ⟨f, hf, hcounted⟩ := hu
    rw [hk.facts] at hf
    obtain ⟨t, ht, hu⟩ := uncounted_type hcounted (hflag hf)
    rw [hh.recorded hf ht]
    exact hu
  recorded hf ht := hh.recorded (hk.facts ▸ hf) ht
  narrowed ht := Or.inl (hh.type (by rw [GenState.typeOf?, ← hk.narrowed, ht]))
  known hr hf := by
    obtain ⟨f', unit, hf', e, hruns⟩ := hh.known (hk.known ▸ hr)
    obtain rfl := Option.some.inj ((hk.functions hf').symm.trans hf)
    exact ⟨unit, e, hruns⟩

/-- Registers made before are as they were. -/
def Kept (s : GenState) (ρ ρ' : Env) : Prop :=
  ∀ r : Reg, r.index < s.regs.size → ρ'.regs r = ρ.regs r

theorem Kept.refl (s : GenState) (ρ : Env) : Kept s ρ ρ := fun _ _ => rfl

theorem Kept.trans (h : Kept s ρ ρ₁) (h' : Kept s₁ ρ₁ ρ') (hs : s.regs.size ≤ s₁.regs.size) :
    Kept s ρ ρ' := fun r hr => (h' r (hr.trans_le hs)).trans (h r hr)

theorem Kept.set (s : GenState) (ρ : Env) {st : Status} (hr : s.regs.size ≤ r.index) :
    Kept s ρ (ρ.set r st) := fun q hq => by
  refine ρ.set_of_ne st ?_
  rintro rfl
  omega

namespace Point

/-- More is certain. -/
instance : Preorder Point where
  le P P' := P.regs ⊆ P'.regs ∧ P.sure ⊆ P'.sure
  le_refl _ := ⟨subset_rfl, subset_rfl⟩
  le_trans _ _ _ h h' := ⟨h.1.trans h'.1, h.2.trans h'.2⟩

variable {P P' P₁ : Point}

/-- One more register holds a value. -/
def add (P : Point) (r : Reg) : Point := { P with regs := insert r P.regs }

theorem le_add (P : Point) (r : Reg) : P ≤ P.add r := ⟨Set.subset_insert _ _, subset_rfl⟩

theorem mem_add (P : Point) (r : Reg) : r ∈ (P.add r).regs := Set.mem_insert _ _

/-- One more register holds an object of a type. -/
def know (P : Point) (r : Reg) (ty : ObjType) : Point := { P with sure := insert (r, ty) P.sure }

theorem le_know (P : Point) (r : Reg) (ty : ObjType) : P ≤ P.know r ty :=
  ⟨subset_rfl, Set.subset_insert _ _⟩

theorem mem_know (P : Point) (r : Reg) (ty : ObjType) : (r, ty) ∈ (P.know r ty).sure :=
  Set.mem_insert _ _

/-- Control does not get there. -/
def stop (P : Point) : Point := { P with live := False }

theorem le_stop (P : Point) : P ≤ P.stop := ⟨subset_rfl, subset_rfl⟩

/-- The registers have been made. -/
structure Made (P : Point) (s : GenState) : Prop where
  regs : ∀ r ∈ P.regs, r.index < s.regs.size
  sure : ∀ p ∈ P.sure, p.1.index < s.regs.size

theorem Made.later (h : P.Made s) (hl : s.Later s₁) : P.Made s₁ :=
  ⟨fun r hr => (h.regs r hr).trans_le hl.size, fun p hp => (h.sure p hp).trans_le hl.size⟩

theorem Made.of_le (h : P'.Made s) (hle : P ≤ P') : P.Made s :=
  ⟨fun r hr => h.regs r (hle.1 hr), fun p hp => h.sure p (hle.2 hp)⟩

theorem Made.add (h : P.Made s) (hr : r.index < s.regs.size) : (P.add r).Made s := by
  refine ⟨fun q hq => ?_, h.sure⟩
  rcases Set.mem_insert_iff.mp hq with rfl | hq
  · exact hr
  · exact h.regs q hq

theorem Made.know (h : P.Made s) (hr : r.index < s.regs.size) (ty : ObjType) :
    (P.know r ty).Made s := by
  refine ⟨h.regs, fun p hp => ?_⟩
  rcases Set.mem_insert_iff.mp hp with rfl | hp
  · exact hr
  · exact h.sure p hp

/-- **The environments at a point.** -/
structure At (w : World) (s : GenState) (P : Point) (ρ : Env) : Prop where
  live : P.live
  holds : ∀ r ∈ P.regs, ∃ κ, Holds w s ρ r κ
  sure : ∀ {r ty}, (r, ty) ∈ P.sure → ρ.regs r = .val (.obj ty)
  fresh : ∀ r : Reg, s.regs.size ≤ r.index → ρ.regs r = .void
  calm : ρ.Calm
  pushed : ρ.pushed = 0
  strict : w.Noted (fun _ => False) ρ

/-- As much is certain later, of what has been made and kept. -/
theorem At.later (h : P.At w s ρ) (hm : P.Made s) (hl : s.Later s₁) : P.At w s₁ ρ where
  live := h.live
  holds r hr := (h.holds r hr).imp fun _ hκ => hκ.later hl (hm.regs r hr) rfl
  sure := h.sure
  fresh r hr := h.fresh r (hl.size.trans hr)
  calm := h.calm
  pushed := h.pushed
  strict := h.strict

theorem At.weaken (h : P'.At w s ρ) (hle : P ≤ P') (hlive : P.live) : P.At w s ρ where
  live := hlive
  holds r hr := h.holds r (hle.1 hr)
  sure hr := h.sure (hle.2 hr)
  fresh := h.fresh
  calm := h.calm
  pushed := h.pushed
  strict := h.strict

theorem At.noted {spared : Reg → Prop} (h : P.At w s ρ) : w.Noted spared ρ :=
  h.strict.mono fun _ => False.elim

/-- As much is certain where less has been noted in the end. -/
theorem At.forget (h : P.At w s ρ) (r : Reg) : P.At (w.forget r) s ρ where
  live := h.live
  holds q hq := by
    obtain ⟨κ, hκ⟩ := h.holds q hq
    exact ⟨κ, hκ.value, hκ.whole, hκ.type, hκ.recorded, hκ.known⟩
  sure := h.sure
  fresh := h.fresh
  calm := h.calm
  pushed := h.pushed
  strict := h.strict.forget r

theorem At.of_forget (h : P.At (w.forget r) s ρ)
    (hr : ∀ κ, (ρ.regs r).kind? = some κ → w.Suits False r κ) : P.At w s ρ where
  live := h.live
  holds q hq := by
    obtain ⟨κ, hκ⟩ := h.holds q hq
    exact ⟨κ, hκ.value, hκ.whole, hκ.type, hκ.recorded, hκ.known⟩
  sure := h.sure
  fresh := h.fresh
  calm := h.calm
  pushed := h.pushed
  strict := h.strict.of_forget hr

/-- The values that an instruction reads at a point. -/
theorem At.reads {i : Instr NodeId} (h : P.At w s ρ) (hin : ∀ r ∈ i.inputs, r ∈ P.regs) :
    ∀ r ∈ i.inputs, ∃ κ, ρ.regs r = .val κ ∧ (κ = .shell → i.finishes = true) := fun r hr => by
  obtain ⟨κ, hκ⟩ := h.holds r (hin r hr)
  exact ⟨κ, hκ.value, fun e => absurd e hκ.whole⟩

theorem At.unheld {i : Instr NodeId} (h : P.At w s ρ) {κ : Kind} (hr : i.creates = some r)
    (hκ : ρ.regs r = .held κ) : i = .merge r :=
  World.unheld_of_calm h.calm hr hκ

theorem At.shields (h : P.At w s ρ) (i : Instr NodeId) : ρ.Shields i := h.calm.shields i

/-- A register that has not been counted on is filled. -/
theorem At.put (h : P.At w s₁ ρ) (hm : P.Made s) (hr : s.regs.size ≤ r.index)
    (hlt : r.index < s₁.regs.size) {κ : Kind} (hκ : Holds w s₁ (ρ.set r (.val κ)) r κ) (hk : w.Keeps s₁ r)
    (hflag : ∀ {f}, s₁.regs[r.index]? = some f → f.role = .flag → f.type = some .bool) :
    (P.add r).At w s₁ (ρ.set r (.val κ)) where
  live := h.live
  holds q hq := by
    rcases Set.mem_insert_iff.mp hq with rfl | hq
    · exact ⟨κ, hκ⟩
    · obtain ⟨κ', hκ'⟩ := h.holds q hq
      exact ⟨κ', { hκ' with value := (Kept.set s ρ hr q (hm.regs q hq)).trans hκ'.value }⟩
  sure {q ty} hq := (Kept.set s ρ hr q (hm.sure _ hq)).trans (h.sure hq)
  fresh q hq := by
    rw [ρ.set_of_ne _ (by rintro rfl; omega)]
    exact h.fresh q hq
  calm := h.calm.set hκ.whole r
  pushed := h.pushed
  strict := h.strict.set fun κ' hκ' => by
    obtain rfl := Option.some.inj hκ'
    exact hκ.suits hk hflag

/-- A new register is filled. -/
theorem At.fill (h : P.At w s ρ) (hm : P.Made s) (hl : s.Later s₁) (hr : s.regs.size ≤ r.index)
    (hlt : r.index < s₁.regs.size) {κ : Kind} (hκ : Holds w s₁ (ρ.set r (.val κ)) r κ) (hk : w.Keeps s₁ r)
    (hflag : ∀ {f}, s₁.regs[r.index]? = some f → f.role = .flag → f.type = some .bool) :
    (P.add r).At w s₁ (ρ.set r (.val κ)) :=
  (h.later hm hl).put hm hr hlt hκ hk hflag

end Point

/-- The type is recorded or narrowed. -/
def GenState.Tells (s : GenState) (r : Reg) (t : StaticType) : Prop :=
  s.typeOf? r = some t ∨ ∃ f, s.regs[r.index]? = some f ∧ f.type = some t

theorem Holds.tells {κ : Kind} {t : StaticType} (h : Holds w s ρ r κ) (ht : s.Tells r t) :
    κ.type = t := by
  rcases ht with ht | ⟨f, hf, ht⟩
  · exact h.type ht
  · exact h.recorded hf ht

theorem GenState.Later.tells {t : StaticType} (h : s.Later s₁) (hr : r.index < s.regs.size) :
    s₁.Tells r t ↔ s.Tells r t := by
  rw [GenState.Tells, GenState.Tells, h.typeOf? hr, h.facts hr]

end CountedMachine
