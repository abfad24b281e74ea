import CountedMachine.Proofs.Kinds.Notes
import Mathlib.Logic.Function.Basic
import Mathlib.Tactic.SplitIfs

/-! # Kinds of values

What code relies on is not the value in a register but its kind: which immediate or object it is.
`Env` gives the kind in every register, or says that the register has not been filled yet, or holds
a value on its way to the place where two arms meet; it also keeps the number of closures that have
joined the recursive scope that is open, and the number of arguments pushed for the next call.

`Fires` says which environments an instruction can lead to, `Safe` what it relies on. What code may
assume from outside is collected in a `World`. -/

namespace CountedMachine

/-- The kind of a value. A `shell` is a closure that has no code yet. -/
inductive Kind
  | nil
  | bool (b : Bool)
  | num
  | str
  | obj (ty : ObjType)
  | cell
  | fn (unit : UnitId)
  | shell
  deriving DecidableEq

namespace Kind

/-- The type of values of a kind. -/
def type : Kind → StaticType
  | .nil => .nil
  | .bool _ => .bool
  | .num => .num
  | .str => .str
  | .obj ty => .obj ty
  | .cell => .cell
  | .fn _ => .fn
  | .shell => .fn

/-- The kind of a constant. -/
def ofConstant : Constant → Kind
  | .nil => .nil
  | .bool b => .bool b
  | .num _ => .num
  | .str _ => .str
  | .undefined _ => .obj .undefined
  | .closure unit => .fn unit

@[simp] theorem type_ofConstant (c : Constant) : (ofConstant c).type = c.type := by
  cases c <;> rfl

theorem ofConstant_ne_shell (c : Constant) : ofConstant c ≠ .shell := by
  cases c <;> simp [ofConstant]

/-- Constants that are interchangeable are of one kind. -/
theorem ofConstant_eq_of_same {c c' : Constant} (h : c.same c' = true) :
    ofConstant c = ofConstant c' := by
  cases c <;> cases c' <;> simp_all [Constant.same, ofConstant]

theorem eq_bool_of_type {κ : Kind} (h : κ.type = .bool) : ∃ b, κ = .bool b := by
  cases κ <;> first | exact ⟨_, rfl⟩ | cases h

theorem eq_num_of_type {κ : Kind} (h : κ.type = .num) : κ = .num := by
  cases κ <;> first | rfl | cases h

theorem eq_str_of_type {κ : Kind} (h : κ.type = .str) : κ = .str := by
  cases κ <;> first | rfl | cases h

theorem eq_obj_of_type {κ : Kind} {ty : ObjType} (h : κ.type = .obj ty) : κ = .obj ty := by
  cases κ <;> first | (cases h; rfl) | cases h

theorem eq_cell_of_type {κ : Kind} (h : κ.type = .cell) : κ = .cell := by
  cases κ <;> first | rfl | cases h

end Kind

/-- **The kinds of value an operator gives**, from the kinds of its operands. -/
def Operator.Gives (op : Operator) (a b κ : Kind) : Prop :=
  match op with
  | .cons => κ = .obj .cons
  | .eq => ∃ x, κ = .bool x
  | .ne => ∃ x, κ = .bool x
  | op =>
    if a = .num ∧ b = .num then
      if op.comparesOrder then ∃ x, κ = .bool x else κ = .num
    else κ = .obj .undefined ∨
      (a = .str ∧ b = .str ∧ ((op = .add ∧ κ = .str) ∨ (op.comparesOrder = true ∧ ∃ x, κ = .bool x)))

namespace Operator

variable {op : Operator} {a b κ : Kind}

/-- The operator is neither a comparison of all values nor makes a pair. -/
def computes (op : Operator) : Prop := op ≠ .cons ∧ op ≠ .eq ∧ op ≠ .ne

theorem gives_of_computes (hop : op.computes) (a b κ : Kind) : op.Gives a b κ ↔
    if a = .num ∧ b = .num then
      if op.comparesOrder then ∃ x, κ = .bool x else κ = .num
    else κ = .obj .undefined ∨
      (a = .str ∧ b = .str ∧ ((op = .add ∧ κ = .str) ∨ (op.comparesOrder = true ∧ ∃ x, κ = .bool x))) := by
  cases op
  case cons => exact absurd rfl hop.1
  case eq => exact absurd rfl hop.2.1
  case ne => exact absurd rfl hop.2.2
  all_goals rfl

theorem Gives.whole (h : op.Gives a b κ) : κ ≠ .shell := by
  by_cases hop : op.computes
  · rw [gives_of_computes hop] at h
    rintro rfl
    split_ifs at h <;> simp_all
  · rintro rfl
    cases op <;> simp_all [computes, Gives]

end Operator

/-- What is in a register: nothing yet, a value on its way to a merge, or a value. -/
inductive Status
  | void
  | held (κ : Kind)
  | val (κ : Kind)
  deriving DecidableEq

/-- The kind of what is in a register. -/
def Status.kind? : Status → Option Kind
  | .void => none
  | .held κ => some κ
  | .val κ => some κ

/-- **What is known of the registers of a frame**, of the recursive scope it has open (how many
closures it is for, and how many have joined it), and of the arguments it has pushed. -/
@[ext] structure Env where
  regs : Reg → Status
  scope : Option (Nat × Nat)
  pushed : Nat

namespace Env

/-- The environment of a frame that has just been entered. -/
def start : Env := ⟨fun _ => .void, none, 0⟩

/-- Put something into a register. -/
def set (ρ : Env) (r : Reg) (st : Status) : Env := { ρ with regs := Function.update ρ.regs r st }

/-- One more closure has joined the open scope, if there is one. -/
def join (ρ : Env) : Env := { ρ with scope := ρ.scope.map fun p => (p.1, p.2 + 1) }

variable (ρ : Env) {r q : Reg} (st : Status)

@[simp] theorem set_self : (ρ.set r st).regs r = st := Function.update_self ..

@[simp] theorem set_of_ne (h : q ≠ r) : (ρ.set r st).regs q = ρ.regs q :=
  Function.update_of_ne h ..

@[simp] theorem scope_set : (ρ.set r st).scope = ρ.scope := rfl

@[simp] theorem pushed_set : (ρ.set r st).pushed = ρ.pushed := rfl

@[simp] theorem regs_join : ρ.join.regs = ρ.regs := rfl

theorem set_eq (q : Reg) : (ρ.set r st).regs q = if q = r then st else ρ.regs q := by
  by_cases h : q = r
  · rw [h, set_self, if_pos rfl]
  · rw [set_of_ne _ _ h, if_neg h]

/-- Nothing is half done: no value is on its way, no closure without code, no scope open. -/
structure Calm (ρ : Env) : Prop where
  scope : ρ.scope = none
  regs : ∀ r, ρ.regs r = .void ∨ ∃ κ, ρ.regs r = .val κ ∧ κ ≠ .shell

theorem calm_start : Calm start := ⟨rfl, fun _ => Or.inl rfl⟩

theorem Calm.set {ρ : Env} (h : Calm ρ) {κ : Kind} (hκ : κ ≠ .shell) (r : Reg) :
    Calm (ρ.set r (.val κ)) := by
  refine ⟨h.scope, fun q => ?_⟩
  rw [set_eq]
  split_ifs
  · exact Or.inr ⟨κ, rfl, hκ⟩
  · exact h.regs q

end Env

/-- The instruction gives a closure its code; no other one may read a closure without code. -/
def Instr.finishes {L : Type} : Instr L → Bool
  | .finishClosure _ _ _ => true
  | _ => false

namespace Env

variable {L : Type} {ρ : Env}

/-- No closure is in the making: all have their code, and no scope is open. -/
def Whole (ρ : Env) : Prop := ρ.scope = none ∧ ∀ r, ρ.regs r ≠ .val .shell

/-- **What is in the making stays among itself**: closures that have no code yet, or whose scope is open,
may capture each other, but nothing else refers to them, and no other value comes into a register from
an object. -/
def Shields (ρ : Env) : Instr L → Prop
  | .box _ _ => ρ.Whole
  | .unbox _ _ => ρ.Whole
  | .field _ _ _ => ρ.Whole
  | .operate _ _ _ _ _ => ρ.Whole
  | .make _ _ _ => ρ.Whole
  | .finishClosure _ _ caps => ρ.scope = none → ∀ r ∈ caps, ρ.regs r ≠ .val .shell
  | .endScope _ => ∀ r, ρ.regs r ≠ .val .shell
  | _ => True

theorem Calm.not_shell (h : Calm ρ) (r : Reg) : ρ.regs r ≠ .val .shell := by
  intro hr
  rcases h.regs r with e | ⟨κ, e, hκ⟩
  · cases e.symm.trans hr
  · exact hκ (Status.val.inj (e.symm.trans hr))

theorem Calm.whole (h : Calm ρ) : ρ.Whole := ⟨h.scope, h.not_shell⟩

theorem Calm.shields (h : Calm ρ) (i : Instr L) : ρ.Shields i := by
  cases i
  case finishClosure => exact fun _ r _ => h.not_shell r
  case endScope => exact h.not_shell
  all_goals first
    | exact h.whole
    | trivial

end Env

/-- **What code may assume from outside**: the program it belongs to and the settings it was made with,
the state in which the code of its unit was complete, which of its captures are cells, and which units
work with which captures. -/
structure World where
  program : Program
  settings : Settings
  drafted : GenState
  caps : List Bool
  ok : UnitId → List Bool → Prop

namespace World

variable (w : World)

/-- What is recorded of the registers of the unit. -/
def facts : Array RegFacts := w.drafted.regs

/-- What is the same in all units of the program. -/
def ctx : Context := ⟨w.settings, w.program.types⟩

/-- The ownership of the register is not managed. -/
def Uncounted (r : Reg) : Prop := ∃ f, w.facts[r.index]? = some f ∧ f.counted = false

/-- **Values of the kind are as it has been noted of the register.** Where `spared` holds, the register
may hold an error value although its type has been narrowed to another one. -/
structure Suits (spared : Prop) (r : Reg) (κ : Kind) : Prop where
  uncounted : w.Uncounted r → κ.type.isUncounted = true
  recorded : ∀ {f t}, w.facts[r.index]? = some f → f.type = some t → κ.type = t
  narrowed : ∀ {t}, w.drafted.draft.narrowed[r]? = some t → κ.type = t ∨ (spared ∧ κ = .obj .undefined)
  known : ∀ {k : Nat} {f : KnownFunction}, w.drafted.draft.known[r]? = some k →
    w.drafted.functions[k]? = some f → ∃ unit, κ = .fn unit ∧ f.Runs w.ctx w.program unit

/-- **All registers hold what has been noted of them.** -/
def Noted (spared : Reg → Prop) (ρ : Env) : Prop :=
  ∀ r κ, (ρ.regs r).kind? = some κ → w.Suits (spared r) r κ

/-- Registers whose ownership is not managed hold immediate values. -/
def Modest (ρ : Env) : Prop :=
  ∀ r κ, (ρ.regs r).kind? = some κ → w.Uncounted r → κ.type.isUncounted = true

variable {w} {ρ : Env} {spared spared' : Reg → Prop}

theorem Suits.mono {a b : Prop} {r : Reg} {κ : Kind} (h : w.Suits a r κ) (hab : a → b) : w.Suits b r κ :=
  ⟨h.uncounted, h.recorded, fun ht => (h.narrowed ht).imp_right fun hu => ⟨hab hu.1, hu.2⟩, h.known⟩

/-- Any truth value suits where one does. -/
theorem Suits.bool {a : Prop} {r : Reg} {x : Bool} (h : w.Suits a r (.bool x)) (y : Bool) :
    w.Suits a r (.bool y) where
  uncounted := h.uncounted
  recorded := h.recorded
  narrowed ht := by
    obtain e | ⟨-, e⟩ := h.narrowed ht
    · exact Or.inl e
    · cases e
  known hk hf := by
    obtain ⟨unit, e, -⟩ := h.known hk hf
    cases e

theorem Noted.mono (h : w.Noted spared ρ) (hs : ∀ r, spared r → spared' r) : w.Noted spared' ρ :=
  fun r κ hr => (h r κ hr).mono (hs r)

theorem Noted.modest (h : w.Noted spared ρ) : w.Modest ρ := fun r κ hr hu => (h r κ hr).uncounted hu

theorem noted_start (w : World) (spared : Reg → Prop) : w.Noted spared Env.start := by
  intro r κ hκ
  cases hκ

theorem Noted.set (h : w.Noted spared ρ) {r : Reg} {st : Status}
    (hst : ∀ κ, st.kind? = some κ → w.Suits (spared r) r κ) : w.Noted spared (ρ.set r st) := by
  intro q κ hq
  rw [Env.set_eq] at hq
  split_ifs at hq with e
  · subst e
    exact hst κ hq
  · exact h q κ hq

variable {L : Type} (w) (ρ : Env)

/-- The kinds of value an instruction may create. -/
def Gives : Instr L → Kind → Prop
  | .const _ k, κ => ∃ c, w.program.consts[k.index]? = some c ∧ κ = .ofConstant c
  | .param _ _, κ => κ ≠ .shell
  | .capture _ idx, κ => κ ≠ .shell ∧ (w.caps[idx]? = some true → κ = .cell)
  | .box _ _, κ => κ = .cell
  | .unbox _ _, κ => κ ≠ .shell
  | .operate op _ l r _, κ => ∃ a b, ρ.regs l = .val a ∧ ρ.regs r = .val b ∧ op.Gives a b κ
  | .test _ _, κ => ∃ b, κ = .bool b
  | .testType _ src ty, κ => ∃ a, ρ.regs src = .val a ∧ κ = .bool (a = .obj ty)
  | .flag _ b, κ => κ = .bool b
  | .field _ src _, κ => κ ≠ .shell ∧ (ρ.regs src = .val (.obj .undefined) → κ = .str)
  | .make _ ty _, κ => κ = .obj (.struct ty)
  | .allocClosure _, κ => κ = .shell
  | _, _ => False

/-- **Where an instruction may lead**, when control goes on in the same frame. -/
def Fires (i : Instr L) (ρ' : Env) : Prop :=
  match i with
  | .merge dst => ∃ κ, ρ.regs dst = .held κ ∧ ρ' = ρ.set dst (.val κ)
  | .move dst src => ∃ κ, ρ.regs src = .val κ ∧ ρ' = ρ.set dst (.held κ)
  | .finishClosure dst unit _ => ρ' = (ρ.set dst (.val (.fn unit))).join
  | .beginScope n => ρ' = { ρ with scope := some (n, 0) }
  | .endScope _ => ρ' = { ρ with scope := none }
  | .guard src ty => ρ.regs src = .val (.obj ty) ∧ ρ' = ρ
  | .push _ => ρ' = { ρ with pushed := ρ.pushed + 1 }
  | .call dst _ _ _ => ∃ κ ≠ Kind.shell, ρ' = { ρ.set dst (.val κ) with pushed := 0 }
  | .ret _ => False
  | .tailCall _ _ => False
  | .done => False
  | i =>
    match i.creates with
    | some dst => ∃ κ, w.Gives ρ i κ ∧ ρ' = ρ.set dst (.val κ)
    | none => ρ' = ρ

/-- What an instruction needs beyond values in the registers it reads. -/
def Needs : Instr L → Prop
  | .const _ k => ρ.Calm ∧ ∃ c, w.program.consts[k.index]? = some c
  | .param _ _ => ρ.Calm
  | .capture _ idx => ρ.Calm ∧ idx < w.caps.length
  | .unbox _ cell => ρ.regs cell = .val .cell
  | .assign cell _ => ρ.regs cell = .val .cell
  | .operate op _ l r checked => checked = true ∨ op = .cons ∨ op = .eq ∨ op = .ne ∨
    (ρ.regs l = .val .num ∧ ρ.regs r = .val .num)
  | .field _ src idx => ∃ ty n, ρ.regs src = .val (.obj ty) ∧
    ty.width w.program.types = .ok n ∧ idx < n
  | .make _ ty fields => ∃ d, w.program.types[ty]? = some d ∧ d.fields.length = fields.length
  | .guard _ _ => ρ.Calm
  | .branch cond _ => ∃ b, ρ.regs cond = .val (.bool b)
  | .merge dst => ∃ κ, ρ.regs dst = .held κ
  | .move dst _ => ρ.regs dst = .void
  | .call _ func nargs checked => ρ.Calm ∧ ρ.pushed = nargs ∧ (checked = false → ∃ unit u,
    ρ.regs func = .val (.fn unit) ∧ w.program.units[unit.index]? = some u ∧ u.arity = nargs)
  | .tailCall _ nargs => ρ.Calm ∧ ρ.pushed = nargs
  | .ret _ => ρ.Calm ∧ ρ.pushed = 0
  | .done => ρ.Calm ∧ ρ.pushed = 0
  | .yield _ => ρ.Calm ∧ ρ.pushed = 0
  | .finishClosure dst unit caps => ρ.regs dst = .val .shell ∧
    (∀ n k, ρ.scope = some (n, k) → k < n) ∧ ∃ ms, w.ok unit ms ∧ ms.length = caps.length ∧
      ∀ (idx : Nat) (r : Reg), caps[idx]? = some r → ms[idx]? = some true → ρ.regs r = .val .cell
  | .beginScope _ => ρ.scope = none
  | .endScope n => ρ.scope = some (n, n)
  | _ => True

/-- **The instruction can be carried out.** -/
structure Safe (i : Instr L) : Prop where
  noted : w.Noted i.Spares ρ
  reads : ∀ r ∈ i.inputs, ∃ κ, ρ.regs r = .val κ ∧ (κ = .shell → i.finishes = true)
  needs : w.Needs ρ i
  unheld : ∀ {r κ}, i.creates = some r → ρ.regs r = .held κ → i = .merge r
  shields : ρ.Shields i

variable {w ρ}

theorem Safe.modest {i : Instr L} (h : w.Safe ρ i) : w.Modest ρ := h.noted.modest

/-- No value is on its way where nothing is half done. -/
theorem unheld_of_calm (h : ρ.Calm) {i : Instr L} {r : Reg} {κ : Kind} (_ : i.creates = some r)
    (hr : ρ.regs r = .held κ) : i = .merge r := by
  rcases h.regs r with e | ⟨κ', e, -⟩ <;> cases e.symm.trans hr

/-! ## Notes that come later

A register that is new has no narrowed type yet and is not known to hold a function: that is noted when
the code before it has been written. Until then the code is looked at in the world without these
notes. -/

/-- The world without what is noted of a register beyond its type. -/
def forget (w : World) (r : Reg) : World :=
  { w with drafted := { w.drafted with draft := { w.drafted.draft with
      narrowed := w.drafted.draft.narrowed.erase r
      known := w.drafted.draft.known.erase r } } }

section
variable {r q : Reg} {κ : Kind} {a b : Prop} {spared : Reg → Prop} {i : Instr L} {ρ' : Env}

theorem Suits.forget (h : w.Suits a q κ) (r : Reg) : (w.forget r).Suits a q κ where
  uncounted := h.uncounted
  recorded := h.recorded
  narrowed {t} ht := h.narrowed (by
    have ht : (w.drafted.draft.narrowed.erase r)[q]? = some t := ht
    rw [Std.HashMap.getElem?_erase] at ht
    split_ifs at ht
    exact ht)
  known {k f} hk hf := h.known (by
    have hk : (w.drafted.draft.known.erase r)[q]? = some k := hk
    rw [Std.HashMap.getElem?_erase] at hk
    split_ifs at hk
    exact hk) hf

theorem Suits.of_forget_ne (h : (w.forget r).Suits a q κ) (hq : q ≠ r) : w.Suits a q κ where
  uncounted := h.uncounted
  recorded := h.recorded
  narrowed {t} ht := h.narrowed (by
    show (w.drafted.draft.narrowed.erase r)[q]? = some t
    rw [Std.HashMap.getElem?_erase, if_neg (by simpa using hq.symm), ht])
  known {k f} hk hf := h.known (by
    show (w.drafted.draft.known.erase r)[q]? = some k
    rw [Std.HashMap.getElem?_erase, if_neg (by simpa using hq.symm), hk]) hf

/-- What is noted of the register itself. -/
theorem Suits.of_forget (h : (w.forget r).Suits a r κ)
    (hn : ∀ t, w.drafted.draft.narrowed[r]? = some t → κ.type = t ∨ (b ∧ κ = .obj .undefined))
    (hk : ∀ (k : Nat) (f : KnownFunction), w.drafted.draft.known[r]? = some k →
      w.drafted.functions[k]? = some f → ∃ unit, κ = .fn unit ∧ f.Runs w.ctx w.program unit) :
    w.Suits b r κ :=
  ⟨h.uncounted, h.recorded, hn _, hk _ _⟩

theorem Noted.forget (h : w.Noted spared ρ) (r : Reg) : (w.forget r).Noted spared ρ :=
  fun q κ hq => (h q κ hq).forget r

theorem Noted.of_forget (h : (w.forget r).Noted spared ρ)
    (hr : ∀ κ, (ρ.regs r).kind? = some κ → w.Suits (spared r) r κ) : w.Noted spared ρ := by
  intro q κ hq
  by_cases e : q = r
  · subst e
    exact hr κ hq
  · exact (h q κ hq).of_forget_ne e

theorem fires_forget : (w.forget r).Fires ρ i ρ' ↔ w.Fires ρ i ρ' := by
  cases i <;> exact Iff.rfl

theorem Safe.of_forget (h : (w.forget r).Safe ρ i)
    (hr : ∀ κ, (ρ.regs r).kind? = some κ → w.Suits (i.Spares r) r κ) : w.Safe ρ i where
  noted := h.noted.of_forget hr
  reads := h.reads
  needs := by
    have := h.needs
    cases i <;> exact this
  unheld := h.unheld
  shields := h.shields

/-- An instruction that spares a register leaves it as it is, unless it creates it. -/
theorem Fires.of_spares (h : w.Fires ρ i ρ') (hs : i.Spares r) (hc : i.creates ≠ some r) :
    ρ'.regs r = ρ.regs r := by
  cases i
  case testType dst src ty =>
    obtain ⟨κ, -, rfl⟩ := h
    exact ρ.set_of_ne _ fun e => hc (congrArg some e.symm)
  case ret => exact h.elim
  case trace => exact congrArg (·.regs r) h
  case branch => exact congrArg (·.regs r) h
  case jump => exact congrArg (·.regs r) h
  case nop => exact congrArg (·.regs r) h
  case adjust => exact congrArg (·.regs r) h
  all_goals exact hs.elim

end

/-- An operator gives a value of some kind. -/
theorem exists_gives (op : Operator) (a b : Kind) : ∃ κ, op.Gives a b κ := by
  by_cases h : a = .num ∧ b = .num
  · cases op <;> simp [Operator.Gives, h, Operator.comparesOrder]
  · cases op <;> simp only [Operator.Gives, if_neg h] <;>
      first | exact ⟨_, rfl⟩ | exact ⟨_, true, rfl⟩ | exact ⟨_, Or.inl rfl⟩

/-- **Code is never stuck**: where an instruction can be carried out, control goes on unless it ends
the path or guards a value. -/
theorem Safe.exists_fires {i : Instr L} (h : w.Safe ρ i) (ht : i.isTerminal = false)
    (hg : ∀ src ty, i ≠ .guard src ty) : ∃ ρ', w.Fires ρ i ρ' := by
  have hval : ∀ {r}, r ∈ i.inputs → ∃ κ, ρ.regs r = .val κ := fun hr =>
    (h.reads _ hr).imp fun κ hκ => hκ.1
  have hneeds := h.needs
  cases i
  case const dst k =>
    obtain ⟨-, c, hc⟩ := hneeds
    exact ⟨_, _, ⟨c, hc, rfl⟩, rfl⟩
  case param => exact ⟨_, .nil, by simp [Gives], rfl⟩
  case capture => exact ⟨_, .cell, by simp [Gives], rfl⟩
  case box => exact ⟨_, .cell, rfl, rfl⟩
  case unbox => exact ⟨_, .nil, by simp [Gives], rfl⟩
  case operate op dst l r checked =>
    obtain ⟨a, ha⟩ := hval (r := l) (by simp [Instr.inputs])
    obtain ⟨b, hb⟩ := hval (r := r) (by simp [Instr.inputs])
    obtain ⟨κ, hκ⟩ := exists_gives op a b
    exact ⟨_, κ, ⟨a, b, ha, hb, hκ⟩, rfl⟩
  case test => exact ⟨_, .bool true, ⟨true, rfl⟩, rfl⟩
  case testType dst src ty =>
    obtain ⟨a, ha⟩ := hval (r := src) (by simp [Instr.inputs])
    exact ⟨_, _, ⟨a, ha, rfl⟩, rfl⟩
  case flag dst b => exact ⟨_, .bool b, rfl, rfl⟩
  case field => exact ⟨_, .str, by simp [Gives], rfl⟩
  case make => exact ⟨_, _, rfl, rfl⟩
  case merge dst =>
    obtain ⟨κ, hκ⟩ := hneeds
    exact ⟨_, κ, hκ, rfl⟩
  case move dst src =>
    obtain ⟨κ, hκ⟩ := hval (r := src) (by simp [Instr.inputs])
    exact ⟨_, κ, hκ, rfl⟩
  case call => exact ⟨_, .nil, by simp, rfl⟩
  case allocClosure => exact ⟨_, .shell, rfl, rfl⟩
  case guard src ty => exact absurd rfl (hg src ty)
  case ret => cases ht
  case tailCall => cases ht
  case done => cases ht
  all_goals exact ⟨_, rfl⟩

end World

end CountedMachine
