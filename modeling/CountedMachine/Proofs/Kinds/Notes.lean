import CountedMachine.Generation.Expression

/-! # What is noted of registers

While a unit is drafted, it is noted of registers which type their values have, which one they have
where they are no errors, and which known function they hold; code is generated on the strength of
these notes. `Gen.MadeFrom` gives the state of the draft from which the code of a unit has come. -/

namespace CountedMachine

/-- The registers made so far. -/
def GenState.regs (s : GenState) : Array RegFacts := s.draft.listing.regs

namespace Gen

/-- The code of a unit, before it is finished. -/
def drafting (sub : Sub) (arity : Nat) (caps : List Bool) (body : Expr) : Gen Unit := do
  loadCaptures 0 caps
  loadParams 0 arity
  sub.tail body

/-- **The unit has come from a body**, `caps` saying which of its captures are cells: the state in which
its code was complete is `s`. -/
structure MadeFrom (ctx : Context) (u : CodeUnit) (caps : List Bool) (body : Expr) (s : GenState) : Prop where
  ncaps : u.ncaps = caps.length
  run : ∃ fuel s₀, s₀.draft = {} ∧
    (drafting (.of (genExpr ctx fuel)) u.arity caps body).run s₀ = .ok ((), s)
  finish : finishListing ctx.settings s.pool u.name s.draft.listing = .ok (u.code, u.nregs)

end Gen

/-- **The unit is that of the known function.** -/
def KnownFunction.Runs (ctx : Context) (p : Program) (f : KnownFunction) (unit : UnitId) : Prop :=
  ∃ u s, p.units[unit.index]? = some u ∧ u.arity = f.arity ∧ Gen.MadeFrom ctx u [] f.body s

namespace Instr

variable {L : Type}

/-- **The instruction may meet an error value** in a register whose type has been narrowed: it belongs
to the check for errors, or does not look at values. -/
def Spares (i : Instr L) (r : Reg) : Prop :=
  match i with
  | .testType _ src ty => src = r ∧ ty = .undefined
  | .trace src _ => src = r
  | .ret src => src = r
  | .branch _ _ => True
  | .jump _ => True
  | .nop => True
  | .adjust _ _ => True
  | _ => False

@[simp] theorem spares_relabel {K : Type} (i : Instr L) (g : L → K) (r : Reg) :
    (i.relabel g).Spares r ↔ i.Spares r := by
  cases i <;> exact Iff.rfl

end Instr

end CountedMachine
