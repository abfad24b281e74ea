import CountedMachine.Proofs.Code.Thinned

/-! # Code without traces

Finished code may note the places that errors come through. `untrace` leaves these instructions out;
labels are then the positions that are left (`rank`). What stands at a place still stands at its rank
(`getElem?_untrace`), and stepping over a trace does not change the rank.

An error value is returned right after its place is noted: such code is `Returning`. -/

namespace CountedMachine

namespace Instr

variable {L M : Type}

/-- The instruction notes a place on an error value. -/
def isTrace : Instr L → Bool
  | .trace _ _ => true
  | _ => false

@[simp] theorem isTrace_relabel (f : L → M) (i : Instr L) : (i.relabel f).isTrace = i.isTrace := by
  cases i <;> rfl

theorem exists_of_isTrace {i : Instr L} (h : i.isTrace = true) : ∃ r loc, i = .trace r loc := by
  cases i <;> simp_all [isTrace]

section
variable {f : L → M} {i : Instr L} {r : Reg}

theorem eq_trace_of_relabel {loc : Location} (h : i.relabel f = .trace r loc) : i = .trace r loc := by
  cases i <;> cases h
  rfl

theorem eq_ret_of_relabel (h : i.relabel f = .ret r) : i = .ret r := by
  cases i <;> cases h
  rfl

theorem eq_adjust_of_relabel {op : CountOp} (h : i.relabel f = .adjust op r) : i = .adjust op r := by
  cases i <;> cases h
  rfl

theorem eq_branch_of_relabel {no : M} (h : i.relabel f = .branch r no) : ∃ no', i = .branch r no' ∧ no = f no' := by
  cases i <;> cases h
  exact ⟨_, rfl, rfl⟩

end

end Instr

/-! ## Positions that are left -/

/-- The instructions before a position that are no traces. -/
def rank (code : List (Instr Nat)) (pc : Nat) : Nat := (code.take pc).countP fun i => !i.isTrace

/-- **The code without its traces.** -/
def untrace (code : List (Instr Nat)) : List (Instr Nat) :=
  (code.filter fun i => !i.isTrace).map (·.relabel (rank code))

section
variable {code : List (Instr Nat)} {pc : Nat} {i : Instr Nat}

@[simp] theorem rank_zero (code : List (Instr Nat)) : rank code 0 = 0 := rfl

theorem rank_eq (code : List (Instr Nat)) : rank code = placeIn (fun i => !i.isTrace) code := rfl

theorem rank_succ (h : code[pc]? = some i) :
    rank code (pc + 1) = if i.isTrace then rank code pc else rank code pc + 1 := by
  rw [rank_eq, placeIn_succ h]
  cases i.isTrace <;> rfl

/-- **What stands at a place** stands at its rank. -/
theorem getElem?_untrace (h : code[pc]? = some i) (hi : i.isTrace = false) :
    (untrace code)[rank code pc]? = some (i.relabel (rank code)) :=
  getElem?_thin h (by simp [hi])

/-- Behind the code there is nothing. -/
theorem getElem?_untrace_none (h : code[pc]? = none) : (untrace code)[rank code pc]? = none :=
  getElem?_thin_none h

end

/-! ## Units and programs -/

/-- **A unit without its traces.** -/
def CodeUnit.untraced (u : CodeUnit) : CodeUnit := { u with code := (untrace u.code.toList).toArray }

/-- **A program without its traces.** -/
def Program.untraced (p : Program) : Program := { p with units := p.units.map CodeUnit.untraced }

/-- **An error value is returned right after its place is noted.** -/
def Returning (code : List (Instr Nat)) : Prop :=
  ∀ {pc : Nat} {r : Reg} {loc : Location}, code[pc]? = some (.trace r loc) →
    code[pc + 1]? = some (.ret r)

/-- The units of a program return error values where they note a place. -/
def Program.Returning (p : Program) : Prop :=
  ∀ {k : Nat} {u : CodeUnit}, p.units[k]? = some u → CountedMachine.Returning u.code.toList

end CountedMachine
