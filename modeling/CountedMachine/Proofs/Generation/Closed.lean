import CountedMachine.Proofs.Generation.Accepted
import CountedMachine.Proofs.Generation.Ordering

/-! # Compiled programs are closed

Nothing in a compiled program names what is not there (`Program.Closed`): registers, constants,
parameters, captures, units and structs, and the places that branches and jumps lead to. Every unit
ends, also the units of nested functions, which take their place among the units before there is code
for them. -/

namespace CountedMachine

open Gen

/-- What a unit of a program may name. -/
def Program.realm (p : Program) (calls : Prop) (u : CodeUnit) : Realm :=
  ⟨u.nregs, u.arity, u.ncaps, p.consts.size, fun k => p.units[k]?.map (·.ncaps), p.types, calls, True⟩

/-- **The code of a unit names nothing but what is there**, its branches and jumps stay within it, and
it ends. -/
structure CodeUnit.Closed (p : Program) (u : CodeUnit) : Prop where
  apt : ∀ i ∈ u.code, i.Apt (p.realm True u)
  targets : ∀ i ∈ u.code, ∀ t, i.label? = some t → t < u.code.size
  ends : u.code.back? = some .done

/-- **A program that is closed**: so are its units, the closures among its constants name units
without captures, and there is a unit to start with, without parameters and captures. -/
structure Program.Closed (p : Program) : Prop where
  units : ∀ u ∈ p.units, u.Closed p
  closures : ∀ unit, .closure unit ∈ p.consts → ∃ u, p.units[unit.index]? = some u ∧ u.ncaps = 0
  entry : ∃ u, p.units[p.entry.index]? = some u ∧ u.arity = 0 ∧ u.ncaps = 0

namespace SourceModule

variable {m : SourceModule} {settings : Settings} {p : Program}

/-- **What is left of code generation** when a module is compiled: the units are in order, without
calls other than tail calls where the module makes tail calls only, and without cells where it has no
mutable bindings. -/
theorem compile_ordered (calls cells : Prop) (hp : m.compile settings = .ok p)
    (hcalls : calls ∨ m.body.tailCalls true = true) (hcells : cells ∨ m.body.immutable = true) :
    (∀ u ∈ p.units, u.Finished { p.realm calls u with cells := cells }) ∧
      (∀ unit, .closure unit ∈ p.consts → ∃ u, p.units[unit.index]? = some u ∧ u.ncaps = 0) ∧
      ∃ u, p.units[p.entry.index]? = some u ∧ u.arity = 0 ∧ u.ncaps = 0 := by
  let b : Brief := ⟨⟨settings, m.types.toArray⟩, 0, 0, [], calls, cells⟩
  have hstart : InOrder b [] {} := by
    refine ⟨⟨[(Listing.head, .nop)], Listing.linked_empty, rfl, by simp, ?_, by simp [Instr.label?],
      rfl⟩, by simp, by simp, by simp, by simp, by simp⟩
    simpa using ⟨by simp [Instr.operands], trivial⟩
  unfold compile at hp
  dsimp only at hp
  split at hp
  · next entry s run =>
    obtain rfl := Except.ok.inj hp
    obtain ⟨ho, -, hentry⟩ := (genExpr_works b.ctx _).buildUnit hstart "main" 0 [] (by simp)
      ⟨hcalls, hcells⟩ entry s run
    refine ⟨fun u hu => ?_, fun unit hunit => ?_, hentry⟩
    · obtain ⟨k, hk⟩ := Array.getElem?_of_mem hu
      exact (ho.units k u hk).resolve_left (by simp [b])
    · obtain ⟨k, hk⟩ := Array.getElem?_of_mem hunit
      obtain ⟨u, hu, hncaps⟩ := Option.map_eq_some_iff.mp (ho.pool k unit hk)
      exact ⟨u, hu, hncaps⟩
  · cases hp

/-- **Compiled programs are closed.** -/
theorem compile_closed (hp : m.compile settings = .ok p) : p.Closed := by
  obtain ⟨hunits, hclosures, hentry⟩ := compile_ordered True True hp (Or.inl trivial)
    (Or.inl trivial)
  refine ⟨fun u hu => ⟨(hunits u hu).apt, fun i hi t ht => ?_, (hunits u hu).last⟩, hclosures, hentry⟩
  obtain ⟨j, hj, -⟩ := (hunits u hu).aimed i hi t ht
  exact (Array.getElem?_eq_some_iff.mp hj).1

/-- The program that counts down is closed. -/
theorem compile_closed_countdown : ∃ p, countdown.compile {} = .ok p ∧ p.Closed := by
  obtain ⟨p, hp⟩ := compile_countdown {}
  exact ⟨p, hp, compile_closed hp⟩

end SourceModule

end CountedMachine
