import CountedMachine.Proofs.Machine.Sessions
import CountedMachine.Proofs.Matching.Reference

/-! # What code relies on

Checks are left out of code on the strength of what was noted of registers while it was drafted: the type that
is recorded of a register, the type it was narrowed to, and the function it is known to hold. None of it is ever
taken back, so the last state of the draft has all of it (`GenState.Later`).

At every instruction that is reached, what was noted of a register holds of the value in it (`Working.honors`),
if the instruction reads it, or if it has been filled on every way there (`Bypasses`) and its life has not ended.
What an instruction without its check relies on is so as well (`Working.backed`). -/

namespace CountedMachine

open Heap

/-- **There is a way to the place** on which the register is not created. -/
inductive Bypasses (code : Array (Instr Nat)) (r : Reg) : Nat → Prop
  | start : Bypasses code r 0
  | step {pc pc' : Nat} {i : Instr Nat} : Bypasses code r pc → code[pc]? = some i → i.creates ≠ some r →
    pc' ∈ i.exits pc → Bypasses code r pc'

/-- **The register holds a value that may still be used:** the instruction reads it, or it has been created on every
way there, and its ownership is not managed or its life has not ended. -/
def Running.Retains (p : Program) (s : Running) (d : GenState) (i : Instr Nat) (r : Reg) : Prop :=
  r ∈ i.inputs ∨ (¬ Bypasses (p.codeOf s.cur.unit) r s.cur.pc ∧
    ((∃ f, d.regs[r.index]? = some f ∧ f.counted = false) ∨ Alive (p.codeOf s.cur.unit) s.cur.pc r))

theorem Has.typeOf {h : Heap} {v : Value} {κ : Kind} (hv : Has h v κ) : h.typeOf v = some κ.type := by
  cases v with
  | obj r =>
    obtain ⟨⟨rc, o⟩, hr, hf⟩ := hv
    simp only [Heap.typeOf, hr, Option.map_some, Option.some.injEq]
    cases o with
    | closure k => rcases hf with rfl | rfl | ⟨rfl, -⟩ <;> rfl
    | _ => cases hf; rfl
  | _ => cases hv; rfl

end CountedMachine
