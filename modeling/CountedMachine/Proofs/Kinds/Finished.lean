import CountedMachine.Ownership.Balance
import CountedMachine.Proofs.Kinds.Basic

/-! # Finished code

`Reached` follows the environments through finished code, and `Walk` the count that the ownership
analysis keeps for a register, along every path from where the register is created. Code is `Vetted`
when every instruction that is reached can be carried out and the ownership instructions balance:
that is all the machine relies on. A unit works with captures of given kinds (`UnitOk`) when its code
is vetted, with the same promise for the units it makes closures of. -/

namespace CountedMachine

namespace Instr

/-- The places control may go to after an instruction of finished code. -/
def exits (pc : Nat) : Instr Nat → List Nat
  | .branch _ no => [pc + 1, no]
  | .jump target => [target]
  | i => if i.isTerminal then [] else [pc + 1]

/-- What the instruction creates owns a reference from the start. -/
def createsOwner {L : Type} : Instr L → Bool
  | .merge _ => true
  | .allocClosure _ => true
  | _ => false

/-- An instruction of finished code as one of a listing. -/
def placed (i : Instr Nat) : Instr NodeId := i.relabel NodeId.mk

end Instr

/-- **The count of a register** along the paths from its creation. -/
inductive Walk (code : Array (Instr Nat)) (r : Reg) : Nat → Holding → Prop
  | born {pc pc' : Nat} {i : Instr Nat} : code[pc]? = some i → i.creates = some r → pc' ∈ i.exits pc →
    Walk code r pc' ⟨if i.createsOwner then 1 else 0, false⟩
  | step {pc pc' : Nat} {i : Instr Nat} {st : Holding} : Walk code r pc st → code[pc]? = some i → pc' ∈ i.exits pc →
    Walk code r pc' (st.advance r i.placed)

namespace World

variable (w : World)

/-- **Where control goes** after an instruction, and how the environment changes on the way. -/
def Goes {L : Type} (ρ : Env) (i : Instr L) (next : Option L) (ρ' : Env) (b : L) : Prop :=
  match i with
  | .branch cond no => ρ' = ρ ∧ ((ρ.regs cond = .val (.bool true) ∧ next = some b) ∨
    (ρ.regs cond = .val (.bool false) ∧ b = no))
  | .jump target => ρ' = ρ ∧ b = target
  | i => w.Fires ρ i ρ' ∧ next = some b

/-- **The environments in which a place is reached.** -/
inductive Reached (code : Array (Instr Nat)) : Nat → Env → Prop
  | start : Reached code 0 .start
  | step {pc pc' : Nat} {ρ ρ' : Env} {i : Instr Nat} : Reached code pc ρ → code[pc]? = some i →
    w.Goes ρ i (some (pc + 1)) ρ' pc' → Reached code pc' ρ'

/-- **What the machine relies on.** -/
structure Vetted (code : Array (Instr Nat)) : Prop where
  safe : ∀ {pc : Nat} {ρ : Env}, w.Reached code pc ρ → ∃ i, code[pc]? = some i ∧ w.Safe ρ i
  forward : ∀ {pc pc' : Nat} {i : Instr Nat}, code[pc]? = some i → pc' ∈ i.exits pc → pc < pc' ∧ pc' < code.size
  single : ∀ {pc pc' : Nat} {i i' : Instr Nat} {r : Reg}, ¬ w.Uncounted r → code[pc]? = some i → i.creates = some r →
    code[pc']? = some i' → i'.creates = some r → pc = pc'
  balanced : ∀ {r : Reg} {pc : Nat} {i : Instr Nat} {st : Holding}, ¬ w.Uncounted r →
    Walk code r pc st → code[pc]? = some i → ∃ st', st.observe r ⟨pc⟩ i.placed = .ok st' ∧
      (i.isTerminal = true → st' = ⟨0, true⟩)
  acquired : ∀ {pc : Nat} {i : Instr Nat} {r : Reg}, ¬ w.Uncounted r → code[pc]? = some i → i.creates = some r →
    i.createsOwner = false → code[pc + 1]? = some (.adjust .inc r) ∨
      code[pc + 1]? = some (.adjust .drop r)
  adjusts : ∀ {pc : Nat} {op : CountOp} {r : Reg}, code[pc]? = some (.adjust op r) → ¬ w.Uncounted r ∧
    (op = .unref ∨ ∃ (pc' : Nat) (i : Instr Nat), pc = pc' + 1 ∧ code[pc']? = some i ∧ i.creates = some r ∧
      i.createsOwner = false)
  created : ∀ {pc : Nat} {op : CountOp} {r : Reg}, code[pc]? = some (.adjust op r) →
    ∃ (pc' : Nat) (i : Instr Nat), pc' < pc ∧ code[pc']? = some i ∧ i.creates = some r

variable {w} {code : Array (Instr Nat)}

/-- The environments do not depend on what is promised of other units. -/
theorem Reached.of_ok {ok : UnitId → List Bool → Prop} {pc : Nat} {ρ : Env}
    (h : World.Reached { w with ok := ok } code pc ρ) : w.Reached code pc ρ := by
  induction h with
  | start => exact .start
  | @step pc pc' ρ ρ' i _ hi hg ih =>
    refine ih.step hi ?_
    cases i <;> exact hg

/-- Nor is there less to rely on where more is promised. -/
theorem Vetted.mono {ok : UnitId → List Bool → Prop} (h : w.Vetted code)
    (hok : ∀ {u ms}, w.ok u ms → ok u ms) : World.Vetted { w with ok := ok } code where
  safe hr := by
    obtain ⟨i, hi, hnoted, hreads, hneeds, hunheld, hshields⟩ := h.safe hr.of_ok
    refine ⟨i, hi, fun r κ hκ => ?_, hreads, ?_, hunheld, hshields⟩
    · obtain ⟨huncounted, hrecorded, hnarrowed, hknown⟩ := hnoted r κ hκ
      exact ⟨huncounted, hrecorded, hnarrowed, hknown⟩
    cases i
    case finishClosure dst unit caps =>
      obtain ⟨hdst, hscope, ms, hms, hrest⟩ := hneeds
      exact ⟨hdst, hscope, ms, hok hms, hrest⟩
    all_goals exact hneeds
  forward := h.forward
  single := h.single
  balanced := h.balanced
  acquired := h.acquired
  adjusts := h.adjusts
  created := h.created

end World

/-! ## Units -/

/-- A unit that has come from a body, by a draft that ended in the state, and whose code is vetted, for captures of
which `cells` says which are cells. -/
def UnitCert (settings : Settings) (p : Program) (ok : UnitId → List Bool → Prop) (unit : UnitId)
    (cells : List Bool) (s : GenState) : Prop :=
  ∃ u body, p.units[unit.index]? = some u ∧ Gen.MadeFrom ⟨settings, p.types⟩ u cells body s ∧
    s.regs.size = u.nregs ∧ World.Vetted ⟨p, settings, s, cells, ok⟩ u.code

/-- **A unit works with captures of given kinds**, and so do the units it makes closures of. -/
def UnitOk (settings : Settings) (p : Program) (unit : UnitId) (cells : List Bool) : Prop :=
  ∃ ok : UnitId → List Bool → Prop, (∀ u ms, ok u ms → ∃ s, UnitCert settings p ok u ms s) ∧ ok unit cells

section
variable {settings : Settings} {p : Program} {unit : UnitId} {cells : List Bool} {s : GenState}

theorem UnitOk.cert (h : UnitOk settings p unit cells) : ∃ s, UnitCert settings p (UnitOk settings p) unit cells s := by
  obtain ⟨ok, hcert, hok⟩ := h
  obtain ⟨s, u, body, hu, hmade, hsize, hv⟩ := hcert _ _ hok
  exact ⟨s, u, body, hu, hmade, hsize, hv.mono fun h => ⟨ok, hcert, h⟩⟩

theorem UnitCert.ok (h : UnitCert settings p (UnitOk settings p) unit cells s) : UnitOk settings p unit cells := by
  refine ⟨fun u ms => ∃ s, UnitCert settings p (UnitOk settings p) u ms s, fun u ms hu => ?_, s, h⟩
  obtain ⟨s, c, body, hc, hmade, hsize, hv⟩ := hu
  exact ⟨s, c, body, hc, hmade, hsize, hv.mono UnitOk.cert⟩

end

/-- **The settings with which the program was made**, where it is known to have come from the code
generator. -/
class Program.Origin (p : Program) where
  settings : Settings

/-- The settings with which the program was made. -/
def Program.settings (p : Program) [o : p.Origin] : Settings := o.settings

instance : Nonempty GenState := ⟨{}⟩

/-- **The state that the draft of a unit ended in**, for captures of which `cells` says which are cells. -/
noncomputable def Program.draft (p : Program) [p.Origin] (unit : UnitId) (cells : List Bool) : GenState :=
  Classical.epsilon (UnitCert p.settings p (UnitOk p.settings p) unit cells)

theorem UnitOk.draft {p : Program} [p.Origin] {unit : UnitId} {cells : List Bool}
    (h : UnitOk p.settings p unit cells) :
    UnitCert p.settings p (UnitOk p.settings p) unit cells (p.draft unit cells) :=
  Classical.epsilon_spec h.cert

end CountedMachine
