import CountedMachine.Ownership.Tidy
import CountedMachine.Proofs.Code.Thinned
import CountedMachine.Proofs.Kinds.Finished

/-! # Code without idle loads

A load of nil, of a parameter or of a capture does nothing when its register is never read. Finished code
is tidied by leaving out the loads of such registers and the ownership instructions on them
(`CodeUnit.tidied`). Which constants are nil is a parameter, one for each unit of a program: a unit may
have been tidied when fewer constants were known. -/

namespace CountedMachine

namespace Instr

/-- The register that is loaded without effect. -/
def idle? (isNil : ConstId → Bool) (i : Instr Nat) : Option Reg := Listing.idleLoad? isNil i.placed

/-- The register that a load or an ownership instruction is about. -/
def about? (i : Instr Nat) : Option Reg := Listing.loadOrAdjust? i.placed

/-- The instruction is not about one of the registers. -/
def spares (idle : List Reg) (i : Instr Nat) : Bool := !i.about?.any idle.contains

end Instr

/-- **The registers that are loaded without effect** and never read. -/
def idleRegs (isNil : ConstId → Bool) (code : List (Instr Nat)) : List Reg :=
  (code.filterMap (·.idle? isNil)).filter fun r => code.all fun i => !i.reads r

/-- **A unit without its idle loads.** -/
def CodeUnit.tidied (isNil : ConstId → Bool) (u : CodeUnit) : CodeUnit :=
  { u with code := (thin (·.spares (idleRegs isNil u.code.toList)) u.code.toList).toArray }

/-- **A program without its idle loads.** -/
def Program.tidied (isNil : Nat → ConstId → Bool) (p : Program) : Program :=
  { p with units := p.units.mapIdx fun k u => u.tidied (isNil k) }

/-- An idle register that is counted is dropped, and nothing else is done to it. -/
def DropsIdle (isNil : ConstId → Bool) (code : List (Instr Nat)) : Prop :=
  ∀ {op : CountOp} {r : Reg}, .adjust op r ∈ code → r ∈ idleRegs isNil code → op = .drop

variable {isNil : ConstId → Bool} {code : List (Instr Nat)} {idle : List Reg} {i : Instr Nat} {r : Reg}

theorem mem_idleRegs : r ∈ idleRegs isNil code ↔
    (∃ i ∈ code, i.idle? isNil = some r) ∧ ∀ i ∈ code, i.reads r = false := by
  simp [idleRegs, List.mem_filter, List.mem_filterMap]

theorem Instr.spares_eq_false : i.spares idle = false ↔ ∃ r ∈ idle, i.about? = some r := by
  cases h : i.about? <;> simp [spares, h]

theorem Instr.about?_eq_some : i.about? = some r ↔ (∃ k, i = .const r k) ∨ (∃ n, i = .param r n) ∨
    (∃ n, i = .capture r n) ∨ ∃ op, i = .adjust op r := by
  cases i <;> simp [about?, placed, relabel, Listing.loadOrAdjust?, and_comm]

theorem Instr.idle?_eq_some : i.idle? isNil = some r ↔ (∃ k, i = .const r k ∧ isNil k = true) ∨
    (∃ n, i = .param r n) ∨ ∃ n, i = .capture r n := by
  cases i <;> simp [idle?, placed, relabel, Listing.idleLoad?, and_comm]

theorem Instr.about?_of_idle? (h : i.idle? isNil = some r) : i.about? = some r := by
  rcases idle?_eq_some.mp h with ⟨k, rfl, -⟩ | ⟨n, rfl⟩ | ⟨n, rfl⟩ <;> rfl

theorem Instr.creates_of_idle? (h : i.idle? isNil = some r) : i.creates = some r := by
  rcases idle?_eq_some.mp h with ⟨k, rfl, -⟩ | ⟨n, rfl⟩ | ⟨n, rfl⟩ <;> rfl

theorem Instr.notMem_of_spares (h : i.spares idle = true) (hi : i.about? = some r) : r ∉ idle := by
  intro hr
  rw [spares_eq_false.mpr ⟨r, hr, hi⟩] at h
  cases h

/-- Idle registers are not read. -/
theorem notMem_idleRegs (hi : i ∈ code) (hr : r ∈ i.inputs) : r ∉ idleRegs isNil code := by
  intro hidle
  have := (mem_idleRegs.mp hidle).2 i hi
  simp [Instr.reads, hr] at this

namespace World.Vetted

variable {w : World} {code : Array (Instr Nat)} {pc : Nat} {op : CountOp}

/-- **An idle register that is counted** is filled by an idle load. -/
theorem idle?_eq_some (hv : w.Vetted code) (hr : ¬ w.Uncounted r) (hidle : r ∈ idleRegs isNil code.toList)
    (hi : code[pc]? = some i) (hcr : i.creates = some r) : i.idle? isNil = some r := by
  obtain ⟨⟨j, hj, hload⟩, -⟩ := mem_idleRegs.mp hidle
  obtain ⟨pc', hpc'⟩ := List.mem_iff_getElem?.mp hj
  rw [Array.getElem?_toList] at hpc'
  obtain rfl := hv.single hr hi hcr hpc' (Instr.creates_of_idle? hload)
  obtain rfl := Option.some.inj (hi.symm.trans hpc')
  exact hload

/-- **An idle register is dropped** right after it is loaded. -/
theorem adjust_idle (hv : w.Vetted code) (hdrops : DropsIdle isNil code.toList)
    (hi : code[pc]? = some (.adjust op r)) (hidle : r ∈ idleRegs isNil code.toList) :
    op = .drop ∧ ∃ (pc' : Nat) (i : Instr Nat), pc = pc' + 1 ∧ code[pc']? = some i ∧ i.idle? isNil = some r := by
  obtain rfl : op = .drop := hdrops (by simpa using Array.mem_of_getElem? hi) hidle
  obtain ⟨hr, e | ⟨pc', i, rfl, hi', hcr, -⟩⟩ := hv.adjusts hi
  · cases e
  · exact ⟨rfl, pc', i, rfl, hi', hv.idle?_eq_some hr hidle hi' hcr⟩

/-- No code that runs lets go of a register without giving it up. -/
theorem adjust_ne_dec (hv : w.Vetted code) (hi : code[pc]? = some (.adjust op r)) : op ≠ .dec := by
  rintro rfl
  obtain ⟨hr, e | ⟨pc', i, rfl, hi', hcr, hown⟩⟩ := hv.adjusts hi
  · cases e
  · rcases hv.acquired hr hi' hcr hown with e | e <;> cases hi.symm.trans e

/-- The result of a call may be anything, so it is counted. -/
theorem counted_of_call {dst func : Reg} {nargs : Nat} {checked : Bool} {ρ : Env} (hv : w.Vetted code)
    (hreach : w.Reached code pc ρ) (hi : code[pc]? = some (.call dst func nargs checked)) :
    ¬ w.Uncounted dst := by
  intro hu
  have hgo : w.Goes ρ (.call dst func nargs checked) (some (pc + 1))
      { ρ.set dst (.val .str) with pushed := 0 } (pc + 1) := ⟨⟨.str, by simp, rfl⟩, rfl⟩
  obtain ⟨j, -, hs⟩ := hv.safe (hreach.step hi hgo)
  exact absurd (hs.modest dst .str (by simp [Status.kind?]) hu) (by decide)

end World.Vetted

end CountedMachine
