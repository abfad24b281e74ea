import CountedMachine.Proofs.Kinds.Finished
import CountedMachine.Proofs.Ownership.Borrows

/-! # What registers own in finished code

In vetted code the count that the ownership analysis keeps for a register depends on the place alone
(`Vetted.walk_unique`): control only goes forward and on every path the life of the register ends
once. A register is alive with one reference, dead, or holds a value nobody has acquired yet, right
after the instruction that created it (`Vetted.walk_cases`).

`owned` is the number of references that a register owns at a place. A value on its way to a merge
counts from the move on, and the merge still lies ahead then (`Vetted.merge_ahead`). -/

namespace CountedMachine

namespace Holding

variable {st st' st₁ : Holding} {r : Reg} {a : NodeId} {i : Instr NodeId}

/-- What an instruction does to a register without objection. -/
theorem observe_cases (h : st.observe r a i = .ok st') :
    (i.reads r = false ∧ (∀ op, i ≠ .adjust op r) ∧ st' = st) ∨
      st.dead = false ∧ ((∃ op, i = .adjust op r ∧ st.Fits op ∧ st' = st.applyOp op) ∨
        (i.reads r = true ∧ i.consumes r = true ∧ st.count ≠ 0 ∧ st' = ⟨st.count - 1, true⟩) ∨
        (i.reads r = true ∧ i.consumes r = false ∧ st' = st)) := by
  by_cases hadj : ∃ op, i = .adjust op r
  · obtain ⟨op, rfl⟩ := hadj
    have hd : st.dead = false := by
      by_contra hd
      simp [observe, eq_true_of_ne_false hd] at h
    refine Or.inr ⟨hd, Or.inl ⟨op, rfl, ?_⟩⟩
    have hf : st.Fits op := by
      by_contra hf
      cases op <;> simp_all [observe, adjust, Fits]
    rw [observe_adjust hd hf] at h
    exact ⟨hf, (Except.ok.inj h).symm⟩
  · simp only [not_exists] at hadj
    cases hr : i.reads r with
    | false =>
      rw [observe_unread hadj hr] at h
      exact Or.inl ⟨rfl, hadj, (Except.ok.inj h).symm⟩
    | true =>
      have hobs : (if st.dead then .error (.touchedDead r a) else st.read r a i) = .ok st' := by
        cases i
        case adjust => cases hr
        all_goals simpa [observe, hr] using h
      split_ifs at hobs with hd
      refine Or.inr ⟨by simpa using hd, Or.inr ?_⟩
      unfold read at hobs
      split_ifs at hobs with hc h0
      · exact Or.inl ⟨rfl, hc, h0, (Except.ok.inj hobs).symm⟩
      · exact Or.inr ⟨rfl, by simpa using hc, (Except.ok.inj hobs).symm⟩

/-- What a register was before an instruction can be told from what it is after it. -/
theorem observe_injective (h : st.observe r a i = .ok st₁) (h' : st'.observe r a i = .ok st₁) :
    st = st' := by
  obtain ⟨n, d⟩ := st
  obtain ⟨n', d'⟩ := st'
  rcases observe_cases h with ⟨hr, hadj, rfl⟩ | ⟨hd, ⟨op, rfl, hf, rfl⟩ | ⟨hr, hc, h0, rfl⟩ | ⟨hr, hc, rfl⟩⟩
  · rcases observe_cases h' with ⟨-, -, e⟩ | ⟨-, ⟨op, e, -⟩ | ⟨hr', -⟩ | ⟨hr', -⟩⟩
    · exact e
    · exact absurd e (hadj op)
    · rw [hr] at hr'; cases hr'
    · rw [hr] at hr'; cases hr'
  · rcases observe_cases h' with ⟨-, hadj, -⟩ | ⟨hd', ⟨op', e, hf', e'⟩ | ⟨hr', -⟩ | ⟨hr', -⟩⟩
    · exact absurd rfl (hadj op)
    · cases e
      cases op <;> simp_all [applyOp, Fits] <;> omega
    · cases hr'
    · cases hr'
  · rcases observe_cases h' with ⟨hr', -⟩ | ⟨hd', ⟨op', rfl, -⟩ | ⟨-, -, h0', e⟩ | ⟨-, hc', -⟩⟩
    · rw [hr] at hr'; cases hr'
    · cases hr
    · simp_all
      omega
    · rw [hc] at hc'; cases hc'
  · rcases observe_cases h' with ⟨hr', -⟩ | ⟨hd', ⟨op', rfl, -⟩ | ⟨-, hc', -⟩ | ⟨-, -, e⟩⟩
    · rw [hr] at hr'; cases hr'
    · cases hr
    · rw [hc] at hc'; cases hc'
    · exact e

end Holding

namespace Instr

variable {i : Instr Nat} {pc pc' : Nat} {r : Reg}

@[simp] theorem reads_placed (i : Instr Nat) (r : Reg) : i.placed.reads r = i.reads r :=
  reads_relabel _ i r

@[simp] theorem consumes_placed (i : Instr Nat) (r : Reg) : i.placed.consumes r = i.consumes r :=
  consumes_relabel _ i r

theorem placed_eq_adjust {op : CountOp} : i.placed = .adjust op r ↔ i = .adjust op r := by
  constructor
  · intro h
    cases i <;> cases h
    rfl
  · rintro rfl
    rfl

theorem exits_of_creates (h : i.creates = some r) : i.exits pc = [pc + 1] := by
  cases i <;> first | rfl | cases h

theorem exits_ne_nil (pc : Nat) (h : i.isTerminal = false) : ∃ pc', pc' ∈ i.exits pc := by
  cases i
  case branch cond no => exact ⟨pc + 1, by simp [exits]⟩
  case jump target => exact ⟨target, by simp [exits]⟩
  case ret => cases h
  case tailCall => cases h
  case done => cases h
  all_goals exact ⟨pc + 1, by simp [exits, isTerminal]⟩

/-- The registers an instruction fills, on their way to a merge or for good. -/
def fills {L : Type} : Instr L → Option Reg
  | .move dst _ => some dst
  | .finishClosure dst _ _ => some dst
  | i => i.creates

theorem fills_of_creates (h : i.creates = some r) : i.fills = some r := by
  cases i <;> first | exact h | cases h

end Instr

namespace World

variable {w : World} {code : Array (Instr Nat)} {pc pc' : Nat} {r : Reg} {st st' : Holding}
  {ρ ρ' : Env} {i : Instr Nat} {κ : Kind}

/-! ## Where control goes -/

theorem Goes.mem_exits (h : w.Goes ρ i (some (pc + 1)) ρ' pc') : pc' ∈ i.exits pc := by
  cases i
  case branch cond no =>
    obtain ⟨-, ⟨-, h⟩ | ⟨-, rfl⟩⟩ := h
    · rw [← Option.some.inj h]
      simp [Instr.exits]
    · simp [Instr.exits]
  case jump target =>
    obtain ⟨-, rfl⟩ := h
    simp [Instr.exits]
  case ret => exact h.1.elim
  case tailCall => exact h.1.elim
  case done => exact h.1.elim
  all_goals
    rw [← Option.some.inj h.2]
    simp [Instr.exits, Instr.isTerminal]

/-- Registers that are not filled stay as they are. -/
theorem Goes.regs_of_ne {next : Option Nat} (h : w.Goes ρ i next ρ' pc') (hr : i.fills ≠ some r) :
    ρ'.regs r = ρ.regs r := by
  cases i
  case branch => rw [h.1]
  case jump => rw [h.1]
  case merge dst =>
    obtain ⟨⟨κ, -, rfl⟩, -⟩ := h
    exact ρ.set_of_ne _ fun e => hr (by rw [e]; rfl)
  case move dst src =>
    obtain ⟨⟨κ, -, rfl⟩, -⟩ := h
    exact ρ.set_of_ne _ fun e => hr (by rw [e]; rfl)
  case finishClosure dst unit caps =>
    obtain ⟨rfl, -⟩ := h
    exact ρ.set_of_ne _ fun e => hr (by rw [e]; rfl)
  case beginScope => obtain ⟨rfl, -⟩ := h; rfl
  case endScope => obtain ⟨rfl, -⟩ := h; rfl
  case guard => obtain ⟨⟨-, rfl⟩, -⟩ := h; rfl
  case push => obtain ⟨rfl, -⟩ := h; rfl
  case call dst func nargs checked =>
    obtain ⟨⟨κ, -, rfl⟩, -⟩ := h
    exact ρ.set_of_ne _ fun e => hr (by rw [e]; rfl)
  case ret => exact h.1.elim
  case tailCall => exact h.1.elim
  case done => exact h.1.elim
  case nop => obtain ⟨rfl, -⟩ := h; rfl
  case assign => obtain ⟨rfl, -⟩ := h; rfl
  case yield => obtain ⟨rfl, -⟩ := h; rfl
  case trace => obtain ⟨rfl, -⟩ := h; rfl
  case adjust => obtain ⟨rfl, -⟩ := h; rfl
  all_goals
    obtain ⟨⟨κ, -, rfl⟩, -⟩ := h
    exact ρ.set_of_ne _ fun e => hr (by rw [e]; rfl)

/-- What is put into a register: a value on its way, or a value; closures without code are allocated
or come from a merge. -/
theorem Goes.filled {next : Option Nat} (h : w.Goes ρ i next ρ' pc') (hr : i.fills = some r) :
    (∃ src κ, i = .move r src ∧ ρ.regs src = .val κ ∧ ρ'.regs r = .held κ) ∨
      ∃ κ, ρ'.regs r = .val κ ∧
        (κ = .shell → i = .allocClosure r ∨ (i = .merge r ∧ ρ.regs r = .held κ)) := by
  have hmake : (∃ κ, w.Gives ρ i κ ∧ ρ' = ρ.set r (.val κ)) → (∀ {κ}, w.Gives ρ i κ → κ ≠ .shell) →
      ∃ κ, ρ'.regs r = .val κ ∧
        (κ = .shell → i = .allocClosure r ∨ (i = .merge r ∧ ρ.regs r = .held κ)) := by
    rintro ⟨κ, hg, rfl⟩ hne
    exact ⟨κ, ρ.set_self _, fun e => absurd e (hne hg)⟩
  cases i
  case merge dst =>
    obtain rfl := Option.some.inj hr
    obtain ⟨⟨κ, hκ, rfl⟩, -⟩ := h
    exact Or.inr ⟨κ, ρ.set_self _, fun _ => Or.inr ⟨rfl, hκ⟩⟩
  case move dst src =>
    obtain rfl := Option.some.inj hr
    obtain ⟨⟨κ, hκ, rfl⟩, -⟩ := h
    exact Or.inl ⟨src, κ, rfl, hκ, ρ.set_self _⟩
  case finishClosure dst unit caps =>
    obtain rfl := Option.some.inj hr
    obtain ⟨rfl, -⟩ := h
    exact Or.inr ⟨.fn unit, ρ.set_self _, by simp⟩
  case call dst func nargs checked =>
    obtain rfl := Option.some.inj hr
    obtain ⟨⟨κ, hκ, rfl⟩, -⟩ := h
    exact Or.inr ⟨κ, ρ.set_self _, fun e => absurd e hκ⟩
  case allocClosure dst =>
    obtain rfl := Option.some.inj hr
    obtain ⟨⟨κ, -, rfl⟩, -⟩ := h
    exact Or.inr ⟨κ, ρ.set_self _, fun _ => Or.inl rfl⟩
  case const dst k =>
    obtain rfl := Option.some.inj hr
    exact Or.inr (hmake h.1 fun ⟨c, _, e⟩ => e ▸ Kind.ofConstant_ne_shell c)
  case param => obtain rfl := Option.some.inj hr; exact Or.inr (hmake h.1 fun hg => hg)
  case capture => obtain rfl := Option.some.inj hr; exact Or.inr (hmake h.1 fun hg => hg.1)
  case box => obtain rfl := Option.some.inj hr; exact Or.inr (hmake h.1 fun hg => by rw [hg]; simp)
  case unbox => obtain rfl := Option.some.inj hr; exact Or.inr (hmake h.1 fun hg => hg)
  case operate =>
    obtain rfl := Option.some.inj hr
    exact Or.inr (hmake h.1 fun ⟨_, _, _, _, hg⟩ => hg.whole)
  case test => obtain rfl := Option.some.inj hr; exact Or.inr (hmake h.1 fun ⟨_, hg⟩ => by rw [hg]; simp)
  case testType =>
    obtain rfl := Option.some.inj hr
    exact Or.inr (hmake h.1 fun ⟨_, _, hg⟩ => by rw [hg]; simp)
  case flag => obtain rfl := Option.some.inj hr; exact Or.inr (hmake h.1 fun hg => by rw [hg]; simp)
  case field => obtain rfl := Option.some.inj hr; exact Or.inr (hmake h.1 fun hg => hg.1)
  case make => obtain rfl := Option.some.inj hr; exact Or.inr (hmake h.1 fun hg => by rw [hg]; simp)
  all_goals cases hr

/-- Control goes on unless the instruction ends the path or guards a value. -/
theorem Safe.exists_goes (h : w.Safe ρ i) (pc : Nat) (ht : i.isTerminal = false)
    (hg : ∀ src ty, i ≠ .guard src ty) : ∃ ρ' pc', w.Goes ρ i (some (pc + 1)) ρ' pc' := by
  have hfires := h.exists_fires ht hg
  cases i
  case branch cond no =>
    obtain ⟨b, hb⟩ := h.needs
    cases b with
    | true => exact ⟨ρ, pc + 1, rfl, Or.inl ⟨hb, rfl⟩⟩
    | false => exact ⟨ρ, no, rfl, Or.inr ⟨hb, rfl⟩⟩
  case jump target => exact ⟨ρ, target, rfl, rfl⟩
  all_goals
    obtain ⟨ρ', hf⟩ := hfires
    exact ⟨ρ', pc + 1, hf, rfl⟩

/-! ## The count at a place -/

/-- Nobody has acquired the value in the register yet: it has just been created, and it is acquired
or dropped next. -/
def Floating (code : Array (Instr Nat)) (r : Reg) (pc : Nat) : Prop :=
  ∃ (pc₀ : Nat) (i : Instr Nat), pc = pc₀ + 1 ∧ code[pc₀]? = some i ∧ i.creates = some r ∧
    i.createsOwner = false ∧
      (code[pc₀ + 1]? = some (.adjust .inc r) ∨ code[pc₀ + 1]? = some (.adjust .drop r))

theorem Floating.adjust (h : Floating code r pc) (hi : code[pc]? = some i) :
    i = .adjust .inc r ∨ i = .adjust .drop r := by
  obtain ⟨pc₀, i₀, rfl, -, -, -, hnext⟩ := h
  exact hnext.imp (fun hn => Option.some.inj (hi.symm.trans hn))
    fun hn => Option.some.inj (hi.symm.trans hn)

namespace Vetted

variable (hv : w.Vetted code) (hu : ¬ w.Uncounted r)
include hv

theorem lt_of_walk (h : Walk code r pc st) : pc < code.size := by
  cases h with
  | born hi _ hexit => exact (hv.forward hi hexit).2
  | step _ hi hexit => exact (hv.forward hi hexit).2

/-- A register is created before the places its life leads to. -/
theorem created_before (h : Walk code r pc st) :
    ∃ (pc₀ : Nat) (i : Instr Nat), pc₀ < pc ∧ code[pc₀]? = some i ∧ i.creates = some r := by
  induction h with
  | born hi hcr hexit => exact ⟨_, _, (hv.forward hi hexit).1, hi, hcr⟩
  | step _ hi hexit ih =>
    obtain ⟨pc₀, i₀, hlt, h₀⟩ := ih
    exact ⟨pc₀, i₀, hlt.trans (hv.forward hi hexit).1, h₀⟩

include hu

theorem walk_observe (h : Walk code r pc st) (hi : code[pc]? = some i) :
    st.observe r ⟨pc⟩ i.placed = .ok (st.advance r i.placed) := by
  obtain ⟨st', hobs, -⟩ := hv.balanced hu h hi
  rw [Holding.advance_eq hobs, hobs]

/-- **The count of a register depends on the place alone.** -/
theorem walk_unique (h : Walk code r pc st) (h' : Walk code r pc st') : st = st' := by
  -- from the end of the code backwards: all paths end with the register dead
  induction hn : code.size - pc using Nat.strong_induction_on generalizing pc st st' with
  | _ n ih =>
    subst hn
    have hlt := hv.lt_of_walk h
    obtain ⟨i, hi⟩ : ∃ i, code[pc]? = some i := ⟨_, Array.getElem?_eq_getElem hlt⟩
    have hobs := hv.walk_observe hu h hi
    have hobs' := hv.walk_observe hu h' hi
    have hadv : st.advance r i.placed = st'.advance r i.placed := by
      cases ht : i.isTerminal with
      | true =>
        obtain ⟨s₁, e₁, hend₁⟩ := hv.balanced hu h hi
        obtain ⟨s₂, e₂, hend₂⟩ := hv.balanced hu h' hi
        rw [Holding.advance_eq e₁, Holding.advance_eq e₂, hend₁ ht, hend₂ ht]
      | false =>
        obtain ⟨pc', hexit⟩ := Instr.exits_ne_nil pc ht
        have := hv.forward hi hexit
        exact ih _ (by omega) (h.step hi hexit) (h'.step hi hexit) rfl
    rw [hadv] at hobs
    exact Holding.observe_injective hobs hobs'

theorem walk_of_creates (hi : code[pc]? = some i) (hcr : i.creates = some r)
    (h : Walk code r (pc + 1) st) : st = ⟨if i.createsOwner then 1 else 0, false⟩ :=
  hv.walk_unique hu h (.born hi hcr (by simp [Instr.exits_of_creates hcr]))

/-- **What a register owns**: one reference, nothing any more, or nothing yet. -/
theorem walk_cases (h : Walk code r pc st) :
    st = ⟨1, false⟩ ∨ st = ⟨0, true⟩ ∨ (st = ⟨0, false⟩ ∧ Floating code r pc) := by
  induction h with
  | @born pc pc' i hi hcr hexit =>
    obtain rfl : pc' = pc + 1 := by simpa [Instr.exits_of_creates hcr] using hexit
    cases hown : i.createsOwner with
    | true => exact Or.inl rfl
    | false => exact Or.inr (Or.inr ⟨rfl, pc, i, rfl, hi, hcr, hown, hv.acquired hu hi hcr hown⟩)
  | @step pc pc' i st h hi hexit ih =>
    have hobs := hv.walk_observe hu h hi
    generalize st.advance r i.placed = st₁ at hobs
    rcases Holding.observe_cases hobs with
      ⟨hr, hadj, rfl⟩ | ⟨hd, ⟨op, e, hf, rfl⟩ | ⟨-, -, h0, rfl⟩ | ⟨hr, -, rfl⟩⟩
    · -- the value that floats is acquired or dropped at once
      rcases ih with ih | ih | ⟨-, hfloat⟩
      · exact Or.inl ih
      · exact Or.inr (Or.inl ih)
      · rcases hfloat.adjust hi with rfl | rfl
        · exact absurd rfl (hadj .inc)
        · exact absurd rfl (hadj .drop)
    · obtain rfl := Instr.placed_eq_adjust.mp e
      rcases (hv.adjusts hi).2 with rfl | ⟨pc₀, i₀, rfl, hi₀, hcr₀, hown₀⟩
      · rcases ih with rfl | rfl | ⟨rfl, -⟩
        · exact Or.inr (Or.inl rfl)
        · cases hd
        · exact absurd rfl hf
      · have h0 := hv.walk_of_creates hu hi₀ hcr₀ h
        rw [hown₀] at h0
        subst h0
        cases op with
        | inc => exact Or.inl rfl
        | dec => exact absurd rfl hf
        | drop => exact Or.inr (Or.inl rfl)
        | unref => exact absurd rfl hf
    · rcases ih with rfl | rfl | ⟨rfl, -⟩
      · exact Or.inr (Or.inl rfl)
      · cases hd
      · exact absurd rfl h0
    · rcases ih with ih | ih | ⟨-, hfloat⟩
      · exact Or.inl ih
      · rw [ih] at hd
        cases hd
      · rcases hfloat.adjust hi with rfl | rfl <;> cases hr

omit hu

/-! ## Values and values on their way -/

/-- A register with a value has been created. -/
theorem walk_of_val (h : w.Reached code pc ρ) (hr : ρ.regs r = .val κ) :
    ∃ st, Walk code r pc st := by
  induction h generalizing κ with
  | start => cases hr
  | @step pc pc' ρ ρ' i hreach hi hgo ih =>
    have hexit := hgo.mem_exits
    by_cases hf : i.fills = some r
    · by_cases hcr : i.creates = some r
      · exact ⟨_, .born hi hcr hexit⟩
      · obtain ⟨i', hi', hs⟩ := hv.safe hreach
        obtain rfl := Option.some.inj (hi.symm.trans hi')
        cases i
        case move dst src =>
          obtain rfl := Option.some.inj hf
          obtain ⟨⟨κ', -, rfl⟩, -⟩ := hgo
          rw [Env.set_self] at hr
          cases hr
        case finishClosure dst unit caps =>
          obtain rfl := Option.some.inj hf
          obtain ⟨st, hst⟩ := ih hs.needs.1
          exact ⟨_, hst.step hi hexit⟩
        all_goals exact absurd hf hcr
    · rw [hgo.regs_of_ne hf] at hr
      obtain ⟨st, hst⟩ := ih hr
      exact ⟨_, hst.step hi hexit⟩

/-- **A value on its way has its merge ahead.** -/
theorem merge_ahead (h : w.Reached code pc ρ) (hr : ρ.regs r = .held κ) :
    ∃ pc', pc ≤ pc' ∧ code[pc']? = some (.merge r) := by
  -- control goes on until the path ends, and there no value is on its way
  induction hn : code.size - pc using Nat.strong_induction_on generalizing pc ρ with
  | _ n ih =>
    subst hn
    obtain ⟨i, hi, hs⟩ := hv.safe h
    have hlt := (Array.getElem?_eq_some_iff.mp hi).1
    have hcalm : ¬ ρ.Calm := fun hc => by
      rcases hc.regs r with e | ⟨κ', e, -⟩ <;> cases e.symm.trans hr
    by_cases hm : i = .merge r
    · exact ⟨pc, le_rfl, hm ▸ hi⟩
    have hfill : i.fills ≠ some r := by
      intro hf
      cases i
      case move dst src =>
        obtain rfl := Option.some.inj hf
        cases hs.needs.symm.trans hr
      case finishClosure dst unit caps =>
        obtain rfl := Option.some.inj hf
        cases hs.needs.1.symm.trans hr
      all_goals exact hm (hs.unheld hf hr)
    have ht : i.isTerminal = false := by
      cases i
      case ret => exact absurd hs.needs.1 hcalm
      case tailCall => exact absurd hs.needs.1 hcalm
      case done => exact absurd hs.needs.1 hcalm
      all_goals rfl
    have hg : ∀ src ty, i ≠ .guard src ty := by
      rintro src ty rfl
      exact hcalm hs.needs
    obtain ⟨ρ', pc', hgo⟩ := hs.exists_goes pc ht hg
    have hforward := hv.forward hi hgo.mem_exits
    obtain ⟨pcₘ, hle, hmerge⟩ := ih _ (by omega) (h.step hi hgo) (by rw [hgo.regs_of_ne hfill, hr]) rfl
    exact ⟨pcₘ, by omega, hmerge⟩

include hu

/-- A value on its way has not been created. -/
theorem not_walk_of_held (h : w.Reached code pc ρ) (hr : ρ.regs r = .held κ) : ¬ Walk code r pc st := by
  intro hst
  obtain ⟨pcₘ, hle, hm⟩ := hv.merge_ahead h hr
  obtain ⟨pc₀, i₀, hlt, hi₀, hcr₀⟩ := hv.created_before hst
  have := hv.single hu hi₀ hcr₀ hm rfl
  omega

/-- What is created was not there before, or on its way. -/
theorem void_of_creates (h : w.Reached code pc ρ) (hi : code[pc]? = some i)
    (hcr : i.creates = some r) : ρ.regs r = .void ∨ (i = .merge r ∧ ∃ κ, ρ.regs r = .held κ) := by
  obtain ⟨i', hi', hs⟩ := hv.safe h
  obtain rfl := Option.some.inj (hi.symm.trans hi')
  cases hr : ρ.regs r with
  | void => exact Or.inl rfl
  | held κ => exact Or.inr ⟨hs.unheld hcr hr, κ, rfl⟩
  | val κ =>
    obtain ⟨st, hst⟩ := hv.walk_of_val h hr
    obtain ⟨pc₀, i₀, hlt, hi₀, hcr₀⟩ := hv.created_before hst
    have := hv.single hu hi₀ hcr₀ hi hcr
    omega

/-- **A register that stays alive** owns one reference, before and after. -/
theorem walk_alive (h : Walk code r pc st) (hi : code[pc]? = some i) (hexit : pc' ∈ i.exits pc)
    (hadj : ∀ op, i ≠ .adjust op r) (h' : Walk code r pc' st') (hst' : st'.dead = false) :
    st = ⟨1, false⟩ ∧ st' = ⟨1, false⟩ := by
  have hobs := hv.walk_observe hu h hi
  obtain rfl := hv.walk_unique hu h' (h.step hi hexit)
  generalize st.advance r i.placed = st₁ at hobs hst'
  have hstay : st₁ = st → st = ⟨1, false⟩ ∧ st₁ = ⟨1, false⟩ := by
    rintro rfl
    rcases hv.walk_cases hu h with rfl | rfl | ⟨rfl, hfloat⟩
    · exact ⟨rfl, rfl⟩
    · cases hst'
    · rcases hfloat.adjust hi with rfl | rfl
      · exact absurd rfl (hadj .inc)
      · exact absurd rfl (hadj .drop)
  rcases Holding.observe_cases hobs with ⟨-, -, e⟩ | ⟨-, ⟨op, e, -⟩ | ⟨-, -, -, rfl⟩ | ⟨-, -, e⟩⟩
  · exact hstay e
  · exact absurd (Instr.placed_eq_adjust.mp e) (hadj op)
  · cases hst'
  · exact hstay e

/-- What has died stays dead. -/
theorem alive_of_step (h : Walk code r pc st) (hi : code[pc]? = some i) (hexit : pc' ∈ i.exits pc)
    (h' : Walk code r pc' st') (hst' : st'.dead = false) : st.dead = false := by
  have hobs := hv.walk_observe hu h hi
  obtain rfl := hv.walk_unique hu h' (h.step hi hexit)
  rcases Holding.observe_cases hobs with ⟨-, -, e⟩ | ⟨hd, -⟩
  · rw [← e, hst']
  · exact hd

omit hu

/-! ## Closures without code -/

/-- No closure without code is on its way. -/
theorem held_whole (h : w.Reached code pc ρ) (hr : ρ.regs r = .held κ) : κ ≠ .shell := by
  induction h with
  | start => cases hr
  | @step pc pc' ρ ρ' i hreach hi hgo ih =>
    by_cases hf : i.fills = some r
    · rcases hgo.filled hf with ⟨src, κ', rfl, hsrc, e⟩ | ⟨κ', e, -⟩
      · cases e.symm.trans hr
        obtain ⟨i', hi', hs⟩ := hv.safe hreach
        obtain rfl := Option.some.inj (hi.symm.trans hi')
        obtain ⟨κ₁, hκ₁, hw⟩ := hs.reads src (by simp [Instr.inputs])
        cases hsrc.symm.trans hκ₁
        rintro rfl
        cases hw rfl
      · cases e.symm.trans hr
    · exact ih ((hgo.regs_of_ne hf).symm.trans hr)

/-- A closure without code was there before, or has just been allocated. -/
theorem shell_back (h : w.Reached code pc ρ) (hgo : w.Goes ρ i (some (pc + 1)) ρ' pc')
    (hr : ρ'.regs r = .val .shell) :
    i = .allocClosure r ∨ (i.fills ≠ some r ∧ ρ.regs r = .val .shell) := by
  by_cases hf : i.fills = some r
  · rcases hgo.filled hf with ⟨src, κ', rfl, -, e⟩ | ⟨κ', e, hκ'⟩
    · cases e.symm.trans hr
    · cases e.symm.trans hr
      rcases hκ' rfl with rfl | ⟨rfl, hheld⟩
      · exact Or.inl rfl
      · exact absurd rfl (hv.held_whole h hheld)
  · exact Or.inr ⟨hf, (hgo.regs_of_ne hf).symm.trans hr⟩

theorem counted_of_shell (h : w.Reached code pc ρ) (hr : ρ.regs r = .val .shell) :
    ¬ w.Uncounted r := by
  intro hu
  obtain ⟨i, -, hs⟩ := hv.safe h
  cases hs.modest r .shell (by rw [hr]; rfl) hu

/-- Nothing but its code is put into a closure without code. -/
theorem fills_shell (h : w.Reached code pc ρ) (hi : code[pc]? = some i) (hf : i.fills = some r)
    (hr : ρ.regs r = .val .shell) : ∃ unit caps, i = .finishClosure r unit caps := by
  obtain ⟨i', hi', hs⟩ := hv.safe h
  obtain rfl := Option.some.inj (hi.symm.trans hi')
  have hcr : i.creates ≠ some r := fun hcr => by
    rcases hv.void_of_creates (hv.counted_of_shell h hr) h hi hcr with e | ⟨-, κ, e⟩ <;>
      cases e.symm.trans hr
  cases i
  case move dst src =>
    obtain rfl := Option.some.inj hf
    cases hs.needs.symm.trans hr
  case finishClosure dst unit caps =>
    obtain rfl := Option.some.inj hf
    exact ⟨unit, caps, rfl⟩
  all_goals exact absurd hf hcr

/-- **A closure without code is alive**: its code still lies ahead. -/
theorem shell_alive (h : w.Reached code pc ρ) (hr : ρ.regs r = .val .shell)
    (hw : Walk code r pc st) : st.dead = false := by
  -- control goes on until the path ends, and there is no closure without code there
  induction hn : code.size - pc using Nat.strong_induction_on generalizing pc ρ st with
  | _ n ih =>
    subst hn
    obtain ⟨i, hi, hs⟩ := hv.safe h
    have hlt := (Array.getElem?_eq_some_iff.mp hi).1
    have hu := hv.counted_of_shell h hr
    have hcalm : ¬ ρ.Calm := fun hc => by
      rcases hc.regs r with e | ⟨κ', e, hκ'⟩
      · cases e.symm.trans hr
      · cases e.symm.trans hr
        exact hκ' rfl
    by_cases hf : i.fills = some r
    · obtain ⟨unit, caps, rfl⟩ := hv.fills_shell h hi hf hr
      rcases Holding.observe_cases (hv.walk_observe hu hw hi) with ⟨hread, -⟩ | ⟨hd, -⟩
      · rw [Instr.reads_placed] at hread
        simp [Instr.reads, Instr.inputs] at hread
      · exact hd
    have ht : i.isTerminal = false := by
      cases i
      case ret => exact absurd hs.needs.1 hcalm
      case tailCall => exact absurd hs.needs.1 hcalm
      case done => exact absurd hs.needs.1 hcalm
      all_goals rfl
    have hg : ∀ src ty, i ≠ .guard src ty := by
      rintro src ty rfl
      exact hcalm hs.needs
    obtain ⟨ρ', pc', hgo⟩ := hs.exists_goes pc ht hg
    have hforward := hv.forward hi hgo.mem_exits
    have hw' := hw.step hi hgo.mem_exits
    exact hv.alive_of_step hu hw hi hgo.mem_exits hw' (ih _ (by omega) (h.step hi hgo)
      ((hgo.regs_of_ne hf).trans hr) hw' rfl)

/-! ## Ownership instructions -/

/-- **What an ownership instruction finds**: a register that holds nothing, a value that nobody has
acquired yet and that is acquired or dropped, or one whose reference is given up. -/
theorem adjust_cases {op : CountOp} (h : w.Reached code pc ρ) (hi : code[pc]? = some (.adjust op r)) :
    ¬ w.Uncounted r ∧ (ρ.regs r = .void ∨ ∃ κ, ρ.regs r = .val κ ∧
      ((op = .inc ∧ Walk code r pc ⟨0, false⟩ ∧ Walk code r (pc + 1) ⟨1, false⟩) ∨
        (op = .drop ∧ Walk code r pc ⟨0, false⟩ ∧ Walk code r (pc + 1) ⟨0, true⟩) ∨
        (op = .unref ∧ Walk code r pc ⟨1, false⟩ ∧ Walk code r (pc + 1) ⟨0, true⟩))) := by
  obtain ⟨hu, hop⟩ := hv.adjusts hi
  refine ⟨hu, ?_⟩
  cases hr : ρ.regs r with
  | void => exact Or.inl rfl
  | held κ =>
    obtain ⟨pcₘ, hle, hm⟩ := hv.merge_ahead h hr
    obtain ⟨pc₀, i₀, hlt, hi₀, hcr₀⟩ := hv.created hi
    have := hv.single hu hi₀ hcr₀ hm rfl
    omega
  | val κ =>
    refine Or.inr ⟨κ, rfl, ?_⟩
    obtain ⟨st, hst⟩ := hv.walk_of_val h hr
    have hobs := hv.walk_observe hu hst hi
    have hnext := hst.step hi (show pc + 1 ∈ _ by simp [Instr.exits, Instr.isTerminal])
    generalize st.advance r (Instr.adjust op r : Instr Nat).placed = st' at hobs hnext
    rcases Holding.observe_cases hobs with ⟨-, hadj, -⟩ | ⟨hd, ⟨op', e, hf, rfl⟩ | ⟨hread, -⟩ | ⟨hread, -⟩⟩
    · exact absurd rfl (hadj op)
    · obtain ⟨rfl, -⟩ : op = op' ∧ True := by cases e; exact ⟨rfl, trivial⟩
      have hfresh : op ≠ .unref → st = ⟨0, false⟩ := fun hne => by
        obtain ⟨pc₀, i₀, rfl, hi₀, hcr₀, hown₀⟩ := hop.resolve_left hne
        have := hv.walk_of_creates hu hi₀ hcr₀ hst
        rwa [hown₀] at this
      cases op with
      | inc =>
        obtain rfl := hfresh (by simp)
        exact Or.inl ⟨rfl, hst, hnext⟩
      | drop =>
        obtain rfl := hfresh (by simp)
        exact Or.inr (Or.inl ⟨rfl, hst, hnext⟩)
      | dec =>
        obtain rfl := hfresh (by simp)
        exact absurd rfl hf
      | unref =>
        rcases hv.walk_cases hu hst with rfl | rfl | ⟨rfl, -⟩
        · exact Or.inr (Or.inr ⟨rfl, hst, hnext⟩)
        · cases hd
        · exact absurd rfl hf
    · rw [Instr.reads_placed] at hread
      cases hread
    · rw [Instr.reads_placed] at hread
      cases hread

end Vetted

end World

/-! ## What registers own -/

/-- The register is alive: it has been created, and its life has not ended. -/
def Alive (code : Array (Instr Nat)) (pc : Nat) (r : Reg) : Prop :=
  ∃ st, Walk code r pc st ∧ st.dead = false

open Classical in
/-- **The number of references a register owns at a place**: as the ownership analysis counts, and
one for a value on its way to a merge. -/
noncomputable def owned (code : Array (Instr Nat)) (pc : Nat) (r : Reg) : Nat :=
  if h : ∃ st, Walk code r pc st then h.choose.count
  else if ∃ pc' : Nat, code[pc']? = some (.merge r) then 1
  else 0

namespace World.Vetted

variable {w : World} {code : Array (Instr Nat)} {pc pc' : Nat} {r : Reg} {st : Holding} {ρ ρ' : Env}
  {i : Instr Nat} {κ : Kind} (hv : w.Vetted code) (hu : ¬ w.Uncounted r)
include hv hu

theorem owned_of_walk (h : Walk code r pc st) : owned code pc r = st.count := by
  have hex : ∃ st, Walk code r pc st := ⟨st, h⟩
  rw [owned, dif_pos hex, hv.walk_unique hu hex.choose_spec h]

theorem owned_of_held (h : w.Reached code pc ρ) (hr : ρ.regs r = .held κ) : owned code pc r = 1 := by
  obtain ⟨pcₘ, -, hm⟩ := hv.merge_ahead h hr
  rw [owned, dif_neg (fun ⟨st, hst⟩ => hv.not_walk_of_held hu h hr hst), if_pos ⟨pcₘ, hm⟩]

/-- An instruction that does nothing to a register leaves what it owns, unless it holds nothing. -/
theorem owned_step (h : w.Reached code pc ρ) (hi : code[pc]? = some i)
    (hgo : w.Goes ρ i (some (pc + 1)) ρ' pc') (hfill : i.fills ≠ some r)
    (hadj : ∀ op, i ≠ .adjust op r) (hr : ρ.regs r ≠ .void) :
    owned code pc' r = owned code pc r := by
  have hexit := hgo.mem_exits
  cases hst : ρ.regs r with
  | void => exact absurd hst hr
  | held κ =>
    rw [hv.owned_of_held hu h hst, hv.owned_of_held hu (h.step hi hgo)
      ((hgo.regs_of_ne hfill).trans hst)]
  | val κ =>
    obtain ⟨st, hw⟩ := hv.walk_of_val h hst
    rw [hv.owned_of_walk hu hw, hv.owned_of_walk hu (hw.step hi hexit)]
    have hobs := hv.walk_observe hu hw hi
    rcases Holding.observe_cases hobs with ⟨-, -, e⟩ | ⟨-, ⟨op, e, -⟩ | ⟨-, hc, -⟩ | ⟨-, -, e⟩⟩
    · rw [e]
    · exact absurd (Instr.placed_eq_adjust.mp e) (hadj op)
    · rw [Instr.consumes_placed] at hc
      cases i
      case ret => exact hgo.1.elim
      case tailCall => exact hgo.1.elim
      all_goals cases hc
    · rw [e]

end World.Vetted

end CountedMachine
