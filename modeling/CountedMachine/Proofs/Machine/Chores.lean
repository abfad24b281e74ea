import CountedMachine.Proofs.Machine.Upkeep

/-! # Everyday instructions

Most instructions take references, give them up or create a register; closures and open scopes stay as they
are (`Working.Neat`). A value that has just been created is due, and the ownership instruction that comes
next takes it or drops it (`Working.neat_adjust`). -/

namespace CountedMachine

open Heap

/-- The objects that an ownership instruction takes or drops. -/
def CountOp.settles (v : Value) : CountOp → List ObjId
  | .inc => v.asObj?.toList
  | .drop => v.asObj?.toList
  | _ => []

namespace Working

variable {p : Program} [p.Origin] {B : Multiset ObjId} {K : Array Value} {s : Running} {w : World} {ρ : Env}
  {q : Progress} {n limit : Nat} {i : Instr Nat} {dst src : Reg}

/-- The instruction leaves closures and open scopes alone. -/
def Neat (p : Program) (K : Array Value) (n limit : Nat) (s : Running) (ρ : Env) (i : Instr Nat) : Prop :=
  ∀ q, s.advance.exec p limit i = .ok q → q.Neat p K (s.making ρ) s.cur.scopes n s.machine.heap

variable (hw : Working p B s w ρ) (hu : s.Upkept p K ρ n)

section
include hu

/-- References are taken and given up, and no more. -/
theorem neat_onward {h' : Heap} {stack' : List Value} {stats' : CallCounts} {callers' : Array Frame}
    {f' : Frame} (hc : Clean h' [] (s.making ρ) s.cur.scopes n) (ho : Onward s.machine.heap h')
    (hgs : f'.scopes = s.cur.scopes) :
    (Progress.more ⟨⟨h', s.machine.consts, stack', stats'⟩, callers', f'⟩).Neat p K (s.making ρ)
      s.cur.scopes n s.machine.heap := by
  refine ⟨ho.tame, hu.consts, hgs, hc.grow _, fun {x rc k c'} _ hslot hslot' => ?_⟩
  obtain ⟨c, hc₀, e⟩ := ho.objs hslot'
  cases hslot.symm.trans hc₀
  exact e

/-- Nothing is done to the heap. -/
theorem neat_still {f' : Frame} {stats' : CallCounts} (hi : (code p s)[s.cur.pc]? = some i)
    (hadj : ∀ op r, i ≠ .adjust op r) (hgs : f'.scopes = s.cur.scopes) :
    (Progress.more ⟨⟨s.machine.heap, s.machine.consts, s.machine.stack, stats'⟩, s.callers, f'⟩).Neat p K
      (s.making ρ) s.cur.scopes n s.machine.heap :=
  neat_onward hu (due_eq hi hadj ▸ hu.clean) (.refl _) hgs

end

include hw hu

/-- The register that an instruction creates gets a value that is due. -/
theorem neat_created {h' : Heap} {f' : Frame} {v : Value} {κ : Kind} {stats' : CallCounts}
    (hi : (code p s)[s.cur.pc]? = some i) (hcr : i.creates = some dst) (hown : i.createsOwner = false)
    (hwhole : ρ.Whole) (hκ : w.Gives ρ i κ) (hh : Has h' v κ)
    (hc : Clean h' v.asObj?.toList ∅ s.cur.scopes n ∧ Tame s.machine.heap h')
    (hset : Frame.Sets { s.cur with pc := s.cur.pc + 1 } f' dst v) :
    (Progress.more ⟨⟨h', s.machine.consts, s.machine.stack, stats'⟩, s.callers, f'⟩).Neat p K (s.making ρ)
      s.cur.scopes n s.machine.heap := by
  obtain ⟨hempty, -⟩ := hw.making_of_whole hwhole
  rw [hempty]
  refine ⟨hc.2, hu.consts, hset.scopes, hc.1.mono ?_, fun hx => absurd hx (Set.notMem_empty _)⟩
  have hdue := hw.rests.home.vetted.due_of_creates hw.rests.reached hi hcr hown
    (World.goes_of_gives hcr hκ (s.cur.pc + 1)) (Env.set_self _ _) hh hset.pc hset.self
  rw [Running.due, show f'.unit = s.cur.unit from hset.unit]
  exact hdue

/-- The heap before an instruction that finds nothing in the making. -/
theorem clean_of_whole (hi : (code p s)[s.cur.pc]? = some i) (hadj : ∀ op r, i ≠ .adjust op r)
    (hwhole : ρ.Whole) : Clean s.machine.heap [] ∅ s.cur.scopes n := by
  have hc := hu.clean
  rwa [due_eq hi hadj, (hw.making_of_whole hwhole).1] at hc

theorem neat_const {k : ConstId} (hi : (code p s)[s.cur.pc]? = some (.const dst k)) :
    Neat p K n limit s ρ (.const dst k) := by
  intro q e
  obtain ⟨hcalm, c, hc⟩ := (hw.safe hi).needs
  rw [hw.rests.home.program] at hc
  have hclean := hw.clean_of_whole hu hi (by simp) hcalm.whole
  have hgives : w.Gives ρ (.const dst k : Instr Nat) (.ofConstant c) :=
    ⟨c, by rw [hw.rests.home.program, hc], rfl⟩
  have e : s.advance.loadConst p dst k = .ok q := e
  unfold Running.loadConst at e
  rw [hc] at e
  by_cases hundef : ∃ tag, c = .undefined tag
  · obtain ⟨tag, rfl⟩ := hundef
    obtain ⟨-, -, κ, hκ, hh⟩ := hw.good.yields_undefined tag hgives
    obtain ⟨⟨h, consts, stack, stats⟩, callers, f⟩ := s
    obtain ⟨h', v, f', hg, hset, rfl⟩ := Running.storeFrom_ok e
    obtain ⟨rfl, rfl⟩ := Prod.mk.inj (Except.ok.inj hg)
    exact hw.neat_created hu hi rfl rfl hcalm.whole hκ hh
      (hclean.adds hw.good.sound (adds_undefined h tag)) hset
  · have e : ∃ v, s.advance.store dst v = .ok q := by
      cases c with
      | undefined tag => exact absurd ⟨tag, rfl⟩ hundef
      | _ =>
        dsimp only at e
        split at e
        · exact ⟨_, e⟩
        · cases e
    obtain ⟨v, e⟩ := e
    obtain ⟨⟨h, consts, stack, stats⟩, callers, f⟩ := s
    obtain ⟨f', hset, rfl⟩ := Running.store_sets e
    exact neat_still hu hi (by simp) hset.scopes

/-- A register gets a value that is there. -/
theorem neat_store {v : Value} (hi : (code p s)[s.cur.pc]? = some i) (hadj : ∀ op r, i ≠ .adjust op r)
    (e : s.advance.store dst v = .ok q) : q.Neat p K (s.making ρ) s.cur.scopes n s.machine.heap := by
  obtain ⟨⟨h, consts, stack, stats⟩, callers, f⟩ := s
  obtain ⟨f', hset, rfl⟩ := Running.store_sets e
  exact neat_still hu hi hadj hset.scopes

theorem neat_param {idx : Nat} (hi : (code p s)[s.cur.pc]? = some (.param dst idx)) :
    Neat p K n limit s ρ (.param dst idx) := by
  intro q e
  simp only [Running.exec] at e
  split at e
  · exact hw.neat_store hu hi (by simp) e
  · cases e

theorem neat_capture {idx : Nat} (hi : (code p s)[s.cur.pc]? = some (.capture dst idx)) :
    Neat p K n limit s ρ (.capture dst idx) := by
  intro q e
  simp only [Running.exec, Running.capture] at e
  split at e
  all_goals
    obtain ⟨o, -, e⟩ := bind_ok e
    split at e
    · cases e
    · split at e
      · exact hw.neat_store hu hi (by simp) e
      · cases e

theorem neat_unbox {cell : Reg} (hi : (code p s)[s.cur.pc]? = some (.unbox dst cell)) :
    Neat p K n limit s ρ (.unbox dst cell) := by
  intro q e
  obtain ⟨v, -, e⟩ := bind_ok e
  split at e
  · cases e
  · obtain ⟨o, -, e⟩ := bind_ok e
    cases o with
    | cell x => exact hw.neat_store hu hi (by simp) e
    | _ => cases e

theorem neat_test (hi : (code p s)[s.cur.pc]? = some (.test dst src)) :
    Neat p K n limit s ρ (.test dst src) := by
  intro q e
  obtain ⟨v, -, e⟩ := bind_ok e
  exact hw.neat_store hu hi (by simp) e

theorem neat_testType {ty : ObjType} (hi : (code p s)[s.cur.pc]? = some (.testType dst src ty)) :
    Neat p K n limit s ρ (.testType dst src ty) := by
  intro q e
  obtain ⟨v, -, e⟩ := bind_ok e
  obtain ⟨b, -, e⟩ := bind_ok e
  exact hw.neat_store hu hi (by simp) e

theorem neat_flag {b : Bool} (hi : (code p s)[s.cur.pc]? = some (.flag dst b)) :
    Neat p K n limit s ρ (.flag dst b) :=
  fun _ e => hw.neat_store hu hi (by simp) e

theorem neat_field {idx : Nat} (hi : (code p s)[s.cur.pc]? = some (.field dst src idx)) :
    Neat p K n limit s ρ (.field dst src idx) := by
  intro q e
  obtain ⟨ty, m, hty, hwidth, hidx⟩ := (hw.safe hi).needs
  rw [hw.rests.home.program] at hwidth
  have hwhole : ρ.Whole := (hw.safe hi).shields
  have hclean := hw.clean_of_whole hu hi (by simp) hwhole
  have hfield : Ensures True (s.machine.heap.field (s.cur.get src) idx) _ :=
    hw.good.field (hw.input_of hi (by simp [Instr.inputs]) hty) hwidth hidx
  obtain ⟨v, hv, e⟩ := bind_ok e
  obtain rfl : v = s.cur.get src := Frame.read_ok hv
  obtain ⟨⟨h, consts, stack, stats⟩, callers, f⟩ := s
  obtain ⟨h', v, f', hg, hset, rfl⟩ := Running.storeFrom_ok e
  obtain ⟨-, -, κ, ⟨hκ, hstr⟩, hh⟩ := hfield.result hg
  exact hw.neat_created hu hi rfl rfl hwhole ⟨hκ, fun e => hstr (by rw [hty] at e; cases e; rfl)⟩ hh
    (hclean.adds hw.good.sound (adds_field hg)) hset

theorem neat_operate {op : Operator} {l r : Reg} {checked : Bool}
    (hi : (code p s)[s.cur.pc]? = some (.operate op dst l r checked)) :
    Neat p K n limit s ρ (.operate op dst l r checked) := by
  intro q e
  obtain ⟨a, ha, hha, -⟩ := hw.input hi (r := l) (by simp [Instr.inputs])
  obtain ⟨b, hb, hhb, -⟩ := hw.input hi (r := r) (by simp [Instr.inputs])
  have hneeds : checked = true ∨ op = .cons ∨ op = .eq ∨ op = .ne ∨ (a = .num ∧ b = .num) := by
    refine (hw.safe hi).needs.imp id (Or.imp id (Or.imp id (Or.imp id fun hn => ?_)))
    rw [ha, hb] at hn
    exact ⟨Status.val.inj hn.1, Status.val.inj hn.2⟩
  have hwhole : ρ.Whole := (hw.safe hi).shields
  have hclean := hw.clean_of_whole hu hi (by simp) hwhole
  have heval : Ensures True (op.eval s.machine.heap (s.cur.get l) (s.cur.get r) checked) _ :=
    hw.good.eval hha hhb hneeds
  obtain ⟨v, hv, e⟩ := bind_ok e
  obtain rfl : v = s.cur.get l := Frame.read_ok hv
  obtain ⟨v, hv, e⟩ := bind_ok e
  obtain rfl : v = s.cur.get r := Frame.read_ok hv
  obtain ⟨⟨h, consts, stack, stats⟩, callers, f⟩ := s
  obtain ⟨h', v, f', hg, hset, rfl⟩ := Running.storeFrom_ok e
  obtain ⟨-, -, κ, hκ, hh⟩ := heval.result hg
  refine hw.neat_created hu hi rfl rfl hwhole ⟨a, b, ha, hb, hκ⟩ hh ?_ hset
  by_cases hop : op = .cons
  · subst hop
    exact hclean.cons hw.good.sound hg
  · exact hclean.adds hw.good.sound (adds_eval hop hg)

theorem neat_box (hi : (code p s)[s.cur.pc]? = some (.box dst src)) : Neat p K n limit s ρ (.box dst src) := by
  intro q e
  have hwhole : ρ.Whole := (hw.safe hi).shields
  have hclean := hw.clean_of_whole hu hi (by simp) hwhole
  obtain ⟨v, hv, e⟩ := bind_ok e
  obtain ⟨⟨h, consts, stack, stats⟩, callers, f⟩ := s
  obtain ⟨s₁, hs₁, e⟩ := bind_ok e
  obtain ⟨h₁, e₁, rfl⟩ := Running.overHeap_ok hs₁
  obtain ⟨h', v', f', hg, hset, rfl⟩ := Running.storeFrom_ok e
  obtain ⟨rfl, rfl⟩ := Prod.mk.inj (Except.ok.inj hg)
  obtain ⟨r, hr, hgain⟩ := (hclean.inc_nil e₁).gains_of (.cell v)
  refine hw.neat_created hu hi rfl rfl hwhole (κ := .cell) rfl ?_ (hclean.box hw.good.sound e₁) hset
  rw [hr]
  exact ⟨_, hgain.self, rfl⟩

theorem neat_make {ty : Nat} {fields : List Reg} (hi : (code p s)[s.cur.pc]? = some (.make dst ty fields)) :
    Neat p K n limit s ρ (.make dst ty fields) := by
  intro q e
  have hwhole : ρ.Whole := (hw.safe hi).shields
  have hclean := hw.clean_of_whole hu hi (by simp) hwhole
  obtain ⟨vs, hvs, e⟩ := bind_ok e
  obtain ⟨⟨h, consts, stack, stats⟩, callers, f⟩ := s
  obtain ⟨s₁, hs₁, e⟩ := bind_ok e
  obtain ⟨h₁, e₁, rfl⟩ := Running.overHeap_ok hs₁
  obtain ⟨h', v', f', hg, hset, rfl⟩ := Running.storeFrom_ok e
  obtain ⟨rfl, rfl⟩ := Prod.mk.inj (Except.ok.inj hg)
  obtain ⟨r, hr, hgain⟩ := (hclean.incAll e₁).gains_of (.struct ty vs)
  refine hw.neat_created hu hi rfl rfl hwhole (κ := .obj (.struct ty)) rfl ?_ (hclean.make hw.good.sound e₁)
    hset
  rw [hr]
  exact ⟨_, hgain.self, rfl⟩

omit hw in
theorem neat_nop (hi : (code p s)[s.cur.pc]? = some .nop) : Neat p K n limit s ρ .nop := by
  rintro q ⟨⟩
  exact neat_still hu hi (by simp) rfl

omit hw in
theorem neat_merge (hi : (code p s)[s.cur.pc]? = some (.merge dst)) : Neat p K n limit s ρ (.merge dst) := by
  rintro q ⟨⟩
  exact neat_still hu hi (by simp) rfl

omit hw in
theorem neat_jump {target : Nat} (hi : (code p s)[s.cur.pc]? = some (.jump target)) :
    Neat p K n limit s ρ (.jump target) := by
  rintro q ⟨⟩
  exact neat_still hu hi (by simp) rfl

omit hw in
theorem neat_branch {cond : Reg} {no : Nat} (hi : (code p s)[s.cur.pc]? = some (.branch cond no)) :
    Neat p K n limit s ρ (.branch cond no) := by
  intro q e
  obtain ⟨v, -, e⟩ := bind_ok e
  split at e
  · cases e
    exact neat_still hu hi (by simp) rfl
  · cases e
    exact neat_still hu hi (by simp) rfl

omit hw in
theorem neat_guard {ty : ObjType} (hi : (code p s)[s.cur.pc]? = some (.guard src ty)) :
    Neat p K n limit s ρ (.guard src ty) := by
  intro q e
  obtain ⟨v, -, e⟩ := bind_ok e
  obtain ⟨b, -, e⟩ := bind_ok e
  split at e
  · cases e
    exact neat_still hu hi (by simp) rfl
  · obtain ⟨t, -, e⟩ := bind_ok e
    cases e

omit hw in
theorem neat_trace {loc : Location} (hi : (code p s)[s.cur.pc]? = some (.trace src loc)) :
    Neat p K n limit s ρ (.trace src loc) := by
  intro q e
  have hclean := hu.clean
  rw [due_eq hi (by simp)] at hclean
  obtain ⟨⟨h, consts, stack, stats⟩, callers, f⟩ := s
  obtain ⟨v, -, e⟩ := bind_ok e
  split at e
  · cases e
    exact neat_still hu hi (by simp) rfl
  · obtain ⟨o, ho, e⟩ := bind_ok e
    obtain ⟨c, hr, rfl⟩ := get_cases ho
    split at e
    · next r _ tag places hobj =>
      obtain ⟨h', hput, rfl⟩ := Running.after_ok e
      have hr : h.slot? _ = some c := hr
      refine ⟨.put hr (by simp) hput, hu.consts, rfl,
        (hclean.put hr (by rw [hobj]; rfl) (Or.inr rfl) hput).grow _, fun {x rc k c'} _ hx hx' => ?_⟩
      rw [put_eq hr] at hput
      obtain rfl := Except.ok.inj hput
      rw [slot?_setSlot_of hr] at hx'
      split_ifs at hx' with ex
      · cases (ex ▸ hr).symm.trans hx
        cases hobj
      · cases hx.symm.trans hx'
        rfl
    · cases e
      exact neat_still hu hi (by simp) rfl

omit hw in
theorem neat_push (hi : (code p s)[s.cur.pc]? = some (.push src)) : Neat p K n limit s ρ (.push src) := by
  intro q e
  have hclean := hu.clean
  rw [due_eq hi (by simp)] at hclean
  obtain ⟨⟨h, consts, stack, stats⟩, callers, f⟩ := s
  obtain ⟨v, -, e⟩ := bind_ok e
  obtain ⟨s₁, hs₁, e⟩ := bind_ok e
  obtain ⟨h₁, e₁, rfl⟩ := Running.overHeap_ok hs₁
  cases e
  exact neat_onward hu (hclean.inc_nil e₁) (onward_inc e₁) rfl

omit hw in
theorem neat_move (hi : (code p s)[s.cur.pc]? = some (.move dst src)) :
    Neat p K n limit s ρ (.move dst src) := by
  intro q e
  have hclean := hu.clean
  rw [due_eq hi (by simp)] at hclean
  obtain ⟨⟨h, consts, stack, stats⟩, callers, f⟩ := s
  obtain ⟨v, -, e⟩ := bind_ok e
  obtain ⟨s₁, hs₁, e⟩ := bind_ok e
  obtain ⟨h₁, e₁, rfl⟩ := Running.overHeap_ok hs₁
  obtain ⟨f', hset, rfl⟩ := Running.store_sets e
  exact neat_onward hu (hclean.inc_nil e₁) (onward_inc e₁) hset.scopes

omit hw hu in
omit [p.Origin] in
theorem due_adjust {op : CountOp} {r : Reg} (hi : (code p s)[s.cur.pc]? = some (.adjust op r)) :
    s.due p = op.settles (s.cur.get r) := by
  unfold Running.due Frame.due
  rw [hi]
  cases op <;> rfl

/-- **An ownership instruction** takes or drops what is due, or gives up a reference. -/
theorem neat_adjust {op : CountOp} {r : Reg} (hi : (code p s)[s.cur.pc]? = some (.adjust op r)) :
    Neat p K n limit s ρ (.adjust op r) := by
  intro q e
  obtain ⟨-, hcases⟩ := hw.rests.home.vetted.adjust_cases hw.rests.reached hi
  have hclean := hu.clean
  have hvoid : ρ.regs r = .void → s.cur.get r = .nil := hw.rests.stocked.void
  rw [show s.due p = op.settles (s.cur.get r) from due_adjust hi] at hclean
  obtain ⟨⟨h, consts, stack, stats⟩, callers, f⟩ := s
  obtain ⟨v, hv, e⟩ := bind_ok e
  obtain rfl : v = f.get r := Frame.read_ok hv
  obtain ⟨h', e', rfl⟩ := Running.after_ok e
  have hobj : ∀ x ∈ (f.get r).asObj?.toList, f.get r = .obj x := fun x => Value.eq_of_mem_asObj?
  cases op with
  | inc => exact neat_onward hu (hclean.inc (fun x hx => Or.inl (hobj x hx)) e') (onward_inc e') rfl
  | drop =>
    exact neat_onward hu (hclean.drop hobj e') (hclean.swept.onward_drop hobj e') rfl
  | unref => exact neat_onward hu (hclean.unref e') (hclean.swept.toSteady.onward_unref e') rfl
  | dec =>
    rcases hcases with hr | ⟨κ, -, ⟨e, -⟩ | ⟨e, -⟩ | ⟨e, -⟩⟩
    · -- a register that has not been filled: its value is nil
      have e' : h.release (f.get r) = .ok h' := e'
      rw [hvoid hr] at e'
      obtain rfl := Except.ok.inj e'
      exact neat_onward hu hclean (.refl _) rfl
    all_goals cases e

end Working

end CountedMachine
