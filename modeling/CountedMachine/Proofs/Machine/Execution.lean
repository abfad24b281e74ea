import CountedMachine.Proofs.Machine.Operands
import CountedMachine.Proofs.Machine.Working

/-! # Instructions that stay in the frame

Each instruction keeps the machine at work, or ends it with an excused fault. -/

namespace CountedMachine

open Heap

variable {crowded : Prop} {p : Program} [p.Origin] {B : Multiset ObjId} {h : Heap} {consts : Array Value}
  {stack : List Value} {stats : CallCounts} {callers : Array Frame} {f : Frame} {w : World} {ρ : Env}
  {limit : Nat}

namespace World

/-- What an instruction gives is what it puts into the register it creates. -/
theorem goes_of_gives {i : Instr Nat} {dst : Reg} {κ : Kind} (hcr : i.creates = some dst)
    (hg : w.Gives ρ i κ) (b : Nat) : w.Goes ρ i (some b) (ρ.set dst (.val κ)) b := by
  cases i <;> first
    | exact hg.elim
    | (obtain rfl := Option.some.inj hcr; exact ⟨⟨κ, hg, rfl⟩, rfl⟩)

end World

namespace Running

theorem ensures_storeFrom {g : Heap → Except Fault (Heap × Value)} {dst : Reg} {Q : Progress → Prop}
    (hg : Ensures crowded (g h) fun q => ∀ f', f.Sets f' dst q.2 →
      Q (.more ⟨⟨q.1, consts, stack, stats⟩, callers, f'⟩)) :
    Ensures crowded (storeFrom g dst ⟨⟨h, consts, stack, stats⟩, callers, f⟩) Q := by
  refine hg.bind fun q hq => ?_
  exact (f.ensures_write dst q.2).bind fun f' hf' => .ok (hq f' hf')

theorem ensures_store {v : Value} {dst : Reg} {Q : Progress → Prop}
    (hq : ∀ f', f.Sets f' dst v → Q (.more ⟨⟨h, consts, stack, stats⟩, callers, f'⟩)) :
    Ensures crowded (store ⟨⟨h, consts, stack, stats⟩, callers, f⟩ dst v) Q :=
  ((f.ensures_write dst v).bind fun f' hf' =>
    Ensures.ok (Q := fun s => Q (.more s)) (hq f' hf')).bind fun _ hs => .ok hs

theorem ensures_after {g : Heap → Except Fault Heap} {Q : Progress → Prop}
    (hg : Ensures crowded (g h) fun h' => Q (.more ⟨⟨h', consts, stack, stats⟩, callers, f⟩)) :
    Ensures crowded (after g ⟨⟨h, consts, stack, stats⟩, callers, f⟩) Q :=
  ((hg.bind fun _ hq => Ensures.ok (Q := fun m => Q (.more ⟨m, callers, f⟩)) hq).bind fun _ hs =>
    Ensures.ok (Q := fun s => Q (.more s)) hs).bind fun _ hs => .ok hs

theorem ensures_overHeap {α : Type} {g : Heap → Except Fault Heap} {h' : Heap}
    {k : Running → Except Fault α} {Q : α → Prop} (e : g h = .ok h')
    (hk : Ensures crowded (k ⟨⟨h', consts, stack, stats⟩, callers, f⟩) Q) :
    Ensures crowded (overHeap g ⟨⟨h, consts, stack, stats⟩, callers, f⟩ >>= k) Q := by
  have e' : overHeap g ⟨⟨h, consts, stack, stats⟩, callers, f⟩ =
      .ok ⟨⟨h', consts, stack, stats⟩, callers, f⟩ := by
    simp only [overHeap, Machine.overHeap, e, bind, Except.bind]
    rfl
  rw [e']
  exact hk

theorem capture_eq {s : Running} {dst : Reg} {idx : Nat} {v x : Value} {k : Closure}
    (hc : s.cur.closure = some v) (hk : s.machine.heap.closure? v = .ok (some k))
    (hx : k.caps[idx]? = some x) : s.capture dst idx = s.store dst x := by
  simp only [capture, hc, hk, hx, bind, Except.bind]

end Running

namespace Working

variable {s : Running} {i : Instr Nat}

/-- **Carrying out an instruction** keeps the machine in order. -/
def Carried (crowded : Prop) (p : Program) [p.Origin] (B : Multiset ObjId) (limit : Nat) (s : Running)
    (ρ : Env) (i : Instr Nat) : Prop :=
  Ensures crowded (s.advance.exec p limit i) (Progress.Carries p B (s.cur.shells ρ) s.machine.heap)

variable (hw : Working p B s w ρ)
include hw

/-! ## Creating a register -/

/-- The value comes from an operation on the heap. -/
theorem create_from {g : Heap → Except Fault (Heap × Value)} {dst : Reg}
    (hi : (code p s)[s.cur.pc]? = some i) (hcr : i.creates = some dst)
    (hown : i.createsOwner = false) (hwhole : ∀ r, ρ.regs r ≠ .val .shell)
    (hg : Ensures crowded (g s.machine.heap)
      (Yields p s.machine.heap (s.refs p + B) (s.cur.shells ρ) (w.Gives ρ i))) :
    Ensures crowded (Running.storeFrom g dst s.advance) (Progress.Carries p B (s.cur.shells ρ) s.machine.heap) := by
  obtain ⟨⟨h, consts, stack, stats⟩, callers, f⟩ := s
  refine Running.ensures_storeFrom (hg.mono fun q hq f' hset => ?_)
  obtain ⟨hgood, hp, κ, hκ, hv⟩ := hq
  exact hw.create hi hcr hown (World.goes_of_gives hcr hκ _) hgood hp hv (Or.inl hwhole) hset

/-- The value is there. -/
theorem create_with {dst : Reg} {v : Value} {κ : Kind} (hi : (code p s)[s.cur.pc]? = some i)
    (hcr : i.creates = some dst) (hown : i.createsOwner = false)
    (hplain : (∀ r, ρ.regs r ≠ .val .shell) ∨ v.asObj? = none) (hκ : w.Gives ρ i κ)
    (hv : Has s.machine.heap v κ) :
    Ensures crowded (s.advance.store dst v) (Progress.Carries p B (s.cur.shells ρ) s.machine.heap) := by
  obtain ⟨⟨h, consts, stack, stats⟩, callers, f⟩ := s
  exact Running.ensures_store fun f' hset => hw.create hi hcr hown (World.goes_of_gives hcr hκ _)
    hw.good (.refl _ _) hv hplain hset

theorem carried_const {dst : Reg} {k : ConstId} (hi : (code p s)[s.cur.pc]? = some (.const dst k)) :
    Carried crowded p B limit s ρ (.const dst k) := by
  obtain ⟨hcalm, c, hc⟩ := (hw.safe hi).needs
  rw [hw.rests.home.program] at hc
  have hgives : w.Gives ρ (.const dst k : Instr Nat) (.ofConstant c) :=
    ⟨c, by rw [hw.rests.home.program, hc], rfl⟩
  show Ensures crowded (s.advance.loadConst p dst k) _
  unfold Running.loadConst
  rw [hc]
  by_cases hu : ∃ tag, c = .undefined tag
  · obtain ⟨tag, rfl⟩ := hu
    exact hw.create_from hi rfl rfl hcalm.not_shell (.ok (hw.good.yields_undefined tag hgives))
  · simp only [not_exists] at hu
    obtain ⟨v, hv, hhas⟩ := hw.loaded _ c hc
    have hv' : s.advance.machine.consts[k.index]? = some v := hv
    cases c with
    | undefined tag => exact absurd rfl (hu tag)
    | _ =>
      dsimp only
      rw [hv']
      exact hw.create_with hi rfl rfl (Or.inl hcalm.not_shell) hgives (hhas hu)

/-- What the frame owns is live. -/
theorem live_of_refs {v : Value} (hv : refsOf [v] ≤ s.cur.refs p) : s.machine.heap.Live v :=
  live_of_le hw.good.sound (hv.trans ((Multiset.le_add_right _ _).trans (Multiset.le_add_right _ _)))

theorem carried_param {dst : Reg} {idx : Nat} (hi : (code p s)[s.cur.pc]? = some (.param dst idx)) :
    Carried crowded p B limit s ρ (.param dst idx) := by
  have hargs : s.advance.cur.args = s.cur.args := rfl
  simp only [Carried, Running.exec, hargs]
  cases hv : s.cur.args[idx]? with
  | none => exact trivial
  | some v =>
    have hle : refsOf [v] ≤ s.cur.refs p := (refsOf_le_of_mem (List.mem_of_getElem? hv)).trans
      ((Multiset.le_add_right _ _).trans (Multiset.le_add_left _ _))
    obtain ⟨κ, hκ, hh⟩ := exists_has (hw.live_of_refs hle)
    exact hw.create_with hi rfl rfl (Or.inl (Env.Calm.not_shell (hw.safe hi).needs)) hκ hh

theorem carried_capture {dst : Reg} {idx : Nat}
    (hi : (code p s)[s.cur.pc]? = some (.capture dst idx)) :
    Carried crowded p B limit s ρ (.capture dst idx) := by
  obtain ⟨hcalm, hidx⟩ := (hw.safe hi).needs
  cases hc : s.cur.closure with
  | none =>
    rw [hw.rests.home.host hc] at hidx
    simp at hidx
  | some v =>
    obtain ⟨r, rc, k, rfl, hr, -, hfur⟩ := hw.rests.home.closure hc
    have hlt : idx < k.caps.length := hfur.length ▸ hidx
    have hget : k.caps[idx]? = some k.caps[idx] := List.getElem?_eq_getElem hlt
    obtain ⟨κ, hκ, hh⟩ : ∃ κ, w.Gives ρ (.capture dst idx : Instr Nat) κ ∧
        Has s.machine.heap k.caps[idx] κ := by
      cases hm : w.caps[idx]? with
      | none => exact absurd hidx (by simpa using hm)
      | some mutable =>
        cases mutable with
        | true => exact ⟨.cell, ⟨by simp, fun _ => rfl⟩, hfur.cell hm hget⟩
        | false =>
          obtain ⟨κ, hκ, hh⟩ := exists_has (live_capture hw.good.sound hr (List.getElem_mem hlt))
          exact ⟨κ, ⟨hκ, fun e => by rw [hm] at e; cases e⟩, hh⟩
    have hk : s.machine.heap.closure? (.obj r) = .ok (some k) := by
      simp only [closure?, get_eq hr, bind, Except.bind]
      rfl
    show Ensures crowded (s.advance.capture dst idx) _
    rw [Running.capture_eq (s := s.advance) hc hk hget]
    exact hw.create_with hi rfl rfl (Or.inl hcalm.not_shell) hκ hh

theorem carried_unbox {dst cell : Reg} (hi : (code p s)[s.cur.pc]? = some (.unbox dst cell)) :
    Carried crowded p B limit s ρ (.unbox dst cell) := by
  have hcell := hw.input_of hi (by simp [Instr.inputs]) (hw.safe hi).needs
  have hwhole : ρ.Whole := (hw.safe hi).shields
  show Ensures crowded (s.advance.unbox dst cell) _
  obtain ⟨⟨h, consts, stack, stats⟩, callers, f⟩ := s
  obtain ⟨r, rc, x, hget, hr⟩ := hcell.cell
  refine (Frame.ensures_read _ cell).bind fun v hv => ?_
  obtain rfl : v = .obj r := hv.trans hget
  simp only [Value.asObj?, Running.advance, get_eq hr, bind, Except.bind]
  obtain ⟨κ, hκ, hh⟩ := exists_has (live_owned hw.good.sound hr (v := x) (by simp [Object.owned]))
  exact hw.create_with hi rfl rfl (Or.inl hwhole.2) hκ hh

theorem carried_test {dst src : Reg} (hi : (code p s)[s.cur.pc]? = some (.test dst src)) :
    Carried crowded p B limit s ρ (.test dst src) :=
  (Frame.ensures_read _ src).bind fun v _ => hw.create_with (κ := .bool v.truthy) hi rfl rfl
    (Or.inr rfl) ⟨_, rfl⟩ rfl

theorem carried_testType {dst src : Reg} {ty : ObjType}
    (hi : (code p s)[s.cur.pc]? = some (.testType dst src ty)) :
    Carried crowded p B limit s ρ (.testType dst src ty) := by
  obtain ⟨a, ha, hh, -⟩ := hw.input hi (r := src) (by simp [Instr.inputs])
  refine (Frame.ensures_read _ src).bind fun v hv => ?_
  subst hv
  have e : s.advance.machine.heap.isOfType (s.advance.cur.get src) ty = .ok (decide (a = .obj ty)) :=
    hh.isOfType ty
  rw [e]
  exact hw.create_with (κ := .bool (decide (a = .obj ty))) hi rfl rfl (Or.inr rfl) ⟨a, ha, rfl⟩ rfl

theorem carried_flag {dst : Reg} {b : Bool} (hi : (code p s)[s.cur.pc]? = some (.flag dst b)) :
    Carried crowded p B limit s ρ (.flag dst b) :=
  hw.create_with (κ := .bool b) hi rfl rfl (Or.inr rfl) rfl rfl

theorem carried_field {dst src : Reg} {idx : Nat}
    (hi : (code p s)[s.cur.pc]? = some (.field dst src idx)) :
    Carried crowded p B limit s ρ (.field dst src idx) := by
  obtain ⟨ty, n, hty, hwidth, hidx⟩ := (hw.safe hi).needs
  rw [hw.rests.home.program] at hwidth
  refine (Frame.ensures_read _ src).bind fun v hv => ?_
  obtain rfl : v = s.cur.get src := hv
  have hwhole : ρ.Whole := (hw.safe hi).shields
  refine hw.create_from hi rfl rfl hwhole.2 ((hw.good.field (hw.input_of hi (by simp [Instr.inputs]) hty)
    hwidth hidx).mono fun q hq => ?_)
  obtain ⟨hgood, hp, κ, ⟨hκ, hu⟩, hh⟩ := hq
  exact ⟨hgood, hp, κ, ⟨hκ, fun e => hu (by rw [hty] at e; cases e; rfl)⟩, hh⟩

theorem carried_operate {op : Operator} {dst l r : Reg} {checked : Bool}
    (hi : (code p s)[s.cur.pc]? = some (.operate op dst l r checked)) :
    Carried crowded p B limit s ρ (.operate op dst l r checked) := by
  obtain ⟨a, ha, hha, -⟩ := hw.input hi (r := l) (by simp [Instr.inputs])
  obtain ⟨b, hb, hhb, -⟩ := hw.input hi (r := r) (by simp [Instr.inputs])
  have hneeds : checked = true ∨ op = .cons ∨ op = .eq ∨ op = .ne ∨ (a = .num ∧ b = .num) := by
    refine (hw.safe hi).needs.imp id (Or.imp id (Or.imp id (Or.imp id fun hn => ?_)))
    rw [ha, hb] at hn
    exact ⟨Status.val.inj hn.1, Status.val.inj hn.2⟩
  refine (Frame.ensures_read _ l).bind fun v hv => (Frame.ensures_read _ r).bind fun v' hv' => ?_
  obtain rfl : v = s.cur.get l := hv
  obtain rfl : v' = s.cur.get r := hv'
  have hwhole : ρ.Whole := (hw.safe hi).shields
  refine hw.create_from hi rfl rfl hwhole.2 ((hw.good.eval hha hhb hneeds).mono fun q hq => ?_)
  obtain ⟨hgood, hp, κ, hκ, hh⟩ := hq
  exact ⟨hgood, hp, κ, ⟨a, b, ha, hb, hκ⟩, hh⟩

theorem carried_box {dst src : Reg} (hi : (code p s)[s.cur.pc]? = some (.box dst src)) :
    Carried crowded p B limit s ρ (.box dst src) := by
  have hwhole : ρ.Whole := (hw.safe hi).shields
  obtain ⟨κ, hκ, hh, -⟩ := hw.input hi (r := src) (by simp [Instr.inputs])
  obtain ⟨⟨h, consts, stack, stats⟩, callers, f⟩ := s
  refine (Frame.ensures_read _ src).bind fun v hv => ?_
  obtain rfl : v = f.get src := hv
  obtain ⟨h₁, e₁, hg₁, hr₁⟩ := hw.good.inc hh.live
  obtain ⟨hg₂, hp₂, hh₂⟩ := Good.allocated (o := .cell (f.get src)) (κ := .cell) hg₁ trivial
    (fun _ => trivial) rfl
  refine Running.ensures_overHeap e₁ (Running.ensures_storeFrom (.of_eq rfl fun f' hset => ?_))
  exact hw.create hi rfl rfl (World.goes_of_gives (i := .box dst src) (κ := .cell) rfl rfl _) hg₂
    ((hr₁.preserves _).trans (hp₂ _)) hh₂ (Or.inl hwhole.2) hset

theorem carried_make {dst : Reg} {ty : Nat} {fields : List Reg}
    (hi : (code p s)[s.cur.pc]? = some (.make dst ty fields)) :
    Carried crowded p B limit s ρ (.make dst ty fields) := by
  have hwhole : ρ.Whole := (hw.safe hi).shields
  obtain ⟨d, hd, hlen⟩ := (hw.safe hi).needs
  rw [hw.rests.home.program] at hd
  have hlive : ∀ v ∈ fields.map s.cur.get, s.machine.heap.Live v := by
    intro v hv
    obtain ⟨r, hr, rfl⟩ := List.mem_map.mp hv
    obtain ⟨κ, -, hh, -⟩ := hw.input hi (r := r) hr
    exact hh.live
  obtain ⟨⟨h, consts, stack, stats⟩, callers, f⟩ := s
  refine (Frame.ensures_readAll _ fields).bind fun vs hvs => ?_
  obtain rfl : vs = fields.map f.get := hvs
  obtain ⟨h₁, e₁, hg₁, hr₁⟩ := hw.good.incAll hlive
  obtain ⟨hg₂, hp₂, hh₂⟩ := Good.allocated (o := .struct ty (fields.map f.get))
    (κ := .obj (.struct ty)) hg₁ trivial (fun _ => ⟨d, hd, by simpa using hlen⟩) rfl
  refine Running.ensures_overHeap e₁ (Running.ensures_storeFrom (.of_eq rfl fun f' hset => ?_))
  exact hw.create hi rfl rfl (World.goes_of_gives (i := .make dst ty fields) rfl rfl _) hg₂
    ((hr₁.preserves _).trans (hp₂ _)) hh₂ (Or.inl hwhole.2) hset

/-! ## Leaving the registers alone -/

theorem carried_nop (hi : (code p s)[s.cur.pc]? = some .nop) : Carried crowded p B limit s ρ .nop :=
  .ok (hw.quiet hi ⟨rfl, rfl⟩ rfl (by simp) hw.good (.refl _ _))

theorem carried_jump {target : Nat} (hi : (code p s)[s.cur.pc]? = some (.jump target)) :
    Carried crowded p B limit s ρ (.jump target) :=
  .ok (hw.quiet hi ⟨rfl, rfl⟩ rfl (by simp) hw.good (.refl _ _))

theorem carried_branch {cond : Reg} {no : Nat} (hi : (code p s)[s.cur.pc]? = some (.branch cond no)) :
    Carried crowded p B limit s ρ (.branch cond no) := by
  obtain ⟨b, hb⟩ := (hw.safe hi).needs
  have hhas := (hw.input_of hi (by simp [Instr.inputs]) hb).bool
  refine (Frame.ensures_read _ cond).bind fun v hv => ?_
  obtain rfl : v = .bool b := hv.trans hhas
  cases b with
  | true => exact .ok (hw.quiet hi ⟨rfl, Or.inl ⟨hb, rfl⟩⟩ rfl (by simp) hw.good (.refl _ _))
  | false => exact .ok (hw.quiet hi ⟨rfl, Or.inr ⟨hb, rfl⟩⟩ rfl (by simp) hw.good (.refl _ _))

theorem carried_guard {src : Reg} {ty : ObjType} (hi : (code p s)[s.cur.pc]? = some (.guard src ty)) :
    Carried crowded p B limit s ρ (.guard src ty) := by
  obtain ⟨a, ha, hh, -⟩ := hw.input hi (r := src) (by simp [Instr.inputs])
  refine (Frame.ensures_read _ src).bind fun v hv => ?_
  obtain rfl : v = s.cur.get src := hv
  have e : s.advance.machine.heap.isOfType (s.cur.get src) ty = .ok (decide (a = .obj ty)) :=
    hh.isOfType ty
  simp only [e, bind, Except.bind]
  by_cases hty : a = .obj ty
  · simp only [hty, decide_true, if_true]
    exact .ok (hw.quiet hi ⟨⟨hty ▸ ha, rfl⟩, rfl⟩ rfl (by simp) hw.good (.refl _ _))
  · simp only [hty, decide_false, Bool.false_eq_true, if_false]
    exact (ensures_display _ _ _).bind fun _ _ => trivial

theorem carried_trace {src : Reg} {loc : Location}
    (hi : (code p s)[s.cur.pc]? = some (.trace src loc)) :
    Carried crowded p B limit s ρ (.trace src loc) := by
  obtain ⟨a, ha, hh, -⟩ := hw.input hi (r := src) (by simp [Instr.inputs])
  have hquiet : (Progress.more s.advance).Carries p B (s.cur.shells ρ) s.machine.heap :=
    hw.quiet hi ⟨rfl, rfl⟩ rfl (by simp) hw.good (.refl _ _)
  show Ensures crowded (s.advance.trace src loc) _
  obtain ⟨⟨h, consts, stack, stats⟩, callers, f⟩ := s
  refine (Frame.ensures_read _ src).bind fun v hv => ?_
  obtain rfl : v = f.get src := hv
  cases hv : f.get src with
  | obj r =>
    simp only [hv] at hh
    obtain ⟨⟨rc, o⟩, hr, -⟩ := hh
    simp only [Value.asObj?, Running.advance, get_eq hr, bind, Except.bind]
    cases o with
    | undefined tag places =>
      obtain ⟨h', e, hg', hp, -⟩ := hw.good.put_plain (o := .undefined tag (places ++ [loc])) hr
        (by simp) (by simp) rfl rfl
      exact Running.ensures_after (.of_eq e (hw.quiet hi ⟨rfl, rfl⟩ rfl (by simp) hg' (hp _)))
    | _ => exact .ok hquiet
  | _ => exact .ok hquiet

theorem carried_assign {cell src : Reg} (hi : (code p s)[s.cur.pc]? = some (.assign cell src)) :
    Carried crowded p B limit s ρ (.assign cell src) := by
  obtain ⟨κ, -, hh, -⟩ := hw.input hi (r := src) (by simp [Instr.inputs])
  obtain ⟨r, rc, old, hget, hr⟩ := (hw.input_of hi (by simp [Instr.inputs]) (hw.safe hi).needs).cell
  show Ensures crowded (s.advance.assign cell src) _
  obtain ⟨⟨h, consts, stack, stats⟩, callers, f⟩ := s
  refine (Frame.ensures_read _ src).bind fun v hv => ?_
  obtain rfl : v = f.get src := hv
  obtain ⟨h₁, e₁, hg₁, hr₁⟩ := hw.good.inc hh.live
  refine Running.ensures_overHeap e₁ ?_
  refine (Frame.ensures_read _ cell).bind fun v hv => ?_
  obtain rfl : v = .obj r := hv.trans hget
  obtain ⟨rc₁, hr'⟩ := hr₁.objs.symm.back hr
  obtain ⟨h₂, e₂, hg₂, hp₂, -⟩ := hg₁.put_plain (o := .cell (f.get src))
    (T := refsOf [old] + (Running.refs p ⟨⟨h, consts, stack, stats⟩, callers, f⟩ + B)) hr' (by simp)
    (by simp) trivial (by simp only [Object.refs, Object.owned]; abel)
  simp only [Value.asObj?, get_eq hr', bind, Except.bind]
  refine Running.ensures_overHeap (g := (·.put r (.cell (f.get src)))) e₂ (Running.ensures_after ?_)
  refine hg₂.unref.mono fun h₃ hg₃ => ?_
  exact hw.quiet hi ⟨rfl, rfl⟩ rfl (by simp) hg₃.1
    (((hr₁.preserves _).trans (hp₂ _)).trans hg₃.2)

/-! ## Arguments, merges and ownership -/

theorem carried_push {src : Reg} (hi : (code p s)[s.cur.pc]? = some (.push src)) :
    Carried crowded p B limit s ρ (.push src) := by
  obtain ⟨κ, -, hh, -⟩ := hw.input hi (r := src) (by simp [Instr.inputs])
  have hgo : w.Goes ρ (.push src) (some (s.cur.pc + 1)) { ρ with pushed := ρ.pushed + 1 }
    (s.cur.pc + 1) := ⟨rfl, rfl⟩
  have hrefs := hw.refs_same hi hgo rfl (by simp) s.cur.scopes
  obtain ⟨⟨h, consts, stack, stats⟩, callers, f⟩ := s
  refine (Frame.ensures_read _ src).bind fun v hv => ?_
  obtain rfl : v = f.get src := hv
  obtain ⟨h₁, e₁, hg₁, hr₁⟩ := hw.good.inc hh.live
  refine Running.ensures_overHeap e₁ (.ok ?_)
  refine hw.go hi hgo (Frame.follows_of_regs _ _ f f.scopes) ?_ (hr₁.preserves _).toRespects
    (Or.inl le_rfl) (fun _ _ hh _ => hr₁.has hh) (by simp [Instr.fills, Instr.creates]) (by simp)
    (by simp) (by simp [Instr.fills, Instr.creates]) (hw.rests.scope.preserves (hr₁.preserves 0))
    (by simpa using hw.pushed)
  have : Frame.refs p { f with pc := f.pc + 1, scopes := f.scopes } +
      (framesRefs p callers.toList + (refsOf (f.get src :: stack) + refsOf consts.toList)) + B =
      refsOf [f.get src] + (Running.refs p ⟨⟨h, consts, stack, stats⟩, callers, f⟩ + B) := by
    rw [refsOf_cons, hrefs, Running.refs]
    abel
  rw [this]
  exact hg₁

/-- What the machine owns changes by the register that is touched. -/
theorem refs_touch {f' : Frame} {ρ' : Env} {pc' : Nat} {d : Reg} {stack' : List Value}
    (hi : (code p s)[s.cur.pc]? = some i) (hgo : w.Goes ρ i (some (s.cur.pc + 1)) ρ' pc')
    (hfol : Frame.Follows i pc' s.cur f')
    (hd : ∀ q, i.fills = some q ∨ (∃ op, i = .adjust op q) → q = d)
    (hstack : stack' = s.machine.stack) :
    s.cur.share (code p s) d + (f'.refs p + (framesRefs p s.callers.toList + (refsOf stack' +
      refsOf s.machine.consts.toList)) + B) = f'.share (code p s) d + (s.refs p + B) := by
  have := hw.rests.refs_touch hi hgo hfol hd
  calc _ = f'.refs p + s.cur.share (code p s) d + (framesRefs p s.callers.toList +
        (refsOf stack' + refsOf s.machine.consts.toList)) + B := by abel
    _ = _ := by
      rw [this, hstack, Running.refs]
      abel

theorem carried_move {dst src : Reg} (hi : (code p s)[s.cur.pc]? = some (.move dst src)) :
    Carried crowded p B limit s ρ (.move dst src) := by
  obtain ⟨κ, hκ, hh, hsrc⟩ := hw.input hi (r := src) (by simp [Instr.inputs])
  have hvoid : ρ.regs dst = .void := (hw.safe hi).needs
  have hgo : w.Goes ρ (.move dst src) (some (s.cur.pc + 1)) (ρ.set dst (.held κ)) (s.cur.pc + 1) :=
    ⟨⟨κ, hκ, rfl⟩, rfl⟩
  have hreach := hw.rests.reached.step hi hgo
  have hv := hw.rests.home.vetted
  obtain ⟨⟨h, consts, stack, stats⟩, callers, f⟩ := s
  refine (Frame.ensures_read _ src).bind fun v hv => ?_
  obtain rfl : v = f.get src := hv
  obtain ⟨h₁, e₁, hg₁, hr₁⟩ := hw.good.inc hh.live
  refine Running.ensures_overHeap e₁ (Running.ensures_store fun f' hset => ?_)
  have hfol : Frame.Follows (.move dst src) (f.pc + 1) f f' := hset.follows rfl
  have hbefore : f.share (p.codeOf f.unit) dst = 0 :=
    Frame.share_of_refsOf (by rw [hw.rests.stocked.void hvoid, refsOf_nilValue])
  have hafter : f'.share (p.codeOf f.unit) dst = refsOf [f.get src] := by
    rw [← hset.self]
    refine Frame.share_of_held hv (hfol.place ▸ hreach) (Env.set_self _ _) (h := h) ?_
    rw [hset.self]
    exact hh
  have htouch := hw.refs_touch hi hgo hfol (d := dst) (by
    rintro q (e | ⟨op, e⟩)
    · exact (Option.some.inj e).symm
    · cases e) rfl
  have hshells : f'.shells (ρ.set dst (.held κ)) = f.shells ρ :=
    Frame.Stocked.shells_step hv hw.rests.reached hi hgo (by simp) (by simp) hfol.get
  refine hw.go hi hgo hfol ?_ (hr₁.preserves _).toRespects (Or.inl le_rfl)
    (fun _ _ hh _ => hr₁.has hh) (fun q hq => ?_) (by simp) (by simp) (fun {q r x} hq hr hne hx e => ?_) ?_
    hw.pushed
  · rw [hbefore, hafter, zero_add] at htouch
    rw [hshells]
    exact htouch ▸ hg₁
  · obtain rfl := Option.some.inj hq
    refine ⟨hset.within, ?_⟩
    rw [Env.set_self]
    show Has h₁ (f'.get dst) κ
    rw [hset.self]
    exact hr₁.has hh
  · obtain rfl := Option.some.inj hq
    rw [hset.self] at e
    obtain rfl := hw.rests.stocked.apart_input hv hw.rests.reached hi (by simp [Instr.inputs]) hr hx e
    cases hκ.symm.trans hr
    cases hsrc rfl
  · rw [hset.scopes]
    exact hw.rests.scope.preserves (hr₁.preserves 0)

theorem carried_merge {dst : Reg} (hi : (code p s)[s.cur.pc]? = some (.merge dst)) :
    Carried crowded p B limit s ρ (.merge dst) := by
  obtain ⟨κ, hκ⟩ := (hw.safe hi).needs
  have hgo : w.Goes ρ (.merge dst) (some (s.cur.pc + 1)) (ρ.set dst (.val κ)) (s.cur.pc + 1) :=
    ⟨⟨κ, hκ, rfl⟩, rfl⟩
  have hv := hw.rests.home.vetted
  have hh := hw.rests.stocked.held hκ
  have hfol := Frame.follows_of_regs (.merge dst) (s.cur.pc + 1) s.cur s.cur.scopes
  have hbefore : s.cur.share (code p s) dst = refsOf [s.cur.get dst] :=
    Frame.share_of_held hv hw.rests.reached hκ hh
  have hafter : Frame.share (code p s) { s.cur with pc := s.cur.pc + 1 } dst =
      refsOf [s.cur.get dst] := by
    by_cases hu : w.Uncounted dst
    · have h0 := hw.rests.stocked.refsOf_uncounted (hw.safe hi).modest hu
      rw [h0]
      exact Frame.share_of_refsOf h0
    · have hwalk : Walk (code p s) dst (s.cur.pc + 1) ⟨1, false⟩ :=
        .born hi rfl (by simp [Instr.exits, Instr.isTerminal])
      rw [Frame.share, hv.owned_of_walk hu hwalk, one_nsmul]
      rfl
  have htouch := hw.refs_touch hi hgo hfol (d := dst) (by
    rintro q (e | ⟨op, e⟩)
    · exact (Option.some.inj e).symm
    · cases e) rfl
  have hshells : Frame.shells { s.cur with pc := s.cur.pc + 1 } (ρ.set dst (.val κ)) = s.cur.shells ρ :=
    Frame.Stocked.shells_step hv hw.rests.reached hi hgo (by simp) (by simp) hfol.get
  refine .ok (hw.go hi hgo hfol ?_ (.refl _ _) (Or.inl le_rfl) (fun _ _ hh _ => hh) (fun q hq => ?_)
    (by simp) (by simp) (fun {q r x} hq hr hne hx e => ?_) hw.rests.scope hw.pushed)
  · rw [hbefore, hafter] at htouch
    rw [hshells, add_left_cancel htouch]
    exact hw.good
  · obtain rfl := Option.some.inj hq
    refine ⟨hw.rests.stocked.within (by simp [hκ]), ?_⟩
    rw [Env.set_self]
    exact fun _ => hh
  · obtain rfl := Option.some.inj hq
    exact hne (hw.rests.stocked.apart hr (Or.inl ⟨κ, hκ⟩) hx e)

/-- An ownership instruction. -/
theorem carried_adjust {op : CountOp} {r : Reg} (hi : (code p s)[s.cur.pc]? = some (.adjust op r)) :
    Carried crowded p B limit s ρ (.adjust op r) := by
  have hv := hw.rests.home.vetted
  have hgo : w.Goes ρ (.adjust op r) (some (s.cur.pc + 1)) ρ (s.cur.pc + 1) := ⟨rfl, rfl⟩
  have hfol := Frame.follows_of_regs (.adjust op r) (s.cur.pc + 1) s.cur s.cur.scopes
  have htouch := hw.refs_touch hi hgo hfol (d := r) (by
    rintro q (e | ⟨op, e⟩)
    · cases e
    · cases e
      rfl) rfl
  have hshells : Frame.shells { s.cur with pc := s.cur.pc + 1 } ρ = s.cur.shells ρ := rfl
  obtain ⟨hu, hcases⟩ := hv.adjust_cases hw.rests.reached hi
  have hshare : ∀ {pc st}, Walk (code p s) r pc st →
      Frame.share (code p s) { s.cur with pc := pc } r = st.count • refsOf [s.cur.get r] :=
    fun hst => by rw [Frame.share, hv.owned_of_walk hu hst]; rfl
  have hgone : Walk (code p s) r (s.cur.pc + 1) ⟨0, true⟩ → ∀ {h' : Heap} {κ},
      Frame.Sits w h' (code p s) { s.cur with pc := s.cur.pc + 1 } r (.val κ) := by
    rintro hst h' κ (hn | ⟨st', hst', hd⟩)
    · exact absurd hn hu
    · rw [hv.walk_unique hu hst' hst] at hd
      cases hd
  obtain ⟨⟨h, consts, stack, stats⟩, callers, f⟩ := s
  refine (Frame.ensures_read _ r).bind fun v hv => ?_
  obtain rfl : v = f.get r := hv
  refine Running.ensures_after ?_
  rcases hcases with hvoid | ⟨κ, hκ, hcases⟩
  · -- the register has not been filled: its value is nil
    have hnil := hw.rests.stocked.void hvoid
    have e : Running.adjust op h (f.get r) = .ok h := by
      rw [hnil]
      cases op <;> rfl
    refine .of_eq e (hw.go hi hgo hfol ?_ (.refl _ _) (Or.inl le_rfl) (fun _ _ hh _ => hh)
      (by simp [Instr.fills, Instr.creates])
      (fun op' q e => ?_) (by simp) (by simp [Instr.fills, Instr.creates]) hw.rests.scope hw.pushed)
    · rw [Frame.share_of_refsOf (f := f) (by rw [hnil, refsOf_nilValue]), Frame.share_of_refsOf
        (by rw [← refsOf_nilValue, ← hnil]; rfl), zero_add, zero_add] at htouch
      rw [htouch]
      exact hw.good
    · cases e
      rw [hvoid]
      exact hnil
  · rcases hcases with ⟨rfl, hst, hst'⟩ | ⟨rfl, hst, hst'⟩ | ⟨rfl, hst, hst'⟩
    · -- a fresh value is acquired
      have hh := hw.rests.stocked.val hκ (Or.inr ⟨_, hst, rfl⟩)
      obtain ⟨h₁, e₁, hg₁, hr₁⟩ := hw.good.inc hh.live
      refine .of_eq e₁ (hw.go hi hgo hfol ?_ (hr₁.preserves _).toRespects (Or.inl le_rfl)
        (fun _ _ hh _ => hr₁.has hh) (by simp [Instr.fills, Instr.creates]) (fun op' q e => ?_) (by simp)
        (by simp [Instr.fills, Instr.creates]) (hw.rests.scope.preserves (hr₁.preserves 0)) hw.pushed)
      · rw [hshare hst', show f.share _ r = _ from hshare hst, zero_nsmul, one_nsmul, zero_add] at htouch
        exact htouch ▸ hg₁
      · cases e
        rw [hκ]
        exact fun _ => hr₁.has hh
    · -- a fresh value is of no use
      have hh := hw.rests.stocked.val hκ (Or.inr ⟨_, hst, rfl⟩)
      refine (hw.good.drop hh.live).mono fun h₁ hg₁ => hw.go hi hgo hfol ?_ hg₁.2.toRespects
        (Or.inl le_rfl) (fun _ hle hh _ => hg₁.2.has hle hh) (by simp [Instr.fills, Instr.creates])
        (fun op' q e => ?_) (by simp) (by simp [Instr.fills, Instr.creates])
        (hw.rests.scope.preserves hg₁.2) hw.pushed
      · rw [hshare hst', show f.share _ r = _ from hshare hst, zero_nsmul, zero_add,
          zero_add] at htouch
        exact htouch ▸ hg₁.1
      · cases e
        rw [hκ]
        exact hgone hst'
    · -- a value has been used for the last time
      rw [hshare hst', show f.share _ r = _ from hshare hst, zero_nsmul, one_nsmul, zero_add] at htouch
      have hgood := hw.good
      rw [← htouch] at hgood
      refine hgood.unref.mono fun h₁ hg₁ => hw.go hi hgo hfol hg₁.1 hg₁.2.toRespects (Or.inr le_rfl)
        (fun _ hle hh _ => hg₁.2.has hle hh) (by simp [Instr.fills, Instr.creates])
        (fun op' q e => ?_) (by simp) (by simp [Instr.fills, Instr.creates])
        (hw.rests.scope.preserves hg₁.2) hw.pushed
      cases e
      rw [hκ]
      exact hgone hst'

end Working

end CountedMachine
