import CountedMachine.Proofs.Generation.Tidied
import CountedMachine.Proofs.Machine.Arguments
import CountedMachine.Proofs.Machine.Replies
import CountedMachine.Proofs.Machine.IdleLoads.Relation

/-! # Running with idle loads and without

A program and the tidied program run side by side. Each step of the first is one of both, or it is left
out in the second (`Running.TidiedRun.keep`, `Running.TidiedRun.skip`): an idle load puts a value into a
register that nobody reads, and dropping that value frees nothing, because somebody else owns it or owns
a member of its scope. So a chain that comes back to the host in both programs comes back with the same
outcome (`Running.TidiedRun.ends`). -/

namespace CountedMachine

open Heap

/-! ## What may be dropped -/

section
variable {h : Heap} {R : Multiset ObjId} {v : Value} {r : ObjId} {rc idx : Nat} {k : Closure}

theorem mem_siblings {x : ObjId} : x ∈ h.siblings k ↔ ∃ g s, k.scope = some g ∧ h.scopeAt g = some s ∧
    s.isSealed = true ∧ x ∈ s.members := by
  unfold siblings
  cases hg : k.scope with
  | none => simp
  | some g => cases hs : h.scopeAt g <;> simp [hs]

/-- A value that somebody owns a reference to. -/
theorem harmless_of_mem (hs : Sound h R []) (hv : ∀ {x}, v = .obj x → x ∈ R + h.held) :
    SameButEstimates.Harmless h v := by
  intro x e
  obtain ⟨c, hc⟩ := hs.counted.live x (hv e)
  refine ⟨c, hc, Or.inl ?_⟩
  rw [hs.counted.exact hc, Multiset.count_pos]
  exact hv e

/-- **A capture of a closure that somebody owns.** A weak one is a member of the closure's scope. -/
theorem harmless_capture (hs : Sound h R []) (hr : r ∈ R) (hk : h.slot? r = some ⟨rc, .closure k⟩)
    (hv : k.caps[idx]? = some v) : SameButEstimates.Harmless h v := by
  cases hweak : k.weak.getD idx false with
  | false =>
    refine harmless_of_mem hs fun {x} e => Multiset.mem_add.mpr (Or.inr ?_)
    refine Multiset.mem_of_le (refs_le_held hk) (mem_refsOf.mpr ?_)
    simp only [Object.owned, Closure.ownedCaps, List.mem_map, List.mem_filter]
    exact ⟨(v, idx), ⟨List.mk_mem_zipIdx_iff_getElem?.mpr hv, by rw [hweak]; rfl⟩, e⟩
  | true =>
    intro x e
    have hmark := hs.marked r rc k hk (by simp) idx
    rw [hweak, hv, e] at hmark
    obtain ⟨g, s, hkg, hg, -, hx⟩ := mem_siblings.mp (by simpa [isMember] using hmark.symm)
    obtain ⟨rc', k', hx', hk'⟩ := hs.grouped.member hg hx
    obtain ⟨s', hg', hmem⟩ := hs.grouped.home hk hkg (by simp)
    obtain rfl := Option.some.inj (hg.symm.trans hg')
    refine ⟨_, hx', Or.inr ⟨g, s, hk', hg, r, hmem, ?_⟩⟩
    rw [rcOrZero, hk]
    exact hs.counted.pos hk hr

end

/-! ## The program -/

/-- **What tidying relies on**: the constants that are left out are nil, the ownership instructions that
are left out are drops, and branches and jumps lead to labels. -/
structure Program.Tidyable (p : Program) (isNil : Nat → ConstId → Bool) : Prop where
  nil : ∀ {k : Nat} {j : ConstId}, isNil k j = true → p.consts[j.index]? = some .nil
  drops : ∀ unit, DropsIdle (isNil unit.index) (p.codeOf unit).toList
  aimed : ∀ unit, ∀ i ∈ p.codeOf unit, ∀ t, i.label? = some t →
    ∃ j, (p.codeOf unit)[t]? = some j ∧ j.isLabel = true

theorem SourceModule.compile_tidyable {m : SourceModule} {settings : Settings} {p : Program}
    {isNil : Nat → ConstId → Bool} (hp : m.compile settings = .ok p)
    (hnil : ∀ k j, isNil k j = true → p.consts[j.index]? = some .nil)
    (hdrops : ∀ k u, p.units[k]? = some u → DropsIdle (isNil k) u.code.toList) : p.Tidyable isNil where
  nil h := hnil _ _ h
  drops unit := by
    unfold Program.codeOf
    split
    · next u hu => exact hdrops _ u hu
    · exact nofun
  aimed := (compile_feeding hp).aimed

/-! ## Steps -/

/-- The value has yet to report, and the instruction that comes next lets it. -/
def Running.Reports (p : Program) (isNil : Nat → ConstId → Bool) (s : Running) (x : ObjId) : Prop :=
  ∃ op r, s.fetch p = .ok (.adjust op r) ∧ (op = .inc ∨ op = .drop) ∧ r ∉ p.idle isNil s.cur.unit ∧
    s.cur.read r = .ok (.obj x)

/-- **A machine in order at work, and one at work on the tidied program.** A value that is about to be dropped on
one side only can be dropped. -/
structure Running.TidiedRun (p : Program) [p.Origin] (isNil : Nat → ConstId → Bool) (B : Multiset ObjId)
    (s s' : Running) : Prop where
  working : ∃ w ρ, Working p B s w ρ
  tidiedTo : ∃ due, s.TidiedTo p isNil due s' ∧ ∀ x ∈ due, s.Reports p isNil x
  poised : ∀ {op r}, s.fetch p = .ok (.adjust op r) → r ∈ p.idle isNil s.cur.unit →
    SameButEstimates.Harmless s.machine.heap (s.cur.get r)

namespace Running

variable {p : Program} [p.Origin] {isNil : Nat → ConstId → Bool} {B : Multiset ObjId} {s s₁ s' : Running} {w : World}
  {ρ : Env} {i : Instr Nat} {r : Reg} {v : Value} {q q' : Progress} {op : CountOp} {limit : Nat}

theorem store_ok (e : s.store r v = .ok q) : r.index < s.cur.regs.size ∧
    q = .more ⟨s.machine, s.callers, { s.cur with regs := s.cur.regs.setIfInBounds r.index v }⟩ := by
  obtain ⟨t, ht, e⟩ := bind_ok e
  obtain ⟨f, hf, ht⟩ := bind_ok ht
  cases ht
  cases e
  unfold Frame.write at hf
  split_ifs at hf with hlt
  cases hf
  exact ⟨hlt, rfl⟩

/-- An idle register is dropped behind its load and nowhere else. -/
theorem landing (hp : p.Tidyable isNil) (hw : Working p B s w ρ) (hi : s.fetch p = .ok (.adjust op r))
    (hidle : r ∈ p.idle isNil s.cur.unit) : op = .drop ∧ ∃ (pc : Nat) (i : Instr Nat),
      s.cur.pc = pc + 1 ∧ (p.codeOf s.cur.unit)[pc]? = some i ∧ i.idle? (isNil s.cur.unit.index) = some r :=
  hw.rests.home.vetted.adjust_idle (hp.drops _) (fetch_eq.mp hi) hidle

/-! ### Steps that are left out -/

section
variable (hp : p.Tidyable isNil) (hw : Working p B s w ρ) (hi : s.fetch p = .ok i)
  (hidle : r ∈ p.idle isNil s.cur.unit)
include hp hw hi hidle

/-- A constant that is loaded in vain is nil if the register is counted, and no error value in any case. -/
theorem loads_const {k : ConstId} (e : i = .const r k) (hstep : s.advance.exec p limit i = .ok q) :
    ∃ v, s.advance.store r v = .ok q ∧ (¬ w.Uncounted r → SameButEstimates.Harmless s.machine.heap v) := by
  subst e
  have hi := fetch_eq.mp hi
  have hv := hw.rests.home.vetted
  have hnil : ¬ w.Uncounted r → p.consts[k.index]? = some .nil := fun hr => by
    have hload := hv.idle?_eq_some hr hidle hi rfl
    obtain ⟨k', e, hk⟩ | ⟨n, e⟩ | ⟨n, e⟩ := Instr.idle?_eq_some.mp hload <;> cases e
    exact hp.nil hk
  have hplain : ∀ tag, p.consts[k.index]? ≠ some (.undefined tag) := by
    intro tag hc
    by_cases hr : w.Uncounted r
    · have hgo : w.Goes ρ (.const r k) (some (s.cur.pc + 1)) (ρ.set r (.val (.obj .undefined)))
          (s.cur.pc + 1) := ⟨⟨_, ⟨_, by rw [hw.rests.home.program, hc], rfl⟩, rfl⟩, rfl⟩
      obtain ⟨j, -, hs⟩ := hv.safe (hw.rests.reached.step hi hgo)
      exact absurd (hs.modest r (.obj .undefined) (by simp [Status.kind?]) hr) (by decide)
    · cases hc.symm.trans (hnil hr)
  change s.advance.loadConst p r k = .ok q at hstep
  unfold loadConst at hstep
  split at hstep
  · cases hstep
  · next tag hc => exact absurd hc (hplain tag)
  · split at hstep
    · next v hv =>
      refine ⟨v, hstep, fun hr => ?_⟩
      obtain ⟨v', hv', hhas⟩ := hw.loaded k.index .nil (hnil hr)
      obtain rfl : v = v' := Option.some.inj (hv.symm.trans hv')
      have hhas : Has s.machine.heap v .nil := hhas fun _ e => by cases e
      rintro x rfl
      obtain ⟨c, -, hf⟩ := hhas
      cases hf.counted
    · cases hstep

omit hp hidle in
/-- A parameter belongs to the frame. -/
theorem loads_param {idx : Nat} (e : i = .param r idx) (hstep : s.advance.exec p limit i = .ok q) :
    ∃ v, s.advance.store r v = .ok q ∧ SameButEstimates.Harmless s.machine.heap v := by
  subst e
  simp only [exec] at hstep
  split at hstep
  · next v hv =>
    refine ⟨v, hstep, harmless_of_mem hw.good.sound fun {x} e => ?_⟩
    have hx : x ∈ refsOf s.cur.args := mem_refsOf.mpr (e ▸ List.mem_of_getElem? hv)
    simp only [Running.refs, Frame.refs, Multiset.mem_add]
    tauto
  · cases hstep

omit hp hidle in
/-- A capture belongs to the closure that runs, or to its scope. -/
theorem loads_capture {idx : Nat} (e : i = .capture r idx) (hstep : s.advance.exec p limit i = .ok q) :
    ∃ v, s.advance.store r v = .ok q ∧ SameButEstimates.Harmless s.machine.heap v := by
  subst e
  simp only [exec, capture] at hstep
  split at hstep
  · next f hc =>
    obtain ⟨x, rc, k, rfl, hx, -, -⟩ := hw.rests.home.closure hc
    have hk : s.advance.machine.heap.closure? (.obj x) = .ok (some k) := by
      change s.machine.heap.closure? (.obj x) = _
      simp only [closure?, get_eq hx, bind, Except.bind]
      rfl
    rw [hk] at hstep
    dsimp only [bind, Except.bind] at hstep
    split at hstep
    · next v hv =>
      refine ⟨v, hstep, harmless_capture hw.good.sound ?_ hx hv⟩
      have : x ∈ refsOf s.cur.closure.toList := by rw [show s.cur.closure = _ from hc]; simp [refsOf_obj]
      simp only [Running.refs, Frame.refs, Multiset.mem_add]
      tauto
    · cases hstep
  · cases hstep

/-- **A load that is left out.** -/
theorem loads (hload : i.about? = some r) (hadj : ∀ op q, i ≠ .adjust op q)
    (hstep : s.advance.exec p limit i = .ok q) :
    ∃ v, s.advance.store r v = .ok q ∧ (¬ w.Uncounted r → SameButEstimates.Harmless s.machine.heap v) := by
  obtain ⟨k, e⟩ | ⟨idx, e⟩ | ⟨idx, e⟩ | ⟨op, e⟩ := Instr.about?_eq_some.mp hload
  · exact loads_const hp hw hi hidle e hstep
  · exact (loads_param hw hi e hstep).imp fun v hv => ⟨hv.1, fun _ => hv.2⟩
  · exact (loads_capture hw hi e hstep).imp fun v hv => ⟨hv.1, fun _ => hv.2⟩
  · exact absurd e (hadj op r)

end

namespace TidiedRun

omit [p.Origin] in
/-- Where the other side has no instruction, its place stays. -/
theorem goto_skipped (hb : s.cur.TidiedTo p isNil s'.cur) (hi : s.fetch p = .ok i)
    (hskip : i.spares (p.idle isNil s.cur.unit) = false) : s.parked.TidiedTo p isNil s'.cur := by
  have hplace : p.place isNil s.cur.unit (s.cur.pc + 1) = p.place isNil s.cur.unit s.cur.pc := by
    unfold Program.place
    rw [placeIn_succ (i := i) (by simpa using fetch_eq.mp hi), hskip]
    rfl
  have := hb.goto (s.cur.pc + 1)
  rw [hplace, ← hb.pc] at this
  exact this

/-- **A step that is left out** leads nowhere on the other side. -/
theorem skip (hp : p.Tidyable isNil) (ha : TidiedRun p isNil B s s') (hi : s.fetch p = .ok i)
    (hskip : i.spares (p.idle isNil s.cur.unit) = false) (hstep : s.step p limit = .ok q) :
    ∃ s₁, q = .more s₁ ∧ TidiedRun p isNil B s₁ s' ∧ Respects B s.machine.heap s₁.machine.heap := by
  obtain ⟨w, ρ, hw⟩ := ha.working
  have hholds := hw.holds_of_step hstep
  obtain ⟨r, hidle, habout⟩ := Instr.spares_eq_false.mp hskip
  rw [step, hi] at hstep
  change s.advance.exec p limit i = .ok q at hstep
  obtain ⟨due, hb, hdue⟩ := ha.tidiedTo
  obtain rfl : due = [] := List.eq_nil_iff_forall_not_mem.mpr fun x hx => by
    obtain ⟨op, r', hi', -, hr', -⟩ := hdue x hx
    obtain rfl := Except.ok.inj (hi.symm.trans hi')
    cases habout
    exact hr' hidle
  have hcur := goto_skipped hb.cur hi hskip
  by_cases hadj : ∃ op r', i = .adjust op r'
  · obtain ⟨op, r', rfl⟩ := hadj
    cases habout
    obtain ⟨rfl, -⟩ := landing hp hw hi hidle
    obtain ⟨v, hv, hstep⟩ := bind_ok hstep
    have hharm := ha.poised hi hidle
    rw [show s.cur.get r = v from (Frame.read_ok hv).symm] at hharm
    obtain ⟨t, ht, e⟩ := bind_ok hstep
    cases e
    obtain ⟨m, hm, e⟩ := bind_ok ht
    cases e
    obtain ⟨h, hdrop, e⟩ := bind_ok hm
    cases e
    refine ⟨_, rfl, ⟨hholds.1, ⟨[], ⟨⟨hb.machine.heap.drop_left hharm hdrop, hb.machine.consts,
      hb.machine.stack, hb.machine.stats⟩, hb.callers, hcur⟩, by simp⟩, fun {op r'} hi' hidle' => ?_⟩, hholds.2⟩
    -- the next instruction does not drop an idle register, because this one loads none
    obtain ⟨w₁, ρ₁, hw₁⟩ := hholds.1
    obtain ⟨-, pc, j, hpc, hj, hload⟩ := landing hp hw₁ hi' hidle'
    cases hpc
    cases (fetch_eq.mp hi).symm.trans hj
    cases hload
  · obtain ⟨v, hstore, hharm⟩ := loads hp hw hi hidle habout (fun op r' e => hadj ⟨op, r', e⟩) hstep
    obtain ⟨hlt, rfl⟩ := store_ok hstore
    refine ⟨_, rfl, ⟨hholds.1, ⟨[], ⟨hb.machine, hb.callers, hcur.set_idle hidle v⟩, by simp⟩,
      fun {op r'} hi' hidle' => ?_⟩, hholds.2⟩
    obtain ⟨w₁, ρ₁, hw₁⟩ := hholds.1
    obtain ⟨-, pc, j, hpc, hj, hload⟩ := landing hp hw₁ hi' hidle'
    cases hpc
    obtain rfl := Option.some.inj ((fetch_eq.mp hi).symm.trans hj)
    obtain rfl := Option.some.inj (habout.symm.trans (Instr.about?_of_idle? hload))
    have hi' := fetch_eq.mp hi'
    have hcounted : ¬ w.Uncounted r := (hw.rests.home.vetted.adjusts hi').1
    rw [show Frame.get _ r = v by simp [Frame.get, hlt]]
    exact hharm hcounted

/-! ### Steps of both -/

/-- The frame that control returns to waits at a call. -/
theorem exists_parked {caller : Frame} (hw : Working p B s w ρ) (hback : s.callers.back? = some caller) :
    ∃ dst func nargs checked w pc ρ, s.cur.ret = some dst ∧
      caller.Parked p s.machine.heap (.call dst func nargs checked) w pc ρ := by
  have hwaiting := hw.waiting
  obtain ⟨cs, hcs⟩ := Array.back?_eq_some_iff.mp hback
  rw [hcs, Array.toList_push, List.reverse_concat] at hwaiting
  generalize s.cur.ret = ret at hwaiting ⊢
  cases hwaiting with
  | caller hpark _ => exact ⟨_, _, _, _, _, _, _, rfl, hpark⟩

/-- **A value that has just been returned** is taken by the instruction behind the call. -/
theorem reports_of_returned {due : List ObjId} (hw : Working p B s w ρ) (hr : s.Returned s₁ due) :
    ∀ x ∈ due, s₁.Reports p isNil x := by
  obtain ⟨caller, dst, y, hback, hret, hunit, hpc, hread, rfl⟩ := hr
  intro x hx
  obtain rfl := List.mem_singleton.mp hx
  obtain ⟨dst', func, nargs, checked, w', pc, ρ', hret', hpark⟩ := exists_parked hw hback
  obtain rfl := Option.some.inj (hret.symm.trans hret')
  have hv := hpark.home.vetted
  have hcounted := hv.counted_of_call hpark.reached hpark.instr
  have hidle : dst ∉ p.idle isNil s₁.cur.unit := by
    rw [hunit]
    intro hidle
    cases hv.idle?_eq_some hcounted hidle hpark.instr rfl
  have hnext := hv.acquired hcounted hpark.instr rfl rfl
  rw [← hpark.place, ← hunit, ← hpc] at hnext
  rcases hnext with h | h
  · exact ⟨.inc, dst, fetch_eq.mpr h, Or.inl rfl, hidle, hread⟩
  · exact ⟨.drop, dst, fetch_eq.mpr h, Or.inr rfl, hidle, hread⟩

section
variable (hi : s.fetch p = .ok i) (hkeep : i.spares (p.idle isNil s.cur.unit) = true)
include hi hkeep

omit [p.Origin] in
theorem goto_kept (hb : s.cur.TidiedTo p isNil s'.cur) : s.parked.TidiedTo p isNil s'.parked := by
  have hplace : p.place isNil s.cur.unit (s.cur.pc + 1) = p.place isNil s.cur.unit s.cur.pc + 1 := by
    unfold Program.place
    rw [placeIn_succ (i := i) (by simpa using fetch_eq.mp hi), hkeep]
    rfl
  have := hb.goto (s.cur.pc + 1)
  rw [hplace, ← hb.pc] at this
  exact this

omit [p.Origin] in
theorem fetch_kept (hb : s.cur.TidiedTo p isNil s'.cur) :
    s'.fetch (p.tidied isNil) = .ok (i.relabel (p.place isNil s.cur.unit)) := by
  rw [fetch_eq, hb.unit, hb.pc, p.codeOf_tidied]
  rw [List.getElem?_toArray]
  exact getElem?_thin (by simpa using fetch_eq.mp hi) hkeep

/-- **A step of both** programs. -/
theorem tidiedTo_step (ha : TidiedRun p isNil B s s') (hstep : s.step p limit = .ok q)
    (hstep' : s'.step (p.tidied isNil) limit = .ok q') : Progress.TidiedTo p isNil s q q' := by
  obtain ⟨w, ρ, hw⟩ := ha.working
  obtain ⟨due, hb, hdue⟩ := ha.tidiedTo
  have hi₀ := fetch_eq.mp hi
  rw [step, hi] at hstep
  rw [step, fetch_kept hi hkeep hb.cur] at hstep'
  change s.advance.exec p limit i = .ok q at hstep
  change s'.advance.exec _ limit (i.relabel _) = .ok q' at hstep'
  have hb' : s.advance.TidiedTo p isNil due s'.advance := ⟨hb.machine, hb.callers, goto_kept hi hkeep hb.cur⟩
  by_cases hadj : ∃ op r, i = .adjust op r
  · obtain ⟨op, r, rfl⟩ := hadj
    refine hb'.adjust (Instr.notMem_of_spares hkeep rfl) (hw.rests.home.vetted.adjust_ne_dec hi₀)
      (fun x hx => ?_) _ _ hstep hstep'
    obtain ⟨op', r', hi', hop, -, hread⟩ := hdue x hx
    cases hi.symm.trans hi'
    exact ⟨hop, hread⟩
  · obtain rfl : due = [] := List.eq_nil_iff_forall_not_mem.mpr fun x hx => by
      obtain ⟨op, r, hi', -⟩ := hdue x hx
      exact hadj ⟨op, r, Except.ok.inj (hi.symm.trans hi')⟩
    suffices hexec : Concur (Progress.TidiedTo p isNil s) (s.advance.exec p limit i)
        (s'.advance.exec (p.tidied isNil) limit (i.relabel (p.place isNil s.cur.unit))) from
      hexec q q' hstep hstep'
    refine hb'.exec (fun r hr => notMem_idleRegs (Array.mem_toList_iff.mpr (Array.mem_of_getElem? hi₀)) hr)
      (fun op r e => hadj ⟨op, r, e⟩) ?_ rfl rfl
    -- a closure that gets its code has joined no scope yet
    rintro dst unit caps x c rfl hread hx
    have hshell := hw.input_of hi₀ (r := dst) (by simp [Instr.inputs]) (hw.safe hi₀).needs.1
    rw [← Frame.read_ok (show s.cur.read dst = _ from hread)] at hshell
    obtain ⟨y, rc, k, e, hy, hblank⟩ := hshell.shell
    cases e
    cases hx.symm.trans hy
    exact hblank.2.2

/-- After it no idle register is dropped. -/
theorem notMem_idle_step (hp : p.Tidyable isNil) (hw : Working p B s w ρ) (hw₁ : ∃ w ρ, Working p B s₁ w ρ)
    (hstep : s.step p limit = .ok (.more s₁)) (hi₁ : s₁.fetch p = .ok (.adjust op r)) :
    r ∉ p.idle isNil s₁.cur.unit := by
  intro hidle
  obtain ⟨w₁, ρ₁, hw₁⟩ := hw₁
  obtain ⟨-, pc, j, hpc, hj, hload⟩ := landing hp hw₁ hi₁ hidle
  obtain ⟨i', hi', hturn⟩ := turns_step hstep
  obtain rfl := Except.ok.inj (hi.symm.trans hi')
  have hi := fetch_eq.mp hi
  have hlast : s₁.cur.unit = s.cur.unit → s₁.cur.pc ≠ s.cur.pc + 1 := by
    intro hunit e
    rw [hunit, show pc = s.cur.pc by omega, hi] at hj
    cases hj
    rw [hunit] at hidle hload
    exact Instr.notMem_of_spares hkeep (Instr.about?_of_idle? hload) hidle
  cases hturn with
  | stays _ hunit hwhere =>
    rcases hwhere with e | e
    · exact hlast hunit e
    · obtain ⟨k, hk, hlabel⟩ := hp.aimed _ i (Array.mem_of_getElem? hi) _ e
      rw [← hunit] at hk
      cases (fetch_eq.mp hi₁).symm.trans hk
      cases hlabel
  | adjusts => exact hlast rfl rfl
  | pushes => exact hlast rfl rfl
  | refuses hunit e => exact hlast hunit e
  | enters e => cases hpc.symm.trans e
  | replaces e => cases hpc.symm.trans e
  | returns _ hback hunit e =>
    obtain ⟨dst, func, nargs, checked, w', pc', ρ', -, hpark⟩ := exists_parked hw hback
    obtain rfl : pc = pc' := Nat.succ.inj (hpc.symm.trans (e.trans hpark.place))
    rw [hunit, hpark.instr] at hj
    cases hj
    cases hload

/-- **A step of both.** -/
theorem keep (hp : p.Tidyable isNil) (ha : TidiedRun p isNil B s s') (hstep : s.step p limit = .ok q)
    (hstep' : s'.step (p.tidied isNil) limit = .ok q') :
    (∃ s₁ s₁', q = .more s₁ ∧ q' = .more s₁' ∧ TidiedRun p isNil B s₁ s₁' ∧
        Respects B s.machine.heap s₁.machine.heap) ∨
      ∃ m o m' o', q = .stop m o ∧ q' = .stop m' o' ∧ m.TidiedTo [] m' ∧ o.TidiedTo p isNil o' := by
  obtain ⟨w, ρ, hw⟩ := ha.working
  have hholds := hw.holds_of_step hstep
  cases tidiedTo_step hi hkeep ha hstep hstep' with
  | more hb hdue =>
    refine Or.inl ⟨_, _, rfl, rfl, ⟨hholds.1, ⟨_, hb, ?_⟩, fun hi₁ hidle => ?_⟩, hholds.2⟩
    · rcases hdue with rfl | hreturned
      · simp
      · exact reports_of_returned hw hreturned
    · exact absurd hidle (notMem_idle_step hi hkeep hp hw hholds.1 hstep hi₁)
  | stop hm ho => exact Or.inr ⟨_, _, _, _, rfl, rfl, hm, ho⟩

end

/-! ## Chains -/

/-- **A chain that comes back in both programs** comes back with the same outcome. -/
theorem ends (hp : p.Tidyable isNil) {m m' : Machine} {o o' : Outcome} (hends : Ends p limit s (.ok (m, o)))
    (ha : TidiedRun p isNil B s s') (hends' : Ends (p.tidied isNil) limit s' (.ok (m', o'))) :
    m.TidiedTo [] m' ∧ o.TidiedTo p isNil o' ∧ (Progress.stop m o).Holds p B s.machine.heap := by
  generalize hout : Except.ok (m, o) = out at hends
  induction hends generalizing s' with
  | fault _ => cases hout
  | @stop s _ _ hstep =>
    cases hout
    obtain ⟨w, ρ, hw⟩ := ha.working
    have hholds := hw.holds_of_step hstep
    obtain ⟨i, hi, -⟩ := bind_ok hstep
    cases hkeep : i.spares (p.idle isNil s.cur.unit) with
    | false =>
      obtain ⟨_, e, -⟩ := ha.skip hp hi hkeep hstep
      cases e
    | true =>
      cases hends' with
      | stop hstep' =>
        obtain ⟨_, _, e, -⟩ | ⟨_, _, _, _, e, e', hm, ho⟩ := keep hi hkeep hp ha hstep hstep' <;> cases e
        cases e'
        exact ⟨hm, ho, hholds⟩
      | more hstep' _ =>
        obtain ⟨_, _, e, -⟩ | ⟨_, _, _, _, -, e', -⟩ := keep hi hkeep hp ha hstep hstep' <;> contradiction
  | @more s s₁ _ hstep _ ih =>
    obtain ⟨i, hi, -⟩ := bind_ok hstep
    cases hkeep : i.spares (p.idle isNil s.cur.unit) with
    | false =>
      obtain ⟨_, e, ha₁, hr⟩ := ha.skip hp hi hkeep hstep
      cases e
      obtain ⟨hm, ho, hholds⟩ := ih ha₁ hends' hout
      exact ⟨hm, ho, hholds.trans hr⟩
    | true =>
      cases hends' with
      | stop hstep' => obtain ⟨_, _, -, e, -⟩ | ⟨_, _, _, _, e, -⟩ := keep hi hkeep hp ha hstep hstep' <;> contradiction
      | more hstep' hends' =>
        obtain ⟨_, _, e, e', ha₁, hr⟩ | ⟨_, _, _, _, e, -⟩ := keep hi hkeep hp ha hstep hstep' <;> cases e
        cases e'
        obtain ⟨hm, ho, hholds⟩ := ih ha₁ hends' hout
        exact ⟨hm, ho, hholds.trans hr⟩

end TidiedRun

end Running

end CountedMachine
