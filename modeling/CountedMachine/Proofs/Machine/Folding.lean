import CountedMachine.Proofs.Generation.Layout
import CountedMachine.Proofs.Listing.Folding
import CountedMachine.Proofs.Machine.Assembled
import CountedMachine.Proofs.Machine.Moved

/-! # Running folded code

The code of a unit is replaced by what folding its pairs makes of it. A run of the new program shadows
the run of the old one (`Shadow`): outside of the pairs it has the same heap, the same registers and the
same stack, with its frames where their places have gone; while the old program is between the two
instructions of a pair, the new one waits. `INC r; DEC r` leaves the heap as it was, and `INC r; UNREF r`
does what `DROP r` does, whatever the count is (`Heap.release_of_inc`, `Heap.unref_of_inc`), so a step of
the one is a step of the other or none (`Shadow.step`). The new program does not wait forever, since it
waits only while the old one moves on in its unit. -/

namespace CountedMachine

/-! ## Taking a reference and giving it up -/

namespace Heap

variable {h h₁ : Heap} {v : Value}

theorem inc_obj {r : ObjId} (e : h.inc (.obj r) = .ok h₁) :
    ∃ c, h.slot? r = some c ∧ h₁ = h.setSlot r (some { c with rc := c.rc + 1 }) := by
  cases hr : h.slot? r with
  | none => simp [inc, incObj, slot, hr, bind, Except.bind] at e
  | some c =>
    rw [inc, incObj_eq hr] at e
    exact ⟨c, rfl, (Except.ok.inj e).symm⟩

/-- Acquiring and releasing without freeing. -/
theorem release_of_inc (e : h.inc v = .ok h₁) : h₁.release v = .ok h := by
  cases v with
  | obj r =>
    obtain ⟨c, hr, rfl⟩ := inc_obj e
    rw [release, decObj_incObj hr]
    rfl
  | _ => exact e.symm

/-- **Acquiring and giving up** is dropping, whatever the count is. -/
theorem unref_of_inc (e : h.inc v = .ok h₁) : h₁.unref v = h.drop v := by
  cases v with
  | obj r =>
    obtain ⟨c, hr, rfl⟩ := inc_obj e
    simp only [unref, drop, decObj_incObj hr, rc, slot, hr, Except.map, bind, Except.bind]
  | _ =>
    cases e
    rfl

end Heap

/-! ## The new program -/

/-- The program with other code in a unit. -/
def Program.recode (p : Program) (u : UnitId) (code : Array (Instr Nat)) : Program :=
  { p with units := p.units.modify u.index ({ · with code := code }) }

section
variable {p : Program} {u id : UnitId} {c : Array (Instr Nat)}

theorem Program.codeOf_recode {x : CodeUnit} (hu : p.units[u.index]? = some x) :
    (p.recode u c).codeOf u = c := by
  simp [codeOf, recode, Array.getElem?_modify, hu]

theorem Program.codeOf_recode_of_ne (hid : id ≠ u) : (p.recode u c).codeOf id = p.codeOf id := by
  have hne : u.index ≠ id.index := fun e => hid (by cases u; cases id; exact congrArg _ e.symm)
  simp [codeOf, recode, Array.getElem?_modify, hne]

theorem Program.recodes {φ : UnitId → Nat → Nat} (hstart : ∀ id, φ id 0 = 0) :
    p.Recodes φ (p.recode u c) where
  consts := rfl
  types := rfl
  start := hstart
  unit id := by
    simp only [unit, recode, Array.getElem?_modify]
    by_cases e : u.index = id.index
    · refine ⟨c, ?_⟩
      rw [if_pos e]
      cases p.units[id.index]? <;> rfl
    · rw [if_neg e]
      cases h : p.units[id.index]? with
      | none => exact ⟨c, rfl⟩
      | some x => exact ⟨x.code, rfl⟩

end

namespace Listing

/-- **Where a place has gone**, in the unit whose code was folded. -/
def movesTo (u : UnitId) (code code' : Code) (id : UnitId) (pc : Nat) : Nat :=
  if id = u then placeAmong (ids code') code pc else pc

/-- The place is not between the two instructions of a pair that was folded. -/
def Outside (u : UnitId) (code code' : Code) (id : UnitId) (pc : Nat) : Prop :=
  id = u → ¬ Between (ids code') code pc

/-- **A unit has the code of a listing that can be folded.** Labels are no ownership instructions. -/
structure Foldable (p : Program) (u : UnitId) (code code' : Code) : Prop where
  unit : ∃ x, p.units[u.index]? = some x ∧ x.code = layout code
  folds : ∃ n, Folds code code' n
  nodup : (ids code).Nodup
  labels : ∀ a i b, (a, i) ∈ code → i.label? = some b → ∃ j, (b, j) ∈ code ∧ j.isLabel = true

section
variable {p : Program} {u : UnitId} {code code' : Code} {s t σ : Running} {i : Instr Nat}
  {limit : Nat} {pc pc' : Nat}

theorem outside_of_foldedPlace (hnd : (ids code).Nodup) (h : FoldedPlace code code' pc pc') (id : UnitId) :
    Outside u code code' id pc := fun _ => h.not_between hnd

theorem Foldable.codeOf (hf : Foldable p u code code') : p.codeOf u = layout code := by
  obtain ⟨x, hx, hcode⟩ := hf.unit
  rw [Program.codeOf, hx]
  exact hcode

theorem Foldable.codeOf_new (hf : Foldable p u code code') :
    (p.recode u (layout code')).codeOf u = layout code' := by
  obtain ⟨x, hx, -⟩ := hf.unit
  exact Program.codeOf_recode hx

theorem movesTo_zero (id : UnitId) : movesTo u code code' id 0 = 0 := by
  simp [movesTo, placeAmong]

theorem outside_zero (id : UnitId) : Outside u code code' id 0 := by
  rintro - ⟨xs, a, r, ys, -, -, e⟩
  cases e

/-- A pair at the current place: what the two instructions are, and what is left of them. -/
structure AtPair (p : Program) (u : UnitId) (code code' : Code) (s : Running) (op : CountOp) (r : Reg) :
    Prop where
  unit : s.cur.unit = u
  first : s.fetch p = .ok (.adjust .inc r)
  second : s.advance.fetch p = .ok (.adjust op r)
  inside : Between (ids code') code (s.cur.pc + 1)
  outside : ¬ Between (ids code') code (s.cur.pc + 2)
  left : (op = .dec ∧ placeAmong (ids code') code (s.cur.pc + 2) = placeAmong (ids code') code s.cur.pc) ∨
    op = .unref ∧
      (s.moved (movesTo u code code')).fetch (p.recode u (layout code')) = .ok (.adjust .drop r) ∧
      placeAmong (ids code') code (s.cur.pc + 2) = placeAmong (ids code') code s.cur.pc + 1

/-- The instruction at the current place is the same where the place has gone. -/
structure AtSame (p : Program) (u : UnitId) (code code' : Code) (s : Running) (i : Instr Nat) : Prop where
  fetch : (s.moved (movesTo u code code')).fetch (p.recode u (layout code')) =
    .ok (i.relabel (movesTo u code code' s.cur.unit))
  next : movesTo u code code' s.cur.unit (s.cur.pc + 1) = movesTo u code code' s.cur.unit s.cur.pc + 1
  outside : Outside u code code' s.cur.unit (s.cur.pc + 1)
  label : ∀ t, i.label? = some t → Outside u code code' s.cur.unit t

/-- **What stands at the current place**, outside of all pairs. -/
theorem Foldable.cases (hf : Foldable p u code code') (hs : s.Stands (Outside u code code'))
    (hi : s.fetch p = .ok i) :
    AtSame p u code code' s i ∨ ∃ op r, i = .adjust .inc r ∧ AtPair p u code code' s op r := by
  have hget := Running.fetch_eq.mp hi
  by_cases hid : s.cur.unit = u
  · obtain ⟨n, hfolds⟩ := hf.folds
    have hmoves : movesTo u code code' s.cur.unit = placeAmong (ids code') code := by
      funext pc
      rw [movesTo, if_pos hid]
    have hfetch : ∀ {k}, (layout code')[placeAmong (ids code') code s.cur.pc]? = some k →
        (s.moved (movesTo u code code')).fetch (p.recode u (layout code')) = .ok k := fun hk => by
      rw [Running.fetch_eq]
      change ((p.recode u (layout code')).codeOf s.cur.unit)[movesTo u code code' s.cur.unit s.cur.pc]? = _
      rwa [hmoves, hid, hf.codeOf_new]
    rw [hid, hf.codeOf] at hget
    obtain ⟨a, j, haj, rfl⟩ := exists_of_layout hget
    obtain ⟨pc', hplaces⟩ := hfolds.foldedPlace hf.nodup (List.getElem?_eq_some_iff.mp haj).1.le (hs.1 hid)
    have hplace := hplaces.place_eq hf.nodup
    have hlabel : ∀ b, j.label? = some b →
        FoldedPlace code code' ((ids code).idxOf b) ((ids code').idxOf b) := fun b hb => by
      obtain ⟨k, hk, hklabel⟩ := hf.labels a j b (List.mem_of_getElem? haj) hb
      exact hfolds.foldedPlace_label hf.nodup hk (by rintro op r rfl; cases hklabel)
    obtain ⟨hnone, -⟩ | ⟨x, hx, hx', hnext⟩ | ⟨a', b, r, op, ha', hb, hinside, hleft⟩ :=
      hplaces.cases hf.nodup
    · rw [hnone] at haj
      cases haj
    · obtain rfl : x = (a, j) := Option.some.inj (hx.symm.trans haj)
      refine .inl ⟨hfetch ?_, ?_, outside_of_foldedPlace hf.nodup hnext _, fun t ht => ?_⟩
      · rw [hplace, getElem?_layout, hx', hmoves, relabel_relabel, Option.map_some]
        exact congrArg some (relabel_congr fun b hb => ((hlabel b hb).place_eq hf.nodup).symm)
      · rw [hmoves, hplace, hnext.place_eq hf.nodup]
      · rw [Instr.label?_relabel, Option.map_eq_some_iff] at ht
        obtain ⟨b, hb, rfl⟩ := ht
        exact outside_of_foldedPlace hf.nodup (hlabel b hb) _
    · obtain ⟨rfl, rfl⟩ : a' = a ∧ .adjust .inc r = j := by simpa [ha'] using haj
      have hsecond : s.advance.fetch p = .ok (.adjust op r) := by
        rw [Running.fetch_eq]
        change (p.codeOf s.cur.unit)[s.cur.pc + 1]? = _
        rw [hid, hf.codeOf, getElem?_layout, hb]
        rfl
      refine .inr ⟨op, r, rfl, hid, hi, hsecond, hinside, ?_, ?_⟩
      · obtain ⟨-, h⟩ | ⟨-, -, h⟩ := hleft
        · exact h.not_between hf.nodup
        · exact h.not_between hf.nodup
      · obtain ⟨rfl, h⟩ | ⟨rfl, hdrop, h⟩ := hleft
        · exact .inl ⟨rfl, by rw [h.place_eq hf.nodup, hplace]⟩
        · refine .inr ⟨rfl, hfetch ?_, by rw [h.place_eq hf.nodup, hplace]⟩
          rw [hplace, getElem?_layout, hdrop]
          rfl
  · have hmoves : movesTo u code code' s.cur.unit = id := by
      funext pc
      rw [movesTo, if_neg hid]
      rfl
    refine .inl ⟨?_, by rw [hmoves]; rfl, fun h => absurd h hid, fun t _ h => absurd h hid⟩
    rw [Running.fetch_eq]
    change ((p.recode u (layout code')).codeOf s.cur.unit)[movesTo u code code' s.cur.unit s.cur.pc]? = _
    rw [hmoves, Program.codeOf_recode_of_ne hid, id, hget]
    cases i <;> rfl

/-! ## One step -/

end

end Listing

namespace Running

variable {p : Program} {s : Running} {limit : Nat} {op : CountOp} {r : Reg} {q : Progress} {v : Value}
  {h : Heap}

theorem step_adjust (hi : s.fetch p = .ok (.adjust op r)) (hv : s.cur.read r = .ok v)
    (hh : adjust op s.machine.heap v = .ok h) :
    s.step p limit = .ok (.more ⟨{ s.machine with heap := h }, s.callers, s.parked⟩) := by
  obtain ⟨⟨heap, consts, stack, stats⟩, callers, cur⟩ := s
  have hv' : (Running.advance ⟨⟨heap, consts, stack, stats⟩, callers, cur⟩).cur.read r = .ok v := hv
  simp only [step, hi, exec, hv', bind, Except.bind]
  simp only [after, overHeap, advance, Machine.overHeap, hh, bind, Except.bind, pure, Except.pure]
  rfl

theorem of_step_adjust (hi : s.fetch p = .ok (.adjust op r)) (e : s.step p limit = .ok q) :
    ∃ v h, s.cur.read r = .ok v ∧ adjust op s.machine.heap v = .ok h ∧
      q = .more ⟨{ s.machine with heap := h }, s.callers, s.parked⟩ := by
  obtain ⟨i, hi', e'⟩ := bind_ok e
  obtain rfl := Except.ok.inj (hi.symm.trans hi')
  obtain ⟨v, hv, e'⟩ := bind_ok e'
  obtain ⟨s', hs', e'⟩ := bind_ok e'
  obtain ⟨m, hm, hs'⟩ := bind_ok hs'
  obtain ⟨h, hh, hm⟩ := bind_ok hm
  cases hm
  cases hs'
  cases e'
  exact ⟨v, h, hv, hh, rfl⟩

end Running

namespace Listing

section
variable {p : Program} {u : UnitId} {code code' : Code} {s t σ : Running} {i : Instr Nat}
  {limit fuel : Nat} {m : Machine} {o : Outcome}

/-- **The state of the new program** while the old one is in a state: the same, with frames where their
places have gone, or that of before the pair whose first instruction the old program has carried out. -/
inductive Shadow (p : Program) (limit : Nat) (u : UnitId) (code code' : Code) : Running → Running → Prop
  | outside {s : Running} : s.Stands (Outside u code code') →
      Shadow p limit u code code' s (s.moved (movesTo u code code'))
  | inside {s s₁ : Running} {op : CountOp} {r : Reg} : s.Stands (Outside u code code') →
      AtPair p u code code' s op r → s.step p limit = .ok (.more s₁) →
      Shadow p limit u code code' s₁ (s.moved (movesTo u code code'))

/-- The old program moves on in its unit, and the new one waits. -/
structure Waits (u : UnitId) (code : Code) (s t : Running) : Prop where
  unit : s.cur.unit = u ∧ t.cur.unit = u
  next : t.cur.pc = s.cur.pc + 1
  lt : s.cur.pc < code.length

theorem Foldable.lt_length (hf : Foldable p u code code') (hunit : s.cur.unit = u)
    (hi : s.fetch p = .ok i) : s.cur.pc < code.length := by
  have hget := Running.fetch_eq.mp hi
  rw [hunit, hf.codeOf] at hget
  obtain ⟨a, j, haj, -⟩ := exists_of_layout hget
  exact (List.getElem?_eq_some_iff.mp haj).1

/-- A step outside of all pairs. -/
theorem Foldable.step_outside (hf : Foldable p u code code') (hs : s.Stands (Outside u code code'))
    {q : Progress} (e : s.step p limit = .ok q) :
    ((s.moved (movesTo u code code')).step (p.recode u (layout code')) limit =
        .ok (q.moved (movesTo u code code')) ∧ q.Stands (Outside u code code')) ∨
      ∃ t, q = .more t ∧ Shadow p limit u code code' t (s.moved (movesTo u code code')) ∧
        Waits u code s t := by
  obtain ⟨i, hi, hturn⟩ := Running.turns_step e
  obtain hsame | ⟨op, r, rfl, hpair⟩ := hf.cases hs hi
  · refine .inl ⟨?_, hturn.stands hs outside_zero hsame.outside hsame.label⟩
    rw [Running.step_moved (Program.recodes movesTo_zero) limit hi hsame.fetch hsame.next, e]
    rfl
  · obtain ⟨v, h, -, -, rfl⟩ := Running.of_step_adjust hi e
    exact .inr ⟨_, rfl, .inside hs hpair e, ⟨hpair.unit, hpair.unit⟩, rfl, hf.lt_length hpair.unit hi⟩

/-- The second step of a pair. -/
theorem Foldable.step_inside (hf : Foldable p u code code') (hs : s.Stands (Outside u code code'))
    {op : CountOp} {r : Reg} (hpair : AtPair p u code code' s op r)
    (e₁ : s.step p limit = .ok (.more t)) {q : Progress} (e : t.step p limit = .ok q) :
    ∃ t', q = .more t' ∧ t'.Stands (Outside u code code') ∧
      ((t'.moved (movesTo u code code') = s.moved (movesTo u code code') ∧ Waits u code t t') ∨
        (s.moved (movesTo u code code')).step (p.recode u (layout code')) limit =
          .ok (.more (t'.moved (movesTo u code code')))) := by
  obtain ⟨v, h₁, hv, hh₁, e₁⟩ := Running.of_step_adjust hpair.first e₁
  obtain rfl := Progress.more.inj e₁
  have hsecond : Running.fetch p ⟨{ s.machine with heap := h₁ }, s.callers, s.parked⟩ =
      .ok (.adjust op r) := hpair.second
  obtain ⟨v', h₂, hv', hh₂, rfl⟩ := Running.of_step_adjust hsecond e
  obtain rfl : v = v' := Except.ok.inj (hv.symm.trans hv')
  refine ⟨_, rfl, ⟨fun _ => hpair.outside, hs.2⟩, ?_⟩
  have hmoves : movesTo u code code' s.cur.unit = placeAmong (ids code') code := by
    funext pc
    rw [movesTo, if_pos hpair.unit]
  obtain ⟨rfl, hplace⟩ | ⟨rfl, hdrop, hplace⟩ := hpair.left
  · refine .inl ⟨?_, ⟨hpair.unit, hpair.unit⟩, rfl, hf.lt_length hpair.unit hsecond⟩
    obtain rfl : s.machine.heap = h₂ := Except.ok.inj ((Heap.release_of_inc hh₁).symm.trans hh₂)
    rw [← hmoves] at hplace
    simp only [Running.moved, Frame.moved, Running.parked, Running.advance, hplace]
  · have hh : Running.adjust .drop s.machine.heap v = .ok h₂ := (Heap.unref_of_inc hh₁).symm.trans hh₂
    rw [← hmoves] at hplace
    refine .inr ?_
    rw [Running.step_adjust hdrop hv hh]
    simp only [Running.moved, Frame.moved, Running.parked, Running.advance, hplace]

theorem Shadow.step (hf : Foldable p u code code') (hs : Shadow p limit u code code' s σ)
    (e : s.step p limit = .ok (.more t)) :
    (Shadow p limit u code code' t σ ∧ Waits u code s t) ∨
      ∃ τ, σ.step (p.recode u (layout code')) limit = .ok (.more τ) ∧ Shadow p limit u code code' t τ := by
  cases hs with
  | outside hs =>
    obtain ⟨e', ht⟩ | ⟨t', ht, hshadow, hwait⟩ := hf.step_outside hs e
    · exact .inr ⟨_, e', .outside ht⟩
    · obtain rfl := Progress.more.inj ht
      exact .inl ⟨hshadow, hwait⟩
  | inside hs hpair e₁ =>
    obtain ⟨t', ht, hout, ⟨hmoved, hwait⟩ | e'⟩ := hf.step_inside hs hpair e₁ e
    · obtain rfl := Progress.more.inj ht
      exact .inl ⟨hmoved ▸ .outside hout, hwait⟩
    · obtain rfl := Progress.more.inj ht
      exact .inr ⟨_, e', .outside hout⟩

theorem Shadow.stop (hf : Foldable p u code code') (hs : Shadow p limit u code code' s σ)
    (e : s.step p limit = .ok (.stop m o)) :
    σ.step (p.recode u (layout code')) limit = .ok (.stop m (o.moved (movesTo u code code'))) ∧
      o.Stands (Outside u code code') := by
  cases hs with
  | outside hs =>
    obtain hstop | ⟨t', ht, -⟩ := hf.step_outside hs e
    · exact hstop
    · cases ht
  | inside hs hpair e₁ =>
    obtain ⟨t', ht, -⟩ := hf.step_inside hs hpair e₁ e
    cases ht

/-! ## Runs -/

theorem Shadow.leads (hf : Foldable p u code code') (hlead : s.Leads p limit t) :
    ∀ {σ : Running}, Shadow p limit u code code' s σ →
      ∃ τ, σ.Leads (p.recode u (layout code')) limit τ ∧ Shadow p limit u code code' t τ := by
  induction hlead with
  | refl s => exact fun hs => ⟨_, .refl _, hs⟩
  | step e _ ih =>
    intro σ hs
    obtain ⟨hs₁, -⟩ | ⟨σ₁, e₁, hs₁⟩ := hs.step hf e
    · exact ih hs₁
    · obtain ⟨τ, hτ, ht⟩ := ih hs₁
      exact ⟨τ, .step e₁ hτ, ht⟩

/-- Outside of all pairs the shadow is the state itself. -/
theorem Shadow.eq (hs : Shadow p limit u code code' s σ) (hout : s.Stands (Outside u code code')) :
    σ = s.moved (movesTo u code code') := by
  cases hs with
  | outside => rfl
  | inside _ hpair e =>
    obtain ⟨v, h, -, -, e⟩ := Running.of_step_adjust hpair.first e
    obtain rfl := Progress.more.inj e
    exact absurd hpair.inside (hout.1 hpair.unit)

theorem run_succ {p : Program} : ∀ {fuel : Nat} {s : Running} {out : Machine × Outcome},
    Running.run p limit fuel s = .ok out → Running.run p limit (fuel + 1) s = .ok out
  | 0, _, _, e => by cases e
  | fuel + 1, s, out, e => by
    rw [Running.run] at e ⊢
    split at e
    · cases e
    · exact e
    · exact run_succ e

theorem Shadow.run (hf : Foldable p u code code') : ∀ {fuel : Nat} {s σ : Running},
    Shadow p limit u code code' s σ → Running.run p limit fuel s = .ok (m, o) →
    Running.run (p.recode u (layout code')) limit fuel σ = .ok (m, o.moved (movesTo u code code')) ∧
      o.Stands (Outside u code code')
  | 0, _, _, _, e => by cases e
  | fuel + 1, s, σ, hs, e => by
    rw [Running.run] at e
    split at e
    · cases e
    · next m' o' hstop =>
      cases e
      obtain ⟨hσ, ho⟩ := hs.stop hf hstop
      exact ⟨by rw [Running.run, hσ], ho⟩
    · next t hstep =>
      obtain ⟨ht, -⟩ | ⟨τ, hσ, ht⟩ := hs.step hf hstep
      · obtain ⟨e', ho⟩ := Shadow.run hf ht e
        exact ⟨run_succ e', ho⟩
      · obtain ⟨e', ho⟩ := Shadow.run hf ht e
        exact ⟨by rw [Running.run, hσ]; exact e', ho⟩

/-- **The new program does not end on its own.** The induction is on the steps that it takes, and for
each of them on the places that the old program may still pass while it waits. -/
theorem Shadow.run_back (hf : Foldable p u code code') : ∀ (fuel wait : Nat) {s σ : Running},
    Shadow p limit u code code' s σ → (∀ t f, s.Leads p limit t → t.step p limit ≠ .error f) →
    (s.cur.unit = u → code.length ≤ s.cur.pc + wait) →
    Running.run (p.recode u (layout code')) limit fuel σ = .ok (m, o) →
    ∃ fuel' o', Running.run p limit fuel' s = .ok (m, o') ∧ o = o'.moved (movesTo u code code')
  | 0, _, _, _, _, _, _, e => by cases e
  | fuel + 1, wait, s, σ, hs, hsafe, hwait, e => by
    cases hstep : s.step p limit with
    | error f => exact absurd hstep (hsafe s f (.refl s))
    | ok q =>
      cases q with
      | stop m' o' =>
        rw [Running.run, (hs.stop hf hstep).1] at e
        cases e
        exact ⟨1, o', by rw [Running.run, hstep], rfl⟩
      | more t =>
        have hsafe' : ∀ t' f, t.Leads p limit t' → t'.step p limit ≠ .error f :=
          fun t' f h => hsafe t' f (.step hstep h)
        have hback : (∃ fuel' o', Running.run p limit fuel' t = .ok (m, o') ∧
            o = o'.moved (movesTo u code code')) →
            ∃ fuel' o', Running.run p limit fuel' s = .ok (m, o') ∧
              o = o'.moved (movesTo u code code') := by
          rintro ⟨fuel', o', e', ho⟩
          exact ⟨fuel' + 1, o', by rw [Running.run, hstep]; exact e', ho⟩
        obtain ⟨ht, hw⟩ | ⟨τ, hσ, ht⟩ := hs.step hf hstep
        · have hle := hwait hw.unit.1
          have hlt := hw.lt
          have hpos : wait - 1 < wait := by omega
          refine hback (Shadow.run_back hf (fuel + 1) (wait - 1) ht hsafe' (fun _ => ?_) e)
          rw [hw.next]
          omega
        · rw [Running.run, hσ] at e
          exact hback (Shadow.run_back hf fuel code.length ht hsafe' (fun _ => by omega) e)
termination_by fuel wait => (fuel, wait)

end

/-! ## Folding a listing -/

section
variable {l : Listing} {xs ys : Code} {n : Nat}

/-- Labels are no-ops and merges of the code. -/
def Labelled (code : Code) : Prop :=
  ∀ a i b, (a, i) ∈ code → i.label? = some b → ∃ j, (b, j) ∈ code ∧ j.isLabel = true

/-- The last node is the second of a pair that would go away. The first node is never the first of one. -/
def EndsInPair (l : Listing) : Prop := Tailed l.cursor l.entries.tail

theorem Labelled.inner {code : Code} (h : Labelled code) : Inner code := fun a i b ha hb =>
  have ⟨_, hj, _⟩ := h a i b ha hb
  mem_ids hj

/-- Only ownership instructions are new. -/
theorem Folds.mem_of_mem {x : NodeId × Instr NodeId} (h : Folds xs ys n) (hx : x ∈ ys)
    (hi : ∀ op r, x.2 ≠ .adjust op r) : x ∈ xs := by
  induction h with
  | nil => exact hx
  | keep _ ih => exact (List.mem_cons.mp hx).elim (fun e => e ▸ .head _) fun h => .tail _ (ih h)
  | cancel _ ih => exact .tail _ (.tail _ (ih hx))
  | fuse _ ih =>
    obtain rfl | hx := List.mem_cons.mp hx
    · exact absurd rfl (hi _ _)
    · exact .tail _ (.tail _ (ih hx))

/-- Only ownership instructions are gone. -/
theorem Folds.mem_of_mem_left {x : NodeId × Instr NodeId} (h : Folds xs ys n) (hx : x ∈ xs)
    (hi : ∀ op r, x.2 ≠ .adjust op r) : x ∈ ys := by
  induction h with
  | nil => exact hx
  | keep _ ih => exact (List.mem_cons.mp hx).elim (fun e => e ▸ .head _) fun h => .tail _ (ih h)
  | cancel _ ih =>
    obtain rfl | hx := List.mem_cons.mp hx
    · exact absurd rfl (hi _ _)
    obtain rfl | hx := List.mem_cons.mp hx
    · exact absurd rfl (hi _ _)
    · exact ih hx
  | fuse _ ih =>
    obtain rfl | hx := List.mem_cons.mp hx
    · exact absurd rfl (hi _ _)
    obtain rfl | hx := List.mem_cons.mp hx
    · exact absurd rfl (hi _ _)
    · exact .tail _ (ih hx)

theorem Folds.labelled (h : Folds xs ys n) (hx : Labelled xs) : Labelled ys := fun a i b ha hb => by
  obtain ⟨j, hj, hlabel⟩ := hx a i b (h.mem_of_mem ha (by rintro op r rfl; cases hb)) hb
  exact ⟨j, h.mem_of_mem_left hj (by rintro op r rfl; cases hlabel), hlabel⟩

/-- **Folding the pairs of a listing preserves what its code does.** It ends, and fails only when it
would take out the last node. Else only ownership instructions are gone or new, and the new code in a unit
of a program does what the old code did there: from a state to another, outside of the pairs, with the same
heap, registers and stack in both, to the same outcome, and to no outcome of its own. -/
theorem Built.fusePairs_refines (hb : Built l) (hlabels : Labelled l.entries) :
    (∀ fuel o, l.nodes.size ≤ fuel → l.next head = .ok o → fusePairsFrom fuel l o 0 = l.fusePairs) ∧
    (l.EndsInPair → l.fusePairs = .error .sentinelRemoved) ∧
    (¬ l.EndsInPair → ∃ l' n c c', l.fusePairs = .ok (l', n) ∧ Folds l.entries l'.entries n ∧
      l.assemble = .ok c ∧ l'.assemble = .ok c' ∧
      ∀ (p : Program) (u : UnitId) (x : CodeUnit) (limit : Nat), p.units[u.index]? = some x →
        x.code = c.toArray → ∀ s : Running, s.Stands (Outside u l.entries l'.entries) →
          (∀ t, s.Leads p limit t → t.Stands (Outside u l.entries l'.entries) →
            (s.moved (movesTo u l.entries l'.entries)).Leads (p.recode u c'.toArray) limit
              (t.moved (movesTo u l.entries l'.entries))) ∧
          (∀ fuel m o, Running.run p limit fuel s = .ok (m, o) →
            Running.run (p.recode u c'.toArray) limit fuel (s.moved (movesTo u l.entries l'.entries)) =
              .ok (m, o.moved (movesTo u l.entries l'.entries)) ∧
            o.Stands (Outside u l.entries l'.entries)) ∧
          ((∀ t f, s.Leads p limit t → t.step p limit ≠ .error f) → ∀ fuel m o,
            Running.run (p.recode u c'.toArray) limit fuel (s.moved (movesTo u l.entries l'.entries)) =
              .ok (m, o) →
            ∃ fuel' o', Running.run p limit fuel' s = .ok (m, o') ∧
              o = o'.moved (movesTo u l.entries l'.entries))) := by
  obtain ⟨code, hl⟩ := hb.linked
  rw [EndsInPair, hl.entries_eq] at *
  obtain ⟨⟨a, i⟩, xs, rfl⟩ : ∃ x xs, code = x :: xs := by
    cases code with
    | nil => cases hl.first
    | cons x xs => exact ⟨x, xs, rfl⟩
  obtain rfl : a = head := Option.some.inj hl.first
  have hxs : xs ≠ [] := by
    rintro rfl
    cases hl.last
  have hnext : l.next head = .ok (firstId xs none) :=
    (show Linked l ([] ++ (head, i) :: xs) from hl).next_eq
  obtain ⟨hsweeps, herror, hok⟩ := fusePairs_folds hl hxs
  refine ⟨fun fuel o hfuel ho => ?_, herror, fun h => ?_⟩
  · obtain rfl : firstId xs none = o := Except.ok.inj (hnext.symm.trans ho)
    exact hsweeps fuel hfuel
  obtain ⟨l', ys, n, e, hl', hfold⟩ := hok h
  have hfolds : Folds ((head, i) :: xs) ((head, i) :: ys) n := hfold.keep
  refine ⟨l', n, _, _, e, by rwa [hl'.entries_eq], hl.assemble_eq hlabels.inner,
    hl'.assemble_eq (hfolds.labelled hlabels).inner, fun p u x limit hx hcode s hs => ?_⟩
  rw [hl'.entries_eq] at hs ⊢
  have hf : Foldable p u ((head, i) :: xs) ((head, i) :: ys) :=
    ⟨⟨x, hx, hcode⟩, ⟨n, hfolds⟩, hl.nodup, hlabels⟩
  have hshadow : Shadow p limit u ((head, i) :: xs) ((head, i) :: ys) s _ := .outside hs
  refine ⟨fun t hlead ht => ?_, fun fuel m o hrun => hshadow.run hf hrun, fun hsafe fuel m o hrun => ?_⟩
  · obtain ⟨τ, hτ, hst⟩ := hshadow.leads hf hlead
    rwa [hst.eq ht] at hτ
  · exact hshadow.run_back hf fuel _ hsafe (fun _ => Nat.le_add_left _ _) hrun

/-- A cell is made and given up at once. Then a pair is jumped over. -/
def coupled : Listing where
  nodes := #[some ⟨.nop, none, some ⟨2⟩⟩, some ⟨.done, some ⟨9⟩, none⟩,
    some ⟨.box ⟨1⟩ ⟨0⟩, some head, some ⟨3⟩⟩, some ⟨.adjust .inc ⟨1⟩, some ⟨2⟩, some ⟨4⟩⟩,
    some ⟨.adjust .unref ⟨1⟩, some ⟨3⟩, some ⟨5⟩⟩, some ⟨.jump ⟨8⟩, some ⟨4⟩, some ⟨6⟩⟩,
    some ⟨.adjust .inc ⟨0⟩, some ⟨5⟩, some ⟨7⟩⟩, some ⟨.adjust .dec ⟨0⟩, some ⟨6⟩, some ⟨8⟩⟩,
    some ⟨.nop, some ⟨7⟩, some ⟨9⟩⟩, some ⟨.ret ⟨0⟩, some ⟨8⟩, some tail⟩]
  free := []
  cursor := tail
  regs := #[]

theorem built_coupled : Built coupled := by
  have h₁ := Built.empty.append (i := .box ⟨1⟩ ⟨0⟩) rfl
  have h₂ := h₁.append (i := .adjust .inc ⟨1⟩) rfl
  have h₃ := h₂.append (i := .adjust .unref ⟨1⟩) rfl
  have h₄ := h₃.append (i := .jump ⟨8⟩) rfl
  have h₅ := h₄.append (i := .adjust .inc ⟨0⟩) rfl
  have h₆ := h₅.append (i := .adjust .dec ⟨0⟩) rfl
  have h₇ := h₆.append (i := .nop) rfl
  exact h₇.append (i := .ret ⟨0⟩) rfl

theorem labelled_coupled : Labelled coupled.entries := by
  have h : ∀ x ∈ coupled.entries, x.2.label? = none ∨ x.2.label? = some ⟨8⟩ := by decide
  intro a i b ha hb
  obtain e | e := h _ ha
  · cases e.symm.trans hb
  · cases e.symm.trans hb
    exact ⟨.nop, by decide, rfl⟩

/-- One instruction is left of the first pair, none of the second, and the jump is shorter. The cell is
freed in both programs. -/
theorem fusePairs_coupled : ∃ l' m, coupled.fusePairs = .ok (l', 3) ∧
    l'.assemble = .ok [.nop, .box ⟨1⟩ ⟨0⟩, .adjust .drop ⟨1⟩, .jump 4, .nop, .ret ⟨0⟩, .done] ∧
    Running.run (bench #[.nop, .box ⟨1⟩ ⟨0⟩, .adjust .inc ⟨1⟩, .adjust .unref ⟨1⟩, .jump 7,
      .adjust .inc ⟨0⟩, .adjust .dec ⟨0⟩, .nop, .ret ⟨0⟩, .done] 0 0) 0 9 (.benched {} 0 2 .nil) =
        .ok (m, .returned .nil) ∧
    Running.run (bench #[.nop, .box ⟨1⟩ ⟨0⟩, .adjust .drop ⟨1⟩, .jump 4, .nop, .ret ⟨0⟩, .done] 0 0) 0 9
      (.benched {} 0 2 .nil) = .ok (m, .returned .nil) := by
  obtain ⟨-, -, hok⟩ := built_coupled.fusePairs_refines labelled_coupled
  have hends : ¬ coupled.EndsInPair := by
    rintro ⟨pre, a, r, e, -⟩
    have hlast := congrArg List.getLast? e
    simp only [List.getLast?_append, List.getLast?_cons_cons, List.getLast?_singleton, Option.some_or] at hlast
    cases hlast
  obtain ⟨l', n, c, c', e, -, hc, hc', hrefines⟩ := hok hends
  have hcount : coupled.fusePairs.map (·.2) = .ok 3 := rfl
  have hcode' : coupled.fusePairs.bind (·.1.assemble) = .ok [.nop, .box ⟨1⟩ ⟨0⟩, .adjust .drop ⟨1⟩, .jump 4,
      .nop, .ret ⟨0⟩, .done] := rfl
  rw [e] at hcount hcode'
  cases hcount
  cases hc.symm.trans (rfl : coupled.assemble = _)
  cases hc'.symm.trans hcode'
  obtain ⟨m, hrun⟩ : ∃ m, Running.run (bench #[.nop, .box ⟨1⟩ ⟨0⟩, .adjust .inc ⟨1⟩, .adjust .unref ⟨1⟩,
      .jump 7, .adjust .inc ⟨0⟩, .adjust .dec ⟨0⟩, .nop, .ret ⟨0⟩, .done] 0 0) 0 9 (.benched {} 0 2 .nil) =
        .ok (m, .returned .nil) := ⟨_, rfl⟩
  have hstands : Running.Stands (Outside ⟨0⟩ coupled.entries l'.entries) (.benched {} 0 2 .nil) :=
    ⟨outside_zero _, by simp [Running.benched]⟩
  have hrun' := ((hrefines _ ⟨0⟩ _ 0 rfl rfl _ hstands).2.1 9 m _ hrun).1
  simp only [Running.moved, Frame.moved, Running.benched, movesTo_zero, Array.map_empty] at hrun'
  exact ⟨l', m, e, hcode', hrun, hrun'⟩

/-- The first instruction of a pair is in front of the last node, and the second on it. -/
def tailPair : Listing where
  nodes := #[some ⟨.nop, none, some ⟨2⟩⟩, some ⟨.adjust .dec ⟨0⟩, some ⟨2⟩, none⟩,
    some ⟨.adjust .inc ⟨0⟩, some head, some tail⟩]
  free := []
  cursor := head
  regs := #[⟨.temp, none⟩]

/-- There is no code to run where the last node would have to go. -/
theorem fusePairs_tailPair : Built tailPair ∧ Labelled tailPair.entries ∧
    tailPair.fusePairs = .error .sentinelRemoved := by
  refine ⟨?_, ?_, rfl⟩
  · have h₁ := (Built.empty.freshReg .temp).append (i := .adjust .inc ⟨0⟩) rfl
    have h₂ := h₁.put (a := tail) (i := .adjust .dec ⟨0⟩) rfl
    exact h₂.moveCursor (a := head) rfl
  · have h : ∀ x ∈ tailPair.entries, x.2.label? = none := by decide
    intro a i b ha hb
    cases (h _ ha).symm.trans hb

end

end Listing

end CountedMachine
