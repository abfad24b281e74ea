import CountedMachine.Proofs.Generation.Matches
import CountedMachine.Proofs.Generation.Vetting

/-! # Units and closures

A unit is generated in a draft of its own and finished without a fault; to the unit around it nothing
is added, and it works with the captures it was built for (`Fine.buildUnit`). A closure is made
without code and gets it later, those of a `fix` inside one recursive scope: until then they are on
their way, and nothing but a finished closure is left at the end (`Raised`). -/

namespace CountedMachine

open Listing

/-- The first and the last node of a unit load nothing, so that its dead loads can be taken out. -/
theorem clear_unitCode {l : Listing} {ys : Code} (hl : Linked l (unitCode ys))
    (hc : l.cursor = tail) (isNil : ConstId → Bool) : Clear l isNil (unitCode ys) := by
  refine ⟨fun {i r} hi hload _ => ?_, fun {i r f} hi hload _ _ => ?_⟩
  · have hhead : l.get head = .ok .nop := hl.get_eq (by simp [unitCode])
    rw [hl.get_eq hi] at hhead
    obtain rfl := Except.ok.inj hhead
    cases hload
  · have htail : l.get tail = .ok .done := hl.get_eq (by simp [unitCode])
    rw [hc] at hi
    rw [hl.get_eq hi] at htail
    obtain rfl := Except.ok.inj htail
    cases hload

namespace Point

/-- At the beginning of a unit nothing is certain. -/
def first : Point := ⟨True, ∅, ∅⟩

/-- More registers hold a value. -/
def adds (P : Point) (D : Set Reg) : Point := { P with regs := P.regs ∪ D }

theorem le_adds (P : Point) (D : Set Reg) : P ≤ P.adds D := ⟨Set.subset_union_left, subset_rfl⟩

theorem mem_adds {P : Point} {D : Set Reg} {d : Reg} (hd : d ∈ D) : d ∈ (P.adds D).regs :=
  Set.mem_union_right _ hd

end Point

namespace Gen

variable {α β : Type} {σ : Site} {s s₁ s₂ s' : GenState} {body xs ys : Code} {sub sub' : Sub}
  {ctx : Context} {e : Expr} {c : Bool} {P P₁ : Point} {t : Block} {w : World} {ρ θ ρ' : Env}
  {d r : Reg} {D B : Set Reg} {unit : UnitId} {caps : List Reg} {id : NodeId} {lambda : Lambda Expr}

/-- Nothing is written, and as much is certain as before. -/
theorem Drawn.leads_nil (h : Fine σ s body P) (hd : Drawn σ s body s₁ [] P) :
    Leads σ s P .nil s₁ P :=
  ⟨le_rfl, fun _ => Block.does_nil fun ρ hρ => ⟨hρ.later h.made hd.later, Kept.refl s ρ⟩, absurd⟩

/-! ## A new unit -/

/-- The state in which a unit is begun. -/
theorem fine_of_draft_empty (h : s.draft = {}) (hdepth : σ.depth = 0)
    (hplain : ∀ {k : Nat} {u : UnitId}, s.pool[k]? = some (.closure u) →
      ∀ p : Program, s.Within p → p.types = σ.types → UnitOk σ.ctx.settings p u []) :
    Fine σ s [(head, .nop)] .first := by
  have hregs : s.regs = #[] := by
    rw [GenState.regs, h]
    rfl
  refine ⟨?_, ?_, fun hf => ?_, ⟨by simp [Point.first], by simp [Point.first]⟩, ?_, ?_, ?_, ?_, hplain⟩
  · rw [h]
    exact linked_empty
  · rw [h]
    rfl
  · simp [hregs] at hf
  · rw [h]
    simp
  · rw [h]
    simp
  · rw [h]
    simp
  · rw [h, hdepth]

theorem at_first (s : GenState) (w : World) : Point.first.At w s .start where
  live := trivial
  holds _ hr := hr.elim
  sure hr := hr.elim
  fresh _ _ := rfl
  calm := Env.calm_start
  pushed := rfl
  strict := World.noted_start w _

theorem Fine.loadCaptures : ∀ {s : GenState} {body : Code} {P : Point} (idx : Nat) (caps : List Bool),
    Fine σ s body P → (∀ k, caps[k]? = σ.caps[idx + k]?) →
    Emits σ (Gen.loadCaptures idx caps) (Gen.loadCaptures idx caps) s body P fun _ _ _ => True
  | _, _, _, _, [], h, _ => h.pure trivial
  | s, body, P, idx, mutable :: rest, h, hcaps => by
    have hidx : σ.caps[idx]? = some mutable := (hcaps 0).symm
    have hlt : idx < σ.caps.length := (List.getElem?_eq_some_iff.mp hidx).1
    refine h.create (.capture · idx) ⟨fun _ => rfl, fun _ => rfl, fun _ => rfl,
      by simp [Instr.inputs], by simp, by simp,
      fun hw hρ _ => ⟨hρ.calm, by rw [hw.caps]; exact hlt⟩, fun hf => hf, fun hw _ hg => ?_⟩
      fun r s₁ t P₁ hd hle hr hnew _ => ?_
    · refine ⟨hg.1, fun t ht => ?_⟩
      cases mutable with
      | false => simp [RegRole.typed] at ht
      | true =>
        rw [hg.2 (by rw [hw.caps, hidx])]
        exact Option.some.inj ht
    · refine (hd.fine.pushVariable hr fun hmut => ?_).bind fun _ s₂ t P₂ hd₂ _ _ => ?_
      · have hmut : mutable = true := hmut
        rw [hnew.typeOf?, hmut]
        rfl
      · refine Fine.loadCaptures (idx + 1) rest hd₂.fine fun k => ?_
        rw [Nat.add_assoc, Nat.add_comm 1]
        exact hcaps (k + 1)

theorem Fine.loadParams : ∀ {s : GenState} {body : Code} {P : Point} (idx k : Nat), Fine σ s body P →
    Emits σ (Gen.loadParams idx k) (Gen.loadParams idx k) s body P fun _ _ _ => True
  | _, _, _, _, 0, h => h.pure trivial
  | s, body, P, idx, k + 1, h => by
    refine h.create (.param · idx) ⟨fun _ => rfl, fun _ => rfl, fun _ => rfl,
      by simp [Instr.inputs], by simp, by simp, fun _ hρ _ => hρ.calm, fun hf => hf, fun _ _ hg => ⟨hg, fun t ht => ?_⟩⟩
      fun r s₁ t P₁ hd hle hr _ _ => ?_
    · simp [RegRole.typed] at ht
    · exact (hd.fine.bindReg hr).bind fun _ _ _ _ hd₂ _ _ => Fine.loadParams (idx + 1) k hd₂.fine

/-- **A unit is drafted**: its captures and parameters are loaded, and its body returns on every way. -/
theorem Fine.drafting (h : Fine σ s [(head, .nop)] .first) (he : Serves σ sub sub' e) (arity : Nat) :
    Emits σ (Gen.drafting sub arity σ.caps e) (Gen.drafting sub' arity σ.caps e) s [(head, .nop)] .first
      fun _ _ P' => ¬ P'.live :=
  (h.loadCaptures 0 σ.caps fun k => by simp).bind fun _ _ _ _ hd₁ _ _ =>
    (hd₁.fine.loadParams 0 arity).bind fun _ _ _ _ hd₂ _ _ =>
      (he.tail hd₂.fine).mono fun _ _ _ _ _ _ hlive => hlive.1

/-- The state in which the code of a unit is begun. -/
def starting (s : GenState) (name : String) (arity : Nat) (caps : List Bool) : GenState :=
  { s with units := s.units.push ⟨name, arity, caps.length, 0, #[]⟩, draft := {} }

/-- The state in which a unit is built. -/
def ending (s s₁ : GenState) (u : CodeUnit) : GenState :=
  { s₁ with units := s₁.units.setIfInBounds s.units.size u, draft := s.draft }

/-- **Building a unit**: its code is drafted, then it is finished. -/
theorem buildUnit_run (name : String) (arity : Nat) (caps : List Bool) (s : GenState) :
    (buildUnit ctx sub name arity caps e).run s =
      match (drafting sub arity caps e).run (starting s name arity caps) with
      | .error f => .error f
      | .ok (_, s₁) =>
        match finishListing ctx.settings s₁.pool name s₁.draft.listing with
        | .error f => .error (.fault f)
        | .ok (code, n) =>
          .ok (⟨s.units.size⟩, ending s s₁ ⟨name, arity, caps.length, n, code⟩) := by
  set finish : Gen UnitId := get >>= fun s₁ =>
    faulting (finishListing ctx.settings s₁.pool name s₁.draft.listing) >>= fun out =>
      modify (fun s₁ => ending s s₁ ⟨name, arity, caps.length, out.2, out.1⟩) >>= fun _ =>
        pure ⟨s.units.size⟩ with hfinish
  have hrun : (buildUnit ctx sub name arity caps e).run s =
      (drafting sub arity caps e >>= fun _ => finish).run (starting s name arity caps) := by
    simp only [drafting, bind_assoc]
    rfl
  rw [hrun, StateT.run_bind]
  rcases (drafting sub arity caps e).run (starting s name arity caps) with f | ⟨_, s₁⟩
  · rfl
  · show finish.run s₁ = _
    have hlast : finish.run s₁ = (faulting (finishListing ctx.settings s₁.pool name s₁.draft.listing) >>=
      fun out => modify (fun s₁ => ending s s₁ ⟨name, arity, caps.length, out.2, out.1⟩) >>= fun _ =>
        (pure ⟨s.units.size⟩ : Gen UnitId)).run s₁ := rfl
    rw [hlast]
    dsimp only
    rcases finishListing ctx.settings s₁.pool name s₁.draft.listing with f | ⟨code, n⟩ <;> rfl

/-- A unit is built when it can be drafted and finished. -/
theorem buildUnit_of_finish {name : String} {arity n : Nat} {caps : List Bool} {code : Array (Instr Nat)}
    (hdraft : (drafting sub arity caps e).run (starting s name arity caps) = .ok ((), s₁))
    (hfinish : finishListing ctx.settings s₁.pool name s₁.draft.listing = .ok (code, n)) :
    (buildUnit ctx sub name arity caps e).run s =
      .ok (⟨s.units.size⟩, ending s s₁ ⟨name, arity, caps.length, n, code⟩) := by
  rw [buildUnit_run, hdraft]
  dsimp only
  rw [hfinish]

/-- A unit is built alike in two contexts where it is drafted and finished alike. -/
theorem Runs.buildUnit {ctx' : Context} {name : String} {arity : Nat} {caps : List Bool}
    {Q : UnitId → GenState → Prop}
    (h : Runs (drafting sub arity caps e) (drafting sub' arity caps e) (starting s name arity caps) fun _ s₁ =>
      ∃ code n, finishListing ctx.settings s₁.pool name s₁.draft.listing = .ok (code, n) ∧
        finishListing ctx'.settings s₁.pool name s₁.draft.listing = .ok (code, n) ∧
          Q ⟨s.units.size⟩ (ending s s₁ ⟨name, arity, caps.length, n, code⟩)) :
    Runs (Gen.buildUnit ctx sub name arity caps e) (Gen.buildUnit ctx' sub' name arity caps e) s Q := by
  have hends := h.ends
  constructor
  · rw [buildUnit_run, buildUnit_run, h.same]
    generalize (drafting sub arity caps e).run (starting s name arity caps) = out at hends ⊢
    rcases out with f | ⟨_, s₁⟩
    · rfl
    · obtain ⟨code, n, hout, hout', -⟩ := hends
      dsimp only
      rw [hout, hout']
  · rw [buildUnit_run]
    generalize (drafting sub arity caps e).run (starting s name arity caps) = out at hends ⊢
    rcases out with f | ⟨_, s₁⟩
    · cases f <;> exact hends
    · obtain ⟨code, n, hout, -, hq⟩ := hends
      dsimp only
      rw [hout]
      exact hq

section
variable {name : String} {arity : Nat} {caps : List Bool} {u : CodeUnit} {p : Program}

theorem starting_within (hp : (starting s name arity caps).Within p) : s.Within p :=
  ⟨hp.pool, fun hk => hp.units (getElem?_push_of_some hk)⟩

/-- While a unit is drafted, its place is taken. -/
theorem starting_place (hl : (starting s name arity caps).Later s₁) :
    s₁.units[s.units.size]? = some ⟨name, arity, caps.length, 0, #[]⟩ :=
  hl.units (k := s.units.size) Array.getElem?_push_size

theorem ending_unit (hl : (starting s name arity caps).Later s₁) :
    (ending s s₁ u).units[s.units.size]? = some u := by
  show (s₁.units.setIfInBounds s.units.size u)[s.units.size]? = _
  rw [Array.getElem?_setIfInBounds_self, if_pos (Array.getElem?_eq_some_iff.mp (starting_place hl)).1]

theorem ending_other {k : Nat} (hk : k ≠ s.units.size) : (ending s s₁ u).units[k]? = s₁.units[k]? :=
  Array.getElem?_setIfInBounds_ne (Ne.symm hk)

/-- The draft around a unit that is built stays as it is. -/
theorem ending_later (hl : (starting s name arity caps).Later s₁) : s.Later (ending s s₁ u) := by
  refine ⟨le_rfl, fun _ => rfl, fun _ => rfl, fun _ => rfl, fun hk => hl.functions hk,
    fun hk => hl.pool hk, fun {k u'} hk => ?_⟩
  rw [ending_other (Nat.ne_of_lt (Array.getElem?_eq_some_iff.mp hk).1)]
  exact hl.units (getElem?_push_of_some hk)

theorem ending_within (hl : (starting s name arity caps).Later s₁) (harity : u.arity = arity)
    (hp : (ending s s₁ u).Within p) : s₁.Within p := by
  refine ⟨hp.pool, fun {k u'} hk => ?_⟩
  by_cases e : k = s.units.size
  · subst e
    obtain ⟨v, hv, hva, -⟩ := hp.units (ending_unit hl)
    obtain rfl := Option.some.inj ((starting_place hl).symm.trans hk)
    exact ⟨v, hv, hva.trans harity, fun h => absurd rfl h⟩
  · exact hp.units ((ending_other e).trans hk)

/-- A program that may come from the state has the unit as it is. -/
theorem ending_there (hl : (starting s name arity caps).Later s₁) (hu : u.code ≠ #[])
    (hp : (ending s s₁ u).Within p) : p.units[s.units.size]? = some u := by
  obtain ⟨v, hv, -, hvu⟩ := hp.units (ending_unit hl)
  exact hvu hu ▸ hv

end

/-- **A unit that has been built** from a body. -/
structure Built (σ : Site) (s : GenState) (unit : UnitId) (arity : Nat) (caps : List Bool) (body : Expr) :
    Prop where
  drafted : ∀ p : Program, s.Within p → ∃ u s', p.units[unit.index]? = some u ∧ u.arity = arity ∧
    MadeFrom σ.ctx u caps body s'
  ok : ∀ p : Program, s.Within p → p.types = σ.types → UnitOk σ.ctx.settings p unit caps

/-- Sub-expressions are treated as everywhere in the program. -/
def Genuine (ctx : Context) (sub : Sub) : Prop := ∃ fuel, sub = .of (genExpr ctx fuel)

/-- **A unit is built without a fault**, audited or not; it works with its captures, and the unit
around it stays as it is. -/
theorem Fine.buildUnit (h : Fine σ s body P) (hsub : Genuine σ.ctx sub) (caps : List Bool)
    (he : Serves ⟨e.size, 0, σ.ctx, caps⟩ sub sub' e) (c : Bool) (name : String) (arity : Nat) :
    Runs (Gen.buildUnit σ.ctx sub name arity caps e)
      (Gen.buildUnit (σ.ctx.checking c) sub' name arity caps e) s fun u s' =>
        Drawn σ s body s' [] P ∧ s'.draft = s.draft ∧ Built σ s' u arity caps e := by
  set τ : Site := ⟨e.size, 0, σ.ctx, caps⟩ with hτ
  set s₁ : GenState := starting s name arity caps with hs₁
  have hf₁ : Fine τ s₁ [(head, .nop)] .first := fine_of_draft_empty rfl rfl
    fun hk p hp ht => h.plain hk p (starting_within hp) ht
  refine Runs.buildUnit (Runs.mono (Runs.traced (hf₁.drafting he arity)) fun _ s₂ hd => ?_)
  obtain ⟨hrun, T, P₂, hd, hproper, hleads, hlive⟩ := hd
  -- the listing of the new unit is finished, and the outer draft comes back
  have hready : Ready s₂.draft.listing (unitCode T.code) := hd.writes.ready hproper.shaped hd.fine.linked
  obtain ⟨code, hne, hout, hvetted⟩ := finishListing_vetted hproper hd.writes hready
    (clear_unitCode hd.fine.linked hd.fine.cursor) σ.ctx.settings s₂.pool name
  set u : CodeUnit := ⟨name, arity, caps.length, s₂.regs.size, code⟩ with hu
  have hmade : MadeFrom σ.ctx u caps e s₂ := by
    obtain ⟨fuel, rfl⟩ := hsub
    exact ⟨rfl, ⟨fuel, s₁, rfl, hrun⟩, hout σ.ctx.settings.verify⟩
  have hlater : s.Later (ending s s₂ u) := ending_later hd.later
  refine ⟨code, s₂.regs.size, hout σ.ctx.settings.verify, hout c, ⟨⟨?_, .nil (.refl _), hlater⟩, rfl,
    fun p hp => ⟨u, s₂, ending_there hd.later hne hp, rfl, hmade⟩, fun p hp htypes => ?_⟩⟩
  · rw [List.append_nil]
    refine ⟨h.linked, h.cursor, h.flags, ⟨h.made.regs, h.made.sure⟩, h.stack, fun hk => ?_, h.narrowed,
      h.inlined, fun hk p hp ht => hd.fine.plain hk p (ending_within hd.later rfl hp) ht⟩
    obtain ⟨hr, f, hf, hsize⟩ := h.known hk
    exact ⟨hr, f, hlater.functions hf, hsize⟩
  · -- in a program that has the unit, its code is vetted
    have hctx : (⟨σ.ctx.settings, p.types⟩ : Context) = σ.ctx := by
      rw [htypes]
      rfl
    refine UnitCert.ok (s := s₂) ⟨u, e, ending_there hd.later hne hp, hctx.symm ▸ hmade, rfl,
      hvetted _ rfl ?_ ?_⟩
    all_goals
      have hadmits : τ.Admits ⟨p, σ.ctx.settings, s₂, caps, UnitOk σ.ctx.settings p⟩ s₁ s₂ :=
        ⟨⟨ending_within hd.later rfl hp, hctx, rfl⟩, fun _ _ => ⟨rfl, rfl, rfl, id⟩, fun h => h⟩
    · exact (hleads.does hadmits .start (at_first _ _)).1
    · exact fun ρ hrun => hlive ((hleads.does hadmits .start (at_first _ _)).2 ρ hrun).1.live

/-! ## What a closure captures -/

theorem unitName_run (lambda : Lambda Expr) (s : GenState) :
    ∃ name, (unitName lambda).run s = .ok (name, s) := by
  unfold unitName
  cases lambda.name with
  | some name => exact ⟨name, rfl⟩
  | none => exact ⟨_, rfl⟩

/-- The variables at some offsets are looked up. -/
theorem runs_variables : ∀ (ks : List Nat) (s : GenState),
    Runs (ks.mapM variableAt) (ks.mapM variableAt) s fun vs s' => s' = s ∧
      ∀ v ∈ vs, v ∈ s.draft.stack
  | [], s => by
    rw [List.mapM_nil]
    exact runs_pure ⟨rfl, by simp⟩
  | k :: ks, s => by
    rw [List.mapM_cons]
    unfold variableAt
    simp only [bind_assoc]
    refine Runs.read (draft_run s) ?_
    cases hv : s.draft.stack[k]? with
    | none => exact Runs.bind (Q := fun _ _ => False) (runs_refuse _) fun _ _ hf => hf.elim
    | some v =>
      rw [pure_bind]
      refine Runs.bind (runs_variables ks s) fun vs s' hq => ?_
      obtain ⟨rfl, hvs⟩ := hq
      refine runs_pure ⟨rfl, fun u hu => ?_⟩
      rcases List.mem_cons.mp hu with rfl | hu
      · exact List.mem_of_getElem? hv
      · exact hvs u hu

/-- **What a closure may be finished with**: a unit that works with what is captured. -/
structure Closes (σ : Site) (s : GenState) (P : Point) (unit : UnitId) (caps : List Reg) : Prop where
  mem : ∀ r ∈ caps, r ∈ P.regs
  bound : ∀ r ∈ caps, ∃ v ∈ s.draft.stack, v.reg = r
  ok : ∃ ms : List Bool, ms.length = caps.length ∧
    (∀ (idx : Nat) (r : Reg), caps[idx]? = some r → ms[idx]? = some true →
      s.typeOf? r = some .cell) ∧
    ∀ p : Program, s.Within p → p.types = σ.types → UnitOk σ.ctx.settings p unit ms

theorem Fine.buildClosure (h : Fine σ s body P) (hsub : Genuine σ.ctx sub)
    (he : ∀ caps, Serves ⟨lambda.body.size, 0, σ.ctx, caps⟩ sub sub' lambda.body) (c : Bool) :
    Runs (Gen.buildClosure σ.ctx sub lambda) (Gen.buildClosure (σ.ctx.checking c) sub' lambda) s
      fun out s' => Drawn σ s body s' [] P ∧ s'.draft = s.draft ∧ Closes σ s' P out.1 out.2 := by
  refine Runs.bind (runs_variables lambda.captures s) fun vs s₁ hq => ?_
  obtain ⟨rfl, hvs⟩ := hq
  obtain ⟨name, hname⟩ := unitName_run lambda s₁
  refine Runs.read hname ?_
  refine Runs.bind (h.buildUnit hsub _ (he (vs.map (·.mutable))) c name lambda.arity) fun u s₂ hd => ?_
  obtain ⟨hd, hdraft, hbuilt⟩ := hd
  refine runs_pure ⟨hd, hdraft, fun r hr => ?_, fun r hr => ?_, vs.map (·.mutable), by simp,
    fun idx r hr hmut => ?_, hbuilt.ok⟩
  · obtain ⟨v, hv, rfl⟩ := List.mem_map.mp hr
    exact (h.stack v (hvs v hv)).1
  · obtain ⟨v, hv, rfl⟩ := List.mem_map.mp hr
    exact ⟨v, hdraft ▸ hvs v hv, rfl⟩
  · simp only [List.getElem?_map, Option.map_eq_some_iff] at hr hmut
    obtain ⟨v, hv, rfl⟩ := hr
    obtain ⟨v', hv', hmut⟩ := hmut
    obtain rfl := Option.some.inj (hv.symm.trans hv')
    have hstack := h.stack v (hvs v (List.mem_of_getElem? hv))
    rw [hd.later.typeOf? (h.lt hstack.1)]
    exact hstack.2 hmut

/-! ## Closures on their way -/

/-- What is known of the register of a closure that is made. -/
def closureFacts : RegFacts := ⟨.merged, some .fn⟩

/-- **Closures on their way**: those of `B` have no code yet, the others of `D` do; all else is as it
was before. -/
structure Raised (w : World) (s : GenState) (P : Point) (θ : Env) (D B : Set Reg) (ρ : Env) :
    Prop where
  start : P.At w s θ
  kept : Kept s θ ρ
  blank : ∀ d ∈ B, ρ.regs d = .val .shell
  done : ∀ d ∈ D, d ∉ B → ∃ u, ρ.regs d = .val (.fn u)
  rest : ∀ r : Reg, s.regs.size ≤ r.index → r ∉ D → ρ.regs r = .void
  pushed : ρ.pushed = 0

theorem raised_start (h : P.At w s ρ) : Raised w s P ρ ∅ ∅ ρ where
  start := h
  kept := Kept.refl s ρ
  blank _ hd := hd.elim
  done _ hd := hd.elim
  rest r hr _ := h.fresh r hr
  pushed := h.pushed

/-- When all closures have their code. -/
theorem Raised.not_shell (h : Raised w s P θ D ∅ ρ) (r : Reg) : ρ.regs r ≠ .val .shell := by
  by_cases hr : r.index < s.regs.size
  · rw [h.kept r hr]
    exact h.start.calm.not_shell r
  · by_cases hd : r ∈ D
    · obtain ⟨u, e⟩ := h.done r hd (by simp)
      simp [e]
    · simp [h.rest r (by omega) hd]

theorem Raised.unheld (h : Raised w s P θ D B ρ) {i : Instr NodeId} {r : Reg} {κ : Kind}
    (_ : i.creates = some r) (hκ : ρ.regs r = .held κ) : i = .merge r := by
  by_cases hr : r.index < s.regs.size
  · rw [h.kept r hr] at hκ
    rcases h.start.calm.regs r with e | ⟨κ', e, -⟩ <;> cases e.symm.trans hκ
  · by_cases hd : r ∈ D
    · by_cases hb : r ∈ B
      · cases (h.blank r hb).symm.trans hκ
      · obtain ⟨u, e⟩ := h.done r hd hb
        cases e.symm.trans hκ
    · cases (h.rest r (by omega) hd).symm.trans hκ

/-- Of the register it will have been noted that it holds a function, and no more. -/
structure NotedClosure (w : World) (d : Reg) : Prop where
  facts : w.facts[d.index]? = some closureFacts
  narrowed : w.drafted.draft.narrowed[d]? = none
  known : w.drafted.draft.known[d]? = none

theorem NotedClosure.of_keeps (hk : w.Keeps s' d) (h : New s s' closureFacts d) : NotedClosure w d :=
  ⟨hk.facts.trans h.facts, hk.narrowed.trans h.narrowed, hk.known.trans h.known⟩

theorem NotedClosure.suits {a : Prop} {κ : Kind} (h : NotedClosure w d) (hκ : κ.type = .fn) : w.Suits a d κ where
  uncounted hu := by
    obtain ⟨f, hf, hcounted⟩ := hu
    obtain rfl := Option.some.inj (h.facts.symm.trans hf)
    cases hcounted
  recorded hf ht := by
    obtain rfl := Option.some.inj (h.facts.symm.trans hf)
    exact hκ.trans (Option.some.inj ht)
  narrowed ht := by
    rw [h.narrowed] at ht
    cases ht
  known hk _ := by
    rw [h.known] at hk
    cases hk

theorem Raised.noted {spared : Reg → Prop} (h : Raised w s P θ D B ρ) (hD : ∀ d ∈ D, NotedClosure w d) :
    w.Noted spared ρ := by
  intro r κ hκ
  by_cases hr : r.index < s.regs.size
  · rw [h.kept r hr] at hκ
    exact h.start.noted r κ hκ
  · by_cases hd : r ∈ D
    · refine (hD r hd).suits ?_
      by_cases hb : r ∈ B
      · rw [h.blank r hb] at hκ
        rw [← Option.some.inj hκ]
        rfl
      · obtain ⟨u, hu⟩ := h.done r hd hb
        rw [hu] at hκ
        rw [← Option.some.inj hκ]
        rfl
    · rw [h.rest r (by omega) hd] at hκ
      cases hκ

/-- A value of the point or a closure. -/
theorem Raised.value (h : Raised w s P θ D B ρ) (hP : P.Made s) (hr : r ∈ (P.adds D).regs) :
    ∃ κ, ρ.regs r = .val κ := by
  rcases hr with hr | hr
  · obtain ⟨κ, hκ⟩ := h.start.holds r hr
    exact ⟨κ, (h.kept r (hP.regs r hr)).trans hκ.value⟩
  · by_cases hb : r ∈ B
    · exact ⟨_, h.blank r hb⟩
    · obtain ⟨u, hu⟩ := h.done r hr hb
      exact ⟨_, hu⟩

/-- One more closure without code. -/
theorem Raised.alloc (h : Raised w s P θ D D ρ) (hd : s.regs.size ≤ d.index) :
    Raised w s P θ (insert d D) (insert d D) (ρ.set d (.val .shell)) where
  start := h.start
  kept := fun r hr => by
    rw [ρ.set_of_ne _ (by rintro rfl; omega)]
    exact h.kept r hr
  blank q hq := by
    rw [Env.set_eq]
    split_ifs with e
    · rfl
    · exact h.blank q (hq.resolve_left e)
  done q hq hnot := absurd hq hnot
  rest q hq hnot := by
    rw [ρ.set_of_ne _ fun e => hnot (Or.inl e)]
    exact h.rest q hq fun hmem => hnot (Or.inr hmem)
  pushed := h.pushed

/-- One more closure gets its code. -/
theorem Raised.finish (h : Raised w s P θ D B ρ) (hd : s.regs.size ≤ d.index) (hmem : d ∈ D)
    (unit : UnitId) :
    Raised w s P θ D (B \ {d}) (ρ.set d (.val (.fn unit))).join where
  start := h.start
  kept := fun r hr => by
    rw [Env.regs_join, ρ.set_of_ne _ (by rintro rfl; omega)]
    exact h.kept r hr
  blank q hq := by
    rw [Env.regs_join, ρ.set_of_ne _ hq.2]
    exact h.blank q hq.1
  done q hq hnot := by
    rw [Env.regs_join, Env.set_eq]
    split_ifs with e
    · exact ⟨unit, rfl⟩
    · exact h.done q hq fun hb => hnot ⟨hb, e⟩
  rest q hq hnot := by
    rw [Env.regs_join, ρ.set_of_ne _ (by rintro rfl; exact hnot hmem)]
    exact h.rest q hq hnot
  pushed := h.pushed

/-- **All closures have their code.** -/
theorem Raised.complete (h : Raised w s P θ D ∅ ρ) (hs : ρ.scope = none) (hP : P.Made s)
    (hl : s.Later s') (hD : ∀ d ∈ D, New s s' closureFacts d)
    (hw : ∀ d ∈ D, NotedClosure w d) : (P.adds D).At w s' ρ where
  live := h.start.live
  holds r hr := by
    rcases hr with hr | hr
    · obtain ⟨κ, hκ⟩ := h.start.holds r hr
      exact ⟨κ, hκ.later hl (hP.regs r hr) (h.kept r (hP.regs r hr))⟩
    · obtain ⟨u, hu⟩ := h.done r hr (by simp)
      have hnew := hD r hr
      refine ⟨_, hu, by simp, fun ht => ?_, fun hf ht => ?_, fun hk => ?_⟩
      · rw [hnew.typeOf?] at ht
        exact Option.some.inj ht
      · rw [hnew.facts] at hf
        rw [← Option.some.inj hf] at ht
        exact Option.some.inj ht
      · rw [hnew.known] at hk
        cases hk
  sure hr := (h.kept _ (hP.sure _ hr)).trans (h.start.sure hr)
  fresh r hr := h.rest r (hl.size.trans hr) fun hmem => absurd (hD r hmem).lt (by omega)
  calm := by
    refine ⟨hs, fun r => ?_⟩
    by_cases hr : r.index < s.regs.size
    · rw [h.kept r hr]
      exact h.start.calm.regs r
    · by_cases hd : r ∈ D
      · obtain ⟨u, hu⟩ := h.done r hd (by simp)
        exact Or.inr ⟨_, hu, by simp⟩
      · exact Or.inl (h.rest r (by omega) hd)
  pushed := h.pushed
  strict := h.noted hw

/-- **A closure is made without code.** -/
theorem Drawn.allocClosure (h : Drawn σ s body s₁ xs (P.adds D))
    (hD : ∀ d ∈ D, New s s₁ closureFacts d) {g g' : Reg → Gen β} {R : β → GenState → Prop}
    (hg : ∀ d s₂ id, Drawn σ s body s₂ (xs ++ [(id, .allocClosure d)]) (P.adds (insert d D)) →
      (∀ q ∈ insert d D, New s s₂ closureFacts q) → s₁.regs.size ≤ d.index → s₁.Later s₂ →
      s₂.draft.stack = s₁.draft.stack →
      (∀ {w θ}, (∀ q ∈ D, NotedClosure w q) →
        (Block.single id (.allocClosure d)).Does w (Raised w s P θ D D) fun ρ ρ' =>
          Raised w s P θ (insert d D) (insert d D) ρ' ∧ ρ'.scope = ρ.scope) →
      Runs (g d) (g' d) s₂ R) :
    Runs (Gen.freshReg .merged (some .fn) >>= fun d => Gen.write (.allocClosure d) >>= fun _ => g d)
      (Gen.freshReg .merged (some .fn) >>= fun d => Gen.write (.allocClosure d) >>= fun _ => g' d)
      s₁ R := by
  refine Runs.bind (h.freshReg .merged (by simp)) fun d s₂ hd => ?_
  obtain ⟨hd, hheld, hlater, hnew, hstack⟩ := hd
  have hgood : Good s₂.regs (.allocClosure d) :=
    good_of_creates rfl rfl (by simp [Instr.inputs]) hheld.role_eq (fun _ => Or.inr rfl) fun _ => rfl
  refine Runs.bind (hd.write hgood fun r hr _ => ?_) fun _ s₃ hd₃ => ?_
  · rw [← Option.some.inj hr]
    exact ⟨hheld.new, hheld.unmade⟩
  obtain ⟨id, hd₃, hs₃⟩ := hd₃
  have hD₃ : ∀ q ∈ insert d D, New s s₃ closureFacts q := by
    rintro q (rfl | hq)
    · exact hheld.toNew.later hs₃.later
    · exact (hD q hq).later (hlater.trans hs₃.later)
  have hsub : (P.adds D).regs ⊆ (P.adds (insert d D)).regs :=
    Set.union_subset_union_right _ (Set.subset_insert _ _)
  refine hg d s₃ id (hd₃.move_le ⟨hsub, subset_rfl⟩ ⟨fun r hr => ?_, hd₃.fine.made.sure⟩) hD₃ hnew
    (hlater.trans hs₃.later) (hs₃.stack.trans hstack) fun {w θ} hw => ?_
  · rcases hr with hr | hr
    · exact hd₃.fine.made.regs r (Or.inl hr)
    · exact (hD₃ r hr).lt
  · refine Block.does_single (fun ρ hρ => ⟨hρ.noted hw, by simp [Instr.inputs], trivial,
      hρ.unheld, trivial⟩) ?_
    rintro ρ ρ' hρ ⟨κ, rfl, rfl⟩
    exact ⟨hρ.alloc (h.later.size.trans hnew), rfl⟩

/-- **A closure gets its code.** -/
theorem Drawn.finishClosure (h : Drawn σ s body s₁ xs (P.adds D)) (hP : P.Made s)
    (hD : ∀ d ∈ D, New s s₁ closureFacts d) (hd : d ∈ D) (hc : Closes σ s₁ (P.adds D) unit caps) :
    Runs (Gen.write (.finishClosure d unit caps)) (Gen.write (.finishClosure d unit caps)) s₁
      fun _ s₂ => ∃ id, Drawn σ s body s₂ (xs ++ [(id, .finishClosure d unit caps)]) (P.adds D) ∧
        Recoded s₁ s₂ ∧ ∀ {w θ}, σ.Admits w s s₂ →
          (Block.single id (.finishClosure d unit caps)).Does w (fun ρ => Raised w s P θ D B ρ ∧
            d ∈ B ∧ (∀ n k, ρ.scope = some (n, k) → k < n) ∧
            (ρ.scope = none → ∀ r ∈ caps, r ∈ P.regs)) fun ρ ρ' =>
            Raised w s P θ D (B \ {d}) ρ' ∧ ρ'.scope = ρ.scope.map fun p => (p.1, p.2 + 1) := by
  have hin : ∀ r ∈ (Instr.finishClosure d unit caps : Instr NodeId).inputs, r ∈ (P.adds D).regs := by
    intro r hr
    rcases List.mem_cons.mp hr with rfl | hr
    · exact Point.mem_adds hd
    · exact hc.mem r hr
  have hgood : Good s₁.regs (.finishClosure d unit caps) :=
    good_of_plain rfl rfl fun r hr => h.fine.lt (hin r hr)
  refine (h.write hgood (by simp [Instr.creates])).mono fun _ s₂ hd₂ => ?_
  obtain ⟨id, hd₂, hs₂⟩ := hd₂
  refine ⟨id, hd₂, hs₂, fun {w θ} hw => ?_⟩
  have hnoted : ∀ q ∈ D, NotedClosure w q := fun q hq => by
    have hnew := (hD q hq).later hs₂.later
    exact .of_keeps (hw.keeps hnew.new hnew.lt) hnew
  refine Block.does_single (fun ρ hρ => ⟨hρ.1.noted hnoted, fun r hr => ?_, ?_, hρ.1.unheld,
    fun hn r hr => ?_⟩) ?_
  · obtain ⟨κ, hκ⟩ := hρ.1.value hP (hin r hr)
    exact ⟨κ, hκ, fun _ => rfl⟩
  · obtain ⟨ms, hlen, hcells, hok⟩ := hc.ok
    refine ⟨hρ.1.blank d hρ.2.1, hρ.2.2.1, ms,
      hw.ok (hok _ (hs₂.later.within hw.within) hw.types), hlen, fun idx r hr hmut => ?_⟩
    have htype := hcells idx r hr hmut
    rcases hc.mem r (List.mem_of_getElem? hr) with hr | hr
    · obtain ⟨κ, hκ⟩ := hρ.1.start.holds r hr
      have hlt := hP.regs r hr
      rw [h.later.typeOf? hlt] at htype
      rw [hρ.1.kept r hlt, hκ.value, Kind.eq_cell_of_type (hκ.type htype)]
    · rw [(hD r hr).typeOf?] at htype
      cases htype
  · rw [hρ.1.kept r (hP.regs r (hρ.2.2.2 hn r hr))]
    exact hρ.1.start.calm.not_shell r
  · rintro ρ ρ' hρ rfl
    exact ⟨hρ.1.finish (hD d hd).new hd unit, rfl⟩

/-- **Closures that are made and get their code** are values from then on. -/
theorem leads_of_raised (hP : P.Made s) (hl : s.Later s') (hD : ∀ d ∈ D, New s s' closureFacts d)
    (ht : ∀ {w θ}, σ.Admits w s s' → t.Does w (fun ρ => Raised w s P θ ∅ ∅ ρ ∧ ρ.scope = none)
      fun _ ρ' => Raised w s P θ D ∅ ρ' ∧ ρ'.scope = none) : Leads σ s P t s' (P.adds D) := by
  refine ⟨P.le_adds D, fun {w} hw ρ hρ => ?_, absurd⟩
  obtain ⟨hok, hrun⟩ := ht hw ρ ⟨raised_start hρ, hρ.calm.scope⟩
  refine ⟨hok, fun ρ' hρ' => ?_⟩
  obtain ⟨hraised, hscope⟩ := hrun ρ' hρ'
  exact ⟨hraised.complete hscope hP hl hD fun d hd =>
    .of_keeps (hw.keeps (hD d hd).new (hD d hd).lt) (hD d hd), hraised.kept⟩

/-! ## Function literals -/

/-- **Loading a known function**, and noting that the register holds it. -/
theorem leads_noting (hl : Leads σ s P (.single id (.const r k)) s₁ (P.add r))
    (hshows : ∀ {w}, σ.Admits w s s₁ → (Block.single id (.const r k)).Does w (P.At w s) fun _ ρ =>
      ρ.regs r = .val (.fn unit)) (hr : New s s₁ ⟨.temp, some .fn⟩ r) (f : KnownFunction)
    (hruns : ∀ p : Program, s₁.Within p → f.Runs σ.ctx p unit) :
    Leads σ s P (.single id (.const r k)) (s₁.noting r f) (P.add r) := by
  refine ⟨hl.le, fun {w} hw ρ hρ => ?_, hl.stops⟩
  -- that the register holds the function is noted when it does, so the load is looked at without that
  have hw₁ := hw.forget (GenState.notes_noting f ⟨hr.narrowed, hr.known⟩)
  have hkeeps := hw.keeps hr.new hr.lt
  have hf : f.Runs w.ctx w.program unit := hw.ctx ▸ hruns _ hw₁.within
  obtain ⟨hok, hrun⟩ := ((hl.does hw₁).and (hshows hw₁)) ρ (hρ.forget r)
  refine ⟨⟨hok.1.of_forget fun κ hκ => ?_, fun _ _ => trivial⟩, fun ρ' h' => ?_⟩
  · rw [hρ.fresh r hr.new] at hκ
    cases hκ
  · obtain ⟨⟨hat, hkept⟩, hval⟩ := hrun ρ' (Block.run_forget.mpr h')
    refine ⟨at_noting (hat.of_forget fun κ hκ => (hat.strict r κ hκ).of_forget (fun t ht => ?_)
      fun j g hj hg => ?_) hval hf, hkept⟩
    · rw [hkeeps.narrowed] at ht
      cases hr.narrowed.symm.trans ht
    · rw [hval] at hκ
      rw [hkeeps.known] at hj
      obtain rfl : s₁.functions.size = j := by
        have hj : (s₁.draft.known.insert r s₁.functions.size)[r]? = some j := hj
        simpa using hj
      obtain rfl := Option.some.inj ((hkeeps.functions (k := s₁.functions.size) Array.getElem?_push_size).symm.trans hg)
      exact ⟨unit, (Option.some.inj hκ).symm, hf⟩

theorem Fine.genFn (h : Fine σ s body P) (hsub : Genuine σ.ctx sub)
    (he : ∀ caps, Serves ⟨lambda.body.size, 0, σ.ctx, caps⟩ sub sub' lambda.body)
    (hsize : lambda.body.size < σ.size) (c : Bool) :
    Emits σ (Gen.genFn σ.ctx sub lambda) (Gen.genFn (σ.ctx.checking c) sub' lambda) s body P
      fun r s' P' => r ∈ P'.regs ∧ s'.draft.stack = s.draft.stack := by
  unfold Gen.genFn
  split_ifs
  · obtain ⟨name, hname⟩ := unitName_run lambda s
    refine Runs.read hname ?_
    refine Runs.bind (h.buildUnit hsub _ (he []) c name lambda.arity) fun unit s₁ hd => ?_
    obtain ⟨hd, hdraft, hdrafted, hok⟩ := hd
    have hsound : Sound σ s₁ (.closure unit) := fun u' e p hp ht => by
      cases e
      exact hok p hp ht
    refine Emits.after (t := .nil) ?_ hd trivial (hd.leads_nil h)
    refine Runs.bind (hd.fine.loadConstant_shows hsound) fun r s₂ hd₂ => ?_
    obtain ⟨_, _, hd₂, ht, hl₂, ⟨id, k, rfl⟩, hshows, rfl, hr, hstack⟩ := hd₂
    have hd₃ := hd₂.noting hr.new hr.lt (k := ⟨lambda.arity, lambda.body⟩) hsize
    refine Runs.bind (.of_eq (Q := fun _ s' => s' = s₂.noting r ⟨lambda.arity, lambda.body⟩) rfl rfl)
      fun _ s₃ hs₃ => ?_
    subst hs₃
    refine runs_pure ⟨_, P.add r, hd₃, ht, leads_noting hl₂ hshows hr _ fun p hp =>
      hdrafted p (hd₂.later.within hp), P.mem_add r, ?_⟩
    show s₂.draft.stack = _
    rw [hstack, hdraft]
  · have hd₀ : Drawn σ s body s [] (P.adds ∅) :=
      h.drawn.move_le (P.le_adds ∅) ⟨by simpa [Point.adds] using h.made.regs, h.made.sure⟩
    refine hd₀.allocClosure (by simp) fun dst s₁ id hd₁ hD hnew hlater hstack₁ hdoes₁ => ?_
    refine Runs.bind (hd₁.fine.buildClosure hsub he c) fun out s₂ hd₂ => ?_
    obtain ⟨hd₂, hdraft, hc⟩ := hd₂
    have hd₂' := hd₁.trans hd₂
    rw [List.append_nil] at hd₂'
    have hD₂ := fun q hq => (hD q hq).later hd₂.later
    refine Runs.bind (hd₂'.finishClosure (B := insert dst ∅) h.made hD₂ (by simp) hc) fun _ s₃ hd₃ => ?_
    obtain ⟨id', hd₃, hs₃, hdoes₃⟩ := hd₃
    have hD₃ := fun q hq => (hD₂ q hq).later hs₃.later
    refine runs_pure ⟨(Block.single id (.allocClosure dst)).append (.single id' (.finishClosure dst out.1
      out.2)), P.adds (insert dst ∅), by simpa using hd₃, ⟨rfl, by simp, rfl, by simp, trivial⟩,
      leads_of_raised h.made hd₃.later hD₃ fun {w θ} hw => ?_, Point.mem_adds (by simp), ?_⟩
    · have hcaps : ∀ r ∈ out.2, r ∈ P.regs := fun r hr => by
        obtain ⟨v, hv, rfl⟩ := hc.bound r hr
        exact (h.stack v (hstack₁ ▸ hdraft ▸ hv)).1
      have halloc := (hdoes₁ (w := w) (θ := θ) (by simp)).mono (A := fun ρ =>
        Raised w s P θ ∅ ∅ ρ ∧ ρ.scope = none) (B := fun _ ρ' =>
        Raised w s P θ (insert dst ∅) (insert dst ∅) ρ' ∧ ρ'.scope = none) (fun _ h => h.1)
        fun _ _ hρ hq => ⟨hq.1, hq.2.trans hρ.2⟩
      refine halloc.append (hdoes₃ hw) (fun _ _ _ hq => ⟨hq.1, by simp, by simp [hq.2], fun _ => hcaps⟩)
        fun ρ ρ₁ ρ' _ hq hq' => ⟨?_, by rw [hq'.2, hq.2]; rfl⟩
      have hempty : insert dst (∅ : Set Reg) \ {dst} = ∅ := by simp
      have hraised := hq'.1
      rwa [hempty] at hraised
    · rw [hs₃.stack, hdraft, hstack₁]

/-! ## Recursive functions -/

/-- What is drawn where closures are made: those of `E` are on their way, the new ones among them. -/
structure Allocated (σ : Site) (s : GenState) (body : Code) (P : Point) (D : Set Reg) (s₁ : GenState)
    (xs : Code) (new : List Reg) (s₂ : GenState) (T : Block) (E : Set Reg) : Prop where
  drawn : Drawn σ s body s₂ (xs ++ T.code) (P.adds E)
  proper : T.Proper
  made : ∀ d ∈ E, New s s₂ closureFacts d
  mem : ∀ d, d ∈ E ↔ d ∈ D ∨ d ∈ new
  nodup : new.Nodup
  later : ∀ d ∈ new, s₁.regs.size ≤ d.index
  stack : s₁.draft.stack <:+ s₂.draft.stack
  does : ∀ {w θ}, (∀ d ∈ E, NotedClosure w d) →
    T.Does w (Raised w s P θ D D) fun ρ ρ' => Raised w s P θ E E ρ' ∧ ρ'.scope = ρ.scope

theorem Drawn.allocClosures : ∀ (fns : List Expr) (index : Nat) {s₁ : GenState} {xs : Code}
    {D : Set Reg}, Drawn σ s body s₁ xs (P.adds D) → (∀ d ∈ D, New s s₁ closureFacts d) →
    Runs (Gen.allocClosures index fns) (Gen.allocClosures index fns) s₁ fun out s₂ =>
      (∃ T E, Allocated σ s body P D s₁ xs (out.map Prod.fst) s₂ T E) ∧ ∀ q ∈ out, .fn q.2 ∈ fns
  | [], _, s₁, xs, D, h, hD => by
    refine runs_pure ⟨⟨.nil, D, by simpa [Block.code] using h, trivial, hD, by simp, by simp,
      by simp, List.suffix_refl _, fun _ => Block.does_nil fun ρ hρ => ⟨hρ, rfl⟩⟩, by simp⟩
  | e :: rest, index, s₁, xs, D, h, hD => by
    cases e with
    | fn lambda =>
      refine h.allocClosure hD fun d s₂ id hd₂ hD₂ hnew hlater hstack₂ hdoes => ?_
      refine Runs.bind (hd₂.bindReg (Point.mem_adds (by simp))) fun _ s₃ hd₃ => ?_
      obtain ⟨hd₃, hs₃⟩ := hd₃
      have hlater₃ : s₂.Later s₃ := hs₃ ▸ later_withStack _ _
      have hD₃ := fun q hq => (hD₂ q hq).later hlater₃
      refine Runs.bind (Drawn.allocClosures rest (index + 1) hd₃ hD₃) fun out s₄ ha => ?_
      obtain ⟨⟨T, E, ha⟩, hfns⟩ := ha
      have hd : d ∈ insert d D := by simp
      refine runs_pure ⟨⟨(Block.single id (.allocClosure d)).append T, E, by simpa using ha.drawn,
        ⟨rfl, by simp, ha.proper⟩, ha.made, fun q => ?_, ?_, fun q hq => ?_, ?_, fun hw => ?_⟩,
        fun q hq => ?_⟩
      · rw [ha.mem, Set.mem_insert_iff, List.map_cons, List.mem_cons]
        tauto
      · refine List.nodup_cons.mpr ⟨fun hmem => ?_, ha.nodup⟩
        have := ha.later d hmem
        have := (hD₃ d hd).lt
        omega
      · rcases List.mem_cons.mp hq with rfl | hq
        · exact hnew
        · exact (hlater.trans hlater₃).size.trans (ha.later q hq)
      · refine List.IsSuffix.trans ?_ ha.stack
        rw [hs₃, ← hstack₂]
        exact List.suffix_cons _ _
      · have hsub : ∀ q ∈ D, q ∈ E := fun q hq => (ha.mem q).mpr (Or.inl (Or.inr hq))
        exact (hdoes fun q hq => hw q (hsub q hq)).append (ha.does hw) (fun _ _ _ hq => hq.1)
          fun _ _ _ _ hq hq' => ⟨hq'.1, hq'.2.trans hq.2⟩
      · rcases List.mem_cons.mp hq with rfl | hq
        · exact List.mem_cons_self
        · exact List.mem_cons_of_mem _ (hfns q hq)
    | _ => exact runs_refuse _

theorem Drawn.finishClosures (hsub : Genuine σ.ctx sub) (c : Bool) : ∀ (closures : List (Reg × Lambda Expr))
    {s₁ : GenState}
    {xs : Code}, Drawn σ s body s₁ xs (P.adds D) → P.Made s → (∀ d ∈ D, New s s₁ closureFacts d) →
    (closures.map Prod.fst).Nodup →
    (∀ q ∈ closures, q.1 ∈ D ∧
      ∀ caps, Serves ⟨q.2.body.size, 0, σ.ctx, caps⟩ sub sub' q.2.body) →
    Runs (Gen.finishClosures σ.ctx sub closures) (Gen.finishClosures (σ.ctx.checking c) sub' closures) s₁
      fun _ s₂ => ∃ T, Drawn σ s body s₂ (xs ++ Block.code T) (P.adds D) ∧ T.Proper ∧ s₁.Later s₂ ∧
        s₂.draft.stack = s₁.draft.stack ∧
        ∀ {w θ n k}, σ.Admits w s s₂ → k + closures.length ≤ n → T.Does w (fun ρ =>
          Raised w s P θ D {d | d ∈ closures.map Prod.fst} ρ ∧ ρ.scope = some (n, k)) fun _ ρ' =>
          Raised w s P θ D ∅ ρ' ∧ ρ'.scope = some (n, k + closures.length)
  | [], s₁, xs, h, _, _, _, _ => by
    refine runs_pure ⟨.nil, by simpa [Block.code] using h, trivial, .refl _, rfl, fun _ _ =>
      Block.does_nil fun ρ hρ => ⟨?_, hρ.2⟩⟩
    have hempty : {d | d ∈ ([] : List (Reg × Lambda Expr)).map Prod.fst} = ∅ := by simp
    exact hempty ▸ hρ.1
  | (d, lambda) :: rest, s₁, xs, h, hP, hD, hnd, hcl => by
    obtain ⟨hd, he⟩ := hcl (d, lambda) (by simp)
    have hnd := List.nodup_cons.mp hnd
    refine Runs.bind (h.fine.buildClosure hsub he c) fun out s₂ hd₂ => ?_
    obtain ⟨hd₂, hdraft, hc⟩ := hd₂
    have hd₂' := h.trans hd₂
    rw [List.append_nil] at hd₂'
    have hD₂ := fun q hq => (hD q hq).later hd₂.later
    refine Runs.bind (hd₂'.finishClosure (B := {q | q ∈ d :: rest.map Prod.fst}) hP hD₂ hd hc)
      fun _ s₃ hd₃ => ?_
    obtain ⟨id, hd₃, hs₃, hdoes₃⟩ := hd₃
    refine (Drawn.finishClosures hsub c rest hd₃ hP (fun q hq => (hD₂ q hq).later hs₃.later) hnd.2
      fun q hq => hcl q (by simp [hq])).mono fun _ s₄ hd₄ => ?_
    obtain ⟨T, hd₄, hT, hlater₄, hstack₄, hdoes₄⟩ := hd₄
    refine ⟨(Block.single id (.finishClosure d out.1 out.2)).append T, by simpa using hd₄,
      ⟨rfl, by simp, hT⟩, (hd₂.later.trans hs₃.later).trans hlater₄,
      by rw [hstack₄, hs₃.stack, hdraft], fun {w θ n k} hw hk => ?_⟩
    rw [List.length_cons] at hk
    have hleft : {q | q ∈ d :: rest.map Prod.fst} \ {d} = {q | q ∈ rest.map Prod.fst} := by
      ext q
      simp only [Set.mem_sdiff, Set.mem_ofPred_eq, List.mem_cons, Set.mem_singleton_iff]
      constructor
      · rintro ⟨rfl | hq, hne⟩
        · exact absurd rfl hne
        · exact hq
      · intro hq
        exact ⟨Or.inr hq, by rintro rfl; exact hnd.1 hq⟩
    refine (hdoes₃ (θ := θ) (hw.left hlater₄)).mono (A := fun ρ =>
        Raised w s P θ D {q | q ∈ d :: rest.map Prod.fst} ρ ∧ ρ.scope = some (n, k))
        (B := fun _ ρ' => Raised w s P θ D {q | q ∈ rest.map Prod.fst} ρ' ∧
          ρ'.scope = some (n, k + 1)) (fun ρ hρ => ⟨hρ.1, by simp, fun n' k' e => ?_, by simp [hρ.2]⟩)
        (fun ρ ρ' hρ hq => ⟨hleft ▸ hq.1, by rw [hq.2, hρ.2]; rfl⟩) |>.append
      (hdoes₄ hw (by omega)) (fun _ _ _ hq => hq) fun ρ ρ₁ ρ' _ _ hq => ⟨hq.1, ?_⟩
    · rw [hρ.2] at e
      cases e
      omega
    · rw [hq.2, List.length_cons, Nat.add_assoc, Nat.add_comm 1]

theorem Fine.genFix (h : Fine σ s body P) (hsub : Genuine σ.ctx sub) {fns : List Expr} (c : Bool)
    (hfns : ∀ lambda, .fn lambda ∈ fns → ∀ caps,
      Serves ⟨lambda.body.size, 0, σ.ctx, caps⟩ sub sub' lambda.body) :
    Emits σ (Gen.genFix σ.ctx sub fns) (Gen.genFix (σ.ctx.checking c) sub' fns) s body P
      fun _ s' _ => s.draft.stack <:+ s'.draft.stack := by
  have hd₀ : Drawn σ s body s [] (P.adds ∅) :=
    h.drawn.move_le (P.le_adds ∅) ⟨by simpa [Point.adds] using h.made.regs, h.made.sure⟩
  refine Runs.bind (hd₀.allocClosures fns 0 (by simp)) fun closures s₁ ha => ?_
  obtain ⟨⟨T₁, E, ha⟩, hmem⟩ := ha
  have hE : E = {d | d ∈ closures.map Prod.fst} := by
    ext d
    simp [ha.mem]
  refine Runs.bind (ha.drawn.write (i := .beginScope closures.length) (good_of_plain rfl rfl
    (by simp [Instr.inputs])) (by simp [Instr.creates])) fun _ s₂ hd₂ => ?_
  obtain ⟨id₂, hd₂, hs₂⟩ := hd₂
  have hE₂ := fun d hd => (ha.made d hd).later hs₂.later
  refine Runs.bind (hd₂.finishClosures hsub c closures h.made hE₂ ha.nodup fun q hq =>
    ⟨?_, hfns q.2 (hmem q hq)⟩) fun _ s₃ hd₃ => ?_
  · rw [hE]
    exact List.mem_map_of_mem hq
  obtain ⟨T₃, hd₃, hT₃, hlater₃, hstack₃, hdoes₃⟩ := hd₃
  refine (hd₃.write (i := .endScope closures.length) (good_of_plain rfl rfl
    (by simp [Instr.inputs])) (by simp [Instr.creates])).mono fun _ s₄ hd₄ => ?_
  obtain ⟨id₄, hd₄, hs₄⟩ := hd₄
  have hE₄ := fun d hd => (hE₂ d hd).later (hlater₃.trans hs₄.later)
  refine ⟨T₁.append ((Block.single id₂ (.beginScope closures.length)).append (T₃.append
    (.single id₄ (.endScope closures.length)))), P.adds E, by simpa using hd₄, ha.proper.append
    ⟨rfl, by simp, hT₃.append ⟨rfl, by simp, trivial⟩⟩, leads_of_raised h.made hd₄.later hE₄
    fun {w θ} hw => ?_, ?_⟩
  · have hnoted : ∀ d ∈ E, NotedClosure w d := fun d hd =>
      .of_keeps (hw.keeps (hE₄ d hd).new (hE₄ d hd).lt) (hE₄ d hd)
    have hopen : (Block.single id₂ (.beginScope closures.length)).Does w (fun ρ =>
        Raised w s P θ E E ρ ∧ ρ.scope = none) fun _ ρ' => Raised w s P θ E
          {d | d ∈ closures.map Prod.fst} ρ' ∧ ρ'.scope = some (closures.length, 0) := by
      refine Block.does_single (fun ρ hρ => ⟨hρ.1.noted hnoted, by simp [Instr.inputs], hρ.2,
        hρ.1.unheld, trivial⟩) ?_
      rintro ρ ρ' hρ rfl
      exact ⟨hE ▸ ⟨hρ.1.start, hρ.1.kept, hρ.1.blank, hρ.1.done, hρ.1.rest, hρ.1.pushed⟩, rfl⟩
    have hclose : (Block.single id₄ (.endScope closures.length)).Does w (fun ρ =>
        Raised w s P θ E ∅ ρ ∧ ρ.scope = some (closures.length, closures.length)) fun _ ρ' =>
          Raised w s P θ E ∅ ρ' ∧ ρ'.scope = none := by
      refine Block.does_single (fun ρ hρ => ⟨hρ.1.noted hnoted, by simp [Instr.inputs], hρ.2,
        hρ.1.unheld, hρ.1.not_shell⟩) ?_
      rintro ρ ρ' hρ rfl
      exact ⟨⟨hρ.1.start, hρ.1.kept, hρ.1.blank, hρ.1.done, hρ.1.rest, hρ.1.pushed⟩, rfl⟩
    have hrest := hopen.append (R := fun _ ρ' => Raised w s P θ E ∅ ρ' ∧ ρ'.scope = none)
      ((hdoes₃ (θ := θ) (k := 0) (hw.left hs₄.later) (by simp)).append
        (R := fun _ ρ' => Raised w s P θ E ∅ ρ' ∧ ρ'.scope = none) hclose
        (fun _ _ _ hq => by simpa using hq) fun _ _ _ _ _ hq => hq) (fun _ _ _ hq => hq)
      fun _ _ _ _ _ hq => hq
    exact ((ha.does hnoted).mono (A := fun ρ => Raised w s P θ ∅ ∅ ρ ∧ ρ.scope = none)
      (B := fun _ ρ' => Raised w s P θ E E ρ' ∧ ρ'.scope = none) (fun _ h => h.1)
      fun _ _ hρ hq => ⟨hq.1, hq.2.trans hρ.2⟩).append hrest (fun _ _ _ hq => hq)
      fun _ _ _ _ _ hq => hq
  · show s.draft.stack <:+ s₄.draft.stack
    rw [hs₄.stack, hstack₃, hs₂.stack]
    exact ha.stack

end Gen

end CountedMachine
