import CountedMachine.Proofs.Generation.Parallel
import CountedMachine.Proofs.Generation.Sparing
import CountedMachine.Proofs.Machine.Stretches
import CountedMachine.Proofs.Matching.Shapes

/-! # Code for a match

Whatever shape the code for a match has, the machine runs the first arm just if the value matches the
pattern, with its parts bound in depth-first order (`genMatch_selects`). An arm leaves the registers from before
alone (`Coded.setsFrom`), so that where the code of the match goes on behind it is decided before it runs. -/

namespace CountedMachine

open Listing Heap

namespace Gen

variable {σ : Site} {sub sub' : Sub} {s s' : GenState} {body ys : Code} {P P' : Point} {ctx : Context}
  {p : Pattern} {yes e : Expr} {no : Option Expr} {v : Reg} {x out : Option Reg} {n : Nat}

/-! ## Matches with an alternative -/

/-- **A match with an alternative**, of whatever shape. -/
theorem Fine.genAlternatives_decides (h : Fine σ s body P) (hctx : ctx.types = σ.types) (hv : v ∈ P.regs)
    (p : Pattern) {no : Expr} (hyes : Serves σ sub sub' yes) (hno : Serves σ sub sub' no) (tail : Bool) :
    Runs (Gen.genAlternatives ctx sub v p yes no tail) (Gen.genAlternatives ctx sub v p yes no tail) s
      (Decided σ sub v p yes (some no) s body) := by
  refine Runs.read (knownType_run (h.lt hv)) ?_
  generalize hforecast : Forecast.of (s.typeOf? v) p = forecast
  cases forecast with
  | fits => exact h.genFitting_decides hctx hv p hyes tail (.inr hforecast)
  | fails => exact runs_validated (c := true) hctx fun _ => h.genFailing_decides hno tail hforecast
  | undecided =>
    cases p with
    | bind => cases hforecast
    | ignore => cases hforecast
    | unpack ty fields =>
      dsimp only
      split_ifs with hdepth
      · have hfields : Pattern.depthFields fields = 0 := by
          rw [Pattern.depth] at hdepth
          omega
        exact h.genOneLevel_decides hctx hv (Pattern.depthFields_eq_zero.mp hfields) hyes hno tail
      · refine runs_validated (c := true) hctx fun hp => ?_
        cases tail with
        | true => exact h.genLevelsTail_decides hv hp hyes hno
        | false => exact h.genLevelsValue_decides hv hp hyes hno

/-! ## What arms leave alone -/

/-- Code that has been added sets the registers that the listing says. -/
theorem Drawn.setsFrom (h : Drawn σ s body s' ys P') (hf : Fine σ s body P)
    (hsince : s.draft.listing.Since n s'.draft.listing) : SetsFrom n ys := by
  rintro ⟨a, i⟩ hi r hr
  obtain ⟨xs, zs, rfl⟩ := List.append_of_mem hi
  have hl := h.fine.linked
  rw [show (body ++ (xs ++ (a, i) :: zs)) ++ [(tail, Instr.done)] =
    (body ++ xs) ++ (a, i) :: (zs ++ [(tail, Instr.done)]) by simp] at hl
  obtain hfrom | ⟨nd, hnd, -⟩ := hsince a _ hl.node?_eq
  · exact hfrom r hr
  · have hmem : a ∈ ids body ∨ a = tail := by
      simpa [ids_append] using hf.linked.complete hnd
    have hnodup := hl.nodup
    simp only [ids_append, ids_cons, List.nodup_append, List.nodup_cons, List.mem_append, List.mem_cons] at hnodup
    obtain hmem | rfl := hmem
    · exact absurd rfl (hnodup.2.2 a (.inl hmem) a (.inl rfl))
    · exact absurd (.inr (.inl rfl)) hnodup.2.1.1

/-- **Code for an expression sets only registers that have been made for it.** -/
theorem Coded.setsFrom (h : Coded σ sub e s body x s' ys P') (hf : Fine σ s body P)
    (hsub : ∀ n, SubSpares n sub) : SetsFrom s.regs.size ys := by
  refine h.drawn.setsFrom hf ?_
  cases h.codes with
  | expr tail hrun => exact (((hsub _).expr e tail).of_run le_rfl hrun).1.2
  | value hrun => exact (((hsub _).value e).of_run le_rfl hrun).1.2
  | tail hrun => exact (((hsub _).tail e).of_run le_rfl hrun).1.2

/-! ## Arms that run -/

/-- **An arm runs.** Control gets to it along places in `A`, and the fields `ls` are read on the way. Then the
frame stays in the arm until it gets to its end, if there is one; from there control gets to the end of the
match, and the value of the arm, live as it is, to the register of the match. -/
def Side.Plays (k : Side) (S : Stage) (A : Nat → Prop) (ys after : Code) (out : Option Reg) (n : Nat)
    (m : Memory) (ls : List (Value × Nat)) (Q : Memory → Prop) : Prop :=
  ∃ m', S.Goes A (ys ++ after) m ls (k.code ++ (k.after ++ after)) m' ∧ m.Grows n m' ∧ Q m' ∧
    ∀ t, Running.Through S.program S.limit (Stage.In (S.place (k.code ++ (k.after ++ after))) k.code)
        (S.spot (k.code ++ (k.after ++ after)) m') t →
      t.callers = S.start.callers ∧ t.cur.unit = S.start.cur.unit ∧
      (Stage.In (S.place (k.code ++ (k.after ++ after))) k.code t.cur.pc ∨
        ∃ r ∈ k.value, t.cur.pc = S.place (k.after ++ after) ∧ ∀ u, t.cur.read r = .ok u →
          t.machine.heap.Live u → ∃ q ∈ out, ∃ ss t', Running.Route S.program S.limit t ss t' ∧
            t'.callers = S.start.callers ∧ t'.cur.unit = S.start.cur.unit ∧ t'.cur.pc = S.place after ∧
            t'.cur.read q = .ok u ∧ ss.filterMap (Running.load? S.program) = [] ∧ ∀ s ∈ ss, A s.cur.pc)

theorem Side.Reached.plays {k : Side} {S : Stage} {A : Nat → Prop} {before after : Code} {m : Memory}
    {ls : List (Value × Nat)} {Q : Memory → Prop} {rs : List Reg} (h : k.Reached S A ys after out n m ls Q)
    (hk : k.Holds σ sub e rs s ys) (hsub : ∀ n, SubSpares n sub) (hcode : S.code = before ++ (ys ++ after)) :
    k.Plays S A ys after out n m ls Q := by
  obtain ⟨m', hgo, hg, hjoin, hQ⟩ := h
  obtain ⟨xs, P, P', hf, hc⟩ := hk.coded
  have hcode' : S.code = (before ++ k.before) ++ (k.code ++ (k.after ++ after)) := by
    rw [hcode, hk.split]
    simp
  refine ⟨m', hgo, hg, hQ, fun t ht => ?_⟩
  have hpass := Stage.through hcode' hc.inner (hc.setsFrom hf hsub) ht
  refine ⟨hpass.callers, hpass.unit, ?_⟩
  obtain hin | ⟨hleft, hpc⟩ := hpass.place
  · exact .inl hin
  · obtain ⟨r, hr⟩ : ∃ r, k.value = some r := Option.ne_none_iff_exists'.mp fun hx => hleft (hc.ends hx)
    refine .inr ⟨r, hr, hpc, fun u hu hlive => ?_⟩
    have hreg : (⟨t.machine.heap, t.cur.regs⟩ : Memory).reg? r = some u := by
      rw [Frame.read] at hu
      rw [Memory.reg?]
      split at hu
      · next w hw => exact hw.trans (congrArg some (Except.ok.inj hu))
      · cases hu
    obtain ⟨q, hq, m₂, ⟨ss, hroute, hloads, hA⟩, hval⟩ := hjoin (S.on t hpass.unit) rfl rfl r hr
      ⟨t.machine.heap, t.cur.regs⟩ u hpass.size hpass.regs hreg hlive
    rw [Stage.spot_on hpass.unit hpc] at hroute
    exact ⟨q, hq, ss, _, hroute, hpass.callers, hpass.unit, rfl, Stage.read_eq hval, hloads, hA⟩

/-! ## All matches -/

/-- **A machine where the code for a match begins**, with a value in the register that is of the types that are
known of it. -/
structure Cued (σ : Site) (s s' : GenState) (v : Reg) (ys : Code) (S : Stage) (before after : Code) (m : Memory)
    (w : Value) : Prop where
  types : S.program.types = σ.types
  code : S.code = before ++ (ys ++ after)
  poised : Poised σ.types s'.regs.size v m w
  knows : s.Knows v m.heap (.value w)

/-- **The code for a match selects an arm.** The first arm runs just if the value matches, and its variables
are bound to registers with the parts that the pattern binds, in depth-first order; else the second arm runs,
or a guard fails where there is none. The other arm is not passed. The fields that are read are those that the
pattern asks for, of values of the types that it names. -/
structure Selects (σ : Site) (sub : Sub) (v : Reg) (p : Pattern) (yes : Expr) (no : Option Expr) (s : GenState)
    (ys : Code) (s' : GenState) (out : Option Reg) (k k' : Option Side) (rs : List Reg) : Prop where
  first : ∀ j ∈ k, j.Holds σ sub yes rs s ys
  second : ∀ j ∈ k', ∃ e ∈ no, j.Holds σ sub e [] s ys
  reads : ∀ (h : Heap) (w : Value), ∀ r ∈ p.reads h (.value w), h.typeOf r.object = some (.obj r.type)
  fits : ∀ {S : Stage} {before after : Code} {m : Memory} {w : Value}, Cued σ s s' v ys S before after m w →
    p.fits m.heap (.value w) = true → ∃ j ∈ k,
      j.Plays S (Between before.length ys k k') ys after out s.regs.size m (p.trial m.heap (.value w)).loads
        fun m' => List.Forall₂ m'.Holds rs (p.bound m.heap (.value w))
  misses : ∀ {S : Stage} {before after : Code} {m : Memory} {w : Value}, Cued σ s s' v ys S before after m w →
    p.fits m.heap (.value w) = false →
      (no = none ∧ S.Fails (Between before.length ys k k') (ys ++ after) m (p.trial m.heap (.value w)).loads) ∨
      no.isSome ∧ ∃ j ∈ k', j.Plays S (Between before.length ys k k') ys after out s.regs.size m
        (p.trial m.heap (.value w)).loads fun _ => True

theorem Decides.selects {k k' : Option Side} {rs : List Reg}
    (h : Decides σ sub v p yes no s ys s' out k k' rs) (hsub : ∀ n, SubSpares n sub) :
    Selects σ sub v p yes no s ys s' out k k' rs where
  first := h.first
  second := h.second
  reads _ _ := Pattern.typeOf_of_reads p _
  fits hc hfits := by
    obtain ⟨j, hj, hreached⟩ := h.fits hc.types hc.code hc.poised hc.knows hfits
    exact ⟨j, hj, hreached.plays (h.first j hj) hsub hc.code⟩
  misses hc hmiss := by
    obtain hfails | ⟨j, hj, hreached⟩ := h.misses hc.types hc.code hc.poised hc.knows hmiss
    · exact .inl hfails
    · obtain ⟨e, he, hholds⟩ := h.second j hj
      exact .inr ⟨by rw [Option.mem_def.mp he]; rfl, j, hj, hreached.plays hholds hsub hc.code⟩

/-- Code for a match: the value first. -/
theorem Fine.genMatch_decides (h : Fine σ s body P) (hctx : ctx.types = σ.types) (p : Pattern)
    (he : Serves σ sub sub' e) (hyes : Serves σ sub sub' yes) (hno : ∀ e ∈ no, Serves σ sub sub' e)
    (tail : Bool) : Runs (Gen.genMatch ctx sub p e yes no tail) (Gen.genMatch ctx sub p e yes no tail) s
      fun out s' => ∃ v s₁ xs P₁, (sub.value e).run s = .ok (v, s₁) ∧ Drawn σ s body s₁ xs P₁ ∧ v ∈ P₁.regs ∧
        Decided σ sub v p yes no s₁ (body ++ xs) out s' := by
  refine Runs.bind (he.codesValue h).self fun v s₁ hd => ?_
  obtain ⟨hrun, xs, P₁, hc⟩ := hd
  have hv : v ∈ P₁.regs := hc.mem v rfl
  refine Runs.mono (Q := Decided σ sub v p yes no s₁ (body ++ xs)) ?_ fun out s' hd =>
    ⟨v, s₁, xs, P₁, hrun, hc.drawn, hv, hd⟩
  cases no with
  | none => exact hc.drawn.fine.genFitting_decides hctx hv p hyes tail (.inl rfl)
  | some no => exact hc.drawn.fine.genAlternatives_decides hctx hv p hyes (hno no rfl) tail

/-- **Pattern matching is lowered faithfully.** Whatever is known of the value, however deep the pattern is and
wherever the match stands, the code that is generated for it selects the arm that the pattern asks for. -/
theorem genMatch_selects (h : Fine σ s body P) (hctx : ctx = σ.ctx) {fuel : Nat} {tail : Bool}
    (hsize : (Expr.matchWith p e yes no).size ≤ σ.size)
    (hfuel : depthBound ctx.settings.inlineLevels σ.size σ.depth (Expr.matchWith p e yes no).size ≤ fuel + 1)
    (hrun : (genExpr ctx (fuel + 1) (.matchWith p e yes no) tail).run s = .ok (out, s')) :
    ∃ v s₁ xs P₁, ((Sub.of (genExpr ctx fuel)).value e).run s = .ok (v, s₁) ∧ Drawn σ s body s₁ xs P₁ ∧
      v ∈ P₁.regs ∧ ∃ ys P' k k' rs, Drawn σ s₁ (body ++ xs) s' ys P' ∧
        Selects σ (.of (genExpr ctx fuel)) v p yes no s₁ ys s' out k k' rs := by
  subst hctx
  have hserves : ∀ e' : Expr, e'.size < (Expr.matchWith p e yes no).size →
      Serves σ (.of (genExpr σ.ctx fuel)) (.of (genExpr (σ.ctx.checking true) fuel)) e' := fun e' he' =>
    serves_of fun tail hf => genExpr_emits true fuel tail hf (he'.le.trans hsize)
      (Nat.le_of_lt_succ ((depthBound_part he').trans_le hfuel))
  rw [Expr.size] at hserves
  have hno : ∀ e' ∈ no, e'.size ≤ Expr.sizeOption no := fun _ => Expr.size_le_sizeOption
  have hdecided := h.genMatch_decides rfl p (hserves e (by omega)) (hserves yes (by omega))
    (fun e' he' => hserves e' (by have := hno e' he'; omega)) tail
  have hends := hdecided.ends
  rw [show genExpr σ.ctx (fuel + 1) (.matchWith p e yes no) tail =
    Gen.genMatch σ.ctx (.of (genExpr σ.ctx fuel)) p e yes no tail from rfl] at hrun
  rw [hrun] at hends
  obtain ⟨v, s₁, xs, P₁, hvalue, hd, hv, ys, P', k, k', rs, hd', hdecides⟩ := hends
  exact ⟨v, s₁, xs, P₁, hvalue, hd, hv, ys, P', k, k', rs, hd',
    hdecides.selects fun n => subSpares_of (genExpr_spares σ.ctx fuel)⟩

/-- A match of a variable with a pattern for pairs: the second part of a pair, or else the value. -/
def secondOrSelf : Expr :=
  .matchWith (.unpack .cons [(1, .bind)]) (.var 0 false) (.var 0 false) (some (.var 0 false))

/-- A state in which one parameter has been loaded. -/
def oneParam : GenState where
  draft := {
    listing := ⟨#[some ⟨.nop, none, some ⟨2⟩⟩, some ⟨.done, some ⟨2⟩, none⟩,
      some ⟨.param ⟨0⟩ 0, some ⟨0⟩, some ⟨1⟩⟩], [], ⟨1⟩, #[⟨.param, none⟩]⟩
    stack := [⟨⟨0⟩, false⟩] }

theorem fine_oneParam (n : Nat) : ∃ body P, Fine ⟨n, 0, ⟨{}, #[]⟩, []⟩ oneParam body P := by
  have hempty : Fine ⟨n, 0, ⟨{}, #[]⟩, []⟩ {} [(head, .nop)] .first :=
    fine_of_draft_empty rfl rfl fun hk => by simp at hk
  have hends := (hempty.loadParams 0 1).ends
  have hrun : (loadParams 0 1).run {} = .ok ((), oneParam) := by with_unfolding_all rfl
  rw [hrun] at hends
  obtain ⟨t, P, hd, -⟩ := hends
  exact ⟨_, P, hd.fine⟩

/-- The code is generated, and it ends the unit. -/
def endsUnit (x : Except Failure (Option Reg × GenState)) : Bool :=
  match x with
  | .ok (none, _) => true
  | _ => false

theorem exists_of_endsUnit {x : Except Failure (Option Reg × GenState)} (h : endsUnit x = true) :
    ∃ s', x = .ok (none, s') := by
  rcases x with f | ⟨_ | r, s'⟩
  · cases h
  · exact ⟨s', rfl⟩
  · cases h

theorem secondOrSelf_run : ∃ s',
    (genExpr ⟨{}, #[]⟩ (199 + 1) secondOrSelf true).run oneParam = .ok (none, s') := by
  have hvalue : ((Sub.of (genExpr ⟨{}, #[]⟩ 199)).value (.var 0 false)).run oneParam =
      pure (⟨0⟩, oneParam) := by with_unfolding_all rfl
  have hnarrowed : oneParam.draft.narrowed[(⟨0⟩ : Reg)]? = none := Std.HashMap.getElem?_empty
  have htype : (knownType ⟨0⟩).run oneParam = pure (none, oneParam) := by
    simp only [knownType, draft, StateT.run_bind, StateT.run_get, StateT.run_pure, pure_bind, hnarrowed]
    rfl
  have hcode : genExpr ⟨{}, #[]⟩ (199 + 1) secondOrSelf true = genMatch ⟨{}, #[]⟩ (.of (genExpr ⟨{}, #[]⟩ 199))
      (.unpack .cons [(1, .bind)]) (.var 0 false) (.var 0 false) (some (.var 0 false)) true := rfl
  rw [hcode, genMatch]
  simp only [genAlternatives]
  rw [StateT.run_bind, hvalue, pure_bind, StateT.run_bind, htype, pure_bind]
  refine exists_of_endsUnit ?_
  decide +kernel

/-- A heap with one pair. -/
def onePair : Heap := { slots := #[some ⟨1, .cons .nil (.bool true)⟩] }

theorem proper_onePair : onePair.Proper #[] where
  arena := ⟨List.nodup_nil, by simp [onePair]⟩
  closed {r c} hc v hv := by
    obtain ⟨_ | k⟩ := r
    · obtain rfl := Option.some.inj hc
      rintro q rfl
      simp [Object.owned] at hv
    · simp [Heap.slot?, onePair] at hc
  widths {r n ty fields} hc := by
    obtain ⟨_ | k⟩ := r
    · simp [Heap.slot?, onePair] at hc
    · simp [Heap.slot?, onePair] at hc

/-- A machine that is about to run the code in its only unit. -/
def staged (code : Code) (h : (ids code).Nodup) : Stage where
  program := ⟨#[⟨"main", 1, 0, 0, layout code⟩], #[], #[], ⟨0⟩⟩
  limit := 10
  code := code
  start := ⟨⟨onePair, #[], [], {}⟩, #[], ⟨⟨0⟩, 0, #[], [], none, none, []⟩⟩
  nodup := h
  hosts := ⟨_, rfl, rfl⟩

/-- On a pair the first arm runs. -/
theorem genMatch_selects_secondOrSelf : ∃ body P s',
    Fine ⟨secondOrSelf.size, 0, ⟨{}, #[]⟩, []⟩ oneParam body P ∧
    (genExpr ⟨{}, #[]⟩ (199 + 1) secondOrSelf true).run oneParam = .ok (none, s') ∧
    ∃ v s₁ ys k k' rs, Selects ⟨secondOrSelf.size, 0, ⟨{}, #[]⟩, []⟩ (.of (genExpr ⟨{}, #[]⟩ 199)) v
        (.unpack .cons [(1, .bind)]) (.var 0 false) (some (.var 0 false)) s₁ ys s' none k k' rs ∧
      ∃ S before after m, Cued ⟨secondOrSelf.size, 0, ⟨{}, #[]⟩, []⟩ s₁ s' v ys S before after m (.obj ⟨0⟩) ∧
        (Pattern.unpack .cons [(1, .bind)]).fits m.heap (.value (.obj ⟨0⟩)) = true := by
  obtain ⟨body, P, hf⟩ := fine_oneParam secondOrSelf.size
  obtain ⟨s', hrun⟩ := secondOrSelf_run
  obtain ⟨v, s₁, xs, P₁, hvalue, hd, hv, ys, P', k, k', rs, hd', hselects⟩ :=
    genMatch_selects hf rfl (by decide) (by decide) hrun
  have hvalue' : ((Sub.of (genExpr ⟨{}, #[]⟩ 199)).value (.var 0 false)).run oneParam = .ok (⟨0⟩, oneParam) := by
    with_unfolding_all rfl
  cases hvalue'.symm.trans hvalue
  refine ⟨body, P, s', hf, hrun, _, _, ys, k, k', rs, hselects, ?_⟩
  have hnodup := hd'.fine.linked.nodup
  have hfits : (Pattern.unpack .cons [(1, .bind)]).fits onePair (.value (.obj ⟨0⟩)) = true := by decide
  refine ⟨staged _ hnodup, body ++ xs, [(tail, Instr.done)], ⟨onePair, Array.replicate (s'.regs.size + 1) (.obj ⟨0⟩)⟩,
    ⟨rfl, by simp [staged], ⟨proper_onePair, by simp, ?_, by simp [Memory.reg?]⟩, ?_⟩, hfits⟩
  · rintro _ ⟨⟩
    exact ⟨_, rfl⟩
  · intro t ht
    have hnarrowed : oneParam.draft.narrowed[(⟨0⟩ : Reg)]? = none := Std.HashMap.getElem?_empty
    rw [GenState.typeOf?, hnarrowed] at ht
    cases ht

end Gen

end CountedMachine
