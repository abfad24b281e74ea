import CountedMachine.Proofs.Generation.Asking

/-! # The recursion of code generation

Code generation is a derivation: a node asks for finitely many expressions, for each of them there is a
derivation, and the answers decide the outcome (`Generates`). A derivation says what code generation
comes to under any bound on the recursion that is not smaller than its number of steps
(`Generates.run_eq`).

Every request of a module has a derivation (`exists_generates`), whatever is inlined. Where a body takes
the place of a call the expression may get larger, but there are only so many levels of that; and where a
unit begins and the levels are counted anew, its body is smaller, and all that can be inlined there is
nested in it (`Confined`). So the steps are bounded by the size of the module and the number of levels,
and with that bound on the recursion every module gets an answer. -/

namespace CountedMachine

namespace Gen

variable {ctx : Context} {q r : Request} {out out' : Except Failure (Option Reg × GenState)} {n n' : Nat}

/-- **Code generation in so many steps.** For a node code is asked for finitely many expressions, and in
states that fit. Whatever answers these requests as the derivations say, and however it answers others,
code for the node comes to the outcome. -/
inductive Generates (ctx : Context) : Request → Except Failure (Option Reg × GenState) → Nat → Prop
  | node {q : Request} {rs : List Request} {out : Except Failure (Option Reg × GenState)}
      {answer : Request → Except Failure (Option Reg × GenState)} {steps : Request → Nat} :
      (∀ r ∈ rs, Enters ctx.settings.inlineLevels q r ∧ r.place.Fits r.state) →
      (∀ r ∈ rs, Generates ctx r (answer r) (steps r)) →
      (∀ f : Oracle, (∀ r ∈ rs, (f r.expr r.tail).run r.state = answer r) →
        (genNode ctx (.of f) q.expr q.tail).run q.state = out) →
      Generates ctx q out ((rs.map steps).sum + 1)

/-- **So many steps suffice** as a bound on the recursion. -/
theorem Generates.run_eq (h : Generates ctx q out n) : ∀ {fuel : Nat}, n ≤ fuel →
    (genExpr ctx fuel q.expr q.tail).run q.state = out := by
  induction h with
  | @node q rs out answer steps _ _ hout ih =>
    intro fuel hfuel
    obtain ⟨fuel, rfl⟩ : ∃ k, fuel = k + 1 := ⟨fuel - 1, by omega⟩
    refine hout _ fun r hr => ih r hr ?_
    have hle : steps r ≤ (rs.map steps).sum := List.single_le_sum (by simp) _ (List.mem_map_of_mem hr)
    omega

/-- The outcome is determined. -/
theorem Generates.unique (h : Generates ctx q out n) (h' : Generates ctx q out' n') : out = out' :=
  (h.run_eq (Nat.le_max_left n n')).symm.trans (h'.run_eq (Nat.le_max_right n n'))

/-! ## Where requests lead -/

/-- **A request within an expression**: bodies stand in place of calls at most so many levels deep, the
unit is nested in the expression, and what is asked for is nested in the unit. -/
structure Confined (levels : Nat) (e : Expr) (r : Request) : Prop where
  depth : r.place.depth ≤ levels
  unit : e.Contains r.place.unit
  expr : r.place.unit.Contains r.expr

theorem Confined.enters {levels : Nat} {e : Expr} (h : Confined levels e q) (hr : Enters levels q r) :
    Confined levels e r := by
  cases hr with
  | part he => exact ⟨h.depth, h.unit, h.expr.part he⟩
  | inlined _ _ hin hd => exact ⟨hd, h.unit, hin.body (.head _)⟩
  | unit hlambda => exact ⟨Nat.zero_le _, (h.unit.trans h.expr).body hlambda, .self⟩

/-- The depth of the recursion goes down. -/
theorem depthBound_enters {levels : Nat} (hq : q.place.unit.Contains q.expr) (hr : Enters levels q r) :
    depthBound levels r.place.unit.size r.place.depth r.expr.size <
      depthBound levels q.place.unit.size q.place.depth q.expr.size := by
  cases hr with
  | part he => exact depthBound_part (Expr.size_lt_of_part he)
  | @inlined _ _ _ _ lambda _ _ _ _ hin hd =>
    have hle := hin.size_le
    have hlt : lambda.body.size < q.place.unit.size := by
      rw [Expr.size_fn] at hle
      omega
    exact depthBound_inlined hd hlt
  | unit hlambda => exact depthBound_unit ((Expr.size_lt_of_literal hlambda).trans_le hq.size_le)

/-! ## Every request has a derivation -/

theorem reliable_genExpr (ctx : Context) : ∀ fuel : Nat, Reliable (genExpr ctx fuel)
  | 0, _, _, _, _, _, e => nomatch e
  | fuel + 1, r, hs, hin, a, s', e => by
    obtain ⟨_, -, hasks⟩ := asks_genNode (reliable_genExpr ctx fuel) hin (rfl : ctx.settings.inlineLevels = _)
      r.tail
    exact (hasks r.state hs).ends a s' e

/-- **Every request has a derivation**, in no more steps than its bound. -/
theorem exists_generates (ctx : Context) : ∀ (fuel : Nat) (q : Request), q.place.Fits q.state →
    q.place.unit.Contains q.expr →
    depthBound ctx.settings.inlineLevels q.place.unit.size q.place.depth q.expr.size ≤ fuel →
    ∃ n ≤ q.bound ctx.settings.inlineLevels,
      Generates ctx q ((genExpr ctx fuel q.expr q.tail).run q.state) n
  | 0, q, _, _, hfuel => by
    have := q.expr.size_pos
    unfold depthBound at hfuel
    omega
  | fuel + 1, q, hs, hin, hfuel => by
    obtain ⟨bound, hbound, hasks⟩ := asks_genNode (reliable_genExpr ctx fuel) hin
      (rfl : ctx.settings.inlineLevels = _) q.tail
    obtain ⟨⟨rs, hrs, hsum, hsame⟩, -⟩ := hasks q.state hs
    have hderived : ∀ r : Request, ∃ n, r ∈ rs → n ≤ r.bound ctx.settings.inlineLevels ∧
        Generates ctx r ((genExpr ctx fuel r.expr r.tail).run r.state) n := by
      intro r
      by_cases hr : r ∈ rs
      · obtain ⟨henters, hfits, hcontains⟩ := hrs r hr
        have hlt := depthBound_enters hin henters
        obtain ⟨n, hn, hgen⟩ := exists_generates ctx fuel r hfits hcontains (by omega)
        exact ⟨n, fun _ => ⟨hn, hgen⟩⟩
      · exact ⟨0, fun h => absurd h hr⟩
    choose steps hsteps using hderived
    refine ⟨(rs.map steps).sum + 1, ?_, .node (fun r hr => ⟨(hrs r hr).1, (hrs r hr).2.1⟩)
      (fun r hr => (hsteps r hr).2) fun f hf => hsame f hf⟩
    have hle : (rs.map steps).sum ≤ (rs.map (·.bound ctx.settings.inlineLevels)).sum :=
      List.sum_le_sum fun r hr => (hsteps r hr).1
    omega

/-! ## Modules -/

/-- The request that a module comes down to: code for its body, as the tail of the entry unit. -/
def entryRequest (m : SourceModule) : Request where
  place := ⟨m.body, 0⟩
  expr := m.body
  tail := true
  state := { units := #[⟨"main", 0, 0, 0, #[]⟩] }

theorem entryRequest_fits (m : SourceModule) : (entryRequest m).place.Fits (entryRequest m).state :=
  ⟨rfl, fun hk => by simp [entryRequest] at hk⟩

/-- The request of a module has a derivation, and `nestingBound` is deep enough for it. -/
theorem exists_generates_entry (m : SourceModule) (ctx : Context) {fuel : Nat}
    (hfuel : nestingBound ctx.settings m.body ≤ fuel) :
    ∃ n ≤ (entryRequest m).bound ctx.settings.inlineLevels, Generates ctx (entryRequest m)
      ((genExpr ctx fuel m.body true).run (entryRequest m).state) n := by
  have hlt := depthBound_whole ctx.settings.inlineLevels m.body.size
  have hdepth : depthBound ctx.settings.inlineLevels m.body.size 0 m.body.size ≤ fuel := by
    unfold nestingBound at hfuel
    omega
  exact exists_generates ctx fuel (entryRequest m) (entryRequest_fits m) .self hdepth

/-- The entry unit depends on the answer to this request alone. -/
theorem buildUnit_entry {m : SourceModule} {f g : Oracle}
    (h : (f m.body true).run (entryRequest m).state = (g m.body true).run (entryRequest m).state) :
    (buildUnit ctx (.of f) "main" 0 [] m.body).run {} = (buildUnit ctx (.of g) "main" 0 [] m.body).run {} := by
  have hbegun : ∀ f : Oracle, (buildUnit ctx (.of f) "main" 0 [] m.body).run {} =
      ((Sub.of f).tail m.body >>= fun _ => do
        let s ← get
        let done ← faulting (finishListing ctx.settings s.pool "main" s.draft.listing)
        modify fun s => { s with
          units := s.units.setIfInBounds 0 ⟨"main", 0, 0, done.2, done.1⟩
          draft := {} }
        return (⟨0⟩ : UnitId)).run (entryRequest m).state := fun f => rfl
  have htail : ((Sub.of f).tail m.body).run (entryRequest m).state =
      ((Sub.of g).tail m.body).run (entryRequest m).state := by
    rw [Sub.of, Sub.of, StateT.run_bind, StateT.run_bind, h]
  rw [hbegun, hbegun, StateT.run_bind, StateT.run_bind, htail]

end Gen

namespace SourceModule

/-- A module compiled with a given bound on the recursion. -/
def compileWithin (m : SourceModule) (settings : Settings) (fuel : Nat) : Except Failure Program :=
  let ctx : Context := ⟨settings, m.types.toArray⟩
  match (Gen.buildUnit ctx (.of (Gen.genExpr ctx fuel)) "main" 0 [] m.body).run {} with
  | .ok (entry, s) => .ok ⟨s.units, s.pool, ctx.types, entry⟩
  | .error e => .error e

variable {m : SourceModule} {settings : Settings}

theorem compileWithin_eq {fuel fuel' : Nat} {out : Except Failure (Option Reg × GenState)}
    (h : (Gen.genExpr ⟨settings, m.types.toArray⟩ fuel m.body true).run (Gen.entryRequest m).state = out)
    (h' : (Gen.genExpr ⟨settings, m.types.toArray⟩ fuel' m.body true).run (Gen.entryRequest m).state = out) :
    m.compileWithin settings fuel = m.compileWithin settings fuel' := by
  unfold compileWithin
  dsimp only
  rw [Gen.buildUnit_entry (h.trans h'.symm)]

/-- **Code generation terminates, whatever is inlined.** The recursion for a module is finite, and the
number of its steps is bounded by the size of the module and the number of levels. In a unit, bodies
stand in place of calls no deeper than these levels; and all that is asked for there is nested in the
unit, so that units get smaller where the levels are counted anew. Any bound on the recursion that leaves
room for the steps, or for the levels in every unit, makes the same of the module, and that is a program or
a refusal. -/
theorem compile_within (m : SourceModule) (settings : Settings) :
    (∃ out n, Gen.Generates ⟨settings, m.types.toArray⟩ (Gen.entryRequest m) out n ∧
      n ≤ m.body.size * (m.body.size + 1) ^
        ((settings.inlineLevels + 1) * m.body.size + settings.inlineLevels) ∧
      ∀ fuel, n ≤ fuel ∨ Gen.nestingBound settings m.body ≤ fuel →
        m.compileWithin settings fuel = m.compile settings) ∧
    (∀ r, Relation.ReflTransGen (Gen.Enters settings.inlineLevels) (Gen.entryRequest m) r →
      Gen.Confined settings.inlineLevels m.body r) ∧
    ((∃ p, m.compile settings = .ok p) ∨ ∃ e, m.compile settings = .error (.refused e)) := by
  refine ⟨?_, fun r hr => ?_, compile_ends m settings⟩
  · obtain ⟨n, hn, hgen⟩ := Gen.exists_generates_entry m ⟨settings, m.types.toArray⟩ le_rfl
    refine ⟨_, n, hgen, hn, fun fuel hfuel => compileWithin_eq ?_ rfl⟩
    obtain hfuel | hfuel := hfuel
    · exact hgen.run_eq hfuel
    · obtain ⟨n', -, hgen'⟩ := Gen.exists_generates_entry m ⟨settings, m.types.toArray⟩ hfuel
      exact hgen'.unique hgen
  · have hstart : Gen.Confined settings.inlineLevels m.body (Gen.entryRequest m) :=
      ⟨Nat.zero_le _, .self, .self⟩
    induction hr with
    | refl => exact hstart
    | tail _ h ih => exact ih.enters h

end SourceModule

end CountedMachine
