import CountedMachine.Proofs.Generation.Tracking

/-! # Two runs over a module

When two settings give comparable contexts (`Comparable`), generating code with the one tracks generating
code with the other, expression by expression (`genExpr_tracks`). The parts of a node are its smaller
expressions, bodies that take the place of a call, and bodies of units, as in `genExpr_emits`. So a module is
refused for the same reason with both settings, or it is compiled with both, and then the units of the
two programs go together one by one (`SourceModule.compile_pairs`). -/

namespace CountedMachine

open Listing

namespace Gen

variable {N : Type} [Preorder N] {P : Pairing N} {α β : Type} {σ : Site} {w : Ties N} {sub sub' : Sub}
  {ctx ctx' : Context} {e : Expr} {s s' s₁ s₁' : GenState}

/-- **Code for an expression** is generated alike. -/
structure Parallel (P : Pairing N) (σ : Site) (sub sub' : Sub) (e : Expr) :
    Prop where
  expr : ∀ {w} tail, Tracks P σ w (sub.expr e tail) (sub'.expr e tail) Same
  value : ∀ {w}, Tracks P σ w (sub.value e) (sub'.value e) Same
  tail : ∀ {w}, Tracks P σ w (sub.tail e) (sub'.tail e) Same

theorem parallel_of {g g' : Expr → Bool → Gen (Option Reg)}
    (h : ∀ {w} tail, Tracks P σ w (g e tail) (g' e tail) Same) : Parallel P σ (.of g) (.of g') e where
  expr := h
  value := by
    refine (h false).then fun out => ?_
    split
    · exact tracks_same _
    · exact tracks_throw _
  tail := by
    refine (h true).then fun out => ?_
    split
    · exact tracks_write rfl rfl
    · exact tracks_same _

theorem Parallel.mapM : ∀ {es : List Expr}, (∀ e ∈ es, Parallel P σ sub sub' e) →
    Tracks P σ w (es.mapM sub.value) (es.mapM sub'.value) Same
  | [], _ => by
    rw [List.mapM_nil, List.mapM_nil]
    exact tracks_same _
  | e :: es, h => by
    rw [List.mapM_cons, List.mapM_cons]
    exact (h e (by simp)).value.then fun _ => (Parallel.mapM fun e he => h e (by simp [he])).then fun _ =>
      tracks_same _

/-! ## Matching -/

theorem tracks_validatePattern (hctx : ctx'.types = ctx.types) (p : Pattern) :
    Tracks P σ w (validatePattern ctx p) (validatePattern ctx' p) Same := by
  unfold validatePattern
  rw [hctx]
  split
  · exact tracks_same _
  · exact tracks_throw _

theorem tracks_readField (src : Reg) (ty : ObjType) (idx : Nat) :
    Tracks P σ w (readField src ty idx) (readField src ty idx) Same :=
  tracks_create _ _ (fun _ => rfl) (fun _ => rfl) fun _ => tracks_same _

mutual

theorem tracks_bindWhole (hctx : ctx'.types = ctx.types) (v : Reg) : ∀ p : Pattern,
    Tracks P σ w (bindWhole ctx v p) (bindWhole ctx' v p) Same
  | .bind => tracks_bindReg _
  | .ignore => tracks_same _
  | .unpack ty fields => by
    rw [bindWhole, bindWhole]
    refine (tracks_validatePattern hctx _).then fun _ => (tracks_knownType v).then fun t => ?_
    split
    · exact (tracks_write rfl rfl).then fun _ => tracks_bindParts hctx v ty fields
    · exact tracks_bindParts hctx v ty fields

theorem tracks_bindParts (hctx : ctx'.types = ctx.types) (v : Reg) (ty : ObjType) :
    ∀ fields : List (Nat × Pattern),
    Tracks P σ w (bindParts ctx v ty fields) (bindParts ctx' v ty fields) Same
  | [] => tracks_same _
  | (offset, p) :: rest => by
    rw [bindParts, bindParts]
    split
    · exact (tracks_readField v ty offset).then fun f => (tracks_bindWhole hctx f p).then fun _ =>
        tracks_bindParts hctx v ty rest
    · exact tracks_bindParts hctx v ty rest

end

theorem tracks_openTest (v : Reg) (ty : ObjType) : Tracks P σ w (openTest v ty) (openTest v ty)
    (Opened P) :=
  tracks_create _ _ (fun _ => rfl) (fun _ => rfl) fun t => tracks_openBranch t

/-- Branches in both listings, one by one. -/
def Levels (P : Pairing N) (w : Ties N) (bs bs' : List Branch) : Prop :=
  List.Forall₂ (Opened P w) bs bs'

theorem Levels.mono {w₁ : Ties N} {bs bs' : List Branch} (h : Levels P w bs bs') (hw : w.Le w₁) :
    Levels P w₁ bs bs' := List.Forall₂.imp (fun _ _ hb => hb.mono hw) h

/-- The levels of a part, and those of the rest. -/
theorem Tracks.levels {x x' y y' : Gen (List Branch)} (hx : Tracks P σ w x x' (Levels P))
    (hy : ∀ {w₁}, w.Le w₁ → Tracks P σ w₁ y y' (Levels P)) :
    Tracks P σ w (x >>= fun bs => y >>= fun cs => pure (bs ++ cs))
      (x' >>= fun bs => y' >>= fun cs => pure (bs ++ cs)) (Levels P) :=
  hx.bind fun _ _ _ hw hb => (hy hw).bind fun _ _ _ hw₂ hc => tracks_pure fun hw₃ =>
    List.rel_append (hb.mono (hw₂.trans hw₃)) (hc.mono hw₃)

mutual

theorem tracks_descend (v : Reg) : ∀ {w : Ties N} (p : Pattern),
    Tracks P σ w (descend v p) (descend v p) (Levels P)
  | _, .bind => (tracks_bindReg v).then fun _ => tracks_pure fun _ => .nil
  | _, .ignore => tracks_pure fun _ => .nil
  | w, .unpack ty fields => by
    rw [descend]
    refine (tracks_knownType v).then fun t => ?_
    have hlevel : Tracks P σ w ((fun b => [b]) <$> openTest v ty) ((fun b => [b]) <$> openTest v ty)
        (Levels P) := by
      rw [map_eq_pure_bind]
      exact (tracks_openTest v ty).bind fun _ _ _ _ hb => tracks_pure fun hw => .cons (hb.mono hw) .nil
    split
    · exact hlevel.levels fun _ => tracks_descendParts v ty fields
    · exact Tracks.levels (tracks_pure fun _ => .nil) fun _ => tracks_descendParts v ty fields

theorem tracks_descendParts (v : Reg) (ty : ObjType) : ∀ {w : Ties N} (fields : List (Nat × Pattern)),
    Tracks P σ w (descendParts v ty fields) (descendParts v ty fields) (Levels P)
  | _, [] => tracks_pure fun _ => .nil
  | w, (offset, p) :: rest => by
    rw [descendParts]
    split
    · exact Tracks.levels (tracks_pure fun _ => .nil) fun _ => tracks_descendParts v ty rest
    · exact (tracks_readField v ty offset).then fun f => (tracks_descend f p).levels fun _ =>
        tracks_descendParts v ty rest

end

theorem tracks_ascend : ∀ {w : Ties N} {bs bs' : List Branch}, Levels P w bs bs' →
    Tracks P σ w (ascend bs) (ascend bs') Same
  | _, _, _, .nil => tracks_same _
  | _, _, _, .cons hb hbs => (tracks_closeBranch hb none).then fun _ => tracks_ascend hbs

theorem tracks_mergeReg (tail : Bool) : Tracks P σ w (mergeReg tail) (mergeReg tail) Same := by
  unfold mergeReg
  split
  · exact tracks_same _
  · exact (tracks_freshReg _ _).map _

theorem Parallel.genArm (h : Parallel P σ sub sub' e) (merged : Option Reg) (n : Nat) :
    Tracks P σ w (genArm sub e merged n) (genArm sub' e merged n) Same := by
  unfold Gen.genArm
  split
  · exact h.value.then fun _ => (tracks_write rfl rfl).then fun _ => (tracks_forgetAbove n).then fun _ =>
      tracks_same _
  · exact h.tail.then fun _ => (tracks_forgetAbove n).then fun _ => tracks_same _

theorem tracks_genArms {yes no : Expr} (hyes : Parallel P σ sub sub' yes) (hno : Parallel P σ sub sub' no)
    {b b' : Branch} (hb : Opened P w b b') (merged : Option Reg) (n : Nat) :
    Tracks P σ w (genArms sub b merged n yes no) (genArms sub' b' merged n yes no) Same := by
  refine (hyes.genArm merged n).bind fun x x' w₁ hw hx => ?_
  obtain rfl : x' = x := hx
  refine (tracks_beginElse (hb.mono hw)).bind fun c c' w₂ _ hc => ?_
  refine (hno.genArm merged n).bind fun y y' w₃ hw₃ hy => ?_
  obtain rfl : y' = y := hy
  refine (tracks_meet (hc.mono hw₃) merged).then fun _ => ?_
  split
  · exact (tracks_agree _ _ _).then fun _ => tracks_same _
  · exact tracks_same _

theorem Parallel.genFitting (h : Parallel P σ sub sub' e) (hctx : ctx'.types = ctx.types) (v : Reg) (p : Pattern)
    (tail : Bool) :
    Tracks P σ w (genFitting ctx sub v p e tail) (genFitting ctx' sub' v p e tail) Same :=
  tracks_height.then fun n => (tracks_bindWhole hctx v p).then fun _ => (h.expr tail).then fun _ =>
    (tracks_forgetAbove n).then fun _ => tracks_same _

theorem tracks_genOneLevel (hctx : ctx'.types = ctx.types) {yes no : Expr} (hyes : Parallel P σ sub sub' yes)
    (hno : Parallel P σ sub sub' no) (v : Reg) (p : Pattern) (tail : Bool) :
    Tracks P σ w (genOneLevel ctx sub v p yes no tail) (genOneLevel ctx' sub' v p yes no tail)
      Same := by
  unfold genOneLevel
  split
  · refine (tracks_validatePattern hctx _).then fun _ => tracks_height.then fun n =>
      (tracks_openTest _ _).bind fun _ _ _ _ hb => (tracks_mergeReg tail).bind fun m m' w₁ hw hm => ?_
    obtain rfl : m' = m := hm
    refine (tracks_bindParts hctx _ _ _).bind fun _ _ w₂ hw₂ _ => ?_
    exact tracks_genArms hyes hno (hb.mono (hw.trans hw₂)) _ n
  · exact tracks_throw _

theorem tracks_genLevelsTail {yes no : Expr} (hyes : Parallel P σ sub sub' yes)
    (hno : Parallel P σ sub sub' no) (v : Reg) (p : Pattern) :
    Tracks P σ w (genLevelsTail sub v p yes no) (genLevelsTail sub' v p yes no) Same :=
  tracks_height.then fun n => (tracks_descend v p).bind fun _ _ _ _ hb => hyes.tail.then fun _ =>
    (tracks_forgetAbove n).then fun _ => (tracks_ascend (List.rel_reverse hb)).then fun _ =>
      hno.tail.then fun _ => tracks_same _

theorem tracks_genLevelsValue {yes no : Expr} (hyes : Parallel P σ sub sub' yes)
    (hno : Parallel P σ sub sub' no) (v : Reg) (p : Pattern) :
    Tracks P σ w (genLevelsValue sub v p yes no) (genLevelsValue sub' v p yes no) Same := by
  have hmatched : ∀ unmatched merged n, Tracks P σ w (genMatched sub v p unmatched merged n yes)
      (genMatched sub' v p unmatched merged n yes) Same := fun unmatched merged n =>
    (tracks_descend v p).bind fun _ _ _ _ hb => (tracks_write rfl rfl).then fun _ =>
      hyes.value.then fun _ => (tracks_write rfl rfl).then fun _ => (tracks_forgetAbove n).then fun _ =>
        (tracks_ascend (List.rel_reverse hb)).then fun _ => tracks_same _
  have hunmatched : ∀ unmatched merged n, Tracks P σ w (genUnmatched sub unmatched merged n no)
      (genUnmatched sub' unmatched merged n no) Same := fun unmatched merged n =>
    (tracks_openBranch _).bind fun _ _ _ _ hb => hno.value.then fun _ => (tracks_write rfl rfl).then fun _ =>
      (tracks_forgetAbove n).then fun _ => (tracks_closeBranch hb _).then fun _ => tracks_same _
  exact tracks_height.then fun n => tracks_create _ _ (fun _ => rfl) (fun _ => rfl) fun _ =>
    (tracks_freshReg _ _).then fun _ => (hmatched _ _ n).then fun _ => (hunmatched _ _ n).then fun _ =>
      (tracks_agree _ _ _).then fun _ => tracks_same _

theorem tracks_genAlternatives (hctx : ctx'.types = ctx.types) {yes no : Expr} (hyes : Parallel P σ sub sub' yes)
    (hno : Parallel P σ sub sub' no) (v : Reg) (p : Pattern) (tail : Bool) :
    Tracks P σ w (genAlternatives ctx sub v p yes no tail)
      (genAlternatives ctx' sub' v p yes no tail) Same := by
  refine (tracks_knownType v).then fun t => ?_
  split
  · exact hyes.genFitting hctx v p tail
  · exact (tracks_validatePattern hctx _).then fun _ => hno.expr tail
  · split
    · exact tracks_genOneLevel hctx hyes hno v p tail
    · refine (tracks_validatePattern hctx _).then fun _ => ?_
      split
      · exact tracks_genLevelsTail hyes hno v p
      · exact tracks_genLevelsValue hyes hno v p

theorem tracks_genMatch (hctx : ctx'.types = ctx.types) {yes : Expr} {no : Option Expr} (he : Parallel P σ sub sub' e)
    (hyes : Parallel P σ sub sub' yes) (hno : ∀ e ∈ no, Parallel P σ sub sub' e) (p : Pattern) (tail : Bool) :
    Tracks P σ w (genMatch ctx sub p e yes no tail) (genMatch ctx' sub' p e yes no tail) Same := by
  refine he.value.then fun v => ?_
  split
  · exact hyes.genFitting hctx v p tail
  · exact tracks_genAlternatives hctx hyes (hno _ rfl) v p tail

/-! ## Units -/

theorem tracks_loadCaptures : ∀ (idx : Nat) (caps : List Bool),
    Tracks P σ w (loadCaptures idx caps) (loadCaptures idx caps) Same
  | _, [] => tracks_same _
  | idx, _ :: rest => tracks_create _ _ (fun _ => rfl) (fun _ => rfl) fun _ =>
      (tracks_pushVariable _).then fun _ => tracks_loadCaptures (idx + 1) rest

theorem tracks_loadParams : ∀ idx n : Nat, Tracks P σ w (loadParams idx n) (loadParams idx n) Same
  | _, 0 => tracks_same _
  | idx, n + 1 => tracks_create _ _ (fun _ => rfl) (fun _ => rfl) fun _ =>
      (tracks_bindReg _).then fun _ => tracks_loadParams (idx + 1) n

/-- **Contexts whose runs can be compared:** the same is declared and put in place of calls, errors are
returned alike, and listings that go together become units that do. -/
structure Comparable (P : Pairing N) (ctx ctx' : Context) : Prop where
  types : ctx'.types = ctx.types
  inlining : ctx'.settings.inlining = ctx.settings.inlining
  inlineSize : ctx'.settings.inlineSize = ctx.settings.inlineSize
  inlineLevels : ctx'.settings.inlineLevels = ctx.settings.inlineLevels
  returnErrors : ∀ {σ w} r loc, Tracks P σ w (returnErrors ctx r loc) (returnErrors ctx' r loc) Same
  finish : ∀ {n l l' ys pool name c c' k k'} (arity ncaps : Nat), P.listings n l l' →
    Ready l (unitCode ys) → l.cursor = tail → finishListing ctx.settings pool name l = .ok (c, k) →
    finishListing ctx'.settings pool name l' = .ok (c', k') →
    P.units pool ⟨name, arity, ncaps, k, c⟩ ⟨name, arity, ncaps, k', c'⟩

/-- The tied states in which the code of a unit is begun. -/
theorem Tied.starting (h : Tied P σ w s s') (name : String) (arity : Nat) (caps : List Bool) (n : Nat) :
    Tied P ⟨n, 0, σ.ctx, caps⟩ ⟨P.start, w.fit⟩ (Gen.starting s name arity caps)
      (Gen.starting s' name arity caps) where
  sited := by
    refine ⟨fun hr => ?_, rfl, h.sited.pool, fun hu p hp => h.sited.fits hu p (starting_within hp)⟩
    rw [show (Gen.starting s name arity caps).draft.known = ∅ from rfl] at hr
    simp at hr
  listing := P.empty
  size := by simp [Gen.starting, h.size]
  units {k u u'} hu hu' := by
    rw [Gen.starting, Array.getElem?_push] at hu hu'
    rw [h.size] at hu'
    split_ifs at hu hu'
    · obtain rfl := Option.some.inj hu
      obtain rfl := Option.some.inj hu'
      exact P.blank _ _ _ _
    · exact h.units hu hu'
  pool := h.pool
  functions := h.functions
  stack := rfl
  known := rfl
  narrowed := rfl
  inlined := rfl

/-- **The body of a unit** is generated alike, and without a fault. -/
structure ParallelUnit (P : Pairing N) (ctx : Context) (sub sub' : Sub) (e : Expr) : Prop where
  genuine : Genuine ctx sub
  alike : ∀ caps, Parallel P ⟨e.size, 0, ctx, caps⟩ sub sub' e
  serves : ∀ caps, Serves ⟨e.size, 0, ctx, caps⟩ sub sub e

/-- **Units are built alike**; one without captures works. -/
theorem tracks_buildUnit (hctx : Comparable P σ.ctx ctx') (h : ParallelUnit P σ.ctx sub sub' e)
    (name : String) (arity : Nat) (caps : List Bool) :
    Tracks P σ w (buildUnit σ.ctx sub name arity caps e) (buildUnit ctx' sub' name arity caps e)
      fun w u u' => u' = u ∧ (caps = [] → u ∈ w.fit) := by
  set τ : Site := ⟨e.size, 0, σ.ctx, caps⟩ with hτ
  refine ⟨fun {w₁ s s'} _ ht => ?_⟩
  have ht₀ : Tied P τ ⟨P.start, w₁.fit⟩ (starting s name arity caps) (starting s' name arity caps) :=
    ht.starting name arity caps _
  have hdraft : Tracks P τ ⟨P.start, w₁.fit⟩ (drafting sub arity caps e) (drafting sub' arity caps e)
      Same :=
    (tracks_loadCaptures 0 caps).then fun _ => (tracks_loadParams 0 arity).then fun _ => (h.alike caps).tail
  have hfollows := hdraft.follows (.refl _) ht₀
  -- what is known of the first run alone: the listing is ready, and the unit works
  have hdrafted : Ends _ ((drafting sub arity caps e).run (starting s name arity caps)) :=
    (Fine.drafting (fine_of_draft_empty rfl rfl fun hk p hp => ht₀.sited.fits (ht₀.sited.pool hk) p hp)
      (h.serves caps) arity).ends
  set s₀ : GenState := { s with draft := {} } with hs₀
  have hfine : Fine ⟨σ.size, 0, σ.ctx, []⟩ s₀ [(head, .nop)] .first :=
    fine_of_draft_empty rfl rfl fun hk p hp =>
      ht.sited.fits (ht.sited.pool hk) p ⟨hp.pool, hp.units⟩
  have hbuilt : Ends _ ((buildUnit σ.ctx sub name arity caps e).run s₀) :=
    (hfine.buildUnit h.genuine caps (h.serves caps) σ.ctx.settings.verify name arity).ends
  rw [buildUnit_run] at hbuilt
  rw [buildUnit_run, buildUnit_run]
  rw [show starting s₀ name arity caps = starting s name arity caps from rfl] at hbuilt
  generalize (drafting sub arity caps e).run (starting s name arity caps) = y,
    (drafting sub' arity caps e).run (starting s' name arity caps) = y' at hfollows hdrafted hbuilt
  cases hfollows with
  | refused e => exact .refused e
  | fault f y => exact .fault f _
  | fault' f y => exact .fault' f _
  | @ends w₂ _ _ s₁ s₁' hw₂ ht₁ _ =>
    obtain ⟨t, P₁, hd, hproper, -, -⟩ := hdrafted
    have hready : Ready s₁.draft.listing (unitCode t.code) := hd.writes.ready hproper.shaped hd.fine.linked
    dsimp only at hbuilt ⊢
    cases hout : finishListing σ.ctx.settings s₁.pool name s₁.draft.listing with
    | error f => exact .fault f _
    | ok out =>
      cases hout' : finishListing ctx'.settings s₁'.pool name s₁'.draft.listing with
      | error f => exact .fault' f _
      | ok out' =>
        obtain ⟨c, n⟩ := out
        obtain ⟨c', n'⟩ := out'
        rw [ht₁.pool] at hout'
        have hunits := hctx.finish arity caps.length ht₁.listing hready hd.fine.cursor hout hout'
        rw [hout] at hbuilt
        obtain ⟨hdrawn, -, hunit⟩ := hbuilt
        set u : CodeUnit := ⟨name, arity, caps.length, n, c⟩ with hu
        set u' : CodeUnit := ⟨name, arity, caps.length, n', c'⟩ with hu'
        have hwithin : ∀ {p : Program}, (ending s s₁ u).Within p → (ending s₀ s₁ u).Within p :=
          fun hp => ⟨hp.pool, hp.units⟩
        set w₃ : Ties N := ⟨w₁.names, {v | ∀ p : Program, (ending s s₁ u).Within p →
          p.types = σ.types → UnitOk σ.ctx.settings p v []}⟩ with hw₃
        have hw : w₁.Le w₃ := ⟨le_rfl, fun v hv p hp htypes =>
          ht.sited.fits hv p ⟨fun hk => hp.pool (hdrawn.later.pool hk), fun hk =>
            hp.units (hdrawn.later.units hk)⟩ htypes⟩
        have ht₃ : Tied P σ w₃ (ending s s₁ u) (ending s' s₁' u') := by
          refine ⟨⟨fun hr => ?_, ht.sited.inlined, fun hk p hp htypes =>
            hdrawn.fine.plain hk p (hwithin hp) htypes, fun hv p hp => hv p hp⟩, ht.listing, ?_,
            fun {k v v'} hv hv' => ?_, ht₁.pool, ht₁.functions, ht.stack, ht.known, ht.narrowed,
            ht.inlined⟩
          · obtain ⟨g, hg, hsize⟩ := ht.sited.known hr
            exact ⟨g, hdrawn.later.functions hg, hsize⟩
          · simp [ending, ht₁.size]
          · rw [ending, Array.getElem?_setIfInBounds] at hv hv'
            rw [ht.size, ht₁.size] at hv'
            split_ifs at hv hv'
            · obtain rfl := Option.some.inj hv
              obtain rfl := Option.some.inj hv'
              exact hunits
            · exact ht₁.units hv hv'
        have hfit : caps = [] → (⟨s.units.size⟩ : UnitId) ∈ w₃.fit := fun hcaps p hp htypes =>
          hcaps ▸ hunit.ok p (hwithin hp) htypes
        exact .ends hw ht₃ ⟨by rw [ht.size], hfit⟩

/-! ## Closures -/

theorem tracks_unitName (lambda : Lambda Expr) :
    Tracks P σ w (unitName lambda) (unitName lambda) Same := by
  unfold unitName
  split
  · exact tracks_same _
  · exact tracks_look fun ht => by rw [ht.size]

theorem tracks_variables : ∀ offsets : List Nat,
    Tracks P σ w (offsets.mapM variableAt) (offsets.mapM variableAt) Same
  | [] => by
    rw [List.mapM_nil]
    exact tracks_same _
  | n :: offsets => by
    rw [List.mapM_cons]
    exact (tracks_variableAt n).then fun _ => (tracks_variables offsets).then fun _ => tracks_same _

theorem tracks_buildClosure (hctx : Comparable P σ.ctx ctx') {lambda : Lambda Expr}
    (h : ParallelUnit P σ.ctx sub sub' lambda.body) :
    Tracks P σ w (buildClosure σ.ctx sub lambda) (buildClosure ctx' sub' lambda) Same :=
  (tracks_variables _).then fun caps => (tracks_unitName lambda).then fun name =>
    (tracks_buildUnit hctx h name lambda.arity _).bind fun u u' _ _ hu =>
      tracks_pure fun _ => by rw [hu.1]; rfl

theorem tracks_noteFunction (r : Reg) {k : KnownFunction} (hk : k.body.size < σ.size) :
    Tracks P σ w (noteFunction r k) (noteFunction r k) Same := by
  refine tracks_modify fun {w₁ s s'} _ ht => ⟨⟨fun {q j} hq => ?_, ht.sited.inlined, ht.sited.pool,
    fun hu p hp => ht.sited.fits hu p ⟨hp.pool, hp.units⟩⟩, ht.listing, ht.size, ht.units, ht.pool, ?_,
    ht.stack, ?_, ht.narrowed, ht.inlined⟩
  · have hq : (s.draft.known.insert r s.functions.size)[q]? = some j := hq
    rw [Std.HashMap.getElem?_insert] at hq
    split at hq
    · obtain rfl := Option.some.inj hq
      exact ⟨k, Array.getElem?_push_size, hk⟩
    · obtain ⟨f, hf, hsize⟩ := ht.sited.known hq
      exact ⟨f, getElem?_push_of_some hf, hsize⟩
  · exact congrArg (·.push k) ht.functions
  · show s'.draft.known.insert r s'.functions.size = s.draft.known.insert r s.functions.size
    rw [ht.known, ht.functions]

theorem tracks_genFn (hctx : Comparable P σ.ctx ctx') {lambda : Lambda Expr}
    (h : ParallelUnit P σ.ctx sub sub' lambda.body) (hsize : lambda.body.size < σ.size) :
    Tracks P σ w (genFn σ.ctx sub lambda) (genFn ctx' sub' lambda) Same := by
  unfold genFn
  split
  · refine (tracks_unitName lambda).then fun name =>
      (tracks_buildUnit hctx h name lambda.arity []).bind fun u u' w₁ _ hu => ?_
    obtain ⟨rfl, hfit⟩ := hu
    refine (tracks_loadConstant fun v hv => ?_).then fun r => (tracks_noteFunction r hsize).then fun _ =>
      tracks_same _
    obtain rfl := Constant.closure.inj hv
    exact hfit rfl
  · exact tracks_create _ _ (fun _ => rfl) (fun _ => rfl) fun dst =>
      (tracks_buildClosure hctx h).then fun _ => (tracks_write rfl rfl).then fun _ => tracks_same _

/-- Closures are allocated for the literals of a `fix`. -/
theorem tracks_allocClosures : ∀ (index : Nat) (es : List Expr),
    Tracks P σ w (allocClosures index es) (allocClosures index es) fun _ cs cs' =>
      cs' = cs ∧ ∀ q ∈ cs, .fn q.2 ∈ es
  | _, [] => tracks_pure fun _ => ⟨rfl, by simp⟩
  | index, e :: rest => by
    cases e with
    | fn lambda =>
      refine tracks_create _ _ (fun _ => rfl) (fun _ => rfl) fun dst => (tracks_bindReg _).then fun _ =>
        (tracks_allocClosures (index + 1) rest).bind fun cs cs' _ _ hcs => ?_
      obtain ⟨rfl, hcs⟩ := hcs
      refine tracks_pure fun _ => ⟨rfl, fun q hq => ?_⟩
      rcases List.mem_cons.mp hq with rfl | hq
      · exact List.mem_cons_self
      · exact List.mem_cons_of_mem _ (hcs q hq)
    | _ => exact tracks_throw _

theorem tracks_finishClosures (hctx : Comparable P σ.ctx ctx') : ∀ {cs : List (Reg × Lambda Expr)},
    (∀ q ∈ cs, ParallelUnit P σ.ctx sub sub' q.2.body) →
    Tracks P σ w (finishClosures σ.ctx sub cs) (finishClosures ctx' sub' cs) Same
  | [], _ => tracks_same _
  | (_, _) :: _, h => (tracks_buildClosure hctx (h _ List.mem_cons_self)).then fun _ =>
      (tracks_write rfl rfl).then fun _ =>
        tracks_finishClosures hctx fun q hq => h q (List.mem_cons_of_mem _ hq)

theorem tracks_genFix (hctx : Comparable P σ.ctx ctx') {fns : List Expr}
    (h : ∀ lambda, .fn lambda ∈ fns → ParallelUnit P σ.ctx sub sub' lambda.body) :
    Tracks P σ w (genFix σ.ctx sub fns) (genFix ctx' sub' fns) Same := by
  refine (tracks_allocClosures 0 fns).bind fun cs cs' _ _ hcs => ?_
  obtain ⟨rfl, hcs⟩ := hcs
  exact (tracks_write rfl rfl).then fun _ =>
    (tracks_finishClosures hctx fun q hq => h _ (hcs q hq)).then fun _ => tracks_write rfl rfl

/-! ## Calls -/

theorem tracks_pushArgs : ∀ args : List Reg, Tracks P σ w (pushArgs args) (pushArgs args) Same
  | [] => tracks_same _
  | _ :: rest => (tracks_write rfl rfl).then fun _ => tracks_pushArgs rest

theorem tracks_genRuntimeCall (hctx : Comparable P ctx ctx') (func : Reg) (args : List Reg)
    (checked guard tailCall : Bool) (loc : Option Location) :
    Tracks P σ w (genRuntimeCall ctx func args checked guard tailCall loc)
      (genRuntimeCall ctx' func args checked guard tailCall loc) Same := by
  refine (tracks_pushArgs args).then fun _ => ?_
  split
  · exact (tracks_write rfl rfl).then fun _ => tracks_same _
  · refine tracks_create _ _ (fun _ => rfl) (fun _ => rfl) fun dst => ?_
    split
    · exact (hctx.returnErrors dst loc).then fun _ => tracks_same _
    · exact tracks_same _

/-- A known function is smaller than the unit that knows it. -/
theorem tracks_knownCallee (func : Reg) (nargs : Nat) :
    Tracks P σ w (knownCallee func nargs) (knownCallee func nargs) fun _ o o' =>
      o' = o ∧ ∀ f ∈ o, f.body.size < σ.size := by
  refine ⟨fun {w₁ s s'} _ ht => .ends (.refl _) ht ⟨?_, fun f hf => ?_⟩⟩
  · rw [ht.known, ht.functions]
  · obtain ⟨hf, -⟩ := Option.mem_filter_iff.mp hf
    obtain ⟨k, hk, hf⟩ := Option.bind_eq_some_iff.mp hf
    obtain ⟨f', hf', hsize⟩ := ht.sited.known hk
    obtain rfl := Option.some.inj (hf'.symm.trans hf)
    exact hsize

/-- The variables in scope and the depth change alike. -/
theorem Tied.withDepth (h : Tied P σ w s s') (stack : List Variable) {f : Nat → Nat} {d : Nat}
    (hd : f σ.depth = d) :
    Tied P { σ with depth := d } w
      { s with draft := { s.draft with stack := stack, inlined := f s.draft.inlined } }
      { s' with draft := { s'.draft with stack := stack, inlined := f s'.draft.inlined } } where
  sited := ⟨h.sited.known, (congrArg f h.sited.inlined).trans hd, h.sited.pool,
    fun hu p hp => h.sited.fits hu p ⟨hp.pool, hp.units⟩⟩
  listing := h.listing
  size := h.size
  units := h.units
  pool := h.pool
  functions := h.functions
  stack := rfl
  known := h.known
  narrowed := h.narrowed
  inlined := congrArg f h.inlined

/-- **A body in place of a call**, in a scope of its own. -/
theorem Tracks.deeper {V : Ties N → α → α → Prop} {U : Ties N → β → β → Prop} {x x' : Gen α}
    {f f' : α → Gen β} (hx : Tracks P (Site.deeper σ) w x x' V) (inner outer : List Variable)
    (hf : ∀ a a' w₁, w.Le w₁ → V w₁ a a' → Tracks P σ w₁ (f a) (f' a') U) :
    Tracks P σ w
      (modifyDraft (fun d => { d with stack := inner, inlined := d.inlined + 1 }) >>= fun _ =>
        x >>= fun a => modifyDraft (fun d => { d with stack := outer, inlined := d.inlined - 1 }) >>=
          fun _ => f a)
      (modifyDraft (fun d => { d with stack := inner, inlined := d.inlined + 1 }) >>= fun _ =>
        x' >>= fun a => modifyDraft (fun d => { d with stack := outer, inlined := d.inlined - 1 }) >>=
          fun _ => f' a) U := by
  refine ⟨fun {w₁ s s'} hw ht => ?_⟩
  set enter : GenState → GenState := fun s =>
    { s with draft := { s.draft with stack := inner, inlined := s.draft.inlined + 1 } } with henter
  set leave : GenState → GenState := fun s =>
    { s with draft := { s.draft with stack := outer, inlined := s.draft.inlined - 1 } } with hleave
  have hrun : ∀ (x : Gen α) (f : α → Gen β) (s : GenState),
      (modifyDraft (fun d => { d with stack := inner, inlined := d.inlined + 1 }) >>= fun _ =>
        x >>= fun a => modifyDraft (fun d => { d with stack := outer, inlined := d.inlined - 1 }) >>=
          fun _ => f a).run s = x.run (enter s) >>= fun p => (f p.1).run (leave p.2) := fun _ _ _ => rfl
  have hinner := hx.follows hw (ht.withDepth inner (f := (· + 1)) rfl)
  rw [hrun, hrun]
  rw [show ∀ s : GenState, enter s = { s with draft := { s.draft with
    stack := inner, inlined := s.draft.inlined + 1 } } from fun _ => rfl]
  generalize x.run _ = y, x'.run _ = y' at hinner
  cases hinner with
  | refused e => exact .refused e
  | fault e y => exact .fault e _
  | fault' e y => exact .fault' e _
  | @ends w' a a' s₁ s₁' hw' ht₁ hv =>
    have hout := (hf a a' w' (hw.trans hw') hv).follows (.refl _)
      (ht₁.withDepth outer (f := (· - 1)) (d := σ.depth) (Nat.add_sub_cancel ..))
    show Follows P σ w₁ U ((f a).run (leave s₁)) ((f' a').run (leave s₁'))
    rw [show ∀ s : GenState, leave s = { s with draft := { s.draft with
      stack := outer, inlined := s.draft.inlined - 1 } } from fun _ => rfl]
    generalize (f a).run _ = z, (f' a').run _ = z' at hout
    cases hout with
    | refused e => exact .refused e
    | fault e y => exact .fault e _
    | fault' e y => exact .fault' e _
    | ends hw'' ht₂ hu => exact .ends (hw'.trans hw'') ht₂ hu

theorem tracks_genInlined (hctx : Comparable P ctx ctx') (he : Parallel P (Site.deeper σ) sub sub' e)
    (args : List Reg) (guard : Bool) (loc : Option Location) (tail : Bool) :
    Tracks P σ w (genInlined ctx sub e args guard loc tail) (genInlined ctx' sub' e args guard loc tail)
      Same := by
  refine tracks_draft.bind fun d d' w₁ _ hd => ?_
  dsimp only
  rw [hd.1]
  refine Tracks.deeper (V := Same) (he.expr tail) _ _ fun out out' w₂ _ hout => ?_
  obtain rfl : out' = out := hout
  cases out' with
  | none => exact tracks_same _
  | some r =>
    dsimp only
    split
    · exact (hctx.returnErrors r loc).then fun _ => tracks_same _
    · exact tracks_same _

theorem Comparable.mayInline (hctx : Comparable P ctx ctx') (depth : Nat) (k : KnownFunction) :
    mayInline ctx'.settings depth k = mayInline ctx.settings depth k := by
  rw [Gen.mayInline, Gen.mayInline, hctx.inlining, hctx.inlineSize, hctx.inlineLevels]

theorem tracks_genCall (hctx : Comparable P ctx ctx') {callee : Expr} {args : List Expr}
    (hcallee : Parallel P σ sub sub' callee) (hargs : ∀ e ∈ args, Parallel P σ sub sub' e)
    (hinline : ∀ e : Expr, e.size < σ.size → σ.depth < ctx.settings.inlineLevels →
      Parallel P (Site.deeper σ) sub sub' e) (guard : Bool) (loc : Option Location) (tail : Bool) :
    Tracks P σ w (genCall ctx sub callee args guard loc tail)
      (genCall ctx' sub' callee args guard loc tail) Same := by
  refine (Parallel.mapM hargs).then fun regs => hcallee.value.then fun func =>
    (tracks_knownCallee func regs.length).bind fun o o' w₁ _ ho => ?_
  obtain ⟨rfl, hknown⟩ := ho
  cases o' with
  | none => exact tracks_genRuntimeCall hctx _ _ _ _ _ _
  | some k =>
    refine tracks_draft.bind fun d d' w₂ _ hd => ?_
    rw [hd.2.1, hctx.mayInline, hd.2.2]
    split
    · rename_i hmay
      simp only [Gen.mayInline, Bool.and_eq_true, decide_eq_true_eq] at hmay
      exact tracks_genInlined hctx (hinline k.body (hknown k rfl) hmay.1.1.2) _ _ _ _
    · exact tracks_genRuntimeCall hctx _ _ _ _ _ _

/-! ## Operators, conditionals, variables, bindings, blocks -/

theorem tracks_genUnchecked (op : Operator) (l r : Reg) (t : StaticType) :
    Tracks P σ w (genUnchecked op l r t) (genUnchecked op l r t) Same :=
  tracks_create _ _ (fun _ => rfl) (fun _ => rfl) fun _ => tracks_same _

theorem tracks_genArithmetic (hctx : Comparable P ctx ctx') (op : Operator) (l r : Reg) :
    Tracks P σ w (genArithmetic ctx op l r) (genArithmetic ctx' op l r) Same := by
  refine (tracks_knownType l).then fun tl => (tracks_knownType r).then fun tr => ?_
  split
  · exact tracks_genUnchecked _ _ _ _
  · refine tracks_create _ _ (fun _ => rfl) (fun _ => rfl) fun dst => (hctx.returnErrors dst none).then
      fun _ => (tracks_knownType l).then fun tl => (tracks_knownType r).then fun tr => ?_
    split
    · exact (tracks_narrow _ _).then fun _ => tracks_same _
    · exact tracks_same _

theorem tracks_genOperator (hctx : Comparable P ctx ctx') {lhs rhs : Expr}
    (hl : Parallel P σ sub sub' lhs) (hr : Parallel P σ sub sub' rhs) (op : Operator) :
    Tracks P σ w (genOperator ctx sub op lhs rhs) (genOperator ctx' sub' op lhs rhs) Same := by
  refine hl.value.then fun l => hr.value.then fun r => ?_
  cases op with
  | cons => exact tracks_genUnchecked _ _ _ _
  | eq => exact tracks_genUnchecked _ _ _ _
  | ne => exact tracks_genUnchecked _ _ _ _
  | _ => exact tracks_genArithmetic hctx _ _ _

theorem tracks_genIf {test yes no : Expr} (htest : Parallel P σ sub sub' test)
    (hyes : Parallel P σ sub sub' yes) (hno : Parallel P σ sub sub' no) (tail : Bool) :
    Tracks P σ w (genIf sub test yes no tail) (genIf sub' test yes no tail) Same := by
  refine htest.value.then fun c => (tracks_asFlag c).then fun flag => tracks_height.then fun n =>
    (tracks_openBranch flag).bind fun b b' w₁ _ hb => (tracks_mergeReg tail).bind fun m m' w₂ hw hm => ?_
  obtain rfl : m' = m := hm
  exact tracks_genArms hyes hno (hb.mono hw) _ n

theorem tracks_genVar (offset : Nat) (mutable : Bool) :
    Tracks P σ w (genVar offset mutable) (genVar offset mutable) Same := by
  refine (tracks_variableAt offset).then fun v => ?_
  split
  · exact tracks_create _ _ (fun _ => rfl) (fun _ => rfl) fun _ => tracks_same _
  · split
    · exact tracks_throw _
    · exact tracks_same _

theorem tracks_genBinds : ∀ {bs : List (Binding Expr)}, (∀ b ∈ bs, Parallel P σ sub sub' b.value) →
    Tracks P σ w (genBinds sub bs) (genBinds sub' bs) Same
  | [], _ => tracks_same _
  | b :: rest, h => by
    have hrest : Tracks P σ w (genBinds sub rest) (genBinds sub' rest) Same :=
      tracks_genBinds fun b hb => h b (List.mem_cons_of_mem _ hb)
    refine (h b List.mem_cons_self).value.then fun r => ?_
    split
    · exact tracks_create _ _ (fun _ => rfl) (fun _ => rfl) fun _ => (tracks_pushVariable _).then
        fun _ => hrest
    · exact (tracks_bindReg _).then fun _ => hrest

theorem tracks_genBody {o : Option Expr} (h : ∀ e ∈ o, Parallel P σ sub sub' e) (n : Nat) (tail : Bool) :
    Tracks P σ w (genBody sub o n tail) (genBody sub' o n tail) Same := by
  cases o with
  | none => exact tracks_loadNil.then fun _ => tracks_same _
  | some e => exact ((h e rfl).expr tail).then fun _ => (tracks_forgetAbove n).then fun _ => tracks_same _

theorem tracks_genSequence (tail : Bool) : ∀ {es : List Expr}, (∀ e ∈ es, Parallel P σ sub sub' e) →
    Tracks P σ w (genSequence sub tail es) (genSequence sub' tail es) Same
  | [], _ => tracks_loadNil.then fun _ => tracks_same _
  | [e], h => (h e List.mem_cons_self).expr tail
  | e :: _ :: _, h => (h e List.mem_cons_self).value.then fun _ =>
      tracks_genSequence tail fun e he => h e (List.mem_cons_of_mem _ he)

theorem tracks_genAssign (h : Parallel P σ sub sub' e) (offset : Nat) :
    Tracks P σ w (genAssign sub offset e) (genAssign sub' offset e) Same := by
  refine (tracks_variableAt offset).then fun v => ?_
  dsimp only
  split
  · exact (tracks_throw (V := Same) _).then fun _ => h.value.then fun _ => (tracks_write rfl rfl).then
      fun _ => tracks_loadNil
  · exact h.value.then fun _ => (tracks_write rfl rfl).then fun _ => tracks_loadNil

theorem tracks_genStruct (hctx : ctx'.types = ctx.types) {fields : List Expr}
    (h : ∀ e ∈ fields, Parallel P σ sub sub' e) (ty : Nat) :
    Tracks P σ w (genStruct ctx sub ty fields) (genStruct ctx' sub' ty fields) Same := by
  unfold genStruct
  rw [hctx]
  cases ctx.types[ty]? with
  | none => exact tracks_throw _
  | some struct =>
    have hmake := (Parallel.mapM (w := w) h).then fun regs =>
      tracks_create (σ := σ) .temp (some (.obj (.struct ty))) (i := (.make · ty regs)) (fun _ => rfl)
        (fun _ => rfl) fun dst => tracks_same (P := P) dst
    dsimp only
    split
    · exact (tracks_throw (V := Same) _).then fun _ => hmake
    · exact hmake

/-! ## Expressions -/

/-- **What code for a node of a size relies on:** its parts, the bodies of its functions, and bodies
that take the place of a call. -/
structure AbleBoth (P : Pairing N) (σ : Site) (sub sub' : Sub) (size : Nat) : Prop where
  part : ∀ {e : Expr}, e.size < size → Parallel P σ sub sub' e
  unit : ∀ {e : Expr}, e.size < size → ParallelUnit P σ.ctx sub sub' e
  inline : ∀ e : Expr, e.size < σ.size → σ.depth < σ.ctx.settings.inlineLevels →
    Parallel P (Site.deeper σ) sub sub' e

/-- **Code for one node** is generated alike. -/
theorem tracks_genNode (hctx : Comparable P σ.ctx ctx') (ha : AbleBoth P σ sub sub' e.size)
    (hn : e.size ≤ σ.size) (tail : Bool) :
    Tracks P σ w (genNode σ.ctx sub e tail) (genNode ctx' sub' e tail) Same := by
  cases e with
  | lit l =>
    refine (tracks_loadConstant fun u hu => ?_).map _
    cases l <;> cases hu
  | var offset mutable => exact (tracks_genVar offset mutable).map _
  | apply callee args guard loc =>
    rw [Expr.size] at ha
    refine tracks_genCall hctx (ha.part (by omega)) (fun e he => ha.part ?_) ha.inline guard loc tail
    have := Expr.size_le_sizeList he
    omega
  | operate op lhs rhs =>
    rw [Expr.size] at ha
    exact (tracks_genOperator hctx (ha.part (by omega)) (ha.part (by omega)) op).map _
  | fn lambda =>
    rw [Expr.size_fn] at ha hn
    exact (tracks_genFn hctx (ha.unit (by omega)) (by omega)).map _
  | letIn binds o =>
    rw [Expr.size] at ha
    refine tracks_height.then fun n => (tracks_genBinds fun b hb => ha.part ?_).then fun _ =>
      tracks_genBody (fun e he => ha.part ?_) n tail
    · have := Expr.size_le_sizeBinds hb
      omega
    · have := Expr.size_le_sizeOption he
      omega
  | fix fns o =>
    rw [Expr.size] at ha
    refine tracks_height.then fun n => (tracks_genFix hctx fun lambda hl => ha.unit ?_).then fun _ =>
      tracks_genBody (fun e he => ha.part ?_) n tail
    · have := Expr.size_le_sizeList hl
      rw [Expr.size_fn] at this
      omega
    · have := Expr.size_le_sizeOption he
      omega
  | ite test yes no =>
    rw [Expr.size] at ha
    exact tracks_genIf (ha.part (by omega)) (ha.part (by omega)) (ha.part (by omega)) tail
  | matchWith p value yes no =>
    rw [Expr.size] at ha
    refine tracks_genMatch hctx.types (ha.part (by omega)) (ha.part (by omega)) (fun e he => ha.part ?_)
      p tail
    have := Expr.size_le_sizeOption he
    omega
  | block exprs keep =>
    rw [Expr.size] at ha
    refine tracks_height.then fun n => (tracks_genSequence tail fun e he => ha.part ?_).then fun out => ?_
    · have := Expr.size_le_sizeList he
      omega
    · dsimp only
      split
      · exact (tracks_forgetAbove n).then fun _ => tracks_same _
      · exact tracks_same _
  | ret value =>
    rw [Expr.size] at ha
    refine (ha.part (by omega)).tail.then fun _ => ?_
    split
    · exact tracks_same _
    · exact tracks_loadNil.map _
  | assign offset value =>
    rw [Expr.size] at ha
    exact (tracks_genAssign (ha.part (by omega)) offset).map _
  | yield value =>
    rw [Expr.size] at ha
    exact (ha.part (by omega)).value.then fun _ => (tracks_write rfl rfl).then fun _ =>
      tracks_loadNil.map _
  | struct ty fields =>
    rw [Expr.size] at ha
    refine (tracks_genStruct hctx.types (fun e he => ha.part ?_) ty).map _
    have := Expr.size_le_sizeList he
    omega

/-- Nothing has been generated yet. -/
theorem tied_empty (ctx : Context) : Tied P ⟨0, 0, ctx, []⟩ ⟨P.start, ∅⟩ {} {} where
  sited := ⟨fun hr => by simp at hr, rfl, fun hk => by simp at hk, fun hu => hu.elim⟩
  listing := P.empty
  size := rfl
  units hk := by simp at hk
  pool := rfl
  functions := rfl
  stack := rfl
  known := rfl
  narrowed := rfl
  inlined := rfl

/-- A body served by code for expressions, with as much fuel as it needs. -/
theorem serves_genExpr (ctx : Context) {fuel : Nat} {caps : List Bool}
    (hfuel : depthBound ctx.settings.inlineLevels e.size 0 e.size ≤ fuel) :
    Serves ⟨e.size, 0, ctx, caps⟩ (.of (genExpr ctx fuel)) (.of (genExpr ctx fuel)) e :=
  serves_of fun tail hf => genExpr_emits ctx.settings.verify fuel tail hf (Nat.le_refl _) hfuel

/-- **Code for an expression is generated alike** with comparable contexts. -/
theorem genExpr_tracks : ∀ (fuel : Nat) {σ : Site} {e : Expr} {w : Ties N} (tail : Bool),
    Comparable P σ.ctx ctx' → e.size ≤ σ.size →
    depthBound σ.ctx.settings.inlineLevels σ.size σ.depth e.size ≤ fuel →
    Tracks P σ w (genExpr σ.ctx fuel e tail) (genExpr ctx' fuel e tail) Same
  | 0, _, _, _, _, _, _, _ => tracks_throw _
  | fuel + 1, σ, e, w, tail, hctx, hn, hfuel => by
    refine tracks_genNode hctx ⟨fun {e'} he => ?_, fun {e'} he => ?_, fun e' he hd => ?_⟩ hn tail
    · have hlt : depthBound σ.ctx.settings.inlineLevels σ.size σ.depth e'.size <
          depthBound σ.ctx.settings.inlineLevels σ.size σ.depth e.size := depthBound_part he
      exact parallel_of fun tail => genExpr_tracks fuel tail hctx (by omega) (by omega)
    · have hlt : depthBound σ.ctx.settings.inlineLevels e'.size 0 e'.size <
          depthBound σ.ctx.settings.inlineLevels σ.size σ.depth e.size := depthBound_unit (by omega)
      have hle : depthBound σ.ctx.settings.inlineLevels e'.size 0 e'.size ≤ fuel :=
        Nat.le_of_lt_succ (hlt.trans_le hfuel)
      exact ⟨⟨fuel, rfl⟩, fun caps => parallel_of fun tail => genExpr_tracks fuel tail hctx (Nat.le_refl _) hle,
        fun caps => serves_genExpr σ.ctx hle⟩
    · have hlt : depthBound σ.ctx.settings.inlineLevels σ.size (σ.depth + 1) e'.size <
          depthBound σ.ctx.settings.inlineLevels σ.size σ.depth e.size := depthBound_inlined hd he
      exact parallel_of fun tail => genExpr_tracks fuel tail hctx (Nat.le_of_lt he)
        (Nat.le_of_lt_succ (hlt.trans_le hfuel))

end Gen

/-- **Programs that go together:** all is the same but for the code of the units. -/
structure Pairing.Programs {N : Type} [Preorder N] (P : Pairing N) (p p' : Program) : Prop where
  entry : p'.entry = p.entry
  types : p'.types = p.types
  consts : p'.consts = p.consts
  size : p'.units.size = p.units.size
  units : ∀ {k : Nat} {u u' : CodeUnit}, p.units[k]? = some u → p'.units[k]? = some u' →
    P.units p.consts u u'

/-- **A module is compiled alike with comparable settings**: it is refused for the same reason, or the
programs go together. -/
theorem SourceModule.compile_pairs {N : Type} [Preorder N] {P : Pairing N} (m : SourceModule)
    {settings settings' : Settings}
    (hctx : Gen.Comparable P ⟨settings, m.types.toArray⟩ ⟨settings', m.types.toArray⟩) :
    (∃ e, m.compile settings = .error (.refused e) ∧ m.compile settings' = .error (.refused e)) ∨
      ∃ p p', m.compile settings = .ok p ∧ m.compile settings' = .ok p' ∧ P.Programs p p' := by
  set ctx : Context := ⟨settings, m.types.toArray⟩ with hc
  set ctx' : Context := ⟨settings', m.types.toArray⟩ with hc'
  set fuel : Nat := Gen.nestingBound settings m.body with hf
  have hbound : Gen.nestingBound settings' m.body = fuel := by
    rw [hf, Gen.nestingBound, Gen.nestingBound, show settings'.inlineLevels = settings.inlineLevels from
      hctx.inlineLevels]
  have hfuel : Gen.depthBound ctx.settings.inlineLevels m.body.size 0 m.body.size ≤ fuel := by
    have := Gen.depthBound_whole settings.inlineLevels m.body.size
    show Gen.depthBound settings.inlineLevels m.body.size 0 m.body.size ≤ Gen.nestingBound settings m.body
    unfold Gen.nestingBound
    omega
  have hbody : Gen.ParallelUnit P ctx (.of (Gen.genExpr ctx fuel)) (.of (Gen.genExpr ctx' fuel))
      m.body :=
    ⟨⟨fuel, rfl⟩, fun caps => Gen.parallel_of fun tail => Gen.genExpr_tracks fuel tail hctx (Nat.le_refl _) hfuel,
      fun caps => Gen.serves_genExpr ctx hfuel⟩
  have hfollows := (Gen.tracks_buildUnit (σ := ⟨0, 0, ctx, []⟩) hctx hbody "main" 0 []).follows (.refl _)
    (Gen.tied_empty _)
  have hends := (Gen.runs_main m settings true).ends
  have hends' := (Gen.runs_main m settings' true).ends
  unfold compile
  rw [hbound] at hends' ⊢
  dsimp only at hends hends' ⊢
  generalize (Gen.buildUnit ctx _ "main" 0 [] m.body).run {} = y,
    (Gen.buildUnit ctx' _ "main" 0 [] m.body).run {} = y' at hfollows hends hends' ⊢
  cases hfollows with
  | refused e => exact Or.inl ⟨e, rfl, rfl⟩
  | fault f y => exact hends.elim
  | fault' f y => exact hends'.elim
  | ends hw ht hv => exact Or.inr ⟨_, _, rfl, rfl, hv.1, rfl, ht.pool, ht.size, ht.units⟩

end CountedMachine
