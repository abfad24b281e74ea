import CountedMachine.Proofs.Code.Untraced
import CountedMachine.Proofs.Generation.Compile

/-! # Two runs of the code generator

Two runs that differ in their settings alone are compared step by step. Their states are tied (`Tied`):
the listings in the making go together, so do the finished units, and everything else is the same. How
listings and units go together is left open; a `Pairing` says it, with what is known of the names of nodes
in the second listing, which only grows. A step `Tracks` another when it leads from tied states to tied states: both
refuse the module for the same reason, or both succeed with results that go together; where one of them
ends in a fault, nothing is said. -/

namespace CountedMachine

open Listing

/-- **How the listings and the units of two runs go together**, given what is known of the names of
nodes; units go together over a pool of constants, which only grows. -/
structure Pairing (N : Type) [Preorder N] where
  listings : N → Listing → Listing → Prop
  units : Array Constant → CodeUnit → CodeUnit → Prop
  named : N → NodeId → NodeId → Prop
  start : N
  named_mono : ∀ {n n' : N} {a b : NodeId}, n ≤ n' → named n a b → named n' a b
  regs : ∀ {n : N} {l l' : Listing}, listings n l l' → l'.regs = l.regs
  withRegs : ∀ {n : N} {l l' : Listing} (regs : Array RegFacts), listings n l l' →
    listings n { l with regs := regs } { l' with regs := regs }
  empty : listings start .empty .empty
  blank : ∀ (pool : Array Constant) (name : String) (arity ncaps : Nat),
    units pool ⟨name, arity, ncaps, 0, #[]⟩ ⟨name, arity, ncaps, 0, #[]⟩
  units_mono : ∀ {pool pool' : Array Constant} {u u' : CodeUnit},
    (∀ {k : Nat} {c : Constant}, pool[k]? = some c → pool'[k]? = some c) → units pool u u' →
    units pool' u u'
  insert : ∀ {n : N} {l l' l₁ l₁' : Listing} {i : Instr NodeId} {id id' : NodeId}, listings n l l' →
    i.isTrace = false → (∀ {b}, i.label? = some b → b = head) → l.insert i = .ok (l₁, id) →
    l'.insert i = .ok (l₁', id') → ∃ n', n ≤ n' ∧ listings n' l₁ l₁' ∧ named n' id id'
  retarget : ∀ {n : N} {l l' l₁ l₁' : Listing} {a b c d : NodeId} {i i' : Instr NodeId},
    listings n l l' → named n a b → named n c d → l.get a = .ok i →
    l.put a (i.relabel fun _ => c) = .ok l₁ → l'.get b = .ok i' →
    l'.put b (i'.relabel fun _ => d) = .ok l₁' → listings n l₁ l₁'

/-- **What is known of two runs**: the names of nodes, and units that work without captures. -/
structure Ties (N : Type) where
  names : N
  fit : Set UnitId

namespace Ties

variable {N : Type} [Preorder N]

/-- More is known. -/
structure Le (w w' : Ties N) : Prop where
  names : w.names ≤ w'.names
  fit : w.fit ⊆ w'.fit

theorem Le.refl (w : Ties N) : w.Le w := ⟨le_rfl, subset_rfl⟩

theorem Le.trans {w w₁ w₂ : Ties N} (h : w.Le w₁) (h' : w₁.Le w₂) : w.Le w₂ :=
  ⟨h.names.trans h'.names, h.fit.trans h'.fit⟩

end Ties

namespace Gen

variable {N : Type} [Preorder N] {P : Pairing N} {α β : Type} {σ : Site} {w w₁ : Ties N}
  {s s' s₁ s₁' : GenState} {l l' : Listing}

/-- **What is known of one run at a site:** known functions are small, bodies in place of calls are as
deep as the site says, and the units of constant closures work without captures. -/
structure Sited (σ : Site) (fit : Set UnitId) (s : GenState) : Prop where
  known : ∀ {r : Reg} {k : Nat}, s.draft.known[r]? = some k →
    ∃ f : KnownFunction, s.functions[k]? = some f ∧ f.body.size < σ.size
  inlined : s.draft.inlined = σ.depth
  pool : ∀ {k : Nat} {u : UnitId}, s.pool[k]? = some (.closure u) → u ∈ fit
  fits : ∀ {u : UnitId}, u ∈ fit → ∀ p : Program, s.Within p → p.types = σ.types →
    UnitOk σ.ctx.settings p u []

/-- **Tied:** two states whose listings and units go together, and which are the same otherwise. -/
structure Tied (P : Pairing N) (σ : Site) (w : Ties N) (s s' : GenState) : Prop where
  sited : Sited σ w.fit s
  listing : P.listings w.names s.draft.listing s'.draft.listing
  size : s'.units.size = s.units.size
  units : ∀ {k : Nat} {u u' : CodeUnit}, s.units[k]? = some u → s'.units[k]? = some u' →
    P.units s.pool u u'
  pool : s'.pool = s.pool
  functions : s'.functions = s.functions
  stack : s'.draft.stack = s.draft.stack
  known : s'.draft.known = s.draft.known
  narrowed : s'.draft.narrowed = s.draft.narrowed
  inlined : s'.draft.inlined = s.draft.inlined

theorem Tied.regs (h : Tied P σ w s s') : s'.regs = s.regs := P.regs h.listing

/-- **Outcomes of two runs** that started in tied states. -/
inductive Follows (P : Pairing N) (σ : Site) (w : Ties N) (V : Ties N → α → α → Prop) :
    Except Failure (α × GenState) → Except Failure (α × GenState) → Prop
  | ends {w' : Ties N} {a a' : α} {s s' : GenState} : w.Le w' → Tied P σ w' s s' → V w' a a' →
    Follows P σ w V (.ok (a, s)) (.ok (a', s'))
  | refused (e : Refusal) : Follows P σ w V (.error (.refused e)) (.error (.refused e))
  | fault (f : Fault) (y : Except Failure (α × GenState)) : Follows P σ w V (.error (.fault f)) y
  | fault' (f : Fault) (y : Except Failure (α × GenState)) : Follows P σ w V y (.error (.fault f))

/-- **One step tracks another** from all tied states of which as much is known. -/
structure Tracks (P : Pairing N) (σ : Site) (w : Ties N) (x x' : Gen α) (V : Ties N → α → α → Prop) :
    Prop where
  follows : ∀ {w₁ s s'}, w.Le w₁ → Tied P σ w₁ s s' → Follows P σ w₁ V (x.run s) (x'.run s')

/-- Both results are the same. -/
def Same (_ : Ties N) (a a' : α) : Prop := a' = a

/-! ## Putting steps together -/

section
variable {V : Ties N → α → α → Prop} {U : Ties N → β → β → Prop} {x x' : Gen α} {f f' : α → Gen β}

theorem Tracks.mono (h : Tracks P σ w x x' V) (hw : w.Le w₁) : Tracks P σ w₁ x x' V :=
  ⟨fun hw₁ ht => h.follows (hw.trans hw₁) ht⟩

theorem Follows.bind (hx : Follows P σ w V (x.run s) (x'.run s'))
    (hf : ∀ a a' w₁, w.Le w₁ → V w₁ a a' → Tracks P σ w₁ (f a) (f' a') U) :
    Follows P σ w U ((x >>= f).run s) ((x' >>= f').run s') := by
  rw [StateT.run_bind, StateT.run_bind]
  generalize x.run s = y, x'.run s' = y' at hx
  cases hx with
  | refused e => exact .refused e
  | fault e y => exact .fault e _
  | fault' e y => exact .fault' e _
  | @ends w' a a' s₁ s₁' hw ht hv =>
    have h := (hf a a' w' hw hv).follows (.refl _) ht
    show Follows P σ w U ((f a).run s₁) ((f' a').run s₁')
    generalize (f a).run s₁ = z, (f' a').run s₁' = z' at h
    cases h with
    | refused e => exact .refused e
    | fault e y => exact .fault e _
    | fault' e y => exact .fault' e _
    | ends hw' ht' hu => exact .ends (hw.trans hw') ht' hu

theorem Tracks.bind (hx : Tracks P σ w x x' V)
    (hf : ∀ a a' w₁, w.Le w₁ → V w₁ a a' → Tracks P σ w₁ (f a) (f' a') U) :
    Tracks P σ w (x >>= f) (x' >>= f') U :=
  ⟨fun hw ht => (hx.follows hw ht).bind fun a a' w₂ hw₂ hv => hf a a' w₂ (hw.trans hw₂) hv⟩

/-- A step with the same result, and the rest. -/
theorem Tracks.then (hx : Tracks P σ w x x' Same) (hf : ∀ a, Tracks P σ w (f a) (f' a) U) :
    Tracks P σ w (x >>= f) (x' >>= f') U :=
  hx.bind fun a _ _ hw e => e ▸ (hf a).mono hw

theorem tracks_pure {a a' : α} (h : ∀ {w₁}, w.Le w₁ → V w₁ a a') :
    Tracks P σ w (pure a : Gen α) (pure a') V := ⟨fun hw ht => .ends (.refl _) ht (h hw)⟩

theorem tracks_same (a : α) : Tracks P σ w (pure a : Gen α) (pure a) Same := tracks_pure fun _ => rfl

theorem tracks_throw (e : Failure) : Tracks P σ w (throw e : Gen α) (throw e) V := by
  cases e with
  | refused e => exact ⟨fun _ _ => .refused e⟩
  | fault e => exact ⟨fun _ _ => .fault e _⟩

theorem Tracks.map (hx : Tracks P σ w x x' Same) (g : α → β) :
    Tracks P σ w (g <$> x) (g <$> x') Same := by
  rw [map_eq_pure_bind, map_eq_pure_bind]
  exact hx.then fun a => tracks_same (g a)

/-- A step that only looks at what tied states have in common. -/
theorem tracks_look {g : GenState → α} (hg : ∀ {w₁ s s'}, Tied P σ w₁ s s' → g s' = g s) :
    Tracks P σ w (do return g (← get)) (do return g (← get)) Same :=
  ⟨fun _ ht => .ends (.refl _) ht (hg ht)⟩

/-- A step that changes what tied states have in common. -/
theorem tracks_modify {g g' : GenState → GenState}
    (hg : ∀ {w₁ s s'}, w.Le w₁ → Tied P σ w₁ s s' → Tied P σ w₁ (g s) (g' s')) :
    Tracks P σ w (modify g : Gen PUnit) (modify g') Same :=
  ⟨fun hw ht => .ends (.refl _) (hg hw ht) rfl⟩

theorem tracks_faulting (y : Except Fault α) : Tracks P σ w (faulting y) (faulting y) Same := by
  cases y with
  | ok a => exact tracks_same a
  | error e => exact tracks_throw _

/-- What may end in a fault, before the rest. -/
theorem Follows.faulting {y : Except Fault α}
    (hf : ∀ a, y = .ok a → Follows P σ w U ((f a).run s) ((f' a).run s')) :
    Follows P σ w U ((Gen.faulting y >>= f).run s) ((Gen.faulting y >>= f').run s') := by
  cases y with
  | ok a => exact hf a rfl
  | error e => exact .fault e _

end

/-! ## Looking and noting -/

/-- The draft is the same but for its listing. -/
theorem tracks_draft : Tracks P σ w draft draft fun _ d d' => d'.stack = d.stack ∧
    d'.inlined = d.inlined ∧ d.inlined = σ.depth :=
  ⟨fun _ ht => .ends (.refl _) ht ⟨ht.stack, ht.inlined, ht.sited.inlined⟩⟩

theorem tracks_height : Tracks P σ w height height Same :=
  tracks_look (g := fun s => s.draft.stack.length) fun ht => by rw [ht.stack]

theorem tracks_variableAt (offset : Nat) :
    Tracks P σ w (variableAt offset) (variableAt offset) Same := by
  refine tracks_draft.bind fun d d' w₁ _ hd => ?_
  dsimp only
  rw [hd.1]
  split
  · exact tracks_same _
  · exact tracks_throw _

/-- The variables in scope and the narrowed types change alike. -/
theorem Tied.withScope (h : Tied P σ w s s') (f : List Variable → List Variable)
    (g : Std.HashMap Reg StaticType → Std.HashMap Reg StaticType) :
    Tied P σ w { s with draft := { s.draft with
        stack := f s.draft.stack
        narrowed := g s.draft.narrowed } }
      { s' with draft := { s'.draft with
        stack := f s'.draft.stack
        narrowed := g s'.draft.narrowed } } where
  sited := ⟨h.sited.known, h.sited.inlined, h.sited.pool,
    fun hu p hp => h.sited.fits hu p ⟨hp.pool, hp.units⟩⟩
  listing := h.listing
  size := h.size
  units := h.units
  pool := h.pool
  functions := h.functions
  stack := congrArg f h.stack
  known := h.known
  narrowed := congrArg g h.narrowed
  inlined := h.inlined

theorem tracks_pushVariable (v : Variable) : Tracks P σ w (pushVariable v) (pushVariable v) Same :=
  tracks_modify fun _ ht => ht.withScope (v :: ·) id

theorem tracks_bindReg (r : Reg) : Tracks P σ w (bindReg r) (bindReg r) Same := tracks_pushVariable _

theorem tracks_forgetAbove (n : Nat) : Tracks P σ w (forgetAbove n) (forgetAbove n) Same :=
  tracks_modify fun _ ht => ht.withScope (fun vs => vs.drop (vs.length - n)) id

theorem tracks_narrow (r : Reg) (t : StaticType) : Tracks P σ w (narrow r t) (narrow r t) Same :=
  tracks_modify fun _ ht => ht.withScope id (·.insert r t)

theorem Tied.factsOf (h : Tied P σ w s s') (r : Reg) :
    s'.draft.listing.factsOf r = s.draft.listing.factsOf r := by
  rw [Listing.factsOf, Listing.factsOf, P.regs h.listing]

theorem Tied.typeOf (h : Tied P σ w s s') (r : Reg) :
    s'.draft.listing.typeOf r = s.draft.listing.typeOf r := by
  rw [Listing.typeOf, Listing.typeOf, h.factsOf]

theorem knownType_eq (r : Reg) (s : GenState) :
    (knownType r).run s = StateT.run (match s.draft.narrowed[r]? with
      | some t => pure (some t)
      | none => faulting (s.draft.listing.typeOf r)) s :=
  rfl

theorem tracks_knownType (r : Reg) : Tracks P σ w (knownType r) (knownType r) Same := by
  refine ⟨fun {w₁ s s'} _ ht => ?_⟩
  rw [knownType_eq, knownType_eq, ht.typeOf, ht.narrowed]
  split
  · exact (tracks_same _).follows (.refl _) ht
  · exact (tracks_faulting _).follows (.refl _) ht

/-! ## Registers -/

theorem recordType_ok {r : Reg} {f : RegFacts} (hr : l.regs[r.index]? = some f)
    (type : Option StaticType) : l.recordType r type =
      .ok { l with regs := l.regs.modify r.index ({ · with type := type }) } := by
  rw [Listing.recordType, factsOf_eq hr]
  rfl

/-- Both listings go on, together. -/
theorem Tied.withListing (h : Tied P σ w s s') {n : N} {l₁ l₁' : Listing} (hl : P.listings n l₁ l₁') :
    Tied P σ ⟨n, w.fit⟩ (s.withListing l₁) (s'.withListing l₁') where
  sited := ⟨h.sited.known, h.sited.inlined, h.sited.pool,
    fun hu p hp => h.sited.fits hu p ⟨hp.pool, hp.units⟩⟩
  listing := hl
  size := h.size
  units := h.units
  pool := h.pool
  functions := h.functions
  stack := h.stack
  known := h.known
  narrowed := h.narrowed
  inlined := h.inlined

theorem Tied.withRegs (h : Tied P σ w s s') (regs : Array RegFacts) :
    Tied P σ w (s.withListing { s.draft.listing with regs := regs })
      (s'.withListing { s'.draft.listing with regs := regs }) :=
  h.withListing (P.withRegs regs h.listing)

theorem follows_recordType (h : Tied P σ w s s') (r : Reg) (type : Option StaticType) :
    Follows P σ w Same ((faulting (s.draft.listing.recordType r type) >>= setListing).run s)
      ((faulting (s'.draft.listing.recordType r type) >>= setListing).run s') := by
  have hregs : s'.draft.listing.regs = s.draft.listing.regs := P.regs h.listing
  cases hr : s.draft.listing.regs[r.index]? with
  | none =>
    rw [Listing.recordType, Listing.factsOf, hr]
    exact .fault _ _
  | some f =>
    rw [recordType_ok hr, recordType_ok (hregs ▸ hr), hregs]
    exact .ends (.refl _) (h.withRegs _) rfl

theorem freshReg_run (role : RegRole) (type : Option StaticType) :
    ∃ g : Array RegFacts → Array RegFacts, ∀ s : GenState, (freshReg role type).run s =
      .ok (⟨s.regs.size⟩, s.withListing { s.draft.listing with regs := g s.regs }) := by
  set facts : RegFacts := ⟨role, if role = .flag then some .bool else none⟩ with hfacts
  cases type with
  | none => exact ⟨(·.push facts), fun s => rfl⟩
  | some t =>
    refine ⟨fun regs => (regs.push facts).modify regs.size ({ · with type := some t }), fun s => ?_⟩
    set l : Listing := (s.draft.listing.freshReg role).1 with hl
    have hnew : l.regs[(⟨s.regs.size⟩ : Reg).index]? = some facts := Array.getElem?_push_size
    have hrun : (freshReg role (some t)).run s = (faulting (l.recordType ⟨s.regs.size⟩ (some t)) >>=
      fun l => setListing l >>= fun _ => pure (⟨s.regs.size⟩ : Reg)).run s := rfl
    rw [hrun, recordType_ok hnew]
    rfl

theorem tracks_freshReg (role : RegRole) (type : Option StaticType) :
    Tracks P σ w (freshReg role type) (freshReg role type) Same := by
  obtain ⟨g, hg⟩ := freshReg_run role type
  refine ⟨fun {w₁ s s'} _ ht => ?_⟩
  rw [hg, hg, ht.regs]
  exact .ends (.refl _) (ht.withRegs _) rfl

/-! ## Writing -/

theorem writeNode_run {i : Instr NodeId} {l₁ : Listing} {id : NodeId}
    (e : s.draft.listing.insert i = .ok (l₁, id)) :
    (writeNode i).run s = .ok (id, s.withListing l₁) := by
  show (faulting (s.draft.listing.insert i) >>= fun p => setListing p.1 >>= fun _ => pure p.2).run s = _
  rw [e]
  rfl

theorem writeNode_fault {i : Instr NodeId} {f : Fault} (e : s.draft.listing.insert i = .error f) :
    (writeNode i).run s = .error (.fault f) := by
  show (faulting (s.draft.listing.insert i) >>= fun p => setListing p.1 >>= fun _ => pure p.2).run s = _
  rw [e]
  rfl

/-- A node and its name. -/
def Named (P : Pairing N) (w : Ties N) (id id' : NodeId) : Prop := P.named w.names id id'

theorem Named.mono {a b : NodeId} (h : Named P w a b) (hw : w.Le w₁) : Named P w₁ a b :=
  P.named_mono hw.names h

/-- **Writing an instruction**; a label is not known yet. -/
theorem tracks_writeNode {i : Instr NodeId} (hi : i.isTrace = false)
    (hlabel : ∀ {b}, i.label? = some b → b = head) :
    Tracks P σ w (writeNode i) (writeNode i) (Named P) := by
  refine ⟨fun {w₁ s s'} _ ht => ?_⟩
  cases e : s.draft.listing.insert i with
  | error f =>
    rw [writeNode_fault e]
    exact .fault f _
  | ok out =>
    cases e' : s'.draft.listing.insert i with
    | error f =>
      rw [writeNode_fault e']
      exact .fault' f _
    | ok out' =>
      obtain ⟨n, hn, hl, hid⟩ := P.insert ht.listing hi hlabel e e'
      rw [writeNode_run e, writeNode_run e']
      have hw : w₁.Le ⟨n, w₁.fit⟩ := ⟨hn, subset_rfl⟩
      exact .ends hw (ht.withListing hl) hid

theorem tracks_write {i : Instr NodeId} (hi : i.isTrace = false) (hlabel : i.label? = none) :
    Tracks P σ w (write i) (write i) Same :=
  (tracks_writeNode hi fun hb => by simp [hlabel] at hb).bind fun _ _ _ _ _ => tracks_same _

/-- **Changing a label.** -/
theorem tracks_retarget {a b c d : NodeId} (ha : Named P w a b) (hc : Named P w c d) :
    Tracks P σ w (retarget a c) (retarget b d) Same := by
  refine ⟨fun {w₁ s s'} hw ht => ?_⟩
  have hrun : ∀ (s : GenState) (a c : NodeId), (retarget a c).run s =
      (faulting (s.draft.listing.get a) >>= fun i =>
        faulting (s.draft.listing.put a (i.relabel fun _ => c)) >>= fun l => setListing l).run s :=
    fun _ _ _ => rfl
  rw [hrun, hrun]
  cases hget : s.draft.listing.get a with
  | error f => exact .fault f _
  | ok i =>
    cases hget' : s'.draft.listing.get b with
    | error f => exact .fault' f _
    | ok i' =>
      show Follows P σ w₁ Same
        ((faulting (s.draft.listing.put a (i.relabel fun _ => c)) >>= fun l => setListing l).run s)
        ((faulting (s'.draft.listing.put b (i'.relabel fun _ => d)) >>= fun l => setListing l).run s')
      cases hput : s.draft.listing.put a (i.relabel fun _ => c) with
      | error f => exact .fault f _
      | ok l₁ =>
        cases hput' : s'.draft.listing.put b (i'.relabel fun _ => d) with
        | error f => exact .fault' f _
        | ok l₁' =>
          have hl := P.retarget ht.listing (ha.mono hw) (hc.mono hw) hget hput hget' hput'
          exact .ends (.refl _) (ht.withListing hl) rfl

/-- Making a register and writing the instruction that creates it. -/
theorem tracks_create (role : RegRole) (type : Option StaticType) {i : Reg → Instr NodeId}
    (hi : ∀ r, (i r).isTrace = false) (hlabel : ∀ r, (i r).label? = none) {f f' : Reg → Gen β}
    {U : Ties N → β → β → Prop} (hf : ∀ r, Tracks P σ w (f r) (f' r) U) :
    Tracks P σ w (freshReg role type >>= fun r => write (i r) >>= fun _ => f r)
      (freshReg role type >>= fun r => write (i r) >>= fun _ => f' r) U :=
  (tracks_freshReg role type).then fun r => (tracks_write (hi r) (hlabel r)).then fun _ => hf r

/-! ## Constants -/

/-- The constant may be in the pool: a closure names a unit that works. -/
def Fitting (w : Ties N) (c : Constant) : Prop := ∀ u, c = .closure u → u ∈ w.fit

theorem Tied.withConstant (h : Tied P σ w s s') {c : Constant} (hc : Fitting w c) :
    Tied P σ w { s with pool := s.pool.push c } { s' with pool := s'.pool.push c } where
  sited := by
    refine ⟨h.sited.known, h.sited.inlined, fun {k u} hk => ?_,
      fun hu p hp => h.sited.fits hu p ⟨fun hk => hp.pool (getElem?_push_of_some hk), hp.units⟩⟩
    rw [Array.getElem?_push] at hk
    split_ifs at hk
    · exact hc u (Option.some.inj hk)
    · exact h.sited.pool hk
  listing := h.listing
  size := h.size
  units hu hu' := P.units_mono (fun hk => getElem?_push_of_some hk) (h.units hu hu')
  pool := by rw [h.pool]
  functions := h.functions
  stack := h.stack
  known := h.known
  narrowed := h.narrowed
  inlined := h.inlined

theorem tracks_pooled {c : Constant} (hc : Fitting w c) : Tracks P σ w (pooled c) (pooled c) Same := by
  refine ⟨fun {w₁ s s'} hw ht => ?_⟩
  have hidx : s'.pool.findIdx? (·.same c) = s.pool.findIdx? (·.same c) := by rw [ht.pool]
  rw [pooled_run, pooled_run, hidx]
  cases s.pool.findIdx? (·.same c) with
  | some i => exact .ends (.refl _) ht rfl
  | none =>
    refine .ends (.refl _) (ht.withConstant fun u hu => hw.fit (hc u hu)) ?_
    show (⟨s'.pool.size⟩ : ConstId) = ⟨s.pool.size⟩
    rw [ht.pool]

theorem tracks_loadConstant {c : Constant} (hc : Fitting w c) :
    Tracks P σ w (loadConstant c) (loadConstant c) Same :=
  (tracks_pooled hc).then fun _ => tracks_create _ _ (fun _ => rfl) (fun _ => rfl) fun _ => tracks_same _

theorem tracks_loadNil : Tracks P σ w loadNil loadNil Same :=
  tracks_loadConstant (c := .nil) fun _ h => by cases h

/-! ## Branches -/

/-- A branch in both listings. -/
structure Opened (P : Pairing N) (w : Ties N) (b b' : Branch) : Prop where
  node : Named P w b.node b'.node
  jump : Option.Rel (Named P w) b.jump b'.jump

theorem Opened.mono {b b' : Branch} (h : Opened P w b b') (hw : w.Le w₁) : Opened P w₁ b b' := by
  refine ⟨h.node.mono hw, ?_⟩
  have hj := h.jump
  generalize b.jump = j, b'.jump = j' at hj
  cases hj with
  | none => exact .none
  | some hj => exact .some (Named.mono hj hw)

theorem tracks_openBranch (flag : Reg) :
    Tracks P σ w (openBranch flag) (openBranch flag) (Opened P) :=
  (tracks_writeNode (i := .branch flag ⟨0⟩) rfl fun hb => (Option.some.inj hb).symm).bind fun _ _ _ _ hid =>
    tracks_pure fun hw => ⟨Named.mono hid hw, .none⟩

theorem tracks_beginElse {b b' : Branch} (hb : Opened P w b b') :
    Tracks P σ w (beginElse b) (beginElse b') (Opened P) :=
  (tracks_writeNode (i := .jump ⟨0⟩) rfl fun hb => (Option.some.inj hb).symm).bind fun jump jump' w₁ hw hj =>
    (tracks_writeNode (i := .nop) rfl fun hb => by cases hb).bind fun label label' w₂ hw₂ hl =>
      (tracks_retarget (hb.mono (hw.trans hw₂)).node hl).then fun _ =>
        tracks_pure fun hw₃ => ⟨(hb.mono ((hw.trans hw₂).trans hw₃)).node,
          .some (Named.mono hj (hw₂.trans hw₃))⟩

theorem tracks_meet {b b' : Branch} (hb : Opened P w b b') (merged : Option Reg) :
    Tracks P σ w (meet b merged) (meet b' merged) Same := by
  refine Tracks.bind (V := Named P) ?_ fun label label' w₁ hw hl => ?_
  · cases merged with
    | none => exact tracks_writeNode rfl fun hb => by cases hb
    | some r => exact tracks_writeNode rfl fun hb => by cases hb
  · obtain ⟨node, jump⟩ := b
    obtain ⟨node', jump'⟩ := b'
    have hj := (hb.mono hw).jump
    cases hj with
    | none => exact ⟨fun _ _ => .fault _ _⟩
    | some hj => exact tracks_retarget hj hl

theorem tracks_closeBranch {b b' : Branch} (hb : Opened P w b b') (merged : Option Reg) :
    Tracks P σ w (closeBranch b merged) (closeBranch b' merged) Same :=
  (tracks_beginElse hb).bind fun _ _ _ _ hb => tracks_meet hb merged

/-- **Returning errors**: both runs do the same but for how the place of a call is noted before the
return. -/
theorem tracks_returnErrors {ctx ctx' : Context} (r : Reg) (loc : Option Location)
    (hnote : ∀ {w : Ties N} loc, Tracks P σ w
      (if ctx.settings.traces then write (.trace r loc) >>= fun _ => write (.ret r) else write (.ret r))
      (if ctx'.settings.traces then write (.trace r loc) >>= fun _ => write (.ret r) else write (.ret r))
      Same) : Tracks P σ w (returnErrors ctx r loc) (returnErrors ctx' r loc) Same := by
  refine (tracks_knownType r).then fun t => ?_
  split
  · exact tracks_same _
  · refine tracks_create _ _ (fun _ => rfl) (fun _ => rfl) fun flag =>
      (tracks_openBranch flag).bind fun b b' w₁ _ hb => ?_
    cases loc with
    | none => exact (tracks_write rfl rfl).then fun _ => tracks_closeBranch hb none
    | some loc =>
      have hclosed := (hnote (w := w₁) loc).then fun _ => tracks_closeBranch hb none
      dsimp only
      split_ifs at hclosed ⊢ <;> simpa only [bind_assoc] using hclosed

theorem agree_run (merged a b : Reg) (s : GenState) : (agree merged a b).run s =
    StateT.run (faulting (s.draft.listing.typeOf a) >>= fun ta =>
      faulting (s.draft.listing.typeOf b) >>= fun tb =>
      if ta.isSome && ta = tb then faulting (s.draft.listing.recordType merged ta) >>= setListing
      else knownType a >>= fun x => knownType b >>= fun y => match x, y with
        | some x, some y => if x = y then narrow merged x else pure ()
        | _, _ => pure ()) s :=
  rfl

theorem tracks_agree (merged a b : Reg) : Tracks P σ w (agree merged a b) (agree merged a b) Same := by
  refine ⟨fun {w₁ s s'} _ ht => ?_⟩
  rw [agree_run, agree_run, ht.typeOf, ht.typeOf]
  refine .faulting fun ta _ => .faulting fun tb _ => ?_
  split
  · exact follows_recordType ht merged ta
  · refine Tracks.follows (w := w₁) ?_ (.refl _) ht
    refine (tracks_knownType a).then fun x => (tracks_knownType b).then fun y => ?_
    split
    · split
      · exact tracks_narrow _ _
      · exact tracks_same _
    · exact tracks_same _

theorem tracks_asFlag (c : Reg) : Tracks P σ w (asFlag c) (asFlag c) Same := by
  have hfacts : Tracks P σ w (draft >>= fun d => faulting (d.listing.factsOf c))
      (draft >>= fun d => faulting (d.listing.factsOf c)) Same := by
    refine ⟨fun {w₁ s s'} _ ht => ?_⟩
    show Follows _ _ _ _ ((faulting (s.draft.listing.factsOf c)).run s)
      ((faulting (s'.draft.listing.factsOf c)).run s')
    rw [ht.factsOf]
    exact (tracks_faulting _).follows (.refl _) ht
  have hrest : ∀ f : RegFacts, Tracks P σ w
      (if f.role = .flag then pure c else freshReg .flag none >>= fun t =>
        write (.test t c) >>= fun _ => pure t)
      (if f.role = .flag then pure c else freshReg .flag none >>= fun t =>
        write (.test t c) >>= fun _ => pure t) Same := by
    intro f
    split
    · exact tracks_same _
    · exact tracks_create _ _ (fun _ => rfl) (fun _ => rfl) fun _ => tracks_same _
  have := hfacts.then hrest
  rw [bind_assoc] at this
  exact this

end Gen

end CountedMachine
