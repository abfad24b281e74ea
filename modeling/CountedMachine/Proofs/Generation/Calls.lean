import CountedMachine.Generation.Call
import CountedMachine.Proofs.Generation.Units

/-! # Calls

The arguments of a call are pushed one after the other, and the call takes them all. A known function
is what it is known to be, so that a call of it needs no check, or its body takes the place of the
call: it is smaller than the unit that knows it. -/

namespace CountedMachine

open Listing

namespace Gen

variable {α : Type} {σ : Site} {s s₁ s₂ s' : GenState} {body xs ys : Code} {sub sub' : Sub}
  {ctx : Context} {e : Expr} {c : Bool} {P P₁ : Point} {t : Block} {w : World} {ρ θ ρ' : Env}
  {r func : Reg} {args : List Reg} {nargs k : Nat}

/-- The values of some expressions. -/
theorem Fine.values : ∀ {s : GenState} {body : Code} {P : Point} (es : List Expr), Fine σ s body P →
    (∀ e ∈ es, Serves σ sub sub' e) →
    Emits σ (es.mapM sub.value) (es.mapM sub'.value) s body P fun rs s' P' =>
      (∀ r ∈ rs, r ∈ P'.regs) ∧ rs.length = es.length ∧ s.draft.stack <:+ s'.draft.stack
  | s, body, P, [], h, _ => by
    rw [List.mapM_nil, List.mapM_nil]
    exact h.pure ⟨by simp, rfl, List.suffix_refl _⟩
  | s, body, P, e :: es, h, he => by
    rw [List.mapM_cons, List.mapM_cons]
    refine ((he e (by simp)).value h).bind fun r s₁ _ P₁ hd _ hr => ?_
    refine (Fine.values es hd.fine fun e hmem => he e (by simp [hmem])).bind
      fun rs s₂ _ P₂ hd₂ hle hrs => ?_
    refine hd₂.fine.pure ⟨fun q hq => ?_, by simp [hrs.2.1], hr.2.trans hrs.2.2⟩
    rcases List.mem_cons.mp hq with rfl | hq
    · exact hle.1 hr.1
    · exact hrs.1 q hq

/-! ## Calls at run time -/

/-- **Arguments have been pushed**; all else is as it was. -/
def Pushed (w : World) (s : GenState) (P : Point) (θ : Env) (k : Nat) (ρ : Env) : Prop :=
  P.At w s θ ∧ ρ = { θ with pushed := k }

theorem Pushed.calm (h : Pushed w s P θ k ρ) : ρ.Calm := by
  obtain ⟨hat, rfl⟩ := h
  exact ⟨hat.calm.scope, hat.calm.regs⟩

theorem Pushed.noted {spared : Reg → Prop} (h : Pushed w s P θ k ρ) : w.Noted spared ρ := by
  obtain ⟨hat, rfl⟩ := h
  exact hat.noted

theorem Pushed.reads {i : Instr NodeId} (h : Pushed w s P θ k ρ) (hin : ∀ r ∈ i.inputs, r ∈ P.regs) :
    ∀ r ∈ i.inputs, ∃ κ, ρ.regs r = .val κ ∧ (κ = .shell → i.finishes = true) := by
  obtain ⟨hat, rfl⟩ := h
  exact hat.reads hin

theorem Drawn.pushArgs : ∀ {s₁ : GenState} {xs : Code} (args : List Reg), Drawn σ s body s₁ xs P →
    (∀ r ∈ args, r ∈ P.regs) →
    Runs (Gen.pushArgs args) (Gen.pushArgs args) s₁ fun _ s₂ =>
      ∃ T, Drawn σ s body s₂ (xs ++ Block.code T) P ∧ T.Proper ∧ Recoded s₁ s₂ ∧
        ∀ {w θ k}, T.Does w (Pushed w s₁ P θ k) fun _ ρ' => Pushed w s₁ P θ (k + args.length) ρ'
  | s₁, xs, [], h, _ => runs_pure ⟨.nil, by simpa [Block.code] using h, trivial, .refl _,
      Block.does_nil fun _ hρ => hρ⟩
  | s₁, xs, r :: rest, h, hr => by
    have hin : ∀ q ∈ (Instr.push r : Instr NodeId).inputs, q ∈ P.regs := by
      simpa [Instr.inputs] using hr r
    have hgood : Good s₁.regs (.push r) := good_of_plain rfl rfl fun q hq => h.fine.lt (hin q hq)
    refine Runs.bind (h.write hgood (by simp [Instr.creates])) fun _ s₂ hd₂ => ?_
    obtain ⟨id, hd₂, hs₂⟩ := hd₂
    refine (Drawn.pushArgs rest hd₂ fun q hq => hr q (by simp [hq])).mono fun _ s₃ hd₃ => ?_
    obtain ⟨T, hd₃, hT, hs₃, hdoes⟩ := hd₃
    refine ⟨(Block.single id (.push r)).append T, by simpa using hd₃, ⟨rfl, by simp, hT⟩, hs₂.trans hs₃,
      fun {w θ k} => ?_⟩
    have hpush : (Block.single id (.push r)).Does w (Pushed w s₁ P θ k) fun _ ρ' =>
        Pushed w s₁ P θ (k + 1) ρ' ∧ Pushed w s₂ P θ (k + 1) ρ' := by
      refine Block.does_single (fun ρ hρ => ⟨hρ.noted, hρ.reads hin, trivial,
        by simp [Instr.creates], trivial⟩) ?_
      rintro ρ ρ' ⟨hat, rfl⟩ rfl
      exact ⟨⟨hat, rfl⟩, hat.later h.fine.made hs₂.later, rfl⟩
    refine hpush.append hdoes (fun _ _ _ hq => hq.2) fun ρ ρ₁ ρ' _ hq hq' => ⟨hq.1.1, ?_⟩
    rw [hq'.2, List.length_cons, Nat.add_assoc, Nat.add_comm 1]

/-- **A call that returns.** -/
theorem Drawn.call (h : Drawn σ s body s₁ (Block.code t) P) (hf : Fine σ s body P) (ht : t.Proper)
    (hs : Recoded s s₁) (hfunc : func ∈ P.regs) (checked : Bool)
    (hpush : ∀ {w θ}, t.Does w (Pushed w s P θ 0) fun _ ρ' => Pushed w s P θ nargs ρ')
    (hknown : checked = false → ∃ k f, s.draft.known[func]? = some k ∧ s.functions[k]? = some f ∧
      f.arity = nargs) {g g' : Reg → Gen α} {R : α → GenState → Point → Prop}
    (hg : ∀ dst s₂ t₂, Drawn σ s body s₂ (Block.code t₂) (P.add dst) →
      s₂.draft.stack = s.draft.stack →
      Emits σ (g dst) (g' dst) s₂ (body ++ t₂.code) (P.add dst) R) :
    Runs (Gen.freshReg .temp none >>= fun dst => Gen.write (.call dst func nargs checked) >>=
        fun _ => g dst)
      (Gen.freshReg .temp none >>= fun dst => Gen.write (.call dst func nargs checked) >>=
        fun _ => g' dst) s₁ fun a s' => ∃ t P', Drawn σ s body s' (Block.code t) P' ∧ t.Proper ∧
          Leads σ s P t s' P' ∧ R a s' P' := by
  refine Runs.bind (h.freshReg .temp (by simp)) fun dst s₂ hd₂ => ?_
  obtain ⟨hd₂, hheld, hlater₂, hnew, hstack₂⟩ := hd₂
  have hin : ∀ q ∈ (Instr.call dst func nargs checked : Instr NodeId).inputs, q ∈ P.regs := by
    simpa [Instr.inputs] using hfunc
  have hgood : Good s₂.regs (.call dst func nargs checked) :=
    good_of_creates rfl rfl (fun q hq => hd₂.fine.lt (hin q hq)) hheld.role_eq (by simp) (by simp [Instr.createsOwner])
  refine Runs.bind (hd₂.write hgood fun r hr _ => ?_) fun _ s₃ hd₃ => ?_
  · rw [← Option.some.inj hr]
    exact ⟨hheld.new, hheld.unmade⟩
  obtain ⟨id, hd₃, hs₃⟩ := hd₃
  have hdst : New s s₃ ⟨.temp, none⟩ dst := hheld.toNew.later hs₃.later
  have hlater : s.Later s₃ := hd₃.later
  set T : Block := t.append (.single id (.call dst func nargs checked)) with hT
  have hd₃' : Drawn σ s body s₃ T.code (P.add dst) := by
    rw [hT, Block.code_append]
    exact hd₃.move_le (P.le_add dst) (hd₃.fine.made.add hdst.lt)
  refine (hg dst s₃ T hd₃' (by rw [hs₃.stack, hstack₂, hs.stack])).after hd₃' (ht.append
    ⟨rfl, by simp, trivial⟩) ⟨P.le_add dst, fun {w} hw θ hθ => ?_, absurd⟩
  -- the call takes what was pushed
  have hcall : (Block.single id (.call dst func nargs checked)).Does w (Pushed w s P θ nargs)
      fun _ ρ' => (P.add dst).At w s₃ ρ' ∧ Kept s θ ρ' := by
    refine Block.does_single (fun ρ hρ => ⟨hρ.noted, hρ.reads hin, ⟨hρ.calm, ?_, fun hc => ?_⟩,
      World.unheld_of_calm hρ.calm, hρ.calm.shields _⟩) ?_
    · rw [hρ.2]
    · obtain ⟨k, f, hk, hf, harity⟩ := hknown hc
      obtain ⟨κ, hκ⟩ := hρ.1.holds func hfunc
      obtain ⟨f', unit, hf', rfl, u, -, hu, hau, -⟩ := hκ.known hk
      obtain rfl := Option.some.inj (hf.symm.trans hf')
      refine ⟨unit, u, ?_, hu, hau.trans harity⟩
      rw [hρ.2]
      exact hκ.value
    · rintro ρ ρ' ⟨hat, rfl⟩ ⟨κ, hκ, rfl⟩
      have henv : ({ ({ θ with pushed := nargs } : Env).set dst (.val κ) with pushed := 0 } : Env) =
          θ.set dst (.val κ) := by
        ext1
        · rfl
        · rfl
        · exact hat.pushed.symm
      rw [henv]
      refine ⟨hat.fill hf.made hlater hdst.new hdst.lt ⟨by simp, hκ, fun ht => ?_, fun hf ht => ?_,
        fun hk => ?_⟩ (hw.keeps hdst.new hdst.lt) hd₃.fine.flags, Kept.set s θ hdst.new⟩
      · rw [hdst.typeOf?] at ht
        cases ht
      · rw [hdst.facts] at hf
        rw [← Option.some.inj hf] at ht
        cases ht
      · rw [hdst.known] at hk
        cases hk
  have hall := hpush.append (R := fun _ ρ' => (P.add dst).At w s₃ ρ' ∧ Kept s θ ρ') hcall
    (fun _ _ _ hq => hq) fun _ _ _ _ _ hq => hq
  have hstart : Pushed w s P θ 0 θ := ⟨hθ, by rw [← hθ.pushed]⟩
  exact ⟨(hall θ hstart).1, (hall θ hstart).2⟩

theorem Fine.genRuntimeCall (h : Fine σ s body P) (hfunc : func ∈ P.regs)
    (hargs : ∀ r ∈ args, r ∈ P.regs) (checked guard tailCall : Bool)
    (hknown : checked = false → ∃ k f, s.draft.known[func]? = some k ∧ s.functions[k]? = some f ∧
      f.arity = args.length) (loc : Option Location) :
    Emits σ (Gen.genRuntimeCall ctx func args checked guard tailCall loc)
      (Gen.genRuntimeCall ctx func args checked guard tailCall loc) s body P (Answer s tailCall) := by
  refine Runs.bind (h.drawn.pushArgs args hargs) fun _ s₁ hd => ?_
  obtain ⟨T, hd, hT, hs, hpush⟩ := hd
  have hpush : ∀ {w θ}, T.Does w (Pushed w s P θ 0) fun _ ρ' => Pushed w s P θ args.length ρ' :=
    fun {w θ} => by simpa using hpush (w := w) (θ := θ) (k := 0)
  cases tailCall with
  | true =>
    have hin : ∀ q ∈ (Instr.tailCall func args.length : Instr NodeId).inputs, q ∈ P.regs := by
      simpa [Instr.inputs] using hfunc
    have hgood : Good s₁.regs (.tailCall func args.length) :=
      good_of_plain rfl rfl fun q hq => hd.fine.lt (hin q hq)
    refine Runs.bind (hd.write hgood (by simp [Instr.creates])) fun _ s₂ hd₂ => ?_
    obtain ⟨id, hd₂, hs₂⟩ := hd₂
    have hd₂ := hd₂.move_le P.le_stop ⟨hd₂.fine.made.regs, hd₂.fine.made.sure⟩
    refine runs_pure ⟨T.append (.single id (.tailCall func args.length)), P.stop, by simpa using hd₂,
      hT.append ⟨rfl, by simp, trivial⟩, ⟨P.le_stop, fun {w} hw θ hθ => ?_,
        fun _ _ => Block.Stops.after (u := .single id _) (Or.inl rfl) T⟩,
      by simp, by simp,
      fun _ hlive => hlive, ?_⟩
    · have hall := (hpush (w := w) (θ := θ)).append (R := fun _ _ => False) (Block.does_single (a := id)
        (i := .tailCall func args.length) (Q := fun _ _ => False) (fun ρ hρ =>
          ⟨Pushed.noted hρ, Pushed.reads hρ hin, ⟨Pushed.calm hρ, by rw [hρ.2]⟩,
            by simp [Instr.creates], trivial⟩)
        fun ρ ρ' _ hf => hf) (fun _ _ _ hq => hq) fun _ _ _ _ _ hq => hq
      have hstart : Pushed w s P θ 0 θ := ⟨hθ, by rw [← hθ.pushed]⟩
      exact ⟨(hall θ hstart).1, fun ρ' hrun => ((hall θ hstart).2 ρ' hrun).elim⟩
    · rw [hs₂.stack, hs.stack]
  | false =>
    refine hd.call h hT hs hfunc checked hpush hknown fun dst s₂ t₂ hd₂ hstack => ?_
    have hdst := P.mem_add dst
    have hstack : s.draft.stack <:+ s₂.draft.stack := by rw [hstack]
    split_ifs
    · refine (hd₂.fine.returnErrors ctx hdst loc).bind fun _ s₃ _ P₃ hd₃ hle hq => ?_
      exact hd₃.fine.pure ⟨by simp, by simpa using hle.1 hdst, by simp, by rwa [hq]⟩
    · exact hd₂.fine.pure ⟨by simp, by simpa using hdst, by simp, hstack⟩

/-! ## Known functions -/

theorem Fine.knownCallee (h : Fine σ s body P) (func : Reg) (nargs : Nat) :
    ∃ o : Option KnownFunction, (Gen.knownCallee func nargs).run s = .ok (o, s) ∧
      ∀ f ∈ o, f.body.size < σ.size ∧ ∃ k, s.draft.known[func]? = some k ∧ s.functions[k]? = some f ∧
        f.arity = nargs := by
  refine ⟨_, rfl, fun f hf => ?_⟩
  obtain ⟨hf, harity⟩ := Option.mem_filter_iff.mp hf
  obtain ⟨k, hk, hf⟩ := Option.bind_eq_some_iff.mp hf
  obtain ⟨-, f', hf', hsize⟩ := h.known hk
  obtain rfl := Option.some.inj (hf'.symm.trans hf)
  exact ⟨hsize, k, hk, hf, by simpa using harity⟩

/-- The site inside a body that takes the place of a call. -/
def Site.deeper (σ : Site) : Site := { σ with depth := σ.depth + 1 }

/-- **A body in place of a call.** -/
theorem Fine.genInlined (h : Fine σ s body P) (he : Serves (Site.deeper σ) sub sub' e)
    (hargs : ∀ r ∈ args, r ∈ P.regs) (guard : Bool) (loc : Option Location) (tail : Bool) :
    Emits σ (Gen.genInlined ctx sub e args guard loc tail)
      (Gen.genInlined ctx sub' e args guard loc tail) s body P (Answer s tail) := by
  refine Runs.read (draft_run s) ?_
  -- the parameters are all that is in scope
  set s₁ : GenState := { s with draft := { s.draft with
    stack := (args.map fun r => (⟨r, false⟩ : Variable)).reverse
    inlined := s.draft.inlined + 1 } } with hs₁
  refine Runs.bind (.of_eq (Q := fun _ s' => s' = s₁) rfl rfl) fun _ _ hs => ?_
  subst hs
  have hlater₁ : s.Later s₁ := ⟨le_rfl, fun _ => rfl, fun _ => rfl, fun _ => rfl, id, id, id⟩
  have hf₁ : Fine (Site.deeper σ) s₁ body P := by
    refine ⟨h.linked, h.cursor, h.flags, ⟨h.made.regs, h.made.sure⟩, fun v hv => ?_, h.known,
      h.narrowed, congrArg (· + 1) h.inlined, fun hk p hp => h.plain hk p ⟨hp.pool, hp.units⟩⟩
    obtain ⟨r, hr, rfl⟩ := List.mem_map.mp (List.mem_reverse.mp hv)
    exact ⟨hargs r hr, by simp⟩
  refine Runs.bind (he.expr tail hf₁) fun out s₂ hd₂ => ?_
  obtain ⟨T, P₂, hd₂, hT, hl₂, hout⟩ := hd₂
  -- back to the scope of the call
  set s₃ : GenState := { s₂ with draft := { s₂.draft with
    stack := s.draft.stack
    inlined := s₂.draft.inlined - 1 } } with hs₃
  refine Runs.bind (.of_eq (Q := fun _ s' => s' = s₃) rfl rfl) fun _ _ hs => ?_
  subst hs
  have hlater₃ : s₂.Later s₃ := ⟨le_rfl, fun _ => rfl, fun _ => rfl, fun _ => rfl, id, id, id⟩
  have hd₃ : Drawn σ s body s₃ T.code P₂ := by
    have hf₂ := hd₂.fine
    refine ⟨⟨hf₂.linked, hf₂.cursor, hf₂.flags, ⟨hf₂.made.regs, hf₂.made.sure⟩, fun v hv => ?_,
      hf₂.known, hf₂.narrowed, ?_, fun hk p hp => hf₂.plain hk p ⟨hp.pool, hp.units⟩⟩, hd₂.writes,
      (hlater₁.trans hd₂.later).trans hlater₃⟩
    · obtain ⟨hreg, hcell⟩ := h.stack v hv
      refine ⟨hl₂.le.1 hreg, fun hmut => ?_⟩
      exact (((hlater₁.trans hd₂.later).trans hlater₃).typeOf? (h.lt hreg)).trans (hcell hmut)
    · show s₂.draft.inlined - 1 = σ.depth
      rw [hf₂.inlined]
      exact Nat.add_sub_cancel ..
  have hl₃ : Leads σ s P T s₃ P₂ := by
    refine ⟨hl₂.le, fun hw => ?_, hl₂.stops⟩
    have hw₂ : (Site.deeper σ).Admits _ s₁ s₂ :=
      ⟨⟨hlater₃.within hw.within, hw.ctx, hw.caps⟩, fun hr hr' => (hw.keeps hr hr').earlier hlater₃ hr', hw.ok⟩
    refine (hl₂.does hw₂).mono (fun ρ hρ => hρ.later h.made hlater₁) fun ρ ρ' _ hq => ?_
    exact ⟨hq.1.later hd₂.fine.made hlater₃, hq.2⟩
  refine Emits.after ?_ hd₃ hT hl₃
  have hstack₃ : s.draft.stack <:+ s₃.draft.stack := List.suffix_refl _
  cases out with
  | none => exact hd₃.fine.pure ⟨hout.some, hout.mem, hout.ends, hstack₃⟩
  | some r =>
    have hr : r ∈ P₂.regs := hout.mem r rfl
    dsimp only
    split_ifs
    · refine (hd₃.fine.returnErrors ctx hr loc).bind fun _ s₄ _ P₄ hd₄ hle hq => ?_
      exact hd₄.fine.pure ⟨by simp, by simpa using hle.1 hr, by simp, by rw [hq]⟩
    · exact hd₃.fine.pure ⟨hout.some, hout.mem, by simp, hstack₃⟩

/-- **Code for a call.** -/
theorem Fine.genCall (h : Fine σ s body P) {callee : Expr} {args : List Expr}
    (hcallee : Serves σ sub sub' callee) (hargs : ∀ e ∈ args, Serves σ sub sub' e)
    (hinline : ∀ e : Expr, e.size < σ.size → σ.depth < ctx.settings.inlineLevels →
      Serves (Site.deeper σ) sub sub' e) (guard : Bool) (loc : Option Location) (tail c : Bool) :
    Emits σ (Gen.genCall ctx sub callee args guard loc tail)
      (Gen.genCall (ctx.checking c) sub' callee args guard loc tail) s body P (Answer s tail) := by
  refine (h.values args hargs).bind fun regs s₁ t₁ P₁ hd _ hregs => ?_
  refine (hcallee.value hd.fine).bind fun func s₂ t₂ P₂ hd₂ hle₂ hfunc => ?_
  have hstack : s.draft.stack <:+ s₂.draft.stack := hregs.2.2.trans hfunc.2
  have hregs : ∀ r ∈ regs, r ∈ P₂.regs := fun r hr => hle₂.1 (hregs.1 r hr)
  have hcall : ∀ checked, (checked = false → ∃ k f, s₂.draft.known[func]? = some k ∧
      s₂.functions[k]? = some f ∧ f.arity = regs.length) → Emits σ
      (Gen.genRuntimeCall ctx func regs checked guard (tail && isVar callee) loc)
      (Gen.genRuntimeCall ctx func regs checked guard (tail && isVar callee) loc) s₂
      (body ++ t₁.code ++ t₂.code) P₂ (Answer s tail) := fun checked hknown =>
    (hd₂.fine.genRuntimeCall hfunc.1 hregs checked guard _ hknown loc).mono fun out s' _ _ _ _ ha =>
      ⟨fun ht => ha.some (by simp [ht]), ha.mem, ha.ends, hstack.trans ha.stack⟩
  obtain ⟨o, ho, hknown⟩ := hd₂.fine.knownCallee func regs.length
  refine Runs.read ho ?_
  cases o with
  | none => exact hcall true (by simp)
  | some f =>
    obtain ⟨hsize, k, hk, hf, harity⟩ := hknown f rfl
    refine Runs.read (draft_run s₂) ?_
    rw [hd₂.fine.inlined]
    show Runs (if mayInline ctx.settings σ.depth f = true then _ else _)
      (if mayInline ctx.settings σ.depth f = true then _ else _) s₂ _
    split_ifs with hmay
    · have hd : σ.depth < ctx.settings.inlineLevels := by
        simp only [mayInline, Bool.and_eq_true, decide_eq_true_eq] at hmay
        exact hmay.1.1.2
      exact (hd₂.fine.genInlined (hinline f.body hsize hd) hregs guard loc tail).mono
        fun out s' _ _ _ _ ha => ⟨ha.some, ha.mem, ha.ends, hstack.trans ha.stack⟩
    · exact hcall false fun _ => ⟨k, f, hk, hf, harity⟩

end Gen

end CountedMachine
