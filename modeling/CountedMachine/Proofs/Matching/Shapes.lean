import CountedMachine.Proofs.Matching.Closing

/-! # The shapes of a match

Code for a match has one of five shapes, by what is known about the value and how deep the pattern is.
In each of them it runs the right arm (`Fine.genAlternatives_decides`). -/

namespace CountedMachine

open Listing Heap

/-! ## What is known about a value -/

section
variable {types : Array StructType} {h : Heap} {w : Value} {p : Pattern} {ty : ObjType}
  {fields : List (Nat × Pattern)} {type : Option StaticType}

theorem Pattern.lt_of_validateFields {n : Nat} {fields : List (Nat × Pattern)}
    (h : validateFields types ty n fields = .ok ()) : ∀ f ∈ fields, f.1 < n := by
  induction fields with
  | nil => simp
  | cons f rest ih =>
    obtain ⟨hlt, -, hrest⟩ := validateFields_cons h
    exact List.forall_mem_cons.mpr ⟨hlt, ih hrest⟩

/-- **A pattern of one level** matches every value of its type. -/
theorem Pattern.fits_of_type (hp : (unpack ty fields).validate types = .ok ()) (hh : h.Proper types)
    (hdepth : ∀ f ∈ fields, f.2.depth = 0) (hw : h.typeOf w = some (.obj ty)) :
    (unpack ty fields).fits h (.value w) = true := by
  obtain ⟨n, hn, hfields⟩ := validate_unpack hp
  simp [fits, hw, fitsFields_of_depth hh hw hn (lt_of_validateFields hfields) hdepth]

theorem Forecast.fits_of_fits (hp : p.validate types = .ok ()) (hh : h.Proper types)
    (e : Forecast.of type p = .fits) (ht : ∀ t, type = some t → h.typeOf w = some t) :
    p.fits h (.value w) = true := by
  cases p with
  | bind => rfl
  | ignore => rfl
  | unpack want fields =>
    cases type with
    | none => cases e
    | some t =>
      simp only [Forecast.of] at e
      split_ifs at e with hty hdepth
      exact Pattern.fits_of_type hp hh (by simpa using hdepth) ((ht t rfl).trans (by rw [hty]))

theorem Forecast.type_of_fails (e : Forecast.of type p = .fails)
    (ht : ∀ t, type = some t → h.typeOf w = some t) :
    ∃ want fields, p = .unpack want fields ∧ h.typeOf w ≠ some (.obj want) := by
  cases p with
  | bind => cases e
  | ignore => cases e
  | unpack want fields =>
    cases type with
    | none => cases e
    | some t =>
      simp only [Forecast.of] at e
      split_ifs at e with hty hdepth
      refine ⟨want, fields, rfl, fun hw => hty ?_⟩
      exact Option.some.inj ((ht t rfl).symm.trans hw)

end

/-- Code without branches on a stage. -/
theorem Listing.Flat.hosts {S : Stage} {types : Array StructType} {A : Nat → Prop}
    {ys before after zs : Code} (h : Flat ys) (ht : S.program.types = types)
    (hcode : S.code = before ++ (ys ++ after))
    (hA : ∀ q, before.length ≤ q → q < before.length + ys.length → A q) :
    S.Hosts types A id before ys after zs :=
  ⟨ht, by rwa [h.steer_eq], hA, fun p hp hl => absurd (h p hp) hl⟩

namespace Gen

variable {β : Type} {σ : Site} {sub sub' : Sub} {s s' s₁ s₂ s₃ s₄ s₆ s₇ : GenState}
  {body xs xs' ys us us' mv mv' c₀ c₁ c₂ before after : Code} {P P₁ P₂ P₃ P₄ P₇ : Point} {ctx : Context}
  {p : Pattern} {yes no e : Expr} {v f : Reg} {rs : List Reg} {x y out merged : Option Reg} {S : Stage}
  {A : Nat → Prop} {ty : ObjType} {fields : List (Nat × Pattern)} {a b j k n : NodeId} {m : Memory}
  {w : Value}

theorem GenState.Later.knows (hl : s.Later s₁) (hv : v.index < s.regs.size) {h : Heap} {x : Part}
    (hx : s.Knows v h x) : s₁.Knows v h x := fun t ht => hx t (hl.typeOf? hv ▸ ht)

/-! ## One arm -/

/-- **A match without an alternative, or one that is certain to fit.** -/
theorem Fine.genFitting_decides (h : Fine σ s body P) (hctx : ctx.types = σ.types) (hv : v ∈ P.regs)
    (p : Pattern) (hyes : Serves σ sub sub' yes) (tail : Bool) {no : Option Expr}
    (hno : no = none ∨ Forecast.of (s.typeOf? v) p = .fits) :
    Runs (Gen.genFitting ctx sub v p yes tail) (Gen.genFitting ctx sub v p yes tail) s
      (Decided σ sub v p yes no s body) := by
  refine Runs.read (height_run s) ?_
  refine Runs.bind (Fine.bindWhole_tries hctx p h hv) fun _ s₁ hd => ?_
  obtain ⟨ys, P₁, rs, ht, hflat, hp⟩ := hd
  refine Runs.bind (hyes.codesExpr ht.drawn.fine tail) fun out s₂ hd₂ => ?_
  obtain ⟨us, P₂, hc⟩ := hd₂
  refine Runs.bind ((ht.drawn.trans hc.drawn).forgetAbove _) fun _ s₃ hd₃ => ?_
  obtain ⟨hd₃, rfl⟩ := hd₃
  set k : Side := ⟨ys, us, [], s₁, out, s₂⟩ with hk
  have hout : ∀ {S : Stage} {before after : Code} {m : Memory} {w : Value}, S.program.types = σ.types →
      S.code = before ++ (ys ++ us ++ after) → Poised σ.types s₂.regs.size v m w →
      s.Knows v m.heap (.value w) → S.Outcome (Between before.length (ys ++ us) (some k) none) true
        s.regs.size [] (ys ++ us ++ after) m (p.trial m.heap (.value w)) rs (us ++ after) := by
    intro S before after m w htypes hcode hm hknows
    have hhosts : S.Hosts σ.types (Between before.length (ys ++ us) (some k) none) id before ys
        (us ++ after) [] := by
      refine hflat.hosts htypes (by rw [hcode]; simp) fun q hq hq' => ?_
      simp only [Between, Side.Apart, hk, Option.mem_some_iff, List.length_append]
      exact ⟨by omega, by rintro _ rfl; exact .inl hq', by simp⟩
    have := ht.tries (x := .value w) hhosts (hm.over hc.drawn.later.size) hm.live hm.holds hknows
    simpa [hflat.steer_eq] using this
  refine runs_pure ⟨ys ++ us, P₂, some k, none, rs, hd₃, ?_, by simp, ?_, ?_⟩
  · rintro _ ⟨⟩
    exact ⟨by simp [hk], ⟨_, _, _, ht.drawn.fine, hc⟩, ht.stack⟩
  · intro S before after m w htypes hcode hm hknows hfits
    obtain ⟨m', hgo, hg, hbound⟩ := (hout htypes hcode hm hknows).fits hfits
    exact ⟨k, rfl, m', hgo, hg, rejoins_refl, hbound⟩
  · intro S before after m w htypes hcode hm hknows hmiss
    obtain rfl | hforecast := hno
    · exact .inl ⟨rfl, (hout htypes hcode hm hknows).misses hmiss⟩
    · rw [Forecast.fits_of_fits hp hm.proper hforecast hknows] at hmiss
      cases hmiss

/-- **A match that is certain to fail.** -/
theorem Fine.genFailing_decides (h : Fine σ s body P) (hno : Serves σ sub sub' no) (tail : Bool)
    (hforecast : Forecast.of (s.typeOf? v) p = .fails) :
    Runs (sub.expr no tail) (sub.expr no tail) s (Decided σ sub v p yes (some no) s body) := by
  refine (hno.codesExpr h tail).mono fun out s' hd => ?_
  obtain ⟨us, P₁, hc⟩ := hd
  set k : Side := ⟨[], us, [], s, out, s'⟩ with hk
  refine ⟨us, P₁, none, some k, [], hc.drawn, by simp, ?_, ?_, ?_⟩
  · rintro _ ⟨⟩
    exact ⟨no, rfl, by simp [hk], ⟨_, _, _, h, hc⟩, rfl⟩
  · intro S before after m w _ _ _ hknows hfits
    obtain ⟨want, fields, rfl, hne⟩ := Forecast.type_of_fails hforecast hknows
    obtain ⟨hmiss, -⟩ := Pattern.trial_unpack_of_ne (x := .value w) fields hne
    cases hfits.symm.trans hmiss
  · intro S before after m w _ _ hm hknows _
    obtain ⟨want, fields, rfl, hne⟩ := Forecast.type_of_fails hforecast hknows
    obtain ⟨-, hreads⟩ := Pattern.trial_unpack_of_ne (x := .value w) fields hne
    refine .inr ⟨k, rfl, m, ?_, .refl _ hm.proper.arena, rejoins_refl, trivial⟩
    rw [Trial.loads, hreads]
    exact Stage.Goes.refl _ _ _ _

/-! ## Two arms -/

/-- **Code with two arms on a stage**: what decides between the arms is passed along places in `A`. -/
structure Framed (S : Stage) (types : Array StructType) (A : Nat → Prop)
    (before c₀ us c₁ us' c₂ after : Code) : Prop where
  types : S.program.types = types
  code : S.code = before ++ (c₀ ++ (us ++ (c₁ ++ (us' ++ (c₂ ++ after)))))
  first : ∀ q, before.length ≤ q → q < before.length + c₀.length → A q
  second : ∀ q, (before ++ (c₀ ++ us)).length ≤ q → q < (before ++ (c₀ ++ us)).length + c₁.length → A q
  third : ∀ q, (before ++ (c₀ ++ (us ++ (c₁ ++ us')))).length ≤ q →
    q < (before ++ (c₀ ++ (us ++ (c₁ ++ us')))).length + c₂.length → A q

/-- The same code of the same program, on another machine. -/
theorem Framed.congr {types : Array StructType} {S₁ : Stage} (hS : Framed S types A before c₀ us c₁ us' c₂ after)
    (hp : S₁.program = S.program) (hc : S₁.code = S.code) : Framed S₁ types A before c₀ us c₁ us' c₂ after :=
  ⟨hp ▸ hS.types, hc.trans hS.code, hS.first, hS.second, hS.third⟩

/-- **Code with two arms runs the right one.** -/
theorem decides_arms (hf : Fine σ s₁ xs P) (hc : Coded σ sub yes s₁ xs x s₂ us P₂)
    (hstack : s₁.draft.stack = fixed rs.reverse ++ s.draft.stack) (hf' : Fine σ s₃ xs' P₃)
    (hc' : Coded σ sub no s₃ xs' y s₄ us' P₄) (hstack' : s₃.draft.stack = s.draft.stack)
    (hfits : ∀ {S : Stage} {A : Nat → Prop} {before after : Code} {m : Memory} {w : Value},
      Framed S σ.types A before c₀ us c₁ us' c₂ after → Poised σ.types s'.regs.size v m w →
      s.Knows v m.heap (.value w) → p.fits m.heap (.value w) = true →
        ∃ m', S.Goes A (c₀ ++ (us ++ (c₁ ++ (us' ++ (c₂ ++ after))))) m (p.trial m.heap (.value w)).loads
          (us ++ (c₁ ++ (us' ++ (c₂ ++ after)))) m' ∧ m.Grows s.regs.size m' ∧
          Rejoins S A x out s₁.regs.size m' (c₁ ++ (us' ++ (c₂ ++ after))) after ∧
          List.Forall₂ m'.Holds rs (p.bound m.heap (.value w)))
    (hmisses : ∀ {S : Stage} {A : Nat → Prop} {before after : Code} {m : Memory} {w : Value},
      Framed S σ.types A before c₀ us c₁ us' c₂ after → Poised σ.types s'.regs.size v m w →
      s.Knows v m.heap (.value w) → p.fits m.heap (.value w) = false →
        ∃ m', S.Goes A (c₀ ++ (us ++ (c₁ ++ (us' ++ (c₂ ++ after))))) m (p.trial m.heap (.value w)).loads
          (us' ++ (c₂ ++ after)) m' ∧ m.Grows s.regs.size m' ∧
          Rejoins S A y out s₃.regs.size m' (c₂ ++ after) after) :
    Decides σ sub v p yes (some no) s (c₀ ++ (us ++ (c₁ ++ (us' ++ c₂)))) s' out
      (some ⟨c₀, us, c₁ ++ (us' ++ c₂), s₁, x, s₂⟩) (some ⟨c₀ ++ (us ++ c₁), us', c₂, s₃, y, s₄⟩) rs := by
  set K : Side := ⟨c₀, us, c₁ ++ (us' ++ c₂), s₁, x, s₂⟩ with hK
  set K' : Side := ⟨c₀ ++ (us ++ c₁), us', c₂, s₃, y, s₄⟩ with hK'
  have hframed : ∀ {S : Stage} {before after : Code}, S.program.types = σ.types →
      S.code = before ++ (c₀ ++ (us ++ (c₁ ++ (us' ++ c₂))) ++ after) →
      Framed S σ.types (Between before.length (c₀ ++ (us ++ (c₁ ++ (us' ++ c₂)))) (some K) (some K'))
        before c₀ us c₁ us' c₂ after := by
    intro S before after htypes hcode
    refine ⟨htypes, by rw [hcode]; simp, fun q hq hq' => ?_, fun q hq hq' => ?_, fun q hq hq' => ?_⟩
    all_goals
      simp only [Between, Side.Apart, Option.mem_some_iff, forall_eq', hK, hK', List.length_append] at hq hq' ⊢
      omega
  refine ⟨?_, ?_, ?_, ?_⟩
  · rintro _ ⟨⟩
    exact ⟨rfl, ⟨_, _, _, hf, hc⟩, hstack⟩
  · rintro _ ⟨⟩
    exact ⟨no, rfl, by simp [hK'], ⟨_, _, _, hf', hc'⟩, hstack'⟩
  · intro S before after m w htypes hcode hm hknows h
    obtain ⟨m', hgo, hg, hjoin, hbound⟩ := hfits (hframed htypes hcode) hm hknows h
    exact ⟨K, rfl, m', by simpa [hK] using hgo, hg, by simpa [hK] using hjoin, hbound⟩
  · intro S before after m w htypes hcode hm hknows h
    obtain ⟨m', hgo, hg, hjoin⟩ := hmisses (hframed htypes hcode) hm hknows h
    exact .inr ⟨K', rfl, m', by simpa [hK'] using hgo, hg, by simpa [hK'] using hjoin, trivial⟩

/-- **Two arms that meet behind the second one** are left for the end of the match. -/
theorem Framed.meets {types : Array StructType}
    (hS : Framed S types A before c₀ us (mv ++ [(j, Instr.jump k), (n, .nop)]) us' (mv' ++ [(k, joint out)]) after)
    (hx : Ending out x mv) (hy : Ending out y mv') (hsize : ∀ q ∈ out, q.index < m.regs.size) :
    (∀ {r}, Rejoins S A x out r m (mv ++ [(j, Instr.jump k), (n, .nop)] ++ (us' ++ (mv' ++ [(k, joint out)] ++ after)))
      after) ∧ ∀ {r}, Rejoins S A y out r m (mv' ++ [(k, joint out)] ++ after) after := by
  have hk : S.code = (before ++ (c₀ ++ (us ++ (mv ++ [(j, Instr.jump k), (n, .nop)] ++ (us' ++ mv'))))) ++
      (k, joint out) :: after := by
    rw [hS.code]
    simp
  have hlast : ∀ S₁ : Stage, S₁.code = S.code → ∀ m, S₁.Goes A ((k, joint out) :: after) m [] after m :=
    fun _ hc => Stage.goes_joint (hS.third _ (by simp) (by simp; omega)) (hc.trans hk)
  constructor <;> intro r
  · have hj : S.code = (before ++ (c₀ ++ (us ++ mv))) ++ (j, Instr.jump k) :: ((n, Instr.nop) :: (us' ++
        (mv' ++ [(k, joint out)] ++ after))) := by
      rw [hS.code]
      simp
    have := hx.rejoins after (n := r) (show S.code = (before ++ (c₀ ++ us)) ++ (mv ++ (j, Instr.jump k) :: (n, .nop) ::
        (us' ++ (mv' ++ [(k, joint out)] ++ after))) by rw [hj]; simp)
      (fun q hq hq' => hS.second q hq (by simp at hq' ⊢; omega)) hsize fun S₁ _ hc m₁ _ =>
        (Stage.goes_jump (hS.second _ (by simp) (by simp; omega)) (hc.trans hj) (hc.trans hk)).trans
          (hlast S₁ hc m₁)
    simpa using this
  · have := hy.rejoins after (n := r) (show S.code = (before ++ (c₀ ++ (us ++ (mv ++ [(j, Instr.jump k), (n, .nop)] ++
        us')))) ++ (mv' ++ (k, joint out) :: after) by rw [hk]; simp)
      (fun q hq hq' => hS.third q hq (by simp at hq' ⊢; omega)) hsize fun S₁ _ hc m₁ _ => hlast S₁ hc m₁
    simpa using this

/-- **A match of one level**: one test and one branch. -/
theorem Fine.genOneLevel_decides (h : Fine σ s body P) (hctx : ctx.types = σ.types) (hv : v ∈ P.regs)
    (hdepth : ∀ f ∈ fields, f.2.depth = 0) (hyes : Serves σ sub sub' yes) (hno : Serves σ sub sub' no)
    (tail : Bool) : Runs (Gen.genOneLevel ctx sub v (.unpack ty fields) yes no tail)
      (Gen.genOneLevel ctx sub v (.unpack ty fields) yes no tail) s
      (Decided σ sub v (.unpack ty fields) yes (some no) s body) := by
  refine runs_validated (c := true) hctx fun hp => ?_
  obtain ⟨n, hn, hfields⟩ := Pattern.validate_unpack hp
  refine Runs.read (height_run s) ?_
  refine Runs.bind (h.tests hv ty) fun b s₁ hd => ?_
  obtain ⟨f, a, hd, hf, hstack₁⟩ := hd
  refine Runs.bind (hd.mergeReg tail) fun merged s₂ hd₂ => ?_
  obtain ⟨hd₂, hlater₂, hstack₂, hmerged⟩ := hd₂
  refine Runs.bind (Fine.bindParts_tries hctx hn fields hd₂.fine ((P.le_add f).1 hv) hfields) fun _ s₃ ht => ?_
  obtain ⟨ys, P₃, rs, ht, hflat⟩ := ht
  have hd₃ : Drawn σ s body s₃ ([(a, .testType f v ty)] ++ (b.node, Instr.branch f head) :: ys) P₃ := by
    simpa using hd₂.trans ht.drawn
  have hmade : ∀ m ∈ merged, Held s s₃ ([(a, .testType f v ty)] ++ (b.node, Instr.branch f head) :: ys)
      ⟨.merged, none⟩ m := by
    obtain ⟨-, rfl⟩ | ⟨-, m, rfl, hm, -⟩ := hmerged
    · simp
    · rintro _ ⟨⟩
      simpa using hm.trans hd₂ ht.drawn
  have hstack₃ : s₃.draft.stack = fixed rs.reverse ++ s.draft.stack := by
    rw [ht.stack, hstack₂, hstack₁]
  refine (hd₃.joins h (hstack₃ ▸ List.suffix_append _ _) hmade hyes hno).mono fun out s' hj => ?_
  obtain ⟨rfl, ⟨x, y, s₄, s₅, s₆, us, mv, zs, us', mv', j, k, l, P₄, P₆, P', hc, hx, hfine, hstack, hc', hy, hd',
    hsize', hmerges⟩⟩ := hj
  have hsize : s.regs.size ≤ s₂.regs.size := hd₂.later.size
  refine ⟨(a, .testType f v ty) :: (b.node, Instr.branch f l) :: ys ++ (us ++ (mv ++ [(j, Instr.jump k), (l, .nop)] ++
    (us' ++ (mv' ++ [(k, joint out)])))), P', _, _, rs, by simpa using hd',
    decides_arms hd₃.fine hc hstack₃ hfine hc' hstack (fun {S A before after m w} hS hm hknows hfits => ?_)
      fun {S A before after m w} hS hm hknows hmiss => ?_⟩
  all_goals
    have hf' : f.index < m.regs.size := hf.lt.trans_le
      ((hlater₂.trans ht.drawn.later).size.trans (hsize'.trans hm.size))
    have hg : ∀ t, m.Grows s.regs.size (m.set f (.bool t)) := fun _ =>
      Memory.grows_set (Heap.Extends.refl _) hm.proper.arena hf.new
    have hlt : ∀ m', m.Grows s.regs.size m' → ∀ q ∈ out, q.index < m'.regs.size := fun m' hg' q hq =>
      hg'.size ▸ (hmerges q hq).trans_le hm.size
    have hcode := hS.code
    simp only [List.cons_append] at hcode
    have hA₀ : A before.length := hS.first _ le_rfl (by simp)
    have hA₁ : A (before.length + 1) := hS.first _ (by omega) (by simp)
  · have hw : m.heap.typeOf w = some (.obj ty) := by
      simp only [Pattern.fits, Bool.and_eq_true, decide_eq_true_eq] at hfits
      exact hfits.1
    have hgo := Stage.goes_tested_yes hA₀ hA₁ hf' hcode hm.reg hm.live hw
    have hhosts : S.Hosts σ.types A id (before ++ [(a, .testType f v ty), (b.node, Instr.branch f l)]) ys
        (us ++ (mv ++ [(j, Instr.jump k), (l, .nop)] ++ (us' ++ (mv' ++ [(k, joint out)] ++ after)))) [] := by
      refine hflat.hosts hS.types (by rw [hcode]; simp) fun q hq hq' => hS.first q ?_ ?_
      · simp at hq
        omega
      · simp at hq' ⊢
        omega
    have hout := ht.tries (x := .value w) hhosts ((hm.over hsize').grows (hg true)) hm.live
      (hm.holds.grows (hg true) (h.lt hv)) hw
    rw [hflat.steer_eq] at hout
    obtain ⟨m₂, hgo₂, hg₂, hbound⟩ := hout.fits hfits
    have hg' := (hg true).trans hg₂ hsize
    exact ⟨m₂, hgo.trans hgo₂, hg', (hS.meets hx hy (hlt m₂ hg')).1, hbound⟩
  · have hw : m.heap.typeOf w ≠ some (.obj ty) := fun hw => by
      rw [Pattern.fits_of_type hp hm.proper hdepth hw] at hmiss
      cases hmiss
    obtain ⟨-, hreads⟩ := Pattern.trial_unpack_of_ne (x := .value w) fields hw
    have hl : S.code = (before ++ ((a, .testType f v ty) :: (b.node, Instr.branch f l) :: ys ++ (us ++ (mv ++
        [(j, Instr.jump k)])))) ++ (l, Instr.nop) :: (us' ++ (mv' ++ [(k, joint out)] ++ after)) := by
      rw [hcode]
      simp
    have hgo := Stage.goes_tested_no hA₀ hA₁ hf' hcode hm.reg hm.live hw hl
    rw [Trial.loads, hreads]
    refine ⟨_, hgo.trans (Stage.goes_nop (hS.second _ ?_ ?_) hl), hg false,
      (hS.meets hx hy (hlt _ (hg false))).2⟩
    · simp
    · simp
      omega

/-- **The levels of a pattern on a stage**, with what closes them behind the first arm. -/
theorem Framed.nests {types : Array StructType} {lab : NodeId → NodeId} {c c' cs d : Code}
    (hS : Framed S types A before (c ++ (steer lab ys ++ c')) us (mv ++ (cs ++ d)) us' c₂ after)
    (hclose : Closers lab ys cs) :
    S.Hosts types A lab (before ++ c) ys (c' ++ (us ++ (mv ++ (cs ++ (d ++ (us' ++ (c₂ ++ after)))))))
      (d ++ (us' ++ (c₂ ++ after))) ∧
    ∀ m, S.Goes A (cs ++ (d ++ (us' ++ (c₂ ++ after)))) m [] (d ++ (us' ++ (c₂ ++ after))) m := by
  have hcs : S.code = (before ++ (c ++ (steer lab ys ++ (c' ++ (us ++ mv))))) ++
      (cs ++ (d ++ (us' ++ (c₂ ++ after)))) := by
    rw [hS.code]
    simp
  obtain ⟨hleads, hgo⟩ := hclose (A := A) hcs fun q hq hq' =>
    hS.second q (by simp at hq ⊢; omega) (by simp at hq' ⊢; omega)
  refine ⟨⟨hS.types, by rw [hS.code]; simp, fun q hq hq' => hS.first q ?_ ?_, hleads⟩, hgo⟩
  · simp at hq
    omega
  · simp at hq' ⊢
    omega

/-- **A nested match in tail position.** -/
theorem Fine.genLevelsTail_decides (h : Fine σ s body P) (hv : v ∈ P.regs)
    (hp : p.validate σ.types = .ok ()) (hyes : Serves σ sub sub' yes) (hno : Serves σ sub sub' no) :
    Runs (Gen.genLevelsTail sub v p yes no) (Gen.genLevelsTail sub v p yes no) s
      (Decided σ sub v p yes (some no) s body) := by
  refine Runs.read (height_run s) ?_
  refine Runs.bind (Fine.descend_tries p h hv hp) fun bs s₁ ht => ?_
  obtain ⟨ys, P₁, rs, ht, hopen⟩ := ht
  refine Runs.bind (hyes.codesTail ht.drawn.fine) fun _ s₂ hc => ?_
  obtain ⟨us, P₂, hc⟩ := hc
  refine Runs.bind ((ht.drawn.trans hc.drawn).forgetAbove _) fun _ s₃ hd₃ => ?_
  obtain ⟨hd₃, rfl⟩ := hd₃
  have hstack₃ := drop_of_suffix ((ht.stack ▸ List.suffix_append _ _).trans hc.stack :
    s.draft.stack <:+ s₂.draft.stack)
  refine Runs.bind (hd₃.steers hopen) fun _ s₄ hd₄ => ?_
  obtain ⟨lab, cs, hd₄, hs₄, hclose⟩ := hd₄
  have hstack₄ : s₄.draft.stack = s.draft.stack := hs₄.stack.trans hstack₃
  -- the second arm starts where the value has not been taken apart
  have hd₄ := hd₄.move (h.made.later hd₄.later) fun v hv => (h.stack v (hstack₄ ▸ hv)).1
  refine Runs.bind (hno.codesTail hd₄.fine) fun _ s₅ hc' => ?_
  obtain ⟨us', P₅, hc'⟩ := hc'
  have hsize : s₁.regs.size ≤ s₅.regs.size :=
    ((hc.drawn.later.trans (later_withStack _ _)).trans hs₄.later).size.trans hc'.drawn.later.size
  refine runs_pure ⟨[] ++ (steer lab ys ++ []) ++ (us ++ ([] ++ (cs ++ []) ++ (us' ++ []))), P₅, _, _, rs,
    by simpa using hd₄.trans hc'.drawn, decides_arms ht.drawn.fine hc ht.stack hd₄.fine hc' hstack₄
      (fun {S A before after m w} hS hm hknows hfits => ?_) fun {S A before after m w} hS hm hknows hmiss => ?_⟩
  all_goals
    have hout := ht.tries (x := .value w) (hS.nests hclose).1 (hm.over hsize) hm.live hm.holds hknows
  · obtain ⟨m', hgo, hg, hbound⟩ := hout.fits hfits
    exact ⟨m', by simpa using hgo, hg, rejoins_none, hbound⟩
  · obtain ⟨m', hgo, hg⟩ := hout.misses hmiss
    exact ⟨m', by simpa using hgo, hg, rejoins_none⟩

/-- **The first arm of a nested match whose value is used has been written**: the levels of the pattern,
the flag cleared behind them, the arm, and what closes the levels. -/
structure Levelled (σ : Site) (sub : Sub) (v : Reg) (p : Pattern) (yes : Expr) (s : GenState) (body : Code)
    (P : Point) (f m x : Reg) (s' : GenState) where
  (s₁ s₂ s₃ : GenState)
  (ys us mv cs : Code)
  (a : NodeId)
  (rs : List Reg)
  (lab : NodeId → NodeId)
  (P₁ P₃ P' : Point)
  tried : Tried σ s body P false v (s.Knows v) p s₁ ys P₁ rs
  fine : Fine σ s₂ (body ++ (ys ++ [(a, Instr.flag f false)])) P₁
  stack₂ : s₂.draft.stack = fixed rs.reverse ++ s.draft.stack
  coded : Coded σ sub yes s₂ (body ++ (ys ++ [(a, Instr.flag f false)])) (some x) s₃ us P₃
  moved : Ending (some m) (some x) mv
  closers : Closers lab ys cs
  drawn : Drawn σ s body s' (steer lab ys ++ ((a, Instr.flag f false) :: (us ++ mv) ++ cs)) P'
  stack : s'.draft.stack = s.draft.stack
  le₂ : s.regs.size ≤ s₂.regs.size
  size : s₁.regs.size ≤ s'.regs.size
  lt : x.index < s'.regs.size

theorem Fine.genMatched_levels (h : Fine σ s body P) (hv : v ∈ P.regs) (hp : p.validate σ.types = .ok ())
    (hf : IsFlag s P f) (r : Reg) (hyes : Serves σ sub sub' yes) :
    Runs (Gen.genMatched sub v p f r s.draft.stack.length yes)
      (Gen.genMatched sub v p f r s.draft.stack.length yes) s fun x s' =>
        Nonempty (Levelled σ sub v p yes s body P f r x s') := by
  refine Runs.bind (Fine.descend_tries p h hv hp) fun bs s₁ ht => ?_
  obtain ⟨ys, P₁, rs, ht, hopen⟩ := ht
  refine Runs.bind (ht.drawn.setFlag (hf.later h ht.drawn.later ht.le) false) fun _ s₂ hd₂ => ?_
  obtain ⟨a, hd₂, hs₂⟩ := hd₂
  have hstack₂ := hs₂.stack.trans ht.stack
  refine hyes.codesMoved hd₂.fine r _ fun {x s₃ us mv s₄ P₄} hw => ?_
  have hd₄ : Drawn σ s body s₄ (ys ++ ((a, Instr.flag f false) :: (us ++ mv))) P₄ := by
    simpa using hd₂.trans hw.drawn
  refine Runs.bind (hd₄.steers hopen) fun _ s₅ hd₅ => ?_
  obtain ⟨lab, cs, hd₅, hs₅, hclose⟩ := hd₅
  have hlater : s₂.Later s₅ := hw.drawn.later.trans hs₅.later
  exact runs_pure ⟨s₁, s₂, s₃, ys, us, mv, cs, a, rs, lab, P₁, _, P₄, ht, hd₂.fine, hstack₂, hw.coded, hw.ending,
    hclose, hd₅, hs₅.stack.trans (hw.stack _ rfl (hstack₂ ▸ List.suffix_append _ _)), hd₂.later.size,
    hs₂.later.size.trans hlater.size, (hw.drawn.fine.lt (hw.coded.mem x rfl)).trans_le hs₅.later.size⟩

/-- **Two arms between which a flag decides**: from the end of the first one, where the flag is cleared,
control gets past the second one. -/
theorem Framed.skips {types : Array StructType} {lab : NodeId → NodeId} {c cs : Code} {r : Reg}
    (hS : Framed S types A before (c ++ (steer lab ys ++ [(a, Instr.flag f false)])) us
      (mv ++ (cs ++ [(b, Instr.branch f n)])) us' (mv' ++ [(j, Instr.jump k), (n, .nop), (k, .merge r)]) after)
    (hclose : Closers lab ys cs) (hx : Ending (some r) x mv) (hy : Ending (some r) y mv') (hfr : f ≠ r)
    (hsize : r.index < m.regs.size) :
    (m.reg? f = some (.bool false) → ∀ {q}, f.index < q → Rejoins S A x (some r) q m
      (mv ++ (cs ++ [(b, Instr.branch f n)]) ++
        (us' ++ (mv' ++ [(j, Instr.jump k), (n, .nop), (k, .merge r)] ++ after))) after) ∧
      ∀ {q}, Rejoins S A y (some r) q m (mv' ++ [(j, Instr.jump k), (n, .nop), (k, .merge r)] ++ after) after := by
  set c₀ := c ++ (steer lab ys ++ [(a, Instr.flag f false)]) with hc₀
  set c₁ := mv ++ (cs ++ [(b, Instr.branch f n)]) with hc₁
  have hn : S.code = (before ++ (c₀ ++ (us ++ (c₁ ++ (us' ++ (mv' ++ [(j, Instr.jump k)])))))) ++
      (n, Instr.nop) :: ((k, Instr.merge r) :: after) := by
    rw [hS.code]
    simp
  have hk : S.code = (before ++ (c₀ ++ (us ++ (c₁ ++ (us' ++ (mv' ++ [(j, Instr.jump k), (n, .nop)])))))) ++
      (k, Instr.merge r) :: after := by
    rw [hS.code]
    simp
  have hlast : ∀ S₁ : Stage, S₁.code = S.code → ∀ m, S₁.Goes A ((k, Instr.merge r) :: after) m [] after m :=
    fun _ hc _ => Stage.goes_merge (hS.third _ (by simp) (by simp; omega)) (hc.trans hk)
  constructor
  · intro hflag q hq
    have hb : S.code = (before ++ (c₀ ++ (us ++ (mv ++ cs)))) ++ (b, Instr.branch f n) :: (us' ++
        (mv' ++ [(j, Instr.jump k), (n, .nop), (k, .merge r)] ++ after)) := by
      rw [hS.code]
      simp [hc₁]
    have := hx.rejoins after (n := q) (show S.code = (before ++ (c₀ ++ us)) ++ (mv ++ (cs ++ ([(b, Instr.branch f n)] ++
        (us' ++ (mv' ++ [(j, Instr.jump k), (n, .nop), (k, .merge r)] ++ after))))) by rw [hb]; simp)
      (fun q hq hq' => hS.second q hq (by simp [hc₁] at hq' ⊢; omega)) (by simpa using hsize)
      fun S₁ hp hc m₁ hsame => ?_
    · simpa [hc₁] using this
    · have hfalse : m₁.reg? f = some (.bool false) :=
        (hsame f hq fun e => hfr (Option.some.inj e).symm).trans hflag
      have hbranch := Stage.goes_branch_no (hS.second _ (by simp) (by simp [hc₁]; omega)) (hc.trans hb) hfalse
        (hc.trans hn)
      have hnop := Stage.goes_nop (m := m₁) (hS.third _ (by simp) (by simp; omega)) (hc.trans hn)
      exact (((hS.congr hp hc).nests hclose).2 m₁).trans (hbranch.trans (hnop.trans (hlast S₁ hc m₁)))
  · intro q
    have hj : S.code = (before ++ (c₀ ++ (us ++ (c₁ ++ (us' ++ mv'))))) ++ (j, Instr.jump k) ::
        ((n, Instr.nop) :: (k, Instr.merge r) :: after) := by
      rw [hS.code]
      simp
    have := hy.rejoins after (n := q) (show S.code = (before ++ (c₀ ++ (us ++ (c₁ ++ us')))) ++ (mv' ++
        (j, Instr.jump k) :: (n, .nop) :: (k, Instr.merge r) :: after) by rw [hj]; simp)
      (fun q hq hq' => hS.third q hq (by simp at hq' ⊢; omega)) (by simpa using hsize) fun S₁ _ hc m₁ _ =>
        (Stage.goes_jump (hS.third _ (by simp) (by simp; omega)) (hc.trans hj) (hc.trans hk)).trans
          (hlast S₁ hc m₁)
    simpa using this

/-- **The first part of a nested match whose value is used**: the flag is set, and where the pattern fits
it is cleared again before the first arm; where it does not, control gets to the second arm. -/
theorem Levelled.decides {x r : Reg} (L : Levelled σ sub v p yes s₂ (body ++ [(a, Instr.flag f true)]) P f r x s₃)
    (hl : s.Later s₂) (hv : v.index < s.regs.size) (hf : s.regs.size ≤ f.index) (hf₂ : f.index < s₂.regs.size)
    (hS : Framed S σ.types A before ([(a, Instr.flag f true)] ++ (steer L.lab L.ys ++ [(L.a, Instr.flag f false)])) L.us
      (L.mv ++ (L.cs ++ [(b, Instr.branch f n)])) us' c₂ after) (hm : Poised σ.types s₃.regs.size v m w)
    (hf₃ : f.index < s₃.regs.size) (hknows : s.Knows v m.heap (.value w)) :
    (p.fits m.heap (.value w) = true → ∃ m', S.Goes A ([(a, Instr.flag f true)] ++ (steer L.lab L.ys ++
          [(L.a, .flag f false)]) ++ (L.us ++ (L.mv ++ (L.cs ++ [(b, Instr.branch f n)]) ++ (us' ++ (c₂ ++ after)))))
          m (p.trial m.heap (.value w)).loads
          (L.us ++ (L.mv ++ (L.cs ++ [(b, Instr.branch f n)]) ++ (us' ++ (c₂ ++ after)))) m' ∧
        m.Grows s.regs.size m' ∧ m'.reg? f = some (.bool false) ∧
        List.Forall₂ m'.Holds L.rs (p.bound m.heap (.value w))) ∧
      (p.fits m.heap (.value w) = false → ∃ m', S.Goes A ([(a, Instr.flag f true)] ++ (steer L.lab L.ys ++
          [(L.a, .flag f false)]) ++ (L.us ++ (L.mv ++ (L.cs ++ [(b, Instr.branch f n)]) ++ (us' ++ (c₂ ++ after)))))
          m (p.trial m.heap (.value w)).loads (us' ++ (c₂ ++ after)) m' ∧ m.Grows s.regs.size m') := by
  have hf' : f.index < m.regs.size := hf₃.trans_le hm.size
  have hg : m.Grows s.regs.size (m.set f (.bool true)) :=
    Memory.grows_set (Heap.Extends.refl _) hm.proper.arena hf
  have hset := Stage.goes_flag (S := S) (A := A) (m := m) (b := true) (hS.first _ le_rfl (by simp))
    (by simpa using hS.code) hf'
  have hout := L.tried.tries (x := .value w) (hS.nests L.closers).1 ((hm.over L.size).grows hg) hm.live
    (hm.holds.grows hg hv) (GenState.Later.knows hl hv hknows)
  have hsame : ∀ {m₂ : Memory}, (m.set f (.bool true)).Grows s₂.regs.size m₂ →
      m₂.reg? f = some (.bool true) := fun hg₂ => (hg₂.same f hf₂).trans (Memory.reg?_set_self hf')
  refine ⟨fun hfits => ?_, fun hmiss => ?_⟩
  · obtain ⟨m₂, hgo, hg₂, hbound⟩ := hout.fits hfits
    have hcode : S.code = (before ++ ((a, Instr.flag f true) :: steer L.lab L.ys)) ++ (L.a, Instr.flag f false) ::
        (L.us ++ (L.mv ++ (L.cs ++ ([(b, Instr.branch f n)] ++ (us' ++ (c₂ ++ after)))))) := by
      rw [hS.code]
      simp
    have hf₂' : f.index < m₂.regs.size := by rwa [hg₂.size, Memory.size_set]
    have hclear := Stage.goes_flag (b := false) (m := m₂) (hS.first _ (by simp) (by simp)) hcode hf₂'
    refine ⟨_, by simpa using hset.trans (hgo.trans hclear), ?_, Memory.reg?_set_self hf₂', ?_⟩
    · exact (hg.trans hg₂ hl.size).trans (Memory.grows_set (Heap.Extends.refl _) hg₂.arena hf) le_rfl
    · refine Memory.holds_of_forall hbound L.tried.apart fun q x hq hx => hx.set ?_
      rintro rfl
      obtain rfl | hq := hq
      · exact absurd hv (by omega)
      · omega
  · obtain ⟨m₂, hgo, hg₂⟩ := hout.misses hmiss
    have hcode : S.code = (before ++ ([(a, Instr.flag f true)] ++ (steer L.lab L.ys ++ [(L.a, Instr.flag f false)]) ++
        (L.us ++ (L.mv ++ L.cs)))) ++ (b, Instr.branch f n) :: (us' ++ (c₂ ++ after)) := by
      rw [hS.code]
      simp
    have hbranch := Stage.goes_branch_yes (hS.second _ (by simp) (by simp; omega)) hcode (hsame hg₂)
    refine ⟨m₂, by simpa using hset.trans (hgo.trans hbranch), hg.trans hg₂ hl.size⟩

/-- **A nested match whose value is used**: the flag is set where the second arm is to run. -/
theorem Fine.genLevelsValue_decides (h : Fine σ s body P) (hv : v ∈ P.regs)
    (hp : p.validate σ.types = .ok ()) (hyes : Serves σ sub sub' yes) (hno : Serves σ sub sub' no) :
    Runs (Gen.genLevelsValue sub v p yes no) (Gen.genLevelsValue sub v p yes no) s
      (Decided σ sub v p yes (some no) s body) := by
  refine Runs.read (height_run s) ?_
  refine h.creates (.flag · true) (fun _ => rfl) (fun _ => rfl) (fun _ => rfl)
    (fun _ => by simp [Instr.inputs]) (by simp) (fun _ => rfl) fun f s₁ a hd hf hstack₁ => ?_
  refine Runs.bind (hd.freshReg .merged (by simp)) fun r s₂ hd₂ => ?_
  obtain ⟨hd₂, hr, hlater₂, hnew, hstack₂⟩ := hd₂
  have hstack₂ : s₂.draft.stack = s.draft.stack := hstack₂.trans hstack₁
  have hf₂ : IsFlag s₂ (P.add f) f := IsFlag.later ⟨P.mem_add f, hf.facts⟩ hd.fine hlater₂ le_rfl
  have hfr : f ≠ r := by
    rintro rfl
    exact absurd hf.lt (by omega)
  rw [← hstack₂]
  refine Runs.bind (hd₂.fine.genMatched_levels ((P.le_add f).1 hv) hp hf₂ r hyes) fun x s₃ hL => ?_
  obtain ⟨L⟩ := hL
  have hr₃ := hr.trans hd₂ L.drawn
  have hf₃ : IsFlag s₃ (P.add f) f := hf₂.later hd₂.fine L.drawn.later le_rfl
  have hstack₃ : s₃.draft.stack = s.draft.stack := L.stack.trans hstack₂
  have hd₃ := (hd₂.trans L.drawn).move (hd₂.fine.made.later L.drawn.later) fun v hv =>
    (P.le_add f).1 (h.stack v (hstack₃ ▸ hv)).1
  set c₁ : Code := [(a, Instr.flag f true)] ++ (steer L.lab L.ys ++ ((L.a, .flag f false) :: (L.us ++ L.mv) ++ L.cs))
    with hc₁
  unfold Gen.genUnmatched
  simp only [bind_assoc, pure_bind]
  refine Runs.bind (hd₃.openBranch (hd₃.fine.lt hf₃.mem) hf₃.role) fun b s₄ hd₄ => ?_
  obtain ⟨hd₄, hs₄⟩ := hd₄
  refine hno.codesMoved hd₄.fine r _ fun {y s₅ us' mv' s₆ P₆} hw => ?_
  have hr₆ := (hr₃.congr hs₄ (by simp [owners, Instr.creates])).trans hd₄ hw.drawn
  have hd₆ := hd₄.trans hw.drawn
  rw [List.append_assoc, List.singleton_append] at hd₆ hr₆
  refine Runs.bind (hd₆.closes (o := some r) (by rintro _ ⟨⟩; exact hr₆)) fun _ s₇ hd₇ => ?_
  obtain ⟨n, j, k, hd₇, hs₇⟩ := hd₇
  have hr₇ : New s s₇ ⟨.merged, none⟩ r := hr₆.toNew.later hs₇.later
  have hlater₇ : s₃.Later s₇ := (hs₄.later.trans hw.drawn.later).trans hs₇.later
  refine Runs.bind (hd₇.agree hr₇ (L.lt.trans_le hlater₇.size)
    ((hw.drawn.fine.lt (hw.coded.mem y rfl)).trans_le hs₇.later.size)) fun _ s₈ hd₈ => ?_
  obtain ⟨hd₈, hag⟩ := hd₈
  have hsize : s₃.regs.size ≤ s₈.regs.size := hag.size ▸ hlater₇.size
  have hv' : v.index < s.regs.size := h.lt hv
  have hffresh : s.regs.size ≤ f.index := hf.new
  have hf₈ : f.index < s₈.regs.size := (hd₃.fine.lt hf₃.mem).trans_le hsize
  have hfL : f.index < L.s₂.regs.size := (hd₂.fine.lt hf₂.mem).trans_le L.le₂
  refine runs_pure ⟨((a, Instr.flag f true) :: []) ++ (steer L.lab L.ys ++ [(L.a, Instr.flag f false)]) ++
    (L.us ++ (L.mv ++ (L.cs ++ [(b.node, Instr.branch f n)]) ++
      (us' ++ (mv' ++ [(j, Instr.jump k), (n, .nop), (k, .merge r)])))), P₆, _, _, L.rs,
    ?_, decides_arms L.fine L.coded (by rw [L.stack₂, hstack₂]) hd₄.fine hw.coded
      (hs₄.stack.trans hstack₃)
      (fun {S A before after m w} hS hm hknows hfits => ?_) fun {S A before after m w} hS hm hknows hmiss => ?_⟩
  · simpa [hc₁, joint] using hd₈
  all_goals
    have hr' : r.index < m.regs.size := (hag.size ▸ hr₇.lt : r.index < s₈.regs.size).trans_le hm.size
    have hdecides := L.decides (hd.later.trans hlater₂) (h.lt hv) hf.new (hd₂.fine.lt hf₂.mem) hS
      (hm.le hsize) (hd₃.fine.lt hf₃.mem) hknows
  · obtain ⟨m', hgo, hg, hclear, hbound⟩ := hdecides.1 hfits
    exact ⟨m', hgo, hg, (hS.skips L.closers L.moved hw.ending hfr (hg.size ▸ hr')).1 hclear hfL, hbound⟩
  · obtain ⟨m', hgo, hg⟩ := hdecides.2 hmiss
    exact ⟨m', hgo, hg, (hS.skips L.closers L.moved hw.ending hfr (hg.size ▸ hr')).2⟩

end Gen

end CountedMachine
