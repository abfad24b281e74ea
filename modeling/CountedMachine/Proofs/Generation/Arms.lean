import CountedMachine.Proofs.Generation.Branches

/-! # Arms of branches

Code for a branch leads on wherever code for its arms does (`Serves`). Where the value of both arms is
used, each moves it into one register, which holds it from where the arms meet: in between the value
is on its way (`Moved`). In tail position both arms end the unit, and control gets no further. -/

namespace CountedMachine

open Listing

namespace Gen

variable {α : Type} {σ : Site} {s s₀ s₁ s₂ s₃ s₄ : GenState} {body xs ys zs : Code} {x n j k id : NodeId}
  {b : Branch} {sub sub' : Sub} {flag v m r : Reg} {merged : Option Reg} {e yes no : Expr}
  {ctx : Context} {P P₀ P₁ P₂ P₃ P₄ : Point} {t t₀ t₁ ty tn u : Block} {w : World} {ρ ρ' : Env}
  {y z : Reg} {sm : GenState} {S : World → Env → Prop}

/-- A result: a register that holds a value. Only in tail position there may be none, and then
control gets no further. Variables are only added. -/
structure Answer (s : GenState) (tail : Bool) (out : Option Reg) (s' : GenState) (P' : Point) :
    Prop where
  some : tail = false → out ≠ none
  mem : ∀ r ∈ out, r ∈ P'.regs
  ends : out = none → ¬ P'.live
  stack : s.draft.stack <:+ s'.draft.stack

/-- **Code for an expression is generated without a fault**, and leads on. -/
structure Serves (σ : Site) (sub sub' : Sub) (e : Expr) : Prop where
  expr : ∀ {s body P} tail, Fine σ s body P →
    Emits σ (sub.expr e tail) (sub'.expr e tail) s body P (Answer s tail)
  value : ∀ {s body P}, Fine σ s body P →
    Emits σ (sub.value e) (sub'.value e) s body P fun r s' P' =>
      r ∈ P'.regs ∧ s.draft.stack <:+ s'.draft.stack
  tail : ∀ {s body P}, Fine σ s body P →
    Emits σ (sub.tail e) (sub'.tail e) s body P fun _ s' P' =>
      ¬ P'.live ∧ s.draft.stack <:+ s'.draft.stack

/-! ## A value on its way -/

/-- **A value has been moved** into the merge register; all else is as the point says. -/
def Moved (w : World) (s : GenState) (P : Point) (m : Reg) (X : Kind → Prop) (ρ : Env) : Prop :=
  ∃ ρ₀ κ, ρ = ρ₀.set m (.held κ) ∧ P.At w s ρ₀ ∧ κ ≠ .shell ∧ X κ

theorem Moved.mono {X X' : Kind → Prop} (h : Moved w s P m X ρ) (hs : ∀ ρ, P.At w s ρ → P₁.At w s₁ ρ)
    (hX : ∀ κ, X κ → X' κ) : Moved w s₁ P₁ m X' ρ := by
  obtain ⟨ρ₀, κ, rfl, hat, hκ, hx⟩ := h
  exact ⟨ρ₀, κ, rfl, hs ρ₀ hat, hκ, hX κ hx⟩

/-- The kinds that the types given to a register allow. -/
def Allowed (s : GenState) (m : Reg) (κ : Kind) : Prop := ∀ t, s.Tells m t → κ.type = t

/-- A value that is allowed is as it will have been noted. -/
theorem Allowed.suits {type : Option StaticType} {κ : Kind} (h : Allowed s m κ) (hk : w.Keeps s m)
    (hfacts : s.regs[m.index]? = some ⟨.merged, type⟩) (hknown : s.draft.known[m]? = none) :
    w.Suits False m κ where
  uncounted hu := by
    obtain ⟨f, hf, hcounted⟩ := hu
    rw [hk.facts, hfacts] at hf
    obtain rfl := Option.some.inj hf
    obtain ⟨t, ht, hu⟩ := uncounted_type hcounted (by simp)
    rw [h t (Or.inr ⟨_, hfacts, ht⟩)]
    exact hu
  recorded hf ht := h _ (Or.inr ⟨_, hk.facts ▸ hf, ht⟩)
  narrowed ht := Or.inl (h _ (Or.inl (by rw [GenState.typeOf?, ← hk.narrowed, ht])))
  known hr _ := by
    rw [hk.known, hknown] at hr
    cases hr

/-- A value on its way is one that the register may hold. -/
theorem Moved.noted {type : Option StaticType} {spared : Reg → Prop} (h : Moved w s₁ P m (Allowed s₁ m) ρ)
    (hk : w.Keeps s₁ m) (hfacts : s₁.regs[m.index]? = some ⟨.merged, type⟩)
    (hknown : s₁.draft.known[m]? = none) : w.Noted spared ρ := by
  obtain ⟨ρ₀, κ, rfl, hat, -, hallow⟩ := h
  refine hat.noted.set fun κ' hκ' => ?_
  obtain rfl := Option.some.inj hκ'
  exact (hallow.suits hk hfacts hknown).mono False.elim

/-- **Merging the value**: the register holds it from then on. -/
theorem Moved.merge {type : Option StaticType} (h : Moved w s₁ P m (Allowed s₁ m) ρ)
    (hm : P.Made s) (hnew : s.regs.size ≤ m.index)
    (hfacts : s₁.regs[m.index]? = some ⟨.merged, type⟩) (hknown : s₁.draft.known[m]? = none)
    (hk : w.Keeps s₁ m) :
    w.Safe ρ (.merge m : Instr NodeId) ∧ ∀ ρ', w.Fires ρ (.merge m : Instr NodeId) ρ' →
      (P.add m).At w s₁ ρ' ∧ ∀ q : Reg, q ≠ m → ρ'.regs q = ρ.regs q := by
  have hnoted : w.Noted (Instr.merge m : Instr NodeId).Spares ρ := h.noted hk hfacts hknown
  obtain ⟨ρ₀, κ, rfl, hat, hwhole, hallow⟩ := h
  have hlt := (Array.getElem?_eq_some_iff.mp hfacts).1
  refine ⟨⟨hnoted, by simp [Instr.inputs], ⟨κ, by simp⟩, fun hr _ => by rw [Option.some.inj hr],
    trivial⟩, ?_⟩
  rintro ρ' ⟨κ', hκ', rfl⟩
  obtain rfl : κ = κ' := by simpa using hκ'
  have hset : (ρ₀.set m (.held κ)).set m (.val κ) = ρ₀.set m (.val κ) := by
    simp [Env.set]
  rw [hset]
  refine ⟨hat.put hm hnew hlt ⟨by simp, hwhole, fun ht => hallow _ (Or.inl ht), fun hf ht =>
    hallow _ (Or.inr ⟨_, hf, ht⟩), fun hk => ?_⟩ hk fun hf hrole => ?_, fun q hq => by simp [hq]⟩
  · rw [hknown] at hk
    cases hk
  · rw [hfacts] at hf
    obtain rfl := Option.some.inj hf
    cases hrole

/-- A block whose value is moved. -/
theorem Leads.move (h : Leads σ s P t s₁ P₁) (hr : r ∈ P₁.regs)
    (hm : m.index < s.regs.size) (hw : σ.Admits w s s₁) :
    (t.append (.single id (.move m r))).Does w (fun ρ => P.At w s ρ ∧ ρ.regs m = .void)
      fun ρ ρ' => Moved w s₁ P₁ m (fun κ => ∀ t, s₁.Tells r t → κ.type = t) ρ' ∧
        ∀ q : Reg, q.index < s.regs.size → q ≠ m → ρ'.regs q = ρ.regs q := by
  refine ((h.does hw).mono (A := fun ρ => P.At w s ρ ∧ ρ.regs m = .void)
    (B := fun ρ ρ' => (P₁.At w s₁ ρ' ∧ Kept s ρ ρ') ∧ ρ'.regs m = .void) (fun ρ h => h.1)
    fun ρ ρ' hρ hq => ⟨hq, (hq.2 m hm).trans hρ.2⟩).append (A := fun ρ => P₁.At w s₁ ρ ∧
      ρ.regs m = .void) (B := fun ρ ρ' => ∃ κ, Holds w s₁ ρ r κ ∧ ρ' = ρ.set m (.held κ))
    (Block.does_single (fun ρ hρ => ?_) fun ρ ρ' hρ hf => ?_) ?_ ?_
  · exact ⟨hρ.1.noted, hρ.1.reads (by simpa [Instr.inputs] using hr), hρ.2, hρ.1.unheld, hρ.1.shields _⟩
  · obtain ⟨κ, hκ, rfl⟩ := hf
    obtain ⟨κ', hκ'⟩ := hρ.1.holds r hr
    obtain rfl := Status.val.inj (hκ.symm.trans hκ'.value)
    exact ⟨κ, hκ', rfl⟩
  · exact fun ρ ρ' _ hq => ⟨hq.1.1, hq.2⟩
  · rintro ρ ρ₁ ρ' - ⟨⟨hat, hkept⟩, -⟩ ⟨κ, hκ, rfl⟩
    refine ⟨⟨ρ₁, κ, rfl, hat, hκ.whole, fun t ht => hκ.tells ht⟩, fun q hq hne => ?_⟩
    rw [ρ₁.set_of_ne _ hne]
    exact hkept q hq

/-! ## One arm -/

/-- Code for an arm whose value is used. -/
structure Arm (σ : Site) (s : GenState) (body : Code) (P : Point) (m x : Reg) (s' : GenState)
    (t : Block) (id : NodeId) (s₁ : GenState) (P₁ : Point) : Prop where
  drawn : Drawn σ s body s' (t.append (.single id (.move m x))).code P₁
  proper : t.Proper
  leads : Leads σ s P t s₁ P₁
  mem : x ∈ P₁.regs
  later : s.Later s₁
  rest : s₁.Later s'
  made : P₁.Made s₁

/-- **A value that is moved** into the merge register; what is bound above a height is forgotten. -/
theorem Serves.moves {β : Type} (h : Serves σ sub sub' e) (hf : Fine σ s body P) (m : Reg) (k : Nat)
    {g g' : Reg → Gen β} {R : β → GenState → Prop}
    (hg : ∀ {x t id s₁ P₁ s'}, Arm σ s body P m x s' t id s₁ P₁ →
      (∃ vs, s.draft.stack <:+ vs ∧ s'.draft.stack = vs.drop (vs.length - k)) →
      Runs (g x) (g' x) s' R) :
    Runs (sub.value e >>= fun x => Gen.write (.move m x) >>= fun _ => Gen.forgetAbove k >>= fun _ => g x)
      (sub'.value e >>= fun x => Gen.write (.move m x) >>= fun _ => Gen.forgetAbove k >>= fun _ =>
        g' x) s R := by
  refine Runs.bind (h.value hf) fun x s₁ hd => ?_
  obtain ⟨t, P₁, hd, ht, hl, hx, hstack⟩ := hd
  have hgood : Good s₁.regs (.move m x) :=
    good_of_plain rfl rfl (by simpa [Instr.inputs] using hd.fine.lt hx)
  refine Runs.bind (hd.write hgood (by simp [Instr.creates])) fun _ s₂ hd₂ => ?_
  obtain ⟨id, hd₂, hs₂⟩ := hd₂
  refine Runs.bind (hd₂.forgetAbove k) fun _ s₃ hd₃ => ?_
  obtain ⟨hd₃, rfl⟩ := hd₃
  refine hg (t := t) ⟨by simpa using hd₃, ht, hl, hx, hd.later,
    hs₂.later.trans (later_withStack _ _), hd.fine.made⟩ ⟨s₂.draft.stack, ?_, rfl⟩
  rw [hs₂.stack]
  exact hstack

theorem Serves.genArm (h : Serves σ sub sub' e) (hf : Fine σ s body P) (m : Reg) (k : Nat) :
    Runs (Gen.genArm sub e (some m) k) (Gen.genArm sub' e (some m) k) s fun out s' =>
      ∃ x t id s₁ P₁, out = some x ∧ Arm σ s body P m x s' t id s₁ P₁ ∧
        ∃ vs, s.draft.stack <:+ vs ∧ s'.draft.stack = vs.drop (vs.length - k) :=
  h.moves hf m k fun ha hstack => runs_pure ⟨_, _, _, _, _, rfl, ha, hstack⟩

/-- Code for an arm in tail position. -/
theorem Serves.genLastArm (h : Serves σ sub sub' e) (hf : Fine σ s body P) (k : Nat) :
    Runs (Gen.genArm sub e none k) (Gen.genArm sub' e none k) s fun out s' => out = none ∧
      ∃ t P₁, Drawn σ s body s' t.code P₁ ∧ t.Proper ∧ Leads σ s P t s' P₁ ∧ ¬ P₁.live ∧
        ∃ vs, s.draft.stack <:+ vs ∧ s'.draft.stack = vs.drop (vs.length - k) := by
  unfold Gen.genArm
  refine Runs.bind (h.tail hf) fun _ s₁ hd => ?_
  obtain ⟨t, P₁, hd, ht, hl, hlive, hstack⟩ := hd
  refine Runs.bind (hd.forgetAbove k) fun _ s₂ hd₂ => ?_
  obtain ⟨hd₂, rfl⟩ := hd₂
  have hlater := later_withStack s₁ (s₁.draft.stack.drop (s₁.draft.stack.length - k))
  refine runs_pure ⟨rfl, t, P₁, hd₂, ht, ⟨hl.le, fun hw => ?_, hl.stops⟩, hlive, s₁.draft.stack, hstack, rfl⟩
  refine (hl.does (hw.left hlater)).mono (fun _ h => h) fun ρ ρ' _ h => ?_
  exact ⟨h.1.later hd.fine.made hlater, h.2⟩

/-! ## Both arms -/

/-- **An open branch**: a block leads to it, and where its flag is set, so that `S`
holds, a block leads to the place where the first arm goes. In between a register may have been made
for the value. -/
structure Forked (σ : Site) (s : GenState) (body : Code) (P : Point) (b : NodeId) (flag : Reg)
    (S : World → Env → Prop) (t₀ : Block) (s₀ : GenState) (P₀ : Point) (sm : GenState) (t₁ : Block)
    (s₁ : GenState) (P₁ : Point) : Prop where
  drawn : Drawn σ s body s₁ (t₀.code ++ (b, Instr.branch flag head) :: t₁.code) P₁
  first : t₀.Proper
  second : t₁.Proper
  leads : Leads σ s P t₀ s₀ P₀
  shows : ∀ {w}, σ.Admits w s s₀ → t₀.Does w (P.At w s) fun _ ρ =>
    ρ.regs flag = .val (.bool true) → S w ρ
  made : P₀.Made s₀
  before : s.Later s₀
  between : s₀.Later sm
  after : sm.Later s₁
  isFlag : IsFlag s₀ P₀ flag
  le : P₀ ≤ P₁
  does : ∀ {w}, σ.Admits w sm s₁ → t₁.Does w (fun ρ => P₀.At w sm ρ ∧ S w ρ)
    fun ρ ρ' => P₁.At w s₁ ρ' ∧ Kept sm ρ ρ'
  stops : P₀.live → ¬ P₁.live → t₁.Stops
  stack : ∀ v ∈ s₀.draft.stack, v.reg ∈ P₀.regs
  suffix : s₀.draft.stack <:+ s₁.draft.stack

theorem Forked.shown (h : Forked σ s body P x flag S t₀ s₀ P₀ sm t₁ s₁ P₁) (hw : σ.Admits w s s₀) :
    t₀.Does w (P.At w s) fun ρ ρ' => (P₀.At w s₀ ρ' ∧ Kept s ρ ρ') ∧
      (ρ'.regs flag = .val (.bool true) → S w ρ') :=
  (h.leads.does hw).and (h.shows hw)

/-- **Two arms in tail position.** -/
theorem Forked.genLastArms (h : Forked σ s body P b.node flag S t₀ s₀ P₀ sm t₁ s₁ P₁)
    (hyes : Serves σ sub sub' yes) (hno : Serves σ sub sub' no) :
    Runs (Gen.genArms sub b none s₀.draft.stack.length yes no)
      (Gen.genArms sub' b none s₀.draft.stack.length yes no) s₁ fun out s' => ∃ T P',
        Drawn σ s body s' (Block.code T) P' ∧ T.Proper ∧ Leads σ s P T s' P' ∧ out = none ∧
          ¬ P'.live ∧ s'.draft.stack = s₀.draft.stack := by
  unfold Gen.genArms
  refine Runs.bind (hyes.genLastArm h.drawn.fine _) fun y s₂ hd₂ => ?_
  obtain ⟨rfl, ty, P₂, hd₂, hty, hl₂, hlive₂, vs, hvs, hstack₂⟩ := hd₂
  have hstack₂ : s₂.draft.stack = s₀.draft.stack :=
    hstack₂.trans (drop_of_suffix (h.suffix.trans hvs))
  have hd₂' := h.drawn.trans hd₂
  rw [List.append_assoc, List.cons_append] at hd₂'
  refine Runs.bind hd₂'.beginElse fun b' s₃ hd₃ => ?_
  obtain ⟨j, n, hj, hd₃, hs₃⟩ := hd₃
  have hlater₃ : s₀.Later s₃ := ((h.between.trans h.after).trans hd₂.later).trans hs₃.later
  -- the second arm starts where the branch was
  have hd₃ := hd₃.move (h.made.later hlater₃) (by
    rw [hs₃.stack, hstack₂]
    exact h.stack)
  refine Runs.bind (hno.genLastArm hd₃.fine _) fun z s₄ hd₄ => ?_
  obtain ⟨rfl, tn, P₄, hd₄, htn, hl₄, hlive₄, vs', hvs', hstack₄⟩ := hd₄
  have hstack₃ : s₃.draft.stack = s₀.draft.stack := hs₃.stack.trans hstack₂
  have hstack₄ : s₄.draft.stack = s₀.draft.stack :=
    hstack₄.trans (drop_of_suffix (hstack₃ ▸ hvs'))
  have hd₄' := hd₃.trans hd₄
  have hsplit : t₀.code ++ (b.node, Instr.branch flag n) ::
      (t₁.code ++ ty.code ++ [(j, Instr.jump head), (n, Instr.nop)]) ++ tn.code =
      (t₀.code ++ (b.node, Instr.branch flag n) :: (t₁.code ++ ty.code)) ++ (j, Instr.jump head) ::
        ((n, Instr.nop) :: tn.code) := by simp
  rw [hsplit] at hd₄'
  refine Runs.bind (hd₄'.meet hj (o := none) (by simp)) fun _ s₅ hd₅ => ?_
  obtain ⟨k, hd₅, hs₅⟩ := hd₅
  have hlater₅ : s₀.Later s₅ := (hlater₃.trans hd₄.later).trans hs₅.later
  set arms : Block := .arms b.node flag n (t₁.append ty) j k tn .nop .nil with harms
  refine runs_pure ⟨t₀.append arms, P₀.stop, ?_, h.first.append
    ⟨h.second.append hty, htn, rfl, trivial⟩, ⟨h.leads.le.trans P₀.le_stop, fun {w} hw => ?_, fun hl _ => ?_⟩,
    rfl, id, hs₅.stack.trans hstack₄⟩
  · have hcode : (t₀.append arms).code = (t₀.code ++ (b.node, Instr.branch flag n) ::
        (t₁.code ++ ty.code)) ++ (j, Instr.jump k) :: ((n, Instr.nop) :: tn.code ++ [(k, joint none)]) := by
      simp [harms, Block.code, joint]
    rw [hcode]
    refine hd₅.move ⟨(h.made.later hlater₅).regs, (h.made.later hlater₅).sure⟩ ?_
    rw [hs₅.stack, hstack₄]
    exact h.stack
  · have hw₀ := (hw.left hs₅.later).right (h.before.trans h.between).size
    have hrest : s₁.Later s₄ := (hd₂.later.trans hs₃.later).trans hd₄.later
    refine (h.shown (hw.left hlater₅)).append (A := fun ρ => P₀.At w s₀ ρ ∧
        (ρ.regs flag = .val (.bool true) → S w ρ)) (B := fun _ _ => False)
      (Block.does_arms (Q := fun _ _ => False) (fun ρ hρ => h.isFlag.safe hρ.1 n) ?_ ?_ ?_)
      (fun _ _ _ hq => ⟨hq.1.1, hq.2⟩) fun _ _ _ _ _ hq => hq.elim
    · refine (h.does (hw₀.left hrest)).append (hl₂.does ((hw₀.left
        (hs₃.later.trans hd₄.later)).right h.after.size)) (fun _ _ _ hq => hq.1)
        (fun _ _ _ _ _ hq => hlive₂ hq.1.live) |>.mono
        (fun ρ hρ => ⟨hρ.1.1.later h.made h.between, hρ.1.2 hρ.2⟩) fun _ _ _ hq => hq
    · refine (hl₄.does (hw.left hs₅.later |>.right (h.before.trans hlater₃).size)).mono
        (fun ρ hρ => hρ.1.1.later h.made hlater₃) fun _ _ _ hq => hlive₄ hq.1.live
    · exact fun _ _ _ hq => hq.elim
  · by_cases hlive : P₀.live
    · have hyes : (t₁.append ty).Stops := by
        by_cases hmid : P₁.live
        · exact (hl₂.stops hmid hlive₂).after t₁
        · exact (h.stops hlive hmid).before ty
      exact Block.Stops.after (u := arms) (Or.inl ⟨hyes, hl₄.stops hlive hlive₄⟩) t₀
    · exact (h.leads.stops hl hlive).before arms

/-- The value of an arm on its way to where the arms meet. -/
theorem Arm.moved {s' s₆ : GenState} (ha : Arm σ s body P m r s' t id s₁ P₁) (hle : P₀ ≤ P)
    (hm : m.index < s.regs.size) (hmem : m ∉ P₀.regs) (hl : s'.Later s₂)
    (hag : Agreed s₂ s₆ m y z) (hr : ∀ {t}, s₆.Tells m t → s₂.Tells r t)
    (hw : σ.Admits w s s₂) :
    (t.append (.single id (.move m r))).Does w (fun ρ => P.At w s ρ ∧ ρ.regs m = .void)
      fun ρ ρ' => (P₀.live → Moved w s₆ P₀ m (Allowed s₆ m) ρ') ∧
        ∀ q : Reg, q.index < s.regs.size → q ≠ m → ρ'.regs q = ρ.regs q := by
  have hlater : s₁.Later s₂ := ha.rest.trans hl
  refine (ha.leads.move ha.mem hm (hw.left hlater)).mono (fun _ h => h) fun ρ ρ' _ hq => ?_
  refine ⟨fun hlive => hq.1.mono (fun ρ₁ hρ₁ => ?_) fun κ hκ t ht => ?_, hq.2⟩
  · have hle' := hle.trans ha.leads.le
    exact at_agreed ((hρ₁.weaken hle' hlive).later (ha.made.of_le hle') hlater) hag hmem
  · exact hκ t ((hlater.tells (ha.made.regs r ha.mem)).mp (hr ht))

/-- **Two arms that leave their values in one register:** where they meet, it holds what is allowed there. -/
theorem Forked.does_meeting (h : Forked σ s body P b.node flag S t₀ s₀ P₀ sm t₁ s₁ P₁)
    {n j k idy idz : NodeId} {ty tn : Block} {yes no : Code} {s₂' s₄ s₄' s₅ s₆ : GenState} {P₄ : Point}
    (hay : Arm σ s₁ yes P₁ m y s₂ ty idy s₂' P₂) (h₂₃ : s₂.Later s₃)
    (haz : Arm σ s₃ no P₀ m z s₄ tn idz s₄' P₄) (h₄₅ : s₄.Later s₅) (hag : Agreed s₅ s₆ m y z)
    (hm : New s s₅ ⟨.merged, none⟩ m) (hm₁ : m.index < s₁.regs.size) (hnew : s₀.regs.size ≤ m.index)
    (hsm : m.index < sm.regs.size) (hw : σ.Admits w s s₆) :
    (t₀.append (.arms b.node flag n (t₁.append (ty.append (.single idy (.move m y)))) j k
      (tn.append (.single idz (.move m z))) (.merge m) .nil)).Does w (P.At w s) fun ρ ρ' =>
        (P₀.add m).At w s₆ ρ' ∧ Kept s ρ ρ' := by
  have hmem : m ∉ P₀.regs := fun hmem => absurd (h.made.regs m hmem) (by omega)
  have hne : ∀ {q : Reg}, q.index < s₀.regs.size → q ≠ m := by
    rintro q hq rfl
    omega
  have hrest : s₂.Later s₅ := (h₂₃.trans haz.drawn.later).trans h₄₅
  have hlater₃ : s₀.Later s₃ := ((h.between.trans h.after).trans hay.drawn.later).trans h₂₃
  have hlater₅ : s₀.Later s₅ := (hlater₃.trans haz.drawn.later).trans h₄₅
  have hlater₆ : s₀.Later s₆ := hag.later hlater₅ hnew
  have hm₆ : m.index < s₆.regs.size := by
    rw [hag.size]
    exact hm.lt
  have hwm : σ.Admits w sm s₅ := hag.admits hw (h.before.trans h.between).size hsm
  have hw₁ := hwm.right h.after.size
  have hw₃ := hwm.right (h.after.trans (hay.drawn.later.trans h₂₃)).size
  have hm₃ : m.index < s₃.regs.size := hm₁.trans_le (hay.drawn.later.trans h₂₃).size
  refine (h.shown (hw.left hlater₆)).append (A := fun ρ => P₀.At w s₀ ρ ∧
      (ρ.regs flag = .val (.bool true) → S w ρ))
    (B := fun ρ ρ' => (P₀.add m).At w s₆ ρ' ∧ Kept s₀ ρ ρ')
    (Block.does_arms (Q := fun ρ ρ₁ => Moved w s₆ P₀ m (Allowed s₆ m) ρ₁ ∧ Kept s₀ ρ ρ₁)
      (fun ρ hρ => h.isFlag.safe hρ.1 n) ?_ ?_ ?_) (fun _ _ _ hq => ⟨hq.1.1, hq.2⟩)
    fun _ _ _ _ hq hq' => ⟨hq'.1, hq.1.2.trans hq'.2 h.before.size⟩
  · -- the first arm, after the block that leads to it; nothing fills the register before
    have hlead := (h.does (hwm.left (hay.drawn.later.trans hrest))).mono
      (A := fun ρ => (P₀.At w s₀ ρ ∧ (ρ.regs flag = .val (.bool true) → S w ρ)) ∧
        ρ.regs flag = .val (.bool true)) (B := fun ρ ρ' => (P₁.At w s₁ ρ' ∧ ρ'.regs m = .void) ∧ Kept sm ρ ρ' ∧ P₀.live)
      (fun ρ hρ => ⟨hρ.1.1.later h.made h.between, hρ.1.2 hρ.2⟩) fun ρ ρ' hρ hq =>
        ⟨⟨hq.1, (hq.2 m hsm).trans (hρ.1.1.fresh m hnew)⟩, hq.2, hρ.1.1.live⟩
    refine hlead.append (hay.moved h.le hm₁ hmem hrest hag (fun ht => (hag.tells ht).1) hw₁)
      (fun _ _ _ hq => hq.1) fun ρ ρ₁ ρ' _ hq hq' => ⟨hq'.1 hq.2.2, fun q hlt => ?_⟩
    rw [hq'.2 q (hlt.trans_le (h.between.trans h.after).size) (hne hlt)]
    exact hq.2.1 q (hlt.trans_le h.between.size)
  · refine (haz.moved le_rfl hm₃ hmem h₄₅ hag (fun ht => (hag.tells ht).2) hw₃).mono
      (fun ρ hρ => ⟨hρ.1.1.later h.made hlater₃, hρ.1.1.fresh m hnew⟩) fun ρ ρ' hρ hq =>
      ⟨hq.1 hρ.1.1.live, fun q hlt => hq.2 q (hlt.trans_le hlater₃.size) (hne hlt)⟩
  · rintro ρ ρ₁ hρ ⟨hmoved, hkept⟩
    obtain ⟨type, hrole⟩ := hag.role
    have hknown : s₆.draft.known[m]? = none := by
      rw [hag.known]
      exact hm.known
    obtain ⟨hsafe, hfires⟩ := hmoved.merge h.made hnew hrole hknown (hw.keeps hm.new hm₆)
    refine ⟨hsafe, fun ρ₂ hf => ⟨(hfires ρ₂ hf).1, fun q hlt => ?_⟩⟩
    rw [(hfires ρ₂ hf).2 q (hne hlt)]
    exact hkept q hlt

/-- **Two arms whose value is used.** -/
theorem Forked.genArms (h : Forked σ s body P b.node flag S t₀ s₀ P₀ sm t₁ s₁ P₁)
    (hm : Held s s₁ (t₀.code ++ (b.node, Instr.branch flag head) :: t₁.code) ⟨.merged, none⟩ m)
    (hnew : s₀.regs.size ≤ m.index) (hsm : m.index < sm.regs.size) (hyes : Serves σ sub sub' yes)
    (hno : Serves σ sub sub' no) :
    Runs (Gen.genArms sub b (some m) s₀.draft.stack.length yes no)
      (Gen.genArms sub' b (some m) s₀.draft.stack.length yes no) s₁ fun out s' => ∃ T P',
        Drawn σ s body s' (Block.code T) P' ∧ T.Proper ∧ Leads σ s P T s' P' ∧ out = some m ∧
          m ∈ P'.regs ∧ s'.draft.stack = s₀.draft.stack := by
  unfold Gen.genArms
  refine Runs.bind (hyes.genArm h.drawn.fine m _) fun y s₂ hd₂ => ?_
  obtain ⟨y, ty, idy, s₂', P₂, rfl, hay, vs, hvs, hstack₂⟩ := hd₂
  have hstack₂ : s₂.draft.stack = s₀.draft.stack :=
    hstack₂.trans (drop_of_suffix (h.suffix.trans hvs))
  have hm₂ := hm.trans h.drawn hay.drawn
  have hd₂ := h.drawn.trans hay.drawn
  rw [List.append_assoc, List.cons_append] at hd₂ hm₂
  refine Runs.bind hd₂.beginElse fun b' s₃ hd₃ => ?_
  obtain ⟨j, n, hj, hd₃, hs₃⟩ := hd₃
  have hlater₂ : s₀.Later s₂ := (h.between.trans h.after).trans hay.drawn.later
  have hlater₃ : s₀.Later s₃ := hlater₂.trans hs₃.later
  have hm₃ : Held s s₃ (t₀.code ++ (b.node, Instr.branch flag n) :: (t₁.code ++
      (ty.append (.single idy (.move m y))).code ++ [(j, Instr.jump head), (n, Instr.nop)])) ⟨.merged, none⟩ m :=
    hm₂.congr hs₃ (by simp [owners, Instr.creates])
  -- the second arm starts where the branch was
  have hstack₃ : s₃.draft.stack = s₀.draft.stack := hs₃.stack.trans hstack₂
  have hd₃ := hd₃.move (h.made.later hlater₃) (by
    rw [hstack₃]
    exact h.stack)
  refine Runs.bind (hno.genArm hd₃.fine m _) fun z s₄ hd₄ => ?_
  obtain ⟨z, tn, idz, s₄', P₄, rfl, haz, vs', hvs', hstack₄⟩ := hd₄
  have hstack₄ : s₄.draft.stack = s₀.draft.stack :=
    hstack₄.trans (drop_of_suffix (hstack₃ ▸ hvs'))
  have hd₄ := hd₃.trans haz.drawn
  have hm₄ := hm₃.trans hd₃ haz.drawn
  set yb := ty.append (.single idy (.move m y)) with hyb
  set zb := tn.append (.single idz (.move m z)) with hzb
  have hsplit : t₀.code ++ (b.node, Instr.branch flag n) ::
      (t₁.code ++ yb.code ++ [(j, Instr.jump head), (n, Instr.nop)]) ++ zb.code =
      (t₀.code ++ (b.node, Instr.branch flag n) :: (t₁.code ++ yb.code)) ++ (j, Instr.jump head) ::
        ((n, Instr.nop) :: zb.code) := by simp
  rw [hsplit] at hd₄ hm₄
  refine Runs.bind (hd₄.meet hj (o := some m) (by simpa using hm₄)) fun _ s₅ hd₅ => ?_
  obtain ⟨k, hd₅, hs₅⟩ := hd₅
  have hlater₅ : s₀.Later s₅ := (hlater₃.trans haz.drawn.later).trans hs₅.later
  have hrest : s₂.Later s₅ := (hs₃.later.trans haz.drawn.later).trans hs₅.later
  have hm₅ : New s s₅ ⟨.merged, none⟩ m := hm₄.toNew.later hs₅.later
  have hy₅ : y.index < s₅.regs.size := (hay.made.regs y hay.mem).trans_le (hay.rest.trans hrest).size
  have hz₅ : z.index < s₅.regs.size :=
    (haz.made.regs z haz.mem).trans_le (haz.rest.trans hs₅.later).size
  refine Runs.bind (hd₅.agree hm₅ hy₅ hz₅) fun _ s₆ hd₆ => ?_
  obtain ⟨hd₆, hag⟩ := hd₆
  have hlater₆ : s₀.Later s₆ := hag.later hlater₅ hnew
  have hm₆ : m.index < s₆.regs.size := by
    rw [hag.size]
    exact hm₅.lt
  set arms : Block := .arms b.node flag n (t₁.append yb) j k zb (.merge m) .nil with harms
  have hyp : yb.Proper := hay.proper.append ⟨rfl, by simp, trivial⟩
  have hzp : zb.Proper := haz.proper.append ⟨rfl, by simp, trivial⟩
  refine runs_pure ⟨t₀.append arms, P₀.add m, ?_, h.first.append
    ⟨h.second.append hyp, hzp, rfl, trivial⟩, ⟨h.leads.le.trans (P₀.le_add m), fun {w} hw => ?_,
      fun hl hn => (h.leads.stops hl hn).before arms⟩,
    rfl, P₀.mem_add m, (hag.stack.trans hs₅.stack).trans hstack₄⟩
  · have hcode : (t₀.append arms).code = (t₀.code ++ (b.node, Instr.branch flag n) ::
        (t₁.code ++ yb.code)) ++ (j, Instr.jump k) :: ((n, Instr.nop) :: zb.code ++ [(k, joint (some m))]) := by
      simp [harms, Block.code, joint]
    rw [hcode]
    refine hd₆.move ((h.made.later hlater₆).add hm₆) fun v hv => (P₀.le_add m).1 ?_
    rw [hag.stack, hs₅.stack, hstack₄] at hv
    exact h.stack v hv
  · exact h.does_meeting hay hs₃.later haz hs₅.later hag hm₅ hm.lt hnew hsm hw

end Gen

end CountedMachine
