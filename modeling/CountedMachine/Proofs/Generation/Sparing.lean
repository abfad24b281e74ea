import CountedMachine.Proofs.Generation.Points
import CountedMachine.Proofs.Generation.Scoping
import CountedMachine.Proofs.Listing.Linked
import CountedMachine.Proofs.Machine.Reading

/-! # Registers of one's own

Code for an expression sets only registers that have been made for it (`genExpr_spares`): the registers that
there were before are the same after it has run, whatever it does. What a step of the generator adds is told
apart from what was there by the nodes of the listing (`Since`): a node that was there sets what it has set
before, and is at most led elsewhere. -/

namespace CountedMachine

open Listing

/-- **Each node of the later listing** is an older one that sets the same register, or it sets registers from
`n` on only. -/
def Listing.Since (n : Nat) (l l' : Listing) : Prop :=
  ∀ id nd', l'.node? id = some nd' → (∀ r, nd'.instr.sets = some r → n ≤ r.index) ∨
    ∃ nd, l.node? id = some nd ∧ nd'.instr.sets = nd.instr.sets

namespace Listing

variable {n : Nat} {l l₁ l' : Listing} {id : NodeId} {i : Instr NodeId}

theorem Since.refl (n : Nat) (l : Listing) : l.Since n l := fun _ nd h => .inr ⟨nd, h, rfl⟩

theorem Since.trans (h : l.Since n l₁) (h' : l₁.Since n l') : l.Since n l' := fun id nd hnd => by
  obtain hfrom | ⟨nd₁, hnd₁, e⟩ := h' id nd hnd
  · exact .inl hfrom
  · obtain hfrom | ⟨nd₀, hnd₀, e₀⟩ := h id nd₁ hnd₁
    · exact .inl fun r hr => hfrom r (e ▸ hr)
    · exact .inr ⟨nd₀, hnd₀, e.trans e₀⟩

theorem Since.of_nodes (h : l'.nodes = l.nodes) : l.Since n l' := fun id nd hnd => by
  rw [node?, h] at hnd
  exact .inr ⟨nd, hnd, rfl⟩

/-- A node that is led elsewhere or gets other neighbours. -/
theorem since_modify (id : NodeId) {f : Node → Node}
    (hf : ∀ nd, l.node? id = some nd → (f nd).instr.sets = nd.instr.sets) :
    l.Since n (l.modify id f) := fun j nd hnd => by
  rw [node?_modify] at hnd
  split at hnd
  · next e =>
    subst e
    obtain ⟨nd₀, hnd₀, rfl⟩ := Option.map_eq_some_iff.mp hnd
    exact .inr ⟨nd₀, hnd₀, hf nd₀ hnd₀⟩
  · exact .inr ⟨nd, hnd, rfl⟩

theorem since_allot {nd : Node} (h : ∀ r, nd.instr.sets = some r → n ≤ r.index) :
    l.Since n (l.allot nd).1 := fun j nd' hnd => by
  obtain ⟨j⟩ := j
  unfold allot at hnd
  split at hnd
  · simp only [node?, Array.getElem?_setIfInBounds] at hnd
    split_ifs at hnd
    · obtain rfl := Option.some.inj hnd
      exact .inl h
    · cases hnd
    · exact .inr ⟨nd', hnd, rfl⟩
  · simp only [node?, Array.getElem?_push] at hnd
    split_ifs at hnd
    · obtain rfl := Option.some.inj hnd
      exact .inl h
    · exact .inr ⟨nd', hnd, rfl⟩

theorem regs_allot (l : Listing) (nd : Node) : (l.allot nd).1.regs = l.regs := by
  unfold allot
  split <;> rfl

/-- **Writing an instruction.** -/
theorem since_insert (hi : ∀ r, i.sets = some r → n ≤ r.index) (e : l.insert i = .ok (l', id)) :
    l.Since n l' ∧ l'.regs = l.regs := by
  unfold insert linkBefore at e
  obtain ⟨nd, -, e⟩ := bind_ok e
  split at e
  · cases e
  · next before _ =>
    cases e
    refine ⟨(since_allot hi).trans ((since_modify before ?_).trans (since_modify _ ?_)), regs_allot _ _⟩ <;>
      exact fun _ _ => rfl

theorem since_recordType {r : Reg} {t : Option StaticType} (e : l.recordType r t = .ok l') :
    l.Since n l' ∧ l'.regs.size = l.regs.size := by
  obtain ⟨f, -, e⟩ := bind_ok e
  cases e
  exact ⟨.of_nodes rfl, by simp⟩

theorem since_put (hi : ∃ j, l.get id = .ok j ∧ i.sets = j.sets) (e : l.put id i = .ok l') :
    l.Since n l' ∧ l'.regs = l.regs := by
  obtain ⟨j, hj, hsets⟩ := hi
  obtain ⟨nd, -, e⟩ := bind_ok e
  cases e
  refine ⟨since_modify id fun nd hnd => ?_, rfl⟩
  simp only [get, node, hnd, Except.map] at hj
  exact hsets.trans (congrArg Instr.sets (Except.ok.inj hj).symm)

end Listing

namespace Gen

variable {α β : Type} {n : Nat} {s s₁ s' : GenState}

/-- **The step spares the first `n` registers**, if there are as many, and what it returns is as said. -/
structure SparesTo (n : Nat) (Q : α → Prop) (x : Gen α) : Prop where
  of_run : ∀ {s a s'}, n ≤ s.regs.size → x.run s = .ok (a, s') →
    (s.regs.size ≤ s'.regs.size ∧ s.draft.listing.Since n s'.draft.listing) ∧ Q a

/-- The step spares the first `n` registers. -/
abbrev Spares (n : Nat) (x : Gen α) : Prop := SparesTo n (fun _ => True) x

section
variable {Q : α → Prop} {R : β → Prop} {x : Gen α} {f : α → Gen β}

theorem SparesTo.bind (hx : SparesTo n Q x) (hf : ∀ a, Q a → SparesTo n R (f a)) : SparesTo n R (x >>= f) := by
  refine ⟨fun {s b s'} hn e => ?_⟩
  obtain ⟨a, s₁, ex, ef⟩ := run_bind_ok e
  obtain ⟨⟨hsize, hsince⟩, ha⟩ := hx.of_run hn ex
  obtain ⟨⟨hsize', hsince'⟩, hb⟩ := (hf a ha).of_run (hn.trans hsize) ef
  exact ⟨⟨hsize.trans hsize', hsince.trans hsince'⟩, hb⟩

theorem SparesTo.then (hx : SparesTo n Q x) (hf : ∀ a, SparesTo n R (f a)) : SparesTo n R (x >>= f) :=
  hx.bind fun a _ => hf a

theorem spares_throw (e : Failure) : SparesTo n Q (throw e : Gen α) := ⟨fun _ h => by cases h⟩

theorem spares_pure {a : α} (ha : Q a) : SparesTo n Q (pure a : Gen α) := by
  refine ⟨fun _ h => ?_⟩
  cases h
  exact ⟨⟨Nat.le_refl _, .refl n _⟩, ha⟩

theorem spares_done (a : α) : Spares n (pure a : Gen α) := spares_pure trivial

theorem SparesTo.map (hx : SparesTo n Q x) {g : α → β} (hg : ∀ a, Q a → R (g a)) : SparesTo n R (g <$> x) := by
  rw [map_eq_pure_bind]
  exact hx.bind fun a ha => spares_pure (hg a ha)

/-- A step that leaves the listing alone. -/
theorem spares_same (h : ∀ {s a s'}, x.run s = .ok (a, s') → s'.draft.listing = s.draft.listing) :
    Spares n x := by
  refine ⟨fun {s a s'} _ e => ?_⟩
  have hl : s'.draft.listing = s.draft.listing := h e
  refine ⟨⟨?_, hl ▸ .refl n _⟩, trivial⟩
  rw [GenState.regs, GenState.regs, hl]

theorem spares_modify {g : GenState → GenState} (hg : ∀ s, (g s).draft.listing = s.draft.listing) :
    Spares n (modify g : Gen Unit) := spares_same fun {s _ _} h => by cases h; exact hg s

theorem spares_modifyDraft {g : Draft → Draft} (hg : ∀ d, (g d).listing = d.listing) :
    Spares n (modifyDraft g) := spares_modify fun _ => hg _

theorem spares_get : Spares n (get : Gen GenState) := spares_same fun h => by cases h; rfl

theorem spares_faulting (y : Except Fault α) : Spares n (faulting y) := by
  cases y with
  | ok a => exact spares_done a
  | error e => exact spares_throw _

theorem spares_draft : Spares n draft := spares_get.then fun _ => spares_done _

end

/-! ## Steps that write -/

theorem faulting_ok {y : Except Fault α} {a : α} (h : (faulting y).run s = .ok (a, s')) : y = .ok a ∧ s' = s := by
  cases y with
  | ok b => cases h; exact ⟨rfl, rfl⟩
  | error e => cases h

/-- **A step that replaces the listing** by a later one. -/
theorem spares_listing {Q : α → Prop} {f : Draft → Gen α}
    (hf : ∀ {d s a s'}, s.draft = d → (f d).run s = .ok (a, s') → n ≤ s.regs.size →
      (s.regs.size ≤ s'.regs.size ∧ s.draft.listing.Since n s'.draft.listing) ∧ Q a) :
    SparesTo n Q (draft >>= f) := by
  refine ⟨fun {s a s'} hn e => ?_⟩
  obtain ⟨d, s₁, e₁, e₂⟩ := run_bind_ok e
  cases e₁
  exact hf rfl e₂ hn

theorem spares_writeNode {i : Instr NodeId} (hi : ∀ r, i.sets = some r → n ≤ r.index) :
    Spares n (writeNode i) := by
  refine spares_listing fun {d s a s'} hd e _ => ⟨?_, trivial⟩
  obtain ⟨⟨l, id⟩, s₁, e₁, e₂⟩ := run_bind_ok e
  obtain ⟨hins, rfl⟩ := faulting_ok e₁
  cases e₂
  subst hd
  obtain ⟨hsince, hregs⟩ := since_insert hi hins
  exact ⟨(congrArg Array.size hregs).ge, hsince⟩

theorem spares_write {i : Instr NodeId} (hi : ∀ r, i.sets = some r → n ≤ r.index) : Spares n (write i) :=
  (spares_writeNode hi).then fun _ => spares_done _

/-- An instruction that sets no register. -/
theorem spares_quiet {i : Instr NodeId} (hi : i.sets = none) : Spares n (write i) :=
  spares_write fun r hr => by cases hi.symm.trans hr

/-- **A new register** is not among the first ones. -/
theorem spares_freshReg (role : RegRole) (type : Option StaticType) :
    SparesTo n (fun r => n ≤ r.index) (freshReg role type) := by
  refine spares_listing fun {d s a s'} hd e hn => ?_
  subst hd
  have hsince : s.draft.listing.Since n (s.draft.listing.freshReg role).1 := .of_nodes rfl
  have hsize : s.regs.size ≤ (s.draft.listing.freshReg role).1.regs.size := by
    simp [Listing.freshReg, GenState.regs]
  dsimp only at e
  split at e
  · obtain ⟨l, s₁, e₁, e₂⟩ := run_bind_ok e
    obtain ⟨hrec, rfl⟩ := faulting_ok e₁
    cases e₂
    obtain ⟨hsince', hsize'⟩ := since_recordType (n := n) hrec
    exact ⟨⟨hsize.trans hsize'.ge, hsince.trans hsince'⟩, hn⟩
  · cases e
    exact ⟨⟨hsize, hsince⟩, hn⟩

theorem spares_knownType (r : Reg) : Spares n (knownType r) :=
  spares_same fun e => by rw [knownType_state e]

theorem spares_narrow (r : Reg) (t : StaticType) : Spares n (narrow r t) := spares_modify fun _ => rfl

theorem spares_height : Spares n height := spares_draft.then fun _ => spares_done _

theorem spares_pushVariable (v : Variable) : Spares n (pushVariable v) := spares_modify fun _ => rfl

theorem spares_forgetAbove (k : Nat) : Spares n (forgetAbove k) := spares_modify fun _ => rfl

theorem spares_variableAt (offset : Nat) : Spares n (variableAt offset) := by
  refine spares_draft.then fun d => ?_
  dsimp only
  split
  · exact spares_done _
  · exact spares_throw _

/-- An instruction that creates a register of its own. -/
theorem spares_into (role : RegRole) (type : Option StaticType) {i : Reg → Instr NodeId}
    (hi : ∀ r, (i r).sets = some r) {f : Reg → Gen α} {R : α → Prop} (hf : ∀ r, n ≤ r.index → SparesTo n R (f r)) :
    SparesTo n R (freshReg role type >>= fun r => write (i r) >>= fun _ => f r) :=
  (spares_freshReg role type).bind fun r hr => (spares_write fun q hq => by
    obtain rfl := Option.some.inj ((hi r).symm.trans hq)
    exact hr).then fun _ => hf r hr

theorem spares_loadConstant (c : Constant) : Spares n (loadConstant c) := by
  refine SparesTo.then (Q := fun _ => True) (spares_get.then fun s => ?_) fun k =>
    spares_into .temp _ (fun _ => rfl) fun _ _ => spares_done _
  dsimp only
  split
  · exact spares_done _
  · exact (spares_modify (g := fun s => { s with pool := s.pool.push c }) fun _ => rfl).then fun _ => spares_done _

theorem spares_retarget (id label : NodeId) : Spares n (retarget id label) := by
  refine spares_listing fun {d s a s'} hd e _ => ⟨?_, trivial⟩
  subst hd
  obtain ⟨i, s₁, e₁, e₂⟩ := run_bind_ok e
  obtain ⟨hget, rfl⟩ := faulting_ok e₁
  obtain ⟨l, s₂, e₃, e₄⟩ := run_bind_ok e₂
  obtain ⟨hput, rfl⟩ := faulting_ok e₃
  cases e₄
  obtain ⟨hsince, hregs⟩ := since_put ⟨i, hget, Instr.sets_relabel _ i⟩ hput
  exact ⟨(congrArg Array.size hregs).ge, hsince⟩

theorem spares_openBranch (flag : Reg) : Spares n (openBranch flag) :=
  (spares_writeNode fun _ h => by cases h).then fun _ => spares_done _

theorem spares_beginElse (b : Branch) : Spares n (beginElse b) :=
  (spares_writeNode fun _ h => by cases h).then fun _ => (spares_writeNode fun _ h => by cases h).then fun _ =>
    (spares_retarget _ _).then fun _ => spares_done _

/-- The register in which two arms meet, if there is one, is not among the first ones. -/
def Merges (n : Nat) (merged : Option Reg) : Prop := ∀ r ∈ merged, n ≤ r.index

theorem spares_meet (b : Branch) {merged : Option Reg} (hm : Merges n merged) : Spares n (meet b merged) := by
  refine (spares_writeNode fun r hr => hm r ?_).then fun label => ?_
  · cases merged with
    | some q => exact hr
    | none => cases hr
  · cases b.jump with
    | some jump => exact spares_retarget jump label
    | none => exact spares_throw _

theorem spares_closeBranch (b : Branch) {merged : Option Reg} (hm : Merges n merged) :
    Spares n (closeBranch b merged) :=
  (spares_beginElse b).then fun _ => spares_meet _ hm

theorem merges_none : Merges n none := fun _ h => by cases h

theorem spares_agree (merged a b : Reg) : Spares n (agree merged a b) := by
  have hknown : ∀ {k : Option StaticType → Option StaticType → Gen Unit}, (∀ x y, Spares n (k x y)) →
      Spares n (knownType a >>= fun x => knownType b >>= k x) := fun hk =>
    (spares_knownType a).then fun x => (spares_knownType b).then (hk x)
  refine spares_listing fun {d s x s'} hd e hn => ⟨?_, trivial⟩
  subst hd
  obtain ⟨ta, s₁, e₁, e'⟩ := run_bind_ok e
  obtain ⟨-, h₁⟩ := faulting_ok e₁
  obtain ⟨tb, s₂, e₂, e''⟩ := run_bind_ok e'
  obtain ⟨-, h₂⟩ := faulting_ok e₂
  rw [h₂, h₁] at e''
  split at e''
  · obtain ⟨l, s₃, e₃, e₄⟩ := run_bind_ok e''
    obtain ⟨hrec, h₃⟩ := faulting_ok e₃
    rw [h₃] at e₄
    cases e₄
    obtain ⟨hsince, hsize⟩ := since_recordType (n := n) hrec
    exact ⟨hsize.ge, hsince⟩
  · refine ((hknown fun x y => ?_).of_run hn e'').1
    split
    · split
      · exact spares_narrow _ _
      · exact spares_done _
    · exact spares_done _

theorem spares_returnErrors (ctx : Context) (r : Reg) (loc : Option Location) :
    Spares n (returnErrors ctx r loc) := by
  refine (spares_knownType r).then fun t => ?_
  split
  · exact spares_done _
  · refine spares_into _ _ (fun _ => rfl) fun t _ => (spares_openBranch t).then fun branch => ?_
    have hclose : ∀ (b : Branch), Spares n (write (.ret r) >>= fun _ => closeBranch b none) := fun b =>
      (spares_quiet rfl).then fun _ => spares_closeBranch b merges_none
    split
    · split
      · exact (spares_quiet rfl).then fun _ => hclose _
      · exact hclose _
    · exact hclose _

theorem spares_asFlag (c : Reg) : Spares n (asFlag c) := by
  refine spares_draft.then fun _ => (spares_faulting _).then fun _ => ?_
  split
  · exact spares_done _
  · exact spares_into _ _ (fun _ => rfl) fun _ _ => spares_done _

theorem spares_validatePattern (ctx : Context) (p : Pattern) : Spares n (validatePattern ctx p) := by
  unfold validatePattern
  split
  · exact spares_done _
  · exact spares_throw _

theorem spares_readField (src : Reg) (ty : ObjType) (idx : Nat) : Spares n (readField src ty idx) :=
  spares_into _ _ (fun _ => rfl) fun _ _ => spares_done _

theorem spares_openTest (v : Reg) (ty : ObjType) : Spares n (openTest v ty) :=
  spares_into _ _ (fun _ => rfl) fun _ _ => spares_openBranch _

theorem spares_mergeReg (tail : Bool) : SparesTo n (Merges n) (mergeReg tail) := by
  unfold mergeReg
  split
  · exact spares_pure merges_none
  · refine (spares_freshReg _ _).map fun r hr => ?_
    rintro _ ⟨⟩
    exact hr

theorem spares_ascend : ∀ branches : List Branch, Spares n (ascend branches)
  | [] => spares_done _
  | b :: outer => (spares_closeBranch b merges_none).then fun _ => spares_ascend outer

theorem spares_pushArgs : ∀ args : List Reg, Spares n (pushArgs args)
  | [] => spares_done _
  | r :: rest => (spares_quiet (i := .push r) rfl).then fun _ => spares_pushArgs rest

mutual

theorem spares_bindWhole (ctx : Context) (v : Reg) : ∀ p : Pattern, Spares n (bindWhole ctx v p)
  | .bind => spares_pushVariable _
  | .ignore => spares_done _
  | .unpack ty fields => by
    rw [bindWhole]
    refine (spares_validatePattern _ _).then fun _ => (spares_knownType v).then fun t => ?_
    split
    · exact (spares_quiet rfl).then fun _ => spares_bindParts ctx v ty fields
    · exact spares_bindParts ctx v ty fields

theorem spares_bindParts (ctx : Context) (v : Reg) (ty : ObjType) :
    ∀ fields : List (Nat × Pattern), Spares n (bindParts ctx v ty fields)
  | [] => spares_done _
  | (offset, p) :: rest => by
    rw [bindParts]
    split
    · exact (spares_readField v ty offset).then fun f =>
        (spares_bindWhole ctx f p).then fun _ => spares_bindParts ctx v ty rest
    · exact spares_bindParts ctx v ty rest

end

mutual

theorem spares_descend (v : Reg) : ∀ p : Pattern, Spares n (descend v p)
  | .bind => (spares_pushVariable _).then fun _ => spares_done _
  | .ignore => spares_done _
  | .unpack ty fields => by
    rw [descend]
    refine (spares_knownType v).then fun t => ?_
    split
    · exact ((spares_openTest v ty).map (R := fun _ => True) fun _ _ => trivial).then fun _ =>
        (spares_descendParts v ty fields).then fun _ => spares_done _
    · exact (spares_descendParts v ty fields).then fun _ => spares_done _

theorem spares_descendParts (v : Reg) (ty : ObjType) :
    ∀ fields : List (Nat × Pattern), Spares n (descendParts v ty fields)
  | [] => spares_done _
  | (offset, p) :: rest => by
    rw [descendParts]
    split
    · exact (spares_descendParts v ty rest).then fun _ => spares_done _
    · exact (spares_readField v ty offset).then fun f => (spares_descend f p).then fun _ =>
        (spares_descendParts v ty rest).then fun _ => spares_done _

end

/-! ## Expressions -/

/-- Generating code for sub-expressions spares the first registers. -/
structure SubSpares (n : Nat) (sub : Sub) : Prop where
  expr : ∀ e tail, Spares n (sub.expr e tail)
  value : ∀ e, Spares n (sub.value e)
  tail : ∀ e, Spares n (sub.tail e)

theorem subSpares_of {expr : Expr → Bool → Gen (Option Reg)} (h : ∀ e tail, Spares n (expr e tail)) :
    SubSpares n (.of expr) where
  expr := h
  value e := by
    refine (h e false).then fun out => ?_
    split
    · exact spares_done _
    · exact spares_throw _
  tail e := by
    refine (h e true).then fun out => ?_
    split
    · exact spares_quiet rfl
    · exact spares_done _

variable {sub : Sub} {ctx : Context}

theorem spares_mapM {f : α → Gen β} (hf : ∀ a, Spares n (f a)) : ∀ as : List α, Spares n (as.mapM f)
  | [] => by
    rw [List.mapM_nil]
    exact spares_done _
  | a :: as => by
    rw [List.mapM_cons]
    exact (hf a).then fun _ => (spares_mapM hf as).then fun _ => spares_done _

theorem spares_move {merged src : Reg} (hm : n ≤ merged.index) : Spares n (write (.move merged src)) :=
  spares_write fun q hq => by
    obtain rfl := Option.some.inj hq
    exact hm

theorem SubSpares.genArm (h : SubSpares n sub) (body : Expr) {merged : Option Reg} (hm : Merges n merged)
    (k : Nat) : Spares n (genArm sub body merged k) := by
  cases merged with
  | some m => exact (h.value body).then fun _ => (spares_move (hm m rfl)).then fun _ =>
      (spares_forgetAbove k).then fun _ => spares_done _
  | none => exact (h.tail body).then fun _ => (spares_forgetAbove k).then fun _ => spares_done _

theorem SubSpares.genArms (h : SubSpares n sub) (branch : Branch) {merged : Option Reg} (hm : Merges n merged)
    (k : Nat) (yes no : Expr) : Spares n (genArms sub branch merged k yes no) := by
  refine (h.genArm yes hm k).then fun _ => (spares_beginElse _).then fun _ =>
    (h.genArm no hm k).then fun _ => (spares_meet _ hm).then fun _ => ?_
  split
  · exact (spares_agree _ _ _).then fun _ => spares_done _
  · exact spares_done _

theorem SubSpares.genFitting (h : SubSpares n sub) (v : Reg) (p : Pattern) (yes : Expr) (tail : Bool) :
    Spares n (genFitting ctx sub v p yes tail) :=
  spares_height.then fun k => (spares_bindWhole ctx v p).then fun _ => (h.expr yes tail).then fun _ =>
    (spares_forgetAbove k).then fun _ => spares_done _

theorem SubSpares.genOneLevel (h : SubSpares n sub) (v : Reg) (p : Pattern) (yes no : Expr) (tail : Bool) :
    Spares n (genOneLevel ctx sub v p yes no tail) := by
  unfold Gen.genOneLevel
  split
  · exact (spares_validatePattern _ _).then fun _ => spares_height.then fun k =>
      (spares_openTest _ _).then fun _ => (spares_mergeReg tail).bind fun _ hm =>
        (spares_bindParts ctx v _ _).then fun _ => h.genArms _ hm _ _ _
  · exact spares_throw _

theorem SubSpares.genLevelsTail (h : SubSpares n sub) (v : Reg) (p : Pattern) (yes no : Expr) :
    Spares n (genLevelsTail sub v p yes no) :=
  spares_height.then fun k => (spares_descend v p).then fun _ => (h.tail yes).then fun _ =>
    (spares_forgetAbove k).then fun _ => (spares_ascend _).then fun _ => (h.tail no).then fun _ => spares_done _

theorem SubSpares.genMatched (h : SubSpares n sub) (v : Reg) (p : Pattern) {unmatched merged : Reg}
    (hu : n ≤ unmatched.index) (hm : n ≤ merged.index) (k : Nat) (yes : Expr) :
    Spares n (genMatched sub v p unmatched merged k yes) :=
  (spares_descend v p).then fun _ => (spares_write fun q hq => by
    obtain rfl := Option.some.inj hq
    exact hu).then fun _ => (h.value yes).then fun _ => (spares_move hm).then fun _ =>
      (spares_forgetAbove k).then fun _ => (spares_ascend _).then fun _ => spares_done _

theorem SubSpares.genUnmatched (h : SubSpares n sub) (unmatched : Reg) {merged : Reg} (hm : n ≤ merged.index)
    (k : Nat) (no : Expr) : Spares n (genUnmatched sub unmatched merged k no) :=
  (spares_openBranch _).then fun _ => (h.value no).then fun _ => (spares_move hm).then fun _ =>
    (spares_forgetAbove k).then fun _ => (spares_closeBranch _ fun r hr => by
      obtain rfl := Option.some.inj hr
      exact hm).then fun _ => spares_done _

theorem SubSpares.genLevelsValue (h : SubSpares n sub) (v : Reg) (p : Pattern) (yes no : Expr) :
    Spares n (genLevelsValue sub v p yes no) := by
  refine spares_height.then fun k => (spares_freshReg _ _).bind fun unmatched hu => ?_
  exact (spares_write fun q hq => by
    obtain rfl := Option.some.inj hq
    exact hu).then fun _ => (spares_freshReg _ _).bind fun merged hm =>
      (h.genMatched v p hu hm k yes).then fun _ => (h.genUnmatched unmatched hm k no).then fun _ =>
        (spares_agree _ _ _).then fun _ => spares_done _

theorem SubSpares.genAlternatives (h : SubSpares n sub) (v : Reg) (p : Pattern) (yes no : Expr) (tail : Bool) :
    Spares n (genAlternatives ctx sub v p yes no tail) := by
  refine (spares_knownType v).then fun type => ?_
  split
  · exact h.genFitting v p yes tail
  · exact (spares_validatePattern _ _).then fun _ => h.expr no tail
  · split
    · exact h.genOneLevel v p yes no tail
    · refine (spares_validatePattern _ _).then fun _ => ?_
      split
      · exact h.genLevelsTail v p yes no
      · exact h.genLevelsValue v p yes no

theorem SubSpares.genMatch (h : SubSpares n sub) (p : Pattern) (e yes : Expr) (no : Option Expr) (tail : Bool) :
    Spares n (genMatch ctx sub p e yes no tail) := by
  refine (h.value e).then fun v => ?_
  split
  · exact h.genFitting v p yes tail
  · exact h.genAlternatives v p yes _ tail

theorem SubSpares.genIf (h : SubSpares n sub) (test yes no : Expr) (tail : Bool) :
    Spares n (genIf sub test yes no tail) :=
  (h.value test).then fun _ => (spares_asFlag _).then fun _ => spares_height.then fun _ =>
    (spares_openBranch _).then fun _ => (spares_mergeReg tail).bind fun _ hm => h.genArms _ hm _ _ _

theorem spares_genVar (offset : Nat) (mutable : Bool) : Spares n (genVar offset mutable) := by
  refine (spares_variableAt offset).then fun v => ?_
  split
  · exact spares_into _ _ (fun _ => rfl) fun _ _ => spares_done _
  · split
    · exact spares_throw _
    · exact spares_done _

theorem spares_genUnchecked (op : Operator) (l r : Reg) (t : StaticType) : Spares n (genUnchecked op l r t) :=
  spares_into _ _ (fun _ => rfl) fun _ _ => spares_done _

theorem spares_genArithmetic (op : Operator) (l r : Reg) : Spares n (genArithmetic ctx op l r) := by
  refine (spares_knownType l).then fun _ => (spares_knownType r).then fun _ => ?_
  split
  · exact spares_genUnchecked _ _ _ _
  · refine spares_into _ _ (fun _ => rfl) fun dst _ => (spares_returnErrors _ _ _).then fun _ =>
      (spares_knownType l).then fun _ => (spares_knownType r).then fun _ => ?_
    split
    · exact (spares_narrow _ _).then fun _ => spares_done _
    · exact spares_done _

theorem SubSpares.genOperator (h : SubSpares n sub) (op : Operator) (lhs rhs : Expr) :
    Spares n (genOperator ctx sub op lhs rhs) := by
  refine (h.value lhs).then fun l => (h.value rhs).then fun r => ?_
  split
  · exact spares_genUnchecked _ _ _ _
  · exact spares_genUnchecked _ _ _ _
  · exact spares_genUnchecked _ _ _ _
  · exact spares_genArithmetic _ _ _

theorem SubSpares.genBinds (h : SubSpares n sub) : ∀ binds : List (Binding Expr), Spares n (genBinds sub binds)
  | [] => spares_done _
  | b :: rest => by
    rw [Gen.genBinds]
    refine (h.value b.value).then fun r => ?_
    split
    · exact spares_into _ _ (fun _ => rfl) fun _ _ => (spares_pushVariable _).then fun _ => h.genBinds rest
    · exact (spares_pushVariable _).then fun _ => h.genBinds rest

theorem SubSpares.genBody (h : SubSpares n sub) (body : Option Expr) (k : Nat) (tail : Bool) :
    Spares n (genBody sub body k tail) := by
  cases body with
  | some e => exact (h.expr e tail).then fun _ => (spares_forgetAbove k).then fun _ => spares_done _
  | none => exact (spares_loadConstant .nil).then fun _ => spares_done _

theorem SubSpares.genSequence (h : SubSpares n sub) (tail : Bool) :
    ∀ es : List Expr, Spares n (genSequence sub tail es)
  | [] => (spares_loadConstant _).then fun _ => spares_done _
  | [e] => h.expr e tail
  | e :: e' :: rest => (h.value e).then fun _ => h.genSequence tail (e' :: rest)

theorem SubSpares.genAssign (h : SubSpares n sub) (offset : Nat) (e : Expr) :
    Spares n (genAssign sub offset e) := by
  refine (spares_variableAt offset).then fun v => ?_
  split
  · exact spares_throw _
  · exact (h.value e).then fun _ => (spares_quiet rfl).then fun _ => spares_loadConstant _

theorem SubSpares.genStruct (h : SubSpares n sub) (ty : Nat) (fields : List Expr) :
    Spares n (genStruct ctx sub ty fields) := by
  unfold Gen.genStruct
  split
  · exact spares_throw _
  · split
    · exact spares_throw _
    · exact (spares_mapM h.value fields).then fun _ => spares_into _ _ (fun _ => rfl) fun _ _ => spares_done _

/-! ## Calls and function literals -/

/-- Where the step ends the listing is the given one. -/
def EndsWith (l : Listing) (x : Gen α) : Prop := ∀ s a s', x.run s = .ok (a, s') → s'.draft.listing = l

/-- Whatever comes before, the last step decides. -/
theorem EndsWith.last {x : Gen α} {f : α → Gen β} {l : Listing} (hf : ∀ a, EndsWith l (f a)) :
    EndsWith l (x >>= f) := fun s b s' e => by
  obtain ⟨a, s₁, -, e₂⟩ := run_bind_ok e
  exact hf a s₁ b s' e₂

/-- A step that remembers the draft and puts its listing back. -/
theorem spares_of_restores {f : Draft → Gen α} (hf : ∀ d, EndsWith d.listing (f d)) : Spares n (draft >>= f) := by
  refine spares_same fun {s a s'} e => ?_
  obtain ⟨d, s₁, e₁, e₂⟩ := run_bind_ok e
  cases e₁
  exact hf _ _ _ _ e₂

theorem SubSpares.genInlined (h : SubSpares n sub) (body : Expr) (args : List Reg) (guard : Bool)
    (loc : Option Location) (tail : Bool) : Spares n (genInlined ctx sub body args guard loc tail) := by
  refine spares_draft.then fun d => SparesTo.then (spares_modifyDraft ?_) fun _ =>
    (h.expr body tail).then fun out => SparesTo.then (spares_modifyDraft ?_) fun _ => ?_
  · exact fun _ => rfl
  · exact fun _ => rfl
  split
  · split
    · exact (spares_returnErrors _ _ _).then fun _ => spares_done _
    · exact spares_done _
  · exact spares_done _

theorem spares_genRuntimeCall (func : Reg) (args : List Reg) (checked guard tailCall : Bool)
    (loc : Option Location) : Spares n (genRuntimeCall ctx func args checked guard tailCall loc) := by
  refine (spares_pushArgs args).then fun _ => ?_
  split
  · exact (spares_quiet rfl).then fun _ => spares_done _
  · refine spares_into _ _ (fun _ => rfl) fun _ _ => ?_
    split
    · exact (spares_returnErrors _ _ _).then fun _ => spares_done _
    · exact spares_done _

theorem SubSpares.genCall (h : SubSpares n sub) (callee : Expr) (args : List Expr) (guard : Bool)
    (loc : Option Location) (tail : Bool) : Spares n (genCall ctx sub callee args guard loc tail) := by
  refine (spares_mapM h.value args).then fun regs => (h.value callee).then fun func => ?_
  refine (SparesTo.then spares_get fun s => spares_done _).then fun k => ?_
  split
  · refine spares_draft.then fun d => ?_
    split
    · exact h.genInlined _ _ _ _ _
    · exact spares_genRuntimeCall _ _ _ _ _ _
  · exact spares_genRuntimeCall _ _ _ _ _ _

/-- A unit has a draft of its own. -/
theorem spares_buildUnit (name : String) (arity : Nat) (caps : List Bool) (body : Expr) :
    Spares n (buildUnit ctx sub name arity caps body) := by
  refine spares_of_restores fun d => .last fun _ => .last fun _ => .last fun _ => .last fun _ => .last fun _ =>
    .last fun _ => .last fun _ => fun s a s' e => ?_
  obtain ⟨u, s₁, e₁, e₂⟩ := run_bind_ok e
  cases e₂
  cases e₁
  rfl

theorem spares_unitName (lambda : Lambda Expr) : Spares n (unitName lambda) := by
  unfold unitName
  split
  · exact spares_done _
  · exact spares_get.then fun _ => spares_done _

theorem spares_buildClosure (lambda : Lambda Expr) : Spares n (buildClosure ctx sub lambda) :=
  (spares_mapM spares_variableAt _).then fun _ => (spares_unitName lambda).then fun _ =>
    (spares_buildUnit _ _ _ _).then fun _ => spares_done _

theorem spares_genFn (lambda : Lambda Expr) : Spares n (genFn ctx sub lambda) := by
  unfold genFn
  split
  · exact (spares_unitName lambda).then fun _ => (spares_buildUnit _ _ _ _).then fun _ =>
      (spares_loadConstant _).then fun _ => SparesTo.then (spares_modify fun _ => rfl) fun _ => spares_done _
  · exact spares_into _ _ (fun _ => rfl) fun _ _ => (spares_buildClosure lambda).then fun _ =>
      (spares_quiet rfl).then fun _ => spares_done _

theorem spares_allocClosures : ∀ (index : Nat) (es : List Expr), Spares n (allocClosures index es)
  | _, [] => spares_done _
  | index, e :: rest => by
    cases e with
    | fn lambda =>
      exact spares_into _ _ (fun _ => rfl) fun _ _ => (spares_pushVariable _).then fun _ =>
        (spares_allocClosures (index + 1) rest).then fun _ => spares_done _
    | _ => exact spares_throw _

theorem spares_finishClosures : ∀ closures : List (Reg × Lambda Expr), Spares n (finishClosures ctx sub closures)
  | [] => spares_done _
  | (_, lambda) :: rest => (spares_buildClosure lambda).then fun _ => (spares_quiet rfl).then fun _ =>
      spares_finishClosures rest

theorem spares_genFix (fns : List Expr) : Spares n (genFix ctx sub fns) :=
  (spares_allocClosures 0 fns).then fun _ => (spares_quiet rfl).then fun _ =>
    (spares_finishClosures _).then fun _ => spares_quiet rfl

/-- One node spares the first registers when its parts do. -/
theorem SubSpares.genNode (h : SubSpares n sub) (e : Expr) (tail : Bool) : Spares n (genNode ctx sub e tail) := by
  have hmap : ∀ {x : Gen Reg}, Spares n x → Spares n (some <$> x) := fun hx => hx.map fun _ _ => trivial
  cases e with
  | lit c => exact hmap (spares_loadConstant _)
  | var offset mutable => exact hmap (spares_genVar offset mutable)
  | apply callee args guard loc => exact h.genCall callee args guard loc tail
  | operate op lhs rhs => exact hmap (h.genOperator op lhs rhs)
  | fn lambda => exact hmap (spares_genFn lambda)
  | letIn binds body => exact spares_height.then fun k => (h.genBinds binds).then fun _ => h.genBody body k tail
  | fix fns body => exact spares_height.then fun k => (spares_genFix fns).then fun _ => h.genBody body k tail
  | ite test yes no => exact h.genIf test yes no tail
  | matchWith p value yes no => exact h.genMatch p value yes no tail
  | block exprs keep =>
    refine spares_height.then fun k => (h.genSequence tail exprs).then fun _ => ?_
    split
    · exact (spares_forgetAbove k).then fun _ => spares_done _
    · exact spares_done _
  | ret value =>
    refine (h.tail value).then fun _ => ?_
    split
    · exact spares_done _
    · exact hmap (spares_loadConstant _)
  | assign offset value => exact hmap (h.genAssign offset value)
  | yield value =>
    exact (h.value value).then fun _ => (spares_quiet rfl).then fun _ => hmap (spares_loadConstant _)
  | struct ty fields => exact hmap (h.genStruct ty fields)

/-- **Code for an expression spares the registers that there were before.** -/
theorem genExpr_spares (ctx : Context) : ∀ (fuel : Nat) (e : Expr) (tail : Bool),
    Spares n (genExpr ctx fuel e tail)
  | 0, _, _ => spares_throw _
  | fuel + 1, e, tail => (subSpares_of (genExpr_spares ctx fuel)).genNode e tail

end Gen

end CountedMachine
