import CountedMachine.Generation.Expression
import CountedMachine.Proofs.Code.Realm
import CountedMachine.Proofs.Generation.Scoping
import CountedMachine.Proofs.Generation.Steps

/-! # Drafts that are in order

A state of the code generator is in order (`InOrder`) when the draft names nothing but what is there,
its labels lead to labels, and the arguments of every call are pushed right before it; when the same
holds of the units that are finished; and when the constants name units without captures. A step
`Works` when it leads from such states to such states wherever it does not fail, and then the state
has only `Grown`.

Whether there are calls other than tail calls is left open: without them, calls stand in tail
position only (`Expr.tailCalls`). So is whether there are cells: without them, no binding is mutable
(`Expr.immutable`). -/

namespace CountedMachine

open Listing

namespace Expr

mutual

/-- **Calls stand in tail position only, and call variables.** The expression itself stands there
when `tail` holds; so do the bodies of functions and the operands of returns. -/
def tailCalls (tail : Bool) : Expr → Bool
  | .lit _ => true
  | .var _ _ => true
  | .apply callee args _ _ => tail && Gen.isVar callee && tailCallsList args
  | .operate _ lhs rhs => tailCalls false lhs && tailCalls false rhs
  | .fn ⟨_, _, body, _⟩ => tailCalls true body
  | .letIn binds body => tailCallsBinds binds && tailCallsOption tail body
  | .fix fns body => tailCallsList fns && tailCallsOption tail body
  | .ite test yes no => tailCalls false test && tailCalls tail yes && tailCalls tail no
  | .matchWith _ value yes no =>
    tailCalls false value && tailCalls tail yes && tailCallsOption tail no
  | .block exprs _ => tailCallsBlock tail exprs
  | .ret value => tailCalls true value
  | .assign _ value => tailCalls false value
  | .yield value => tailCalls false value
  | .struct _ fields => tailCallsList fields

/-- Expressions none of which stands in tail position. -/
def tailCallsList : List Expr → Bool
  | [] => true
  | e :: rest => tailCalls false e && tailCallsList rest

/-- Values that are bound. -/
def tailCallsBinds : List (Binding Expr) → Bool
  | [] => true
  | ⟨e, _⟩ :: rest => tailCalls false e && tailCallsBinds rest

/-- An expression that may be absent. -/
def tailCallsOption (tail : Bool) : Option Expr → Bool
  | none => true
  | some e => tailCalls tail e

/-- A block, the last expression of which may stand in tail position. -/
def tailCallsBlock (tail : Bool) : List Expr → Bool
  | [] => true
  | [e] => tailCalls tail e
  | e :: rest => tailCalls false e && tailCallsBlock tail rest

end

mutual

/-- **No binding is mutable**, also inside function literals. -/
def immutable : Expr → Bool
  | .lit _ => true
  | .var _ _ => true
  | .apply callee args _ _ => immutable callee && immutableList args
  | .operate _ lhs rhs => immutable lhs && immutable rhs
  | .fn ⟨_, _, body, _⟩ => immutable body
  | .letIn binds body => immutableBinds binds && immutableOption body
  | .fix fns body => immutableList fns && immutableOption body
  | .ite test yes no => immutable test && immutable yes && immutable no
  | .matchWith _ value yes no => immutable value && immutable yes && immutableOption no
  | .block exprs _ => immutableList exprs
  | .ret value => immutable value
  | .assign _ value => immutable value
  | .yield value => immutable value
  | .struct _ fields => immutableList fields

/-- Expressions without mutable bindings. -/
def immutableList : List Expr → Bool
  | [] => true
  | e :: rest => immutable e && immutableList rest

/-- Bindings that are not mutable, of values without mutable bindings. -/
def immutableBinds : List (Binding Expr) → Bool
  | [] => true
  | ⟨e, mutable⟩ :: rest => immutable e && !mutable && immutableBinds rest

/-- An expression that may be absent. -/
def immutableOption : Option Expr → Bool
  | none => true
  | some e => immutable e

end

end Expr

/-! ## States in order -/

/-- **The terms of a draft**: what there is in its unit, the units that are not finished, whether there
may be calls other than tail calls, and whether there may be cells. -/
structure Brief where
  ctx : Context
  arity : Nat
  ncaps : Nat
  opened : List Nat
  calls : Prop
  cells : Prop

/-- **The expression may stand there**: calls are allowed, or it makes tail calls only; and cells are
allowed, or it has no mutable bindings. -/
structure Brief.Allows (b : Brief) (e : Expr) (tail : Bool) : Prop where
  calls : b.calls ∨ e.tailCalls tail = true
  cells : b.cells ∨ e.immutable = true

namespace GenState

variable (s : GenState) (b : Brief)

/-- The number of captures of a unit. -/
def capsOf (k : Nat) : Option Nat := s.units[k]?.map (·.ncaps)

/-- What the draft may name. -/
def realm : Realm := ⟨s.regs.size, b.arity, b.ncaps, s.pool.size, s.capsOf, b.ctx.types, b.calls,
  b.cells⟩

/-- What a finished unit may name. -/
def unitRealm (u : CodeUnit) : Realm :=
  ⟨u.nregs, u.arity, u.ncaps, s.pool.size, s.capsOf, b.ctx.types, b.calls,
  b.cells⟩

/-- The register has been made. -/
def Made (r : Reg) : Prop := r.index < s.regs.size

/-- **A state has grown**: it has what was there before. -/
structure Grown (s s' : GenState) : Prop where
  regs : s.regs.size ≤ s'.regs.size
  pool : s.pool.size ≤ s'.pool.size
  units : ∀ {k n}, s.capsOf k = some n → s'.capsOf k = some n

variable {s b} {s₁ s₂ : GenState} {r : Reg}

theorem Grown.refl (s : GenState) : Grown s s := ⟨le_rfl, le_rfl, id⟩

theorem Grown.trans (h : Grown s s₁) (h' : Grown s₁ s₂) : Grown s s₂ :=
  ⟨h.regs.trans h'.regs, h.pool.trans h'.pool, fun hk => h'.units (h.units hk)⟩

theorem Grown.made (h : Grown s s₁) (hr : s.Made r) : s₁.Made r := Nat.lt_of_lt_of_le hr h.regs

theorem Grown.realm (h : Grown s s₁) (b : Brief) : (s.realm b).Le (s₁.realm b) :=
  ⟨h.regs, rfl, rfl, h.pool, h.units, rfl, rfl, rfl⟩

theorem Grown.unitRealm (h : Grown s s₁) (b : Brief) (u : CodeUnit) :
    (s.unitRealm b u).Le (s₁.unitRealm b u) :=
  ⟨le_rfl, rfl, rfl, h.pool, h.units, rfl, rfl, rfl⟩

end GenState

/-- **A listing that is in order** up to where it is written to; the registers `rs` wait for a
call. -/
structure Drafted (R : Realm) (l : Listing) (code : Code) (rs : List Reg) : Prop where
  linked : Linked l (code ++ [(tail, Instr.done)])
  cursor : l.cursor = tail
  begins : (head, .nop) ∈ code
  apt : ∀ p ∈ code, p.2.Apt R
  aimed : ∀ p ∈ code, ∀ n, p.2.label? = some n → ∃ j, (n, j) ∈ code ∧ j.isLabel = true
  fed : feeds (code.map (·.2)) = some rs

/-- **A finished unit that is in order.** -/
structure CodeUnit.Finished (R : Realm) (u : CodeUnit) : Prop where
  apt : ∀ i ∈ u.code, i.Apt R
  aimed : ∀ i ∈ u.code, ∀ t, i.label? = some t → ∃ j, u.code[t]? = some j ∧ j.isLabel = true
  last : u.code.back? = some .done
  fed : feeds u.code.toList = some []

/-- **A state that is in order**, where the registers `rs` wait for a call. -/
structure Gen.InOrder (b : Brief) (rs : List Reg) (s : GenState) : Prop where
  drafted : ∃ code, Drafted (s.realm b) s.draft.listing code rs
  stack : ∀ v ∈ s.draft.stack, s.Made v.reg
  cells : ∀ v ∈ s.draft.stack, v.mutable = true → b.cells
  functions : ∀ f ∈ s.functions, b.Allows f.body true
  pool : ∀ (k : Nat) (u : UnitId), s.pool[k]? = some (.closure u) → s.capsOf u.index = some 0
  units : ∀ (k : Nat) (u : CodeUnit), s.units[k]? = some u →
    k ∈ b.opened ∨ u.Finished (s.unitRealm b u)

/-- Recording a type changes neither the code nor the number of registers. -/
theorem Listing.alike_of_recordType {l l' : Listing} {r : Reg} {t : Option StaticType}
    (h : l.recordType r t = .ok l') : Alike l l' ∧ l'.regs.size = l.regs.size := by
  unfold recordType at h
  cases hf : l.factsOf r with
  | error f => rw [hf] at h; cases h
  | ok f =>
    rw [hf] at h
    obtain rfl := Except.ok.inj h
    exact ⟨⟨rfl, rfl, rfl⟩, by simp⟩

section
variable {R S : Realm} {l l' : Listing} {code : Code} {rs rs' : List Reg} {i : Instr NodeId}
  {n : NodeId} {b : Brief} {s : GenState}

theorem Drafted.mono (h : Drafted R l code rs) (hle : R.Le S) : Drafted S l code rs :=
  { h with apt := fun p hp => (h.apt p hp).mono hle }

theorem CodeUnit.Finished.mono {u : CodeUnit} (h : u.Finished R) (hle : R.Le S) : u.Finished S :=
  { h with apt := fun i hi => (h.apt i hi).mono hle }

/-- Only the code and its cursor matter. -/
theorem Drafted.alike (h : Drafted R l code rs) (ha : Alike l l') : Drafted R l' code rs :=
  { h with linked := h.linked.alike ha, cursor := ha.cursor.trans h.cursor }

/-- One more instruction. -/
theorem Drafted.insert (h : Drafted R l code rs) (hi : i.Apt R) (hlabel : ∀ m, i.label? = some m → m = head)
    (hfeed : i.feed rs = some rs') (e : l.insert i = .ok (l', n)) :
    ∃ code', Drafted R l' code' rs' ∧ l'.regs = l.regs ∧ l'.get n = .ok i := by
  obtain ⟨xs, ⟨k, j⟩, rfl⟩ := (List.eq_nil_or_concat' code).resolve_left
    (List.ne_nil_of_mem h.begins)
  have hlinked : Linked l (xs ++ (k, j) :: (tail, Instr.done) :: []) := by
    simpa using h.linked
  obtain ⟨l₁, id, e₁, hl₁, hcur, hregs⟩ := hlinked.linkBefore i
  rw [Listing.insert, h.cursor, e₁] at e
  obtain ⟨rfl, rfl⟩ := Prod.mk.inj (Except.ok.inj e)
  refine ⟨xs ++ [(k, j)] ++ [(id, i)], ⟨by simpa using hl₁, hcur.trans h.cursor,
    List.mem_append_left _ h.begins, ?_, ?_, ?_⟩, hregs, hl₁.get_eq (by simp)⟩
  · intro p hp
    rcases List.mem_append.mp hp with hp | hp
    · exact h.apt p hp
    · obtain rfl := List.mem_singleton.mp hp
      exact hi
  · intro p hp m hm
    rcases List.mem_append.mp hp with hp | hp
    · obtain ⟨j', hj', hlab⟩ := h.aimed p hp m hm
      exact ⟨j', List.mem_append_left _ hj', hlab⟩
    · obtain rfl := List.mem_singleton.mp hp
      obtain rfl := hlabel m hm
      exact ⟨.nop, List.mem_append_left _ h.begins, rfl⟩
  · rw [List.map_append]
    exact (feeds_snoc h.fed).trans hfeed

/-- The label of an instruction is replaced by another one. -/
theorem Drafted.relabel (h : Drafted R l code rs) {k : NodeId} {j : Instr NodeId}
    (hn : l.get n = .ok j) (hj : j.isLabel = true) (hi : l.get k = .ok i)
    (e : l.put k (i.relabel fun _ => n) = .ok l') : ∃ code', Drafted R l' code' rs ∧ l'.regs = l.regs := by
  obtain ⟨xs, ys, e₀⟩ := List.append_of_mem (h.linked.mem_of_get hi)
  have hlinked := h.linked
  rw [e₀] at hlinked
  obtain ⟨l₁, e₁, hl₁, hcur, hregs⟩ := hlinked.put (i.relabel fun _ => n)
  rw [e₁] at e
  obtain rfl := Except.ok.inj e
  have hmem : (n, j) ∈ code := by
    rcases List.mem_append.mp (h.linked.mem_of_get hn) with hm | hm
    · exact hm
    · obtain ⟨rfl, rfl⟩ := Prod.mk.inj (List.mem_singleton.mp hm)
      cases hj
  -- what is overwritten is the last node, which has no label, or a node of the code
  rcases List.eq_nil_or_concat ys with rfl | ⟨ys, q, rfl⟩
  · obtain ⟨rfl, hlast⟩ := List.append_inj' e₀ rfl
    obtain ⟨rfl, rfl⟩ := Prod.mk.inj (List.singleton_inj.mp hlast)
    exact ⟨code, { h with linked := hl₁, cursor := hcur.trans h.cursor }, hregs⟩
  · have e₁ : code ++ [(tail, Instr.done)] = (xs ++ (k, i) :: ys) ++ [q] := by simpa using e₀
    obtain ⟨rfl, hlast⟩ := List.append_inj' e₁ rfl
    obtain rfl := List.singleton_inj.mp hlast
    have hkeep : ∀ {m j'}, (m, j') ∈ xs ++ (k, i) :: ys → Instr.isLabel j' = true →
        ∃ j'', (m, j'') ∈ xs ++ (k, i.relabel fun _ => n) :: ys ∧ j''.isLabel = true := by
      intro m j' hm hlab
      simp only [List.mem_append, List.mem_cons, Prod.mk.injEq] at hm ⊢
      rcases hm with hm | ⟨rfl, rfl⟩ | hm
      · exact ⟨j', Or.inl hm, hlab⟩
      · exact ⟨_, Or.inr (Or.inl ⟨rfl, rfl⟩), by simpa using hlab⟩
      · exact ⟨j', Or.inr (Or.inr hm), hlab⟩
    refine ⟨xs ++ (k, i.relabel fun _ => n) :: ys, ⟨by simpa using hl₁, hcur.trans h.cursor, ?_, ?_,
      ?_, ?_⟩, hregs⟩
    · have hb := h.begins
      simp only [List.mem_append, List.mem_cons, Prod.mk.injEq] at hb ⊢
      rcases hb with hb | ⟨rfl, rfl⟩ | hb
      · exact Or.inl hb
      · exact Or.inr (Or.inl ⟨rfl, rfl⟩)
      · exact Or.inr (Or.inr hb)
    · intro p hp
      simp only [List.mem_append, List.mem_cons] at hp
      rcases hp with hp | rfl | hp
      · exact h.apt p (by simp [hp])
      · exact (h.apt (k, i) (by simp)).relabel _
      · exact h.apt p (by simp [hp])
    · intro p hp m hm
      simp only [List.mem_append, List.mem_cons] at hp
      rcases hp with hp | rfl | hp
      · obtain ⟨j', hj', hlab⟩ := h.aimed p (by simp [hp]) m hm
        exact hkeep hj' hlab
      · rw [Instr.label?_relabel, Option.map_eq_some_iff] at hm
        obtain ⟨-, -, rfl⟩ := hm
        exact hkeep hmem hj
      · obtain ⟨j', hj', hlab⟩ := h.aimed p (by simp [hp]) m hm
        exact hkeep hj' hlab
    · have hfed : feeds (xs.map (·.2) ++ i :: ys.map (·.2)) = some rs := by simpa using h.fed
      obtain ⟨ps, qs, hps, hqs, hrest⟩ := exists_feeds hfed
      rw [List.map_append, List.map_cons, feeds_append hps, List.foldlM_cons,
        Instr.feed_relabel, hqs]
      exact hrest

end

/-! ## Steps that work -/

namespace Gen

variable {α β : Type} {b : Brief} {s s₁ : GenState} {rs : List Reg} {r q : Reg} {i : Instr NodeId}

/-- **The step works**: where it does not fail, it leaves a state in order that has grown. The
registers `rs` wait for a call then. -/
def WorksTo (b : Brief) (rs : List Reg) (s : GenState) (x : Gen α) (Q : α → GenState → Prop) : Prop :=
  ∀ a s', x.run s = .ok (a, s') → InOrder b rs s' ∧ s.Grown s' ∧ Q a s'

/-- The step works, and no register waits for a call. -/
abbrev Works (b : Brief) (s : GenState) (x : Gen α) (Q : α → GenState → Prop) : Prop :=
  WorksTo b [] s x Q

section
variable {x : Gen α} {f : α → Gen β} {rs rs' : List Reg} {Q : α → GenState → Prop}
  {R : β → GenState → Prop}

theorem WorksTo.bind (hx : WorksTo b rs s x Q)
    (hf : ∀ a s₁, InOrder b rs s₁ → s.Grown s₁ → Q a s₁ → WorksTo b rs' s₁ (f a) R) :
    WorksTo b rs' s (x >>= f) R := by
  intro c s₂ e
  obtain ⟨a, s₁, ex, ef⟩ := run_bind_ok e
  obtain ⟨ho, hg, hq⟩ := hx a s₁ ex
  obtain ⟨ho₂, hg₂, hr⟩ := hf a s₁ ho hg hq c s₂ ef
  exact ⟨ho₂, hg.trans hg₂, hr⟩

theorem works_pure (h : InOrder b rs s) {a : α} (hq : Q a s) : WorksTo b rs s (pure a) Q := by
  intro c s' e
  cases e
  exact ⟨h, .refl s, hq⟩

theorem works_throw (e : Failure) : WorksTo b rs s (throw e : Gen α) Q := fun _ _ h => by cases h

theorem works_refuse (e : Refusal) : WorksTo b rs s (refuse e : Gen α) Q := works_throw _

/-- A computation that may end in a fault, before the rest. -/
theorem works_faulting {y : Except Fault α} (hf : ∀ a, y = .ok a → WorksTo b rs s (f a) R) :
    WorksTo b rs s (faulting y >>= f) R := by
  cases y with
  | ok a => exact hf a rfl
  | error e => exact works_throw _

theorem WorksTo.map (hx : WorksTo b rs s x Q) {g : α → β} (h : ∀ a s₁, Q a s₁ → R (g a) s₁) :
    WorksTo b rs s (g <$> x) R := by
  rw [map_eq_pure_bind]
  exact hx.bind fun a s₁ ho _ hq => works_pure ho (h a s₁ hq)

/-- What is in the draft can be looked at. -/
theorem works_draft {f : Draft → Gen β} (hf : WorksTo b rs s (f s.draft) R) :
    WorksTo b rs s (draft >>= f) R := hf

theorem works_get {f : GenState → Gen β} (hf : WorksTo b rs s (f s) R) :
    WorksTo b rs s (get >>= f) R := hf

end

/-! ## Looking and noting -/

/-- Nothing that matters has changed but the stack. -/
theorem InOrder.withStack (h : InOrder b rs s) {vs : List Variable} (hvs : ∀ v ∈ vs, s.Made v.reg)
    (hcells : ∀ v ∈ vs, v.mutable = true → b.cells) : InOrder b rs (s.withStack vs) :=
  ⟨h.drafted, hvs, hcells, h.functions, h.pool, h.units⟩

/-- Another listing, over at least as many registers. -/
theorem InOrder.withListing (h : InOrder b rs s) {l : Listing} {code : Code} {rs' : List Reg}
    (hl : Drafted (s.realm b) l code rs') (hsize : s.regs.size ≤ l.regs.size) :
    InOrder b rs' (s.withListing l) ∧ s.Grown (s.withListing l) := by
  have hg : s.Grown (s.withListing l) := ⟨hsize, le_rfl, id⟩
  exact ⟨⟨⟨code, hl.mono (hg.realm b)⟩, fun v hv => hg.made (h.stack v hv), h.cells, h.functions, h.pool,
    h.units⟩, hg⟩

theorem InOrder.knownType (h : InOrder b [] s) (r : Reg) :
    Works b s (knownType r) fun _ s' => s' = s := by
  intro t s' e
  obtain rfl := knownType_state e
  exact ⟨h, .refl s', rfl⟩

theorem InOrder.narrow (h : InOrder b [] s) (r : Reg) (t : StaticType) :
    Works b s (narrow r t) fun _ _ => True := by
  intro _ s' e
  cases e
  exact ⟨⟨h.drafted, h.stack, h.cells, h.functions, h.pool, h.units⟩, ⟨le_rfl, le_rfl, id⟩, trivial⟩

theorem InOrder.variableAt (h : InOrder b [] s) (offset : Nat) :
    Works b s (variableAt offset) fun v s' => s' = s ∧ s.Made v.reg ∧ (v.mutable = true → b.cells) := by
  refine works_draft ?_
  dsimp only
  split
  · next v hv =>
    have hmem := List.mem_of_getElem? hv
    exact works_pure h ⟨rfl, h.stack v hmem, h.cells v hmem⟩
  · exact works_refuse _

theorem InOrder.pushVariable (h : InOrder b [] s) {v : Variable} (hv : s.Made v.reg)
    (hcells : v.mutable = true → b.cells) : Works b s (pushVariable v) fun _ _ => True := by
  intro _ s' e
  cases e
  refine ⟨h.withStack (fun u hu => ?_) fun u hu => ?_, ⟨le_rfl, le_rfl, id⟩, trivial⟩ <;>
    rcases List.mem_cons.mp hu with rfl | hu
  · exact hv
  · exact h.stack u hu
  · exact hcells
  · exact h.cells u hu

theorem InOrder.forgetAbove (h : InOrder b [] s) (n : Nat) :
    Works b s (forgetAbove n) fun _ _ => True := by
  intro _ s' e
  cases e
  exact ⟨h.withStack (fun v hv => h.stack v (List.mem_of_mem_drop hv))
    fun v hv => h.cells v (List.mem_of_mem_drop hv), ⟨le_rfl, le_rfl, id⟩, trivial⟩

theorem InOrder.height (h : InOrder b [] s) : Works b s height fun _ _ => True :=
  works_draft (works_pure h trivial)

/-! ## Writing -/

/-- **Writing an instruction.** -/
theorem InOrder.writeNode (h : InOrder b rs s) (i : Instr NodeId) (hop : ∀ r ∈ i.operands, s.Made r)
    (hn : i.Names (s.realm b)) (hlabel : ∀ n, i.label? = some n → n = head) {rs' : List Reg}
    (hfeed : i.feed rs = some rs') :
    WorksTo b rs' s (writeNode i) fun id s' => s'.draft.listing.get id = .ok i := by
  refine works_draft (works_faulting fun q hq => ?_)
  intro id s' e
  cases e
  obtain ⟨code, hd⟩ := h.drafted
  obtain ⟨code', hd', hregs, hget⟩ := hd.insert ⟨hop, hn⟩ hlabel hfeed hq
  obtain ⟨ho, hg⟩ := h.withListing hd' (le_of_eq (congrArg Array.size hregs.symm))
  exact ⟨ho, hg, hget⟩

theorem InOrder.write (h : InOrder b rs s) (i : Instr NodeId) (hop : ∀ r ∈ i.operands, s.Made r)
    (hn : i.Names (s.realm b)) (hlabel : i.label? = none) {rs' : List Reg}
    (hfeed : i.feed rs = some rs') : WorksTo b rs' s (write i) fun _ _ => True :=
  (h.writeNode i hop hn (by simp [hlabel]) hfeed).bind fun _ _ ho _ _ => works_pure ho trivial

/-- **Making a register.** -/
theorem InOrder.freshReg (h : InOrder b rs s) (role : RegRole) (type : Option StaticType) :
    WorksTo b rs s (freshReg role type) fun r s' => s'.Made r := by
  refine works_draft ?_
  obtain ⟨code, hd⟩ := h.drafted
  have hsize : (s.draft.listing.freshReg role).1.regs.size = s.regs.size + 1 := by
    simp [Listing.freshReg, GenState.regs]
  -- the register is the last one of the listing, whether its type is recorded or not
  have hset : ∀ l, Alike s.draft.listing l → l.regs.size = s.regs.size + 1 →
      WorksTo b rs s (setListing l >>= fun _ => pure (s.draft.listing.freshReg role).2)
        fun r s' => s'.Made r := by
    intro l hl hsize r s' e
    cases e
    obtain ⟨ho, hg⟩ := h.withListing (hd.alike hl) (by omega)
    refine ⟨ho, hg, ?_⟩
    show s.regs.size < l.regs.size
    omega
  dsimp only
  split
  · refine works_faulting fun l e => ?_
    obtain ⟨hl, hsize'⟩ := alike_of_recordType e
    exact hset l ⟨hl.nodes, hl.free, hl.cursor⟩ (hsize'.trans hsize)
  · exact hset _ ⟨rfl, rfl, rfl⟩ hsize

/-- Making a register and writing the instruction that creates it. -/
theorem InOrder.create (h : InOrder b [] s) (role : RegRole) (type : Option StaticType)
    (mk : Reg → Instr NodeId) {f : Reg → Gen β} {R : β → GenState → Prop}
    (hop : ∀ r, ∀ q ∈ (mk r).operands, q = r ∨ s.Made q)
    (hn : ∀ r s₁, s.Grown s₁ → (mk r).Names (s₁.realm b)) (hlabel : ∀ r, (mk r).label? = none)
    (hfeed : ∀ r, (mk r).feed [] = some [])
    (hf : ∀ r s₁, InOrder b [] s₁ → s.Grown s₁ → s₁.Made r → Works b s₁ (f r) R) :
    Works b s (Gen.freshReg role type >>= fun r => Gen.write (mk r) >>= fun _ => f r) R := by
  refine (h.freshReg role type).bind fun r s₁ ho hg hr => ?_
  have hmade : ∀ q ∈ (mk r).operands, s₁.Made q := fun q hq =>
    (hop r q hq).elim (fun e => e ▸ hr) hg.made
  refine (ho.write (mk r) hmade (hn r s₁ hg) (hlabel r) (hfeed r)).bind fun _ s₂ ho₂ hg₂ _ => ?_
  exact hf r s₂ ho₂ (hg.trans hg₂) (hg₂.made hr)

/-- The constant may be in the pool: a closure names a unit without captures. -/
def Bare (s : GenState) (c : Constant) : Prop := ∀ u, c = .closure u → s.capsOf u.index = some 0

theorem InOrder.pooled (h : InOrder b [] s) {c : Constant} (hc : Bare s c) :
    Works b s (pooled c) fun k s' => k.index < s'.pool.size := by
  refine works_get ?_
  dsimp only
  split
  · next k hk => exact works_pure h (Array.findIdx?_eq_some_iff_getElem.mp hk).1
  · intro k s' e
    cases e
    have hg : s.Grown { s with pool := s.pool.push c } := ⟨le_rfl, by simp, id⟩
    obtain ⟨code, hd⟩ := h.drafted
    refine ⟨⟨⟨code, hd.mono (hg.realm b)⟩, h.stack, h.cells, h.functions, fun k u hk => ?_,
      fun k u hu => ?_⟩, hg, by simp⟩
    · rw [Array.getElem?_push] at hk
      split at hk
      · exact hc u (Option.some.inj hk)
      · exact h.pool k u hk
    · exact (h.units k u hu).imp id fun hfin => hfin.mono (hg.unitRealm b u)

theorem InOrder.loadConstant (h : InOrder b [] s) {c : Constant} (hc : Bare s c) :
    Works b s (loadConstant c) fun r s' => s'.Made r := by
  refine (h.pooled hc).bind fun k s₁ ho _ hk => ?_
  exact ho.create _ _ (.const · k) (by simp [Instr.operands]) (fun r s₂ hg => Nat.lt_of_lt_of_le hk hg.pool)
    (fun _ => rfl) (fun _ => rfl) fun r s₂ ho₂ _ hr => works_pure ho₂ hr

theorem InOrder.loadNil (h : InOrder b [] s) : Works b s loadNil fun r s' => s'.Made r :=
  h.loadConstant (by simp [Bare])

/-! ## Branches -/

theorem InOrder.retarget (h : InOrder b [] s) (id : NodeId) {n : NodeId}
    (hn : s.draft.listing.get n = .ok i) (hi : i.isLabel = true) :
    Works b s (retarget id n) fun _ _ => True := by
  refine works_draft (works_faulting fun j hj => works_faulting fun l hl => ?_)
  intro _ s' e
  cases e
  obtain ⟨code, hd⟩ := h.drafted
  obtain ⟨code', hd', hregs⟩ := hd.relabel hn hi hj hl
  obtain ⟨ho, hg⟩ := h.withListing hd' (le_of_eq (congrArg Array.size hregs.symm))
  exact ⟨ho, hg, trivial⟩

theorem InOrder.openBranch (h : InOrder b [] s) (hr : s.Made r) :
    Works b s (openBranch r) fun _ _ => True :=
  (h.writeNode (.branch r ⟨0⟩) (by simpa [Instr.operands] using hr) trivial (by simp [Instr.label?, head]) rfl).bind
    fun _ _ ho _ _ => works_pure ho trivial

theorem InOrder.beginElse (h : InOrder b [] s) (branch : Branch) :
    Works b s (beginElse branch) fun _ _ => True := by
  refine (h.writeNode (.jump ⟨0⟩) (by simp [Instr.operands]) trivial (by simp [Instr.label?, head]) rfl).bind
    fun _ s₁ ho _ _ => ?_
  refine (ho.writeNode .nop (by simp [Instr.operands]) trivial (by simp [Instr.label?]) rfl).bind
    fun label s₂ ho₂ _ hlabel => ?_
  exact (ho₂.retarget _ hlabel rfl).bind fun _ _ ho₃ _ _ => works_pure ho₃ trivial

/-- Writing the label where the arms of a branch meet. -/
theorem InOrder.meetAt (h : InOrder b [] s) (branch : Branch) {j : Instr NodeId}
    (hop : ∀ r ∈ j.operands, s.Made r) (hj : j.isLabel = true) :
    Works b s (Gen.writeNode j >>= fun label => match branch.jump with
      | some jump => Gen.retarget jump label
      | none => throw (.fault (.noElseArm branch.node))) fun _ _ => True := by
  refine (h.writeNode j hop (by cases j <;> simp_all [Instr.isLabel, Instr.Names])
    (by cases j <;> simp_all [Instr.isLabel, Instr.label?])
    ((Instr.feed_of_stands (Instr.stands_of_isLabel hj)).mpr ⟨rfl, rfl⟩)).bind
    fun label s₁ ho _ hget => ?_
  split
  · exact ho.retarget _ hget hj
  · exact works_throw _

theorem InOrder.meet (h : InOrder b [] s) (branch : Branch) {merged : Option Reg}
    (hm : ∀ r ∈ merged, s.Made r) : Works b s (meet branch merged) fun _ _ => True := by
  cases merged with
  | some dst => exact h.meetAt branch (j := .merge dst) (by simpa [Instr.operands] using hm) rfl
  | none => exact h.meetAt branch (j := .nop) (by simp [Instr.operands]) rfl

theorem InOrder.closeBranch (h : InOrder b [] s) (branch : Branch) {merged : Option Reg}
    (hm : ∀ r ∈ merged, s.Made r) : Works b s (closeBranch branch merged) fun _ _ => True :=
  (h.beginElse branch).bind fun _ _ ho hg _ => ho.meet _ fun r hr => hg.made (hm r hr)

theorem InOrder.agree (h : InOrder b [] s) (merged x y : Reg) :
    Works b s (agree merged x y) fun _ _ => True := by
  refine works_draft (works_faulting fun ta _ => works_faulting fun tb _ => ?_)
  split
  · refine works_faulting fun l hl => ?_
    intro _ s' e
    cases e
    obtain ⟨code, hd⟩ := h.drafted
    obtain ⟨ha, hsize⟩ := alike_of_recordType hl
    obtain ⟨ho, hg⟩ := h.withListing (hd.alike ha) hsize.ge
    exact ⟨ho, hg, trivial⟩
  · refine (h.knownType x).bind fun tx s₁ ho _ _ => (ho.knownType y).bind fun ty s₂ ho₂ _ _ => ?_
    split
    · split
      · exact ho₂.narrow _ _
      · exact works_pure ho₂ trivial
    · exact works_pure ho₂ trivial

theorem InOrder.returnErrors (h : InOrder b [] s) (ctx : Context) (hr : s.Made r)
    (loc : Option Location) : Works b s (returnErrors ctx r loc) fun _ _ => True := by
  have hlast : ∀ {s₁ : GenState} (branch : Branch), InOrder b [] s₁ → s₁.Made r →
      Works b s₁ (Gen.write (.ret r) >>= fun _ => Gen.closeBranch branch none) fun _ _ => True :=
    fun branch ho hr => (ho.write (.ret r) (by simpa [Instr.operands] using hr) trivial rfl rfl).bind
      fun _ _ ho₁ _ _ => ho₁.closeBranch _ (by simp)
  refine (h.knownType r).bind fun t s₁ ho hg _ => ?_
  split
  · exact works_pure ho trivial
  · refine ho.create .flag none (.testType · r .undefined) (by simp [Instr.operands, hg.made hr])
      (fun _ _ _ => trivial) (fun _ => rfl) (fun _ => rfl) fun t s₂ ho₂ hg₂ ht => ?_
    refine (ho₂.openBranch ht).bind fun branch s₃ ho₃ hg₃ _ => ?_
    have hr₃ := hg₃.made (hg₂.made (hg.made hr))
    split
    · split
      · exact (ho₃.write (.trace r _) (by simpa [Instr.operands] using hr₃) trivial rfl rfl).bind
          fun _ _ ho₄ hg₄ _ => hlast _ ho₄ (hg₄.made hr₃)
      · exact hlast _ ho₃ hr₃
    · exact hlast _ ho₃ hr₃

theorem InOrder.asFlag (h : InOrder b [] s) (hr : s.Made r) :
    Works b s (asFlag r) fun t s' => s'.Made t := by
  refine works_draft (works_faulting fun facts _ => ?_)
  split
  · exact works_pure h hr
  · exact h.create .flag none (.test · r) (by simp [Instr.operands, hr]) (fun _ _ _ => trivial)
      (fun _ => rfl) (fun _ => rfl) fun t s₁ ho _ ht => works_pure ho ht

end Gen

end CountedMachine
