import CountedMachine.Proofs.Generation.Compile
import CountedMachine.Proofs.Generation.Scoping

/-! # What code generation asks for

To generate code for a node, code for other expressions is asked for: for the parts of the node, for the
body of a known function that takes the place of a call, and for the bodies of function literals, which
make units of their own (`Enters`). How deep bodies stand in place of calls is counted for each unit, and
the count starts again in a unit inside; but all functions that are known there are literals of its own
body (`Place.Fits`), so the unit being drafted says which bodies can be asked for.

A step of the generator asks for finitely many expressions, and its outcome depends on the answers to
these alone (`AsksAt`). What a node asks for is less than the node itself, in a measure that is carried along
(`asks_genNode`). -/

namespace CountedMachine

/-! ## Parts, bodies and sizes -/

namespace Expr

/-- The literal of an expression that is a function literal. -/
def lambda? : Expr → Option (Lambda Expr)
  | .fn lambda => some lambda
  | _ => none

/-- **The expressions that code for a node is made of**, in the unit of the node. -/
def parts : Expr → List Expr
  | .lit _ => []
  | .var _ _ => []
  | .apply callee args _ _ => callee :: args
  | .operate _ lhs rhs => [lhs, rhs]
  | .fn _ => []
  | .letIn binds body => binds.map (·.value) ++ body.toList
  | .fix _ body => body.toList
  | .ite test yes no => [test, yes, no]
  | .matchWith _ value yes no => value :: yes :: no.toList
  | .block exprs _ => exprs
  | .ret value => [value]
  | .assign _ value => [value]
  | .yield value => [value]
  | .struct _ fields => fields

/-- **The function literals of a node**, whose bodies make units. -/
def literals : Expr → List (Lambda Expr)
  | .fn lambda => [lambda]
  | .fix fns _ => fns.filterMap lambda?
  | _ => []

/-- **The expression is nested in another one**: it is the expression itself, a part of a nested one, or
the body of a literal of a nested one. -/
inductive Contains (e : Expr) : Expr → Prop
  | self : Contains e e
  | part {e' e'' : Expr} : Contains e e' → e'' ∈ e'.parts → Contains e e''
  | body {e' : Expr} {lambda : Lambda Expr} : Contains e e' → lambda ∈ e'.literals →
      Contains e lambda.body

variable {e e' e'' : Expr} {lambda : Lambda Expr}

theorem size_pos (e : Expr) : 0 < e.size := by
  cases e <;> simp [size]

theorem size_lt_of_lambda? (h : e.lambda? = some lambda) : lambda.body.size < e.size := by
  cases e with
  | fn l =>
    obtain rfl := Option.some.inj h
    rw [size_fn]
    omega
  | _ => cases h

theorem sizeList_binds : ∀ bs : List (Binding Expr), sizeList (bs.map (·.value)) = sizeBinds bs
  | [] => rfl
  | ⟨_, _⟩ :: bs => by rw [List.map_cons, sizeList, sizeBinds, sizeList_binds bs]

theorem sizeList_append (es : List Expr) : ∀ ds : List Expr,
    sizeList (ds ++ es) = sizeList ds + sizeList es
  | [] => (Nat.zero_add _).symm
  | d :: ds => by rw [List.cons_append, sizeList, sizeList, sizeList_append es ds, Nat.add_assoc]

theorem sizeList_toList (o : Option Expr) : sizeList o.toList = sizeOption o := by
  cases o <;> rfl

/-- The parts are smaller together. -/
theorem sizeList_parts_lt (e : Expr) : sizeList e.parts < e.size := by
  cases e with
  | fn lambda =>
    rw [size_fn]
    exact Nat.lt_of_lt_of_le Nat.one_pos (Nat.le_add_right _ _)
  | _ =>
    simp only [parts, sizeList, size, sizeList_append, sizeList_binds, sizeList_toList]
    omega

theorem size_lt_of_part (h : e' ∈ e.parts) : e'.size < e.size :=
  (size_le_sizeList h).trans_lt (sizeList_parts_lt e)

theorem size_lt_of_literal (h : lambda ∈ e.literals) : lambda.body.size < e.size := by
  cases e with
  | fn l =>
    obtain rfl := List.mem_singleton.mp h
    rw [size_fn]
    omega
  | fix fns body =>
    obtain ⟨f, hf, hlambda⟩ := List.mem_filterMap.mp h
    have := size_lt_of_lambda? hlambda
    have := size_le_sizeList hf
    rw [size]
    omega
  | _ => cases h

theorem Contains.trans (h : e.Contains e') (h' : e'.Contains e'') : e.Contains e'' := by
  induction h' with
  | self => exact h
  | part _ he ih => exact ih.part he
  | body _ hlambda ih => exact ih.body hlambda

/-- What is nested is no larger. -/
theorem Contains.size_le (h : e.Contains e') : e'.size ≤ e.size := by
  induction h with
  | self => exact le_rfl
  | part _ h ih => exact (size_lt_of_part h).le.trans ih
  | body _ h ih => exact (size_lt_of_literal h).le.trans ih

end Expr

namespace Gen

/-! ## Places and requests -/

/-- **A place in code generation:** the body of the unit that is drafted, and how deep bodies stand in
place of calls there. -/
structure Place where
  unit : Expr
  depth : Nat

/-- **What is asked for:** code for an expression at a place, starting from a state. -/
structure Request where
  place : Place
  expr : Expr
  tail : Bool
  state : GenState

/-- **The state is one in which the place is drafted.** The functions that are known are literals nested
in the body of the unit. -/
structure Place.Fits (σ : Place) (s : GenState) : Prop where
  inlined : s.draft.inlined = σ.depth
  known : ∀ {r : Reg} {k : Nat}, s.draft.known[r]? = some k → ∃ lambda : Lambda Expr,
    s.functions[k]? = some ⟨lambda.arity, lambda.body⟩ ∧ lambda.captures = [] ∧
      σ.unit.Contains (.fn lambda)

/-- **What code for a node may ask for:** a part, at the same place; the body of a literal nested in the
unit, which takes the place of a call, one deeper, below the given number of levels; and the body of a
literal of the node, in a unit of its own, where no functions are known yet. -/
inductive Enters (levels : Nat) (q : Request) : Request → Prop
  | part {e : Expr} {tail : Bool} {s : GenState} : e ∈ q.expr.parts →
      Enters levels q ⟨q.place, e, tail, s⟩
  | inlined {callee : Expr} {args : List Expr} {guard : Bool} {loc : Option Location}
      {lambda : Lambda Expr} {tail : Bool} {s : GenState} : q.expr = .apply callee args guard loc →
      lambda.captures = [] → q.place.unit.Contains (.fn lambda) → q.place.depth < levels →
      Enters levels q ⟨⟨q.place.unit, q.place.depth + 1⟩, lambda.body, tail, s⟩
  | unit {lambda : Lambda Expr} {s : GenState} : lambda ∈ q.expr.literals → s.draft.known = ∅ →
      Enters levels q ⟨⟨lambda.body, 0⟩, lambda.body, true, s⟩

/-- **The rate of a place**: how many requests there are at most for each node of an expression. -/
def Place.rate (levels : Nat) (σ : Place) : Nat :=
  (σ.unit.size + 1) ^ ((levels + 1) * σ.unit.size + (levels - σ.depth))

/-- **The requests that come of a request**, itself among them, are no more. -/
def Request.bound (levels : Nat) (q : Request) : Nat := q.expr.size * q.place.rate levels

section
variable {levels : Nat} {σ : Place} {e : Expr} {lambda : Lambda Expr}

theorem rate_pos : 1 ≤ σ.rate levels := Nat.one_le_pow _ _ (Nat.succ_pos _)

/-- A body in place of a call takes less than the rate of a node. -/
theorem bound_inlined (hd : σ.depth < levels) (hin : σ.unit.Contains (.fn lambda)) :
    lambda.body.size * (Place.mk σ.unit (σ.depth + 1)).rate levels + 1 ≤ σ.rate levels := by
  have hlt : lambda.body.size + 1 ≤ σ.unit.size := by
    have := hin.size_le
    rw [Expr.size_fn] at this
    omega
  have hrate : σ.rate levels = (σ.unit.size + 1) * (Place.mk σ.unit (σ.depth + 1)).rate levels := by
    have hlevel : levels - σ.depth = (levels - (σ.depth + 1)) + 1 := by omega
    rw [Place.rate, Place.rate, hlevel, ← Nat.add_assoc, pow_succ, mul_comm]
  have hpos : 1 ≤ (Place.mk σ.unit (σ.depth + 1)).rate levels := rate_pos
  rw [hrate]
  calc lambda.body.size * (Place.mk σ.unit (σ.depth + 1)).rate levels + 1
      ≤ (lambda.body.size + 1) * (Place.mk σ.unit (σ.depth + 1)).rate levels := by
        rw [Nat.add_mul, one_mul]
        omega
    _ ≤ (σ.unit.size + 1) * (Place.mk σ.unit (σ.depth + 1)).rate levels :=
        Nat.mul_le_mul_right _ (by omega)

/-- The rate of a smaller unit is no higher. -/
theorem rate_unit (hlt : e.size < σ.unit.size) : (Place.mk e 0).rate levels ≤ σ.rate levels := by
  have hexp : (levels + 1) * e.size + (levels - 0) ≤
      (levels + 1) * σ.unit.size + (levels - σ.depth) := by
    have := Nat.mul_le_mul_left (levels + 1) (show e.size + 1 ≤ σ.unit.size from hlt)
    rw [Nat.mul_succ] at this
    omega
  calc (e.size + 1) ^ ((levels + 1) * e.size + (levels - 0))
      ≤ (σ.unit.size + 1) ^ ((levels + 1) * e.size + (levels - 0)) := Nat.pow_le_pow_left (by omega) _
    _ ≤ σ.rate levels := Nat.pow_le_pow_right (Nat.succ_pos _) hexp

end

/-! ## Steps that ask -/

/-- How code for expressions is generated. -/
abbrev Oracle := Expr → Bool → Gen (Option Reg)

/-- Nothing has been learned: the functions and what is known of them are the same, and so is the number
of bodies in place of calls. -/
structure Unlearned (s s' : GenState) : Prop where
  functions : s'.functions = s.functions
  known : s'.draft.known = s.draft.known
  inlined : s'.draft.inlined = s.draft.inlined

instance : Overlooks Unlearned where
  writes _ _ _ _ _ := ⟨rfl, rfl, rfl⟩
  trans h h' := ⟨h'.functions.trans h.functions, h'.known.trans h.known, h'.inlined.trans h.inlined⟩

/-- **The state still fits the place**, and no function is lost. -/
structure Place.Leads (σ : Place) (s s' : GenState) : Prop where
  fits : σ.Fits s'
  functions : ∀ {k : Nat} {f : KnownFunction}, s.functions[k]? = some f → s'.functions[k]? = some f

theorem Place.Leads.trans {σ : Place} {s s₁ s₂ : GenState} (h : σ.Leads s s₁) (h' : σ.Leads s₁ s₂) :
    σ.Leads s s₂ := ⟨h'.fits, fun hk => h'.functions (h.functions hk)⟩

theorem Place.Fits.leads {σ : Place} {s s' : GenState} (h : σ.Fits s) (hl : Unlearned s s') :
    σ.Leads s s' where
  fits := by
    refine ⟨hl.inlined.trans h.inlined, fun hk => ?_⟩
    rw [hl.known] at hk
    rw [hl.functions]
    exact h.known hk
  functions hk := hl.functions ▸ hk

/-- **Answers leave states that fit.** -/
def Reliable (g : Oracle) : Prop := ∀ (r : Request), r.place.Fits r.state → r.place.unit.Contains r.expr →
  ∀ a s', (g r.expr r.tail).run r.state = .ok (a, s') → r.place.Leads r.state s'

section
variable {α β : Type} (levels : Nat) (g : Oracle) (q : Request)

/-- **What a step asks for**, from a state, while code for a node is generated: finitely many requests,
bounded together. Where another oracle gives the same answers to them, the step has the same outcome. And
where the step succeeds, its result and the state are as said. -/
structure AsksAt (x : Oracle → Gen α) (s : GenState) (bound : Nat) (Q : α → GenState → Prop) : Prop where
  asks : ∃ rs : List Request,
    (∀ r ∈ rs, Enters levels q r ∧ r.place.Fits r.state ∧ r.place.unit.Contains r.expr) ∧
    (rs.map (·.bound levels)).sum ≤ bound ∧
    ∀ f : Oracle, (∀ r ∈ rs, (f r.expr r.tail).run r.state = (g r.expr r.tail).run r.state) →
      (x f).run s = (x g).run s
  ends : ∀ a s', (x g).run s = .ok (a, s') → Q a s'

/-- **What a step asks for from any state that fits** the place of the node. -/
def Asks (x : Oracle → Gen α) (bound : Nat) : Prop := ∀ s, q.place.Fits s →
  AsksAt levels g q x s bound fun _ s' => q.place.Leads s s'

end

section
variable {α β : Type} {levels : Nat} {g : Oracle} {q : Request} {x : Oracle → Gen α}
  {y : Oracle → α → Gen β} {s : GenState} {k m : Nat} {Q : α → GenState → Prop}
  {Q' : β → GenState → Prop} {R : List Variable → List Variable → Prop}

theorem AsksAt.bind (hx : AsksAt levels g q x s k Q)
    (hy : ∀ a s₁, Q a s₁ → AsksAt levels g q (fun f => y f a) s₁ m Q') :
    AsksAt levels g q (fun f => x f >>= y f) s (k + m) Q' := by
  obtain ⟨⟨rs, hrs, hsum, hsame⟩, hends⟩ := hx
  cases hrun : (x g).run s with
  | error e =>
    refine ⟨⟨rs, hrs, by omega, fun f hf => ?_⟩, fun a s' h => ?_⟩
    · rw [StateT.run_bind, StateT.run_bind, hsame f hf, hrun]
      rfl
    · rw [StateT.run_bind, hrun] at h
      cases h
  | ok out =>
    obtain ⟨a, s₁⟩ := out
    obtain ⟨⟨rs', hrs', hsum', hsame'⟩, hends'⟩ := hy a s₁ (hends a s₁ hrun)
    refine ⟨⟨rs ++ rs', fun r hr => ?_, ?_, fun f hf => ?_⟩, fun b s' h => ?_⟩
    · obtain hr | hr := List.mem_append.mp hr
      · exact hrs r hr
      · exact hrs' r hr
    · rw [List.map_append, List.sum_append]
      omega
    · have hf₁ := hsame f fun r hr => hf r (List.mem_append_left _ hr)
      have hf₂ := hsame' f fun r hr => hf r (List.mem_append_right _ hr)
      rw [run_bind_of_eq (hf₁.trans hrun), run_bind_of_eq hrun, hf₂]
    · rw [run_bind_of_eq hrun] at h
      exact hends' b s' h

theorem AsksAt.mono (hx : AsksAt levels g q x s k Q) (hk : k ≤ m)
    {Q' : α → GenState → Prop} (h : ∀ a s', Q a s' → Q' a s') : AsksAt levels g q x s m Q' := by
  obtain ⟨⟨rs, hrs, hsum, hsame⟩, hends⟩ := hx
  exact ⟨⟨rs, hrs, hsum.trans hk, hsame⟩, fun a s' e => h a s' (hends a s' e)⟩

/-- A step that asks for nothing. -/
theorem asksAt_of_run {x : Gen α} (h : ∀ a s', x.run s = .ok (a, s') → Q a s') :
    AsksAt levels g q (fun _ => x) s 0 Q :=
  ⟨⟨[], by simp, by simp, fun _ _ => rfl⟩, h⟩

theorem Moves.asksAt {x : Gen α} (hx : Moves Unlearned R x) :
    AsksAt levels g q (fun _ => x) s 0 fun _ s' => Unlearned s s' :=
  asksAt_of_run fun _ _ e => hx.rest e

/-- A step whose outcome is known. -/
theorem AsksAt.from {x : Gen α} {a : α} {t : GenState} (hx : x.run s = .ok (a, t))
    (hy : AsksAt levels g q (fun f => y f a) t k Q') :
    AsksAt levels g q (fun f => x >>= y f) s k Q' := by
  have hfirst : AsksAt levels g q (fun _ => x) s 0 fun b s' => b = a ∧ s' = t :=
    asksAt_of_run fun b s' e => by
      cases hx.symm.trans e
      exact ⟨rfl, rfl⟩
  refine (hfirst.bind fun b s' h => ?_).mono (Nat.zero_add k).le fun _ _ h => h
  obtain ⟨rfl, rfl⟩ := h
  exact hy

theorem Moves.asks {x : Gen α} (hx : Moves Unlearned R x) : Asks levels g q (fun _ => x) 0 :=
  fun _ hs => hx.asksAt.mono le_rfl fun _ _ hl => hs.leads hl

theorem Asks.mono (hx : Asks levels g q x k) (hk : k ≤ m) : Asks levels g q x m :=
  fun s hs => (hx s hs).mono hk fun _ _ h => h

theorem Asks.bind (hx : Asks levels g q x k) (hy : ∀ a, Asks levels g q (fun f => y f a) m) :
    Asks levels g q (fun f => x f >>= y f) (k + m) := fun s hs =>
  (hx s hs).bind fun a s₁ h => (hy a s₁ h.fits).mono le_rfl fun _ _ h' => h.trans h'

/-- A request is made. -/
theorem asksAt_request (hg : Reliable g) {r : Request} (hr : Enters levels q r) (hs : r.place.Fits r.state)
    (hin : r.place.unit.Contains r.expr) : AsksAt levels g q (fun f => f r.expr r.tail) r.state
      (r.bound levels) fun _ s' => r.place.Leads r.state s' := by
  refine ⟨⟨[r], fun r' hr' => ?_, by simp, fun f hf => hf r (.head _)⟩, hg r hs hin⟩
  obtain rfl := List.mem_singleton.mp hr'
  exact ⟨hr, hs, hin⟩

/-- Before a step nothing is asked for. -/
theorem Moves.asking {x : Gen α} (hx : Moves Unlearned R x)
    (hy : ∀ a, Asks levels g q (fun f => y f a) k) : Asks levels g q (fun f => x >>= y f) k :=
  (hx.asks.bind hy).mono (Nat.zero_add k).le

/-- After a step nothing is asked for. -/
theorem Asks.done {y : α → Gen β} (hx : Asks levels g q x k) (hy : ∀ a, Moves Unlearned R (y a)) :
    Asks levels g q (fun f => x f >>= y) k :=
  hx.bind fun a => (hy a).asks

theorem Asks.map (hx : Asks levels g q x k) (h : α → β) : Asks levels g q (fun f => h <$> x f) k := by
  simp only [map_eq_pure_bind]
  exact hx.done fun a => keeps_pure (h a)

end

end Gen

end CountedMachine
