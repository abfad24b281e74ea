import CountedMachine.Proofs.Generation.Finishing
import CountedMachine.Proofs.Generation.Points

/-! # Runs of the code generator

`Runs` compares a step of code generation with the same step under other settings: they do the same,
and where they do not refuse the module the outcome is as said, so that there is no fault. A step
starts in a state whose listing is complete up to where it writes (`Fine`) and adds a stretch of code
(`Drawn`); most steps add a block that leads from one point to another (`Emits`), and what is proved
of a step holds over any code before it. -/

namespace CountedMachine

open Listing

namespace Gen

variable {α β : Type} {σ : Site} {s s₁ s₂ : GenState} {body xs ys zs : Code} {P P₁ P₂ : Point}
  {t : Block} {r : Reg}

/-- A run that ends as said, or with a refusal. -/
def Ends (Q : α → GenState → Prop) : Except Failure (α × GenState) → Prop
  | .ok (a, s) => Q a s
  | .error (.refused _) => True
  | .error (.fault _) => False

/-- **Two steps do the same and end as said.** -/
structure Runs (x x' : Gen α) (s : GenState) (Q : α → GenState → Prop) : Prop where
  same : x'.run s = x.run s
  ends : Ends Q (x.run s)

theorem Runs.bind {x x' : Gen α} {f f' : α → Gen β} {Q : α → GenState → Prop}
    {R : β → GenState → Prop} (hx : Runs x x' s Q)
    (hf : ∀ a s₁, Q a s₁ → Runs (f a) (f' a) s₁ R) : Runs (x >>= f) (x' >>= f') s R := by
  have hends := hx.ends
  rcases hrun : x.run s with e | ⟨a, s₁⟩
  · refine ⟨?_, ?_⟩
    · rw [StateT.run_bind, StateT.run_bind, hx.same, hrun]
      rfl
    · rw [StateT.run_bind, hrun]
      rw [hrun] at hends
      cases e <;> exact hends
  · rw [hrun] at hends
    have h := hf a s₁ hends
    refine ⟨?_, ?_⟩
    · rw [StateT.run_bind, StateT.run_bind, hx.same, hrun]
      exact h.same
    · rw [StateT.run_bind, hrun]
      exact h.ends

theorem run_bind_of_eq {x : Gen α} {f : α → Gen β} {a : α} (hx : x.run s = .ok (a, s₁)) :
    (x >>= f).run s = (f a).run s₁ := by
  rw [StateT.run_bind, hx]
  rfl

theorem Runs.mono {x x' : Gen α} {Q R : α → GenState → Prop} (hx : Runs x x' s Q)
    (h : ∀ a s₁, Q a s₁ → R a s₁) : Runs x x' s R := by
  refine ⟨hx.same, ?_⟩
  have hends := hx.ends
  rcases hrun : x.run s with e | ⟨a, s₁⟩
  · rw [hrun] at hends
    cases e <;> exact hends
  · rw [hrun] at hends
    exact h a s₁ hends

/-- A run that has ended says how it did. -/
theorem Runs.traced {x x' : Gen α} {Q : α → GenState → Prop} (hx : Runs x x' s Q) :
    Runs x x' s fun a s₁ => x.run s = .ok (a, s₁) ∧ Q a s₁ := by
  refine ⟨hx.same, ?_⟩
  have hends := hx.ends
  rcases hrun : x.run s with e | ⟨a, s₁⟩
  · rw [hrun] at hends
    cases e <;> exact hends
  · rw [hrun] at hends
    exact ⟨rfl, hends⟩

theorem Runs.of_eq {x : Gen α} {Q : α → GenState → Prop} {a : α} (h : x.run s = .ok (a, s₁))
    (hq : Q a s₁) : Runs x x s Q := by
  refine ⟨rfl, ?_⟩
  rw [h]
  exact hq

theorem runs_pure {Q : α → GenState → Prop} {a : α} (hq : Q a s) : Runs (pure a) (pure a) s Q :=
  .of_eq rfl hq

theorem runs_refuse {Q : α → GenState → Prop} (e : Refusal) :
    Runs (refuse e : Gen α) (refuse e) s Q :=
  ⟨rfl, trivial⟩

/-- A step that only looks at the state. -/
theorem Runs.read {x : Gen α} {f f' : α → Gen β} {R : β → GenState → Prop} {a : α}
    (hx : x.run s = .ok (a, s)) (hf : Runs (f a) (f' a) s R) : Runs (x >>= f) (x >>= f') s R := by
  refine Runs.bind (.of_eq (Q := fun b s₁ => b = a ∧ s₁ = s) hx ⟨rfl, rfl⟩) fun b s₁ hb => ?_
  obtain ⟨rfl, rfl⟩ := hb
  exact hf

/-! ## What a step adds -/

/-- **The state in which a step starts**: the listing holds the given code, and it is written to at
its end, where the registers of the point hold values, those of the stack among them. -/
structure Fine (σ : Site) (s : GenState) (body : Code) (P : Point) : Prop where
  linked : Linked s.draft.listing (body ++ [(tail, Instr.done)])
  cursor : s.draft.listing.cursor = tail
  flags : ∀ {r : Reg} {f : RegFacts}, s.regs[r.index]? = some f → f.role = .flag →
    f.type = some .bool
  made : P.Made s
  stack : ∀ v ∈ s.draft.stack, v.reg ∈ P.regs ∧ (v.mutable = true → s.typeOf? v.reg = some .cell)
  known : ∀ {r : Reg} {k : Nat}, s.draft.known[r]? = some k →
    r.index < s.regs.size ∧ ∃ f : KnownFunction, s.functions[k]? = some f ∧ f.body.size < σ.size
  narrowed : ∀ {r : Reg} {t : StaticType}, s.draft.narrowed[r]? = some t → r.index < s.regs.size
  inlined : s.draft.inlined = σ.depth
  plain : ∀ {k : Nat} {u : UnitId}, s.pool[k]? = some (.closure u) →
    ∀ p : Program, s.Within p → p.types = σ.types → UnitOk σ.ctx.settings p u []

/-- **What a step has added** after the code in front of it. -/
structure Drawn (σ : Site) (s : GenState) (body : Code) (s' : GenState) (ys : Code) (P' : Point) :
    Prop where
  fine : Fine σ s' (body ++ ys) P'
  writes : Writes s.regs s'.regs ys
  later : s.Later s'

theorem Fine.drawn (h : Fine σ s body P) : Drawn σ s body s [] P where
  fine := by rwa [List.append_nil]
  writes := .nil (.refl _)
  later := .refl s

theorem Drawn.trans (h : Drawn σ s body s₁ xs P₁) (h' : Drawn σ s₁ (body ++ xs) s₂ ys P₂) :
    Drawn σ s body s₂ (xs ++ ys) P₂ where
  fine := by
    rw [← List.append_assoc]
    exact h'.fine
  writes := h.writes.trans h'.writes
  later := h.later.trans h'.later

theorem Drawn.lt (h : Drawn σ s body s₁ xs P₁) (hr : r.index < s.regs.size) :
    r.index < s₁.regs.size :=
  Nat.lt_of_lt_of_le hr h.writes.grows.size

theorem Fine.lt (h : Fine σ s body P) (hr : r ∈ P.regs) : r.index < s.regs.size := h.made.regs r hr

/-- **A block leads from one point to another.** -/
structure Leads (σ : Site) (s : GenState) (P : Point) (t : Block) (s' : GenState) (P' : Point) :
    Prop where
  le : P ≤ P'
  does : ∀ {w}, σ.Admits w s s' → t.Does w (P.At w s) fun ρ ρ' => P'.At w s' ρ' ∧ Kept s ρ ρ'
  stops : P.live → ¬ P'.live → t.Stops

theorem Leads.refl (σ : Site) (s : GenState) (P : Point) : Leads σ s P .nil s P where
  le := le_rfl
  does _ := Block.does_nil fun ρ h => ⟨h, Kept.refl s ρ⟩
  stops := absurd

theorem Leads.trans {t u : Block} (h : Leads σ s P t s₁ P₁) (h' : Leads σ s₁ P₁ u s₂ P₂)
    (hl : s.Later s₁) (hl' : s₁.Later s₂) : Leads σ s P (t.append u) s₂ P₂ where
  le := h.le.trans h'.le
  does hw := (h.does (hw.left hl')).append (h'.does (hw.right hl.size)) (fun _ _ _ hq => hq.1)
    fun _ _ _ _ hq hq' => ⟨hq'.1, hq.2.trans hq'.2 hl.size⟩
  stops hlive hend := by
    by_cases hmid : P₁.live
    · exact (h'.stops hmid hend).after t
    · exact (h.stops hlive hmid).before u

/-- **A step that adds a block.** -/
def Emits (σ : Site) (x x' : Gen α) (s : GenState) (body : Code) (P : Point)
    (Q : α → GenState → Point → Prop) : Prop :=
  Runs x x' s fun a s' => ∃ t P', Drawn σ s body s' t.code P' ∧ t.Proper ∧ Leads σ s P t s' P' ∧
    Q a s' P'

/-- What follows a block, seen from the start of the block. -/
theorem Emits.after {x x' : Gen α} {R : α → GenState → Point → Prop}
    (hx : Emits σ x x' s₁ (body ++ t.code) P₁ R) (hd : Drawn σ s body s₁ t.code P₁) (ht : t.Proper)
    (hl : Leads σ s P t s₁ P₁) : Runs x x' s₁ fun a s' =>
      ∃ t P', Drawn σ s body s' t.code P' ∧ t.Proper ∧ Leads σ s P t s' P' ∧ R a s' P' :=
  Runs.mono hx fun a s₂ hr => by
    obtain ⟨u, P₂, hd', hu, hl', hr⟩ := hr
    refine ⟨t.append u, P₂, ?_, ht.append hu, hl.trans hl' hd.later hd'.later, hr⟩
    rw [Block.code_append]
    exact hd.trans hd'

theorem Emits.bind {x x' : Gen α} {f f' : α → Gen β} {Q : α → GenState → Point → Prop}
    {R : β → GenState → Point → Prop} (hx : Emits σ x x' s body P Q)
    (hf : ∀ a s₁ t P₁, Drawn σ s body s₁ (Block.code t) P₁ → P ≤ P₁ → Q a s₁ P₁ →
      Emits σ (f a) (f' a) s₁ (body ++ t.code) P₁ R) :
    Emits σ (x >>= f) (x' >>= f') s body P R := by
  refine Runs.bind hx fun a s₁ hq => ?_
  obtain ⟨t, P₁, hd, ht, hl, hq⟩ := hq
  exact (hf a s₁ t P₁ hd hl.le hq).after hd ht hl

theorem Emits.mono {x x' : Gen α} {Q R : α → GenState → Point → Prop}
    (hx : Emits σ x x' s body P Q)
    (h : ∀ a s₁ t P₁, Drawn σ s body s₁ (Block.code t) P₁ → P ≤ P₁ → Q a s₁ P₁ → R a s₁ P₁) :
    Emits σ x x' s body P R :=
  Runs.mono hx fun a s₁ hq => by
    obtain ⟨t, P₁, hd, ht, hl, hq⟩ := hq
    exact ⟨t, P₁, hd, ht, hl, h a s₁ t P₁ hd hl.le hq⟩

theorem Fine.pure (h : Fine σ s body P) {Q : α → GenState → Point → Prop} {a : α} (hq : Q a s P) :
    Emits σ (Pure.pure a) (Pure.pure a) s body P Q :=
  runs_pure ⟨.nil, P, h.drawn, trivial, .refl σ s P, hq⟩

theorem Emits.map {x x' : Gen α} {f : α → β} {Q : α → GenState → Point → Prop}
    {R : β → GenState → Point → Prop} (hx : Emits σ x x' s body P Q)
    (h : ∀ a s₁ P₁, Q a s₁ P₁ → R (f a) s₁ P₁) : Emits σ (f <$> x) (f <$> x') s body P R := by
  rw [map_eq_pure_bind, map_eq_pure_bind]
  exact hx.bind fun a s₁ t P₁ hd _ hq => hd.fine.pure (h a s₁ P₁ hq)

end Gen

end CountedMachine
