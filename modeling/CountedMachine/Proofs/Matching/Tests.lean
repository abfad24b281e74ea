import CountedMachine.Proofs.Generation.Matches
import CountedMachine.Proofs.Matching.Trials

/-! # Code for patterns carries out trials

The code that is generated for a pattern carries out the trial of the pattern (`Tried`): with guards
for a pattern that must match (`Fine.bindWhole_tries`), with tests and branches for one that may fail
(`Fine.descend_tries`). It is not known yet where the branches of a nested pattern lead to when they
are written; `steer` gives them their labels. -/

namespace CountedMachine

open Listing

namespace Listing

variable {lab : NodeId → NodeId} {xs ys : Code}

/-- Code in which each branch and jump leads to the label that is given for its node. -/
def steer (lab : NodeId → NodeId) (ys : Code) : Code := ys.map fun p => (p.1, p.2.relabel fun _ => lab p.1)

@[simp] theorem steer_append : steer lab (xs ++ ys) = steer lab xs ++ steer lab ys := List.map_append

@[simp] theorem steer_cons (lab : NodeId → NodeId) (a : NodeId) (i : Instr NodeId) (ys : Code) :
    steer lab ((a, i) :: ys) = (a, i.relabel fun _ => lab a) :: steer lab ys := rfl

@[simp] theorem length_steer : (steer lab ys).length = ys.length := by
  simp [steer]

theorem relabel_of_label? {i : Instr NodeId} {f : NodeId → NodeId} (h : i.label? = none) :
    i.relabel f = i := by
  cases i <;> first | rfl | cases h

/-- Code without branches and jumps. -/
def Flat (ys : Code) : Prop := ∀ p ∈ ys, p.2.label? = none

theorem flat_nil : Flat [] := by simp [Flat]

theorem Flat.cons {a : NodeId} {i : Instr NodeId} (h : Flat ys) (hi : i.label? = none) :
    Flat ((a, i) :: ys) := fun p hp => by
  obtain rfl | hp := List.mem_cons.mp hp
  · exact hi
  · exact h p hp

theorem Flat.append (hx : Flat xs) (hy : Flat ys) : Flat (xs ++ ys) := fun p hp =>
  (List.mem_append.mp hp).elim (hx p) (hy p)

theorem Flat.steer_eq (h : Flat ys) (lab : NodeId → NodeId) : steer lab ys = ys := by
  refine (List.map_congr_left fun p hp => ?_).trans (List.map_id ys)
  rw [relabel_of_label? (h p hp)]
  rfl

end Listing

/-- A place that control leaves for the end, without a change. -/
def Stage.LeadsTo (S : Stage) (A : Nat → Prop) (n : NodeId) (zs : Code) : Prop :=
  ∃ pre k ys, S.code = pre ++ (n, k) :: ys ∧ ∀ m, S.Goes A ((n, k) :: ys) m [] zs m

/-- **Code on a stage**: between other code, with labels for its branches, from which control gets to
`zs`, along places in `A`. -/
structure Stage.Hosts (S : Stage) (types : Array StructType) (A : Nat → Prop) (lab : NodeId → NodeId)
    (before ys after zs : Code) : Prop where
  types : S.program.types = types
  code : S.code = before ++ (steer lab ys ++ after)
  places : ∀ k, before.length ≤ k → k < before.length + ys.length → A k
  leads : ∀ p ∈ ys, p.2.label? ≠ none → S.LeadsTo A (lab p.1) zs

/-- **A memory over a heap** whose objects are in order: it has these objects, and registers enough. -/
structure Memory.Over (m : Memory) (types : Array StructType) (h : Heap) (n : Nat) : Prop where
  proper : h.Proper types
  keeps : h.Extends m.heap
  arena : m.heap.Arena
  size : n ≤ m.regs.size

section
variable {S : Stage} {types : Array StructType} {A : Nat → Prop} {lab : NodeId → NodeId}
  {before xs ys after zs : Code} {a : NodeId} {i : Instr NodeId} {m m₁ : Memory} {h : Heap} {n n' : Nat}

theorem Stage.Hosts.left (hh : S.Hosts types A lab before (xs ++ ys) after zs) :
    S.Hosts types A lab before xs (steer lab ys ++ after) zs where
  types := hh.types
  code := by rw [hh.code]; simp
  places k hk hk' := hh.places k hk (by rw [List.length_append]; omega)
  leads p hp := hh.leads p (List.mem_append_left _ hp)

theorem Stage.Hosts.right (hh : S.Hosts types A lab before (xs ++ ys) after zs) :
    S.Hosts types A lab (before ++ steer lab xs) ys after zs where
  types := hh.types
  code := by rw [hh.code]; simp
  places k hk hk' := hh.places k (by rw [List.length_append, length_steer] at hk; omega)
    (by rw [List.length_append, length_steer] at hk'; rw [List.length_append]; omega)
  leads p hp := hh.leads p (List.mem_append_right _ hp)

theorem Stage.Hosts.tail (hh : S.Hosts types A lab before ((a, i) :: ys) after zs) :
    S.Hosts types A lab (before ++ [(a, i.relabel fun _ => lab a)]) ys after zs :=
  Stage.Hosts.right (show S.Hosts types A lab before ([(a, i)] ++ ys) after zs from hh)

theorem Stage.Hosts.first (hh : S.Hosts types A lab before ((a, i) :: ys) after zs) :
    A before.length := hh.places _ (Nat.le_refl _) (by simp)

theorem Memory.Over.le (ho : m.Over types h n') (hn : n ≤ n') : m.Over types h n :=
  ⟨ho.proper, ho.keeps, ho.arena, hn.trans ho.size⟩

theorem Memory.Over.grows (ho : m.Over types h n') (hg : m.Grows n m₁) : m₁.Over types h n' :=
  ⟨ho.proper, ho.keeps.trans hg.heap, hg.arena, by rw [hg.size]; exact ho.size⟩

end

/-- **Code tries a pattern** on the part in a register, of which as much is known as is asked for. -/
def Tries (types : Array StructType) (hard : Bool) (n n' : Nat) (v : Reg) (asks : Heap → Part → Prop)
    (q : Pattern) (rs : List Reg) (ys : Code) : Prop :=
  ∀ {S : Stage} {A : Nat → Prop} {lab : NodeId → NodeId} {before after zs : Code} {h : Heap}
    {x : Part} {m : Memory}, S.Hosts types A lab before ys after zs → m.Over types h n' → x.Live h →
    m.Holds v x → asks h x →
      S.Outcome A hard n zs (steer lab ys ++ after) m (q.trial h x) rs after

/-- A part is of the type that is known of the register it is in. -/
def GenState.Knows (s : GenState) (r : Reg) (h : Heap) (x : Part) : Prop :=
  ∀ t, s.typeOf? r = some t → x.type h = some t

/-- A part is an object of a type. -/
def Part.IsA (ty : ObjType) (h : Heap) (x : Part) : Prop := x.type h = some (.obj ty)

namespace Gen

variable {β : Type} {σ : Site} {s s' s₁ s₂ s₃ : GenState} {body xs ys zs : Code} {a : NodeId}
  {f v r : Reg} {ctx : Context} {P P' P₁ P₂ P₃ : Point} {ty : ObjType} {p q : Pattern} {hard : Bool}
  {rs rs' : List Reg} {fields rest : List (Nat × Pattern)} {asks : Heap → Part → Prop} {n idx : Nat}

/-- Variables that do not change. -/
def fixed (rs : List Reg) : List Variable := rs.map (⟨·, false⟩)

/-- **Code has been written that tries a pattern**, and its parts have been bound. -/
structure Tried (σ : Site) (s : GenState) (body : Code) (P : Point) (hard : Bool) (v : Reg)
    (asks : Heap → Part → Prop) (q : Pattern) (s' : GenState) (ys : Code) (P' : Point)
    (rs : List Reg) : Prop where
  drawn : Drawn σ s body s' ys P'
  le : P ≤ P'
  stack : s'.draft.stack = fixed rs.reverse ++ s.draft.stack
  made : ∀ r ∈ rs, r.index < s'.regs.size
  apart : ∀ r ∈ rs, r = v ∨ s.regs.size ≤ r.index
  tries : Tries σ.types hard s.regs.size s'.regs.size v asks q rs ys

/-- **Making a register and writing the instruction that creates it.** -/
theorem Fine.creates (h : Fine σ s body P) {role : RegRole} {type : Option StaticType}
    (mk : Reg → Instr NodeId) (hlabel : ∀ r, (mk r).label? = none)
    (hcr : ∀ r, (mk r).creates = some r) (hown : ∀ r, (mk r).createsOwner = false)
    (hin : ∀ r, ∀ q ∈ (mk r).inputs, q ∈ P.regs) (hrole : role ≠ .merged)
    (hflag : role = .flag → type = none) {g : Reg → Gen β} {R : β → GenState → Prop}
    (hg : ∀ r s₁ a, Drawn σ s body s₁ [(a, mk r)] (P.add r) →
      New s s₁ ⟨role, role.typed type⟩ r → s₁.draft.stack = s.draft.stack → Runs (g r) (g r) s₁ R) :
    Runs (Gen.freshReg role type >>= fun r => Gen.write (mk r) >>= fun _ => g r)
      (Gen.freshReg role type >>= fun r => Gen.write (mk r) >>= fun _ => g r) s R := by
  refine Runs.bind (h.drawn.freshReg role hflag) fun r s₁ hr => ?_
  obtain ⟨hd, hr, -, -, hstack⟩ := hr
  have hgood : Listing.Good s₁.regs (mk r) :=
    good_of_creates (hlabel r) (hcr r) (fun q hq => hd.lt (h.lt (hin r q hq))) hr.role_eq
      (fun e => absurd e hrole) (by simp [hown])
  refine Runs.bind (hd.write hgood fun q hq _ => ?_) fun _ s₂ hd₂ => ?_
  · rw [hcr] at hq
    rw [← Option.some.inj hq]
    exact ⟨hr.new, hr.unmade⟩
  · obtain ⟨a, hd₂, hs⟩ := hd₂
    have hr₂ := hr.toNew.later hs.later
    exact hg r s₂ a (hd₂.move_le (P.le_add r) (hd₂.fine.made.add hr₂.lt)) hr₂
      (hs.stack.trans hstack)

/-! ## Fields -/

/-- A pattern that always fits, without code. -/
theorem Fine.tried_nil (h : Fine σ s body P) (hd : Drawn σ s body s₁ [] P)
    (hstack : s₁.draft.stack = fixed rs.reverse ++ s.draft.stack) (hv : v ∈ P.regs) (hrs : ∀ r ∈ rs, r = v)
    (hq : ∀ {h x}, asks h x → q.fits h x = true ∧ q.reads h x = [])
    (hb : ∀ {h x} {m : Memory}, m.Holds v x → asks h x → List.Forall₂ m.Holds rs (q.bound h x)) :
    Tried σ s body P hard v asks q s₁ [] P rs where
  drawn := hd
  le := le_rfl
  stack := hstack
  made r hr := hrs r hr ▸ (h.lt hv).trans_le hd.later.size
  apart r hr := .inl (hrs r hr)
  tries {S A lab before after zs h x m} _ ho _ hx hasks := by
    obtain ⟨hfits, hreads⟩ := hq hasks
    refine ⟨fun _ => ⟨m, ?_, .refl _ ho.arena, hb hx hasks⟩, fun hmiss => ?_⟩
    · rw [Trial.loads, show (q.trial h x).reads = [] from hreads]
      exact Stage.Goes.refl S A _ m
    · rw [show (q.trial h x).fits = true from hfits] at hmiss
      cases hmiss

/-- No fields are named. -/
theorem Fine.tried_no_fields (h : Fine σ s body P) :
    Tried σ s body P hard v (Part.IsA ty) (.unpack ty []) s [] P [] where
  drawn := h.drawn
  le := le_rfl
  stack := rfl
  made := by simp
  apart := by simp
  tries {S A lab before after zs h x m} _ ho _ _ hasks := by
    rw [Pattern.trial_no_fields hasks]
    exact ⟨fun _ => ⟨m, Stage.Goes.refl S A _ m, .refl _ ho.arena, .nil⟩, by simp⟩

/-- **A field is loaded, tried and bound**, and then the other fields are. -/
theorem Tried.field (hv : v.index < s.regs.size) (hn : ty.width σ.types = .ok n) (hidx : idx < n)
    (hp : p.isIgnore = false) (hd : Drawn σ s body s₁ [(a, .field f v idx)] P₁)
    (hf : New s s₁ ⟨.temp, RegRole.typed .temp (if ty = .undefined then some .str else none)⟩ f)
    (hstack : s₁.draft.stack = s.draft.stack) (hle : P ≤ P₁)
    (hpart : Tried σ s₁ (body ++ [(a, .field f v idx)]) P₁ hard f (s₁.Knows f) p s₂ ys P₂ rs)
    (hrest : Tried σ s₂ (body ++ [(a, .field f v idx)] ++ ys) P₂ hard v (Part.IsA ty)
      (.unpack ty rest) s₃ zs P₃ rs') :
    Tried σ s body P hard v (Part.IsA ty) (.unpack ty ((idx, p) :: rest)) s₃
      ((a, .field f v idx) :: (ys ++ zs)) P₃ (rs ++ rs') where
  drawn := by
    have h := hd.trans hpart.drawn
    rw [List.append_assoc] at hrest
    simpa using h.trans (by simpa using hrest.drawn)
  le := hle.trans (hpart.le.trans hrest.le)
  stack := by
    rw [hrest.stack, hpart.stack, hstack]
    simp [fixed]
  made r hr := by
    rcases List.mem_append.mp hr with hr | hr
    · exact (hpart.made r hr).trans_le hrest.drawn.later.size
    · exact hrest.made r hr
  apart r hr := by
    obtain hr | hr := List.mem_append.mp hr
    · obtain rfl | hr := hpart.apart r hr
      · exact .inr hf.new
      · exact .inr (hd.later.size.trans hr)
    · exact (hrest.apart r hr).imp id ((hd.later.size.trans hpart.drawn.later.size).trans)
  tries {S A lab before after zs' h x m} hh ho hl hx hasks := by
    cases x with
    | text t => cases hasks
    | value w =>
      have hw : h.typeOf w = some (.obj ty) := hasks
      obtain ⟨w', hreg, rfl⟩ := hx
      obtain ⟨y, k, u, hy, hyl, hload, hyu, hkeep, harena, hstr⟩ :=
        ho.proper.exists_part ho.keeps ho.arena hw hn hidx
      have hsize₁ := hpart.drawn.later.size
      have hsize₂ := hrest.drawn.later.size
      have hf' : f.index < m.regs.size := hf.lt.trans_le (hsize₁.trans (hsize₂.trans ho.size))
      set m₁ := (m.withHeap k).set f u with hm₁
      have hg : m.Grows s.regs.size m₁ := Memory.grows_set hkeep harena hf.new
      have ho₁ : m₁.Over σ.types h s₃.regs.size := ho.grows hg
      have hfy : m₁.Holds f y := ⟨u, Memory.reg?_set_self hf', hyu⟩
      have hknows : s₁.Knows f h y := fun t ht => by
        rw [hf.typeOf?] at ht
        by_cases hty : ty = .undefined
        · rw [hstr hty]
          simpa [RegRole.typed, hty] using ht
        · simp [RegRole.typed, hty] at ht
      have hcode : S.code = before ++ (a, .field f v idx) :: (steer lab (ys ++ zs) ++ after) := hh.code
      have hgo := Stage.goes_field hh.first hcode hf' hreg hload
      rw [Pattern.trial_unpack hw, Pattern.trialFields_cons hy hp, ← Pattern.trial_unpack hw]
      have hfirst := hpart.tries hh.tail.left (ho₁.le hsize₂) hyl hfy hknows
      have hboth := hfirst.andThen hsize₁ hpart.made fun m₂ hg₂ => by
        have hg' : m.Grows s.regs.size m₂ := hg.trans hg₂ hd.later.size
        exact hrest.tries hh.tail.right (ho₁.grows hg₂) hl
          (Memory.Holds.grows ⟨w', hreg, rfl⟩ hg' hv) hasks
      rw [← List.append_assoc, ← steer_append] at hboth
      exact hgo.reading (r := ⟨w', ty, idx⟩) hg hboth hd.later.size

/-- A field that is ignored. -/
theorem Tried.ignored (hn : ty.width σ.types = .ok n) (hidx : idx < n)
    (h : Tried σ s body P hard v (Part.IsA ty) (.unpack ty rest) s' ys P' rs) :
    Tried σ s body P hard v (Part.IsA ty) (.unpack ty ((idx, .ignore) :: rest)) s' ys P' rs := by
  refine ⟨h.drawn, h.le, h.stack, h.made, h.apart,
    fun {S A lab before after zs hp x m} hh ho hl hx hasks => ?_⟩
  cases x with
  | text t => cases hasks
  | value w =>
    have hw : hp.typeOf w = some (.obj ty) := hasks
    obtain ⟨w', hreg, rfl⟩ := id hx
    obtain ⟨y, -, -, hy, -⟩ := ho.proper.exists_part ho.keeps ho.arena hw hn hidx
    rw [Pattern.trial_unpack hw, Pattern.trialFields_ignore hy, ← Pattern.trial_unpack hw]
    exact h.tries hh ho hl hx hasks

/-- More is asked for. -/
theorem Tried.asking {asks' : Heap → Part → Prop} (h : Tried σ s body P hard v asks q s' ys P' rs)
    (ha : ∀ {h x}, asks' h x → asks h x) : Tried σ s body P hard v asks' q s' ys P' rs :=
  { h with tries := fun hh ho hl hx hasks => h.tries hh ho hl hx (ha hasks) }

/-! ## Patterns that must match -/

/-- **A guard in front** of code that tries the fields. -/
theorem Tried.guarded (hd : Drawn σ s body s₁ [(a, .guard v ty)] P₁) (hs : Recoded s s₁)
    (hle : P ≤ P₁) (h : Tried σ s₁ (body ++ [(a, .guard v ty)]) P₁ true v (Part.IsA ty)
      (.unpack ty fields) s' ys P' rs) :
    Tried σ s body P true v asks (.unpack ty fields) s' ((a, .guard v ty) :: ys) P' rs where
  drawn := hd.trans h.drawn
  le := hle.trans h.le
  stack := by rw [h.stack, hs.stack]
  made := h.made
  apart := hs.regs ▸ h.apart
  tries {S A lab before after zs hp x m} hh ho hl hx _ := by
    obtain ⟨w, hreg, hw⟩ := id hx
    have htype := hw.typeOf ho.keeps hl
    have hlive := hw.live ho.keeps hl
    have hcode : S.code = before ++ (a, .guard v ty) :: (steer lab ys ++ after) := hh.code
    by_cases ht : x.type hp = some (.obj ty)
    · have hgo := Stage.goes_guard hh.first hcode hreg hlive (htype.trans ht)
      have hout := h.tries hh.tail ho hl hx ht
      rw [hs.regs] at hout
      exact hgo.outcome (.refl _ ho.arena) hout le_rfl
    · obtain ⟨hfits, hreads⟩ := Pattern.trial_unpack_of_ne fields ht
      refine ⟨fun hfit => absurd (hfits.symm.trans hfit) (by simp), fun _ => ?_⟩
      obtain ⟨f, hstep, hf⟩ := Stage.guard_fails hcode hreg hlive (by rwa [htype])
      rw [Trial.loads, hreads]
      exact ⟨_, m, f, w, ty, Stage.Goes.refl S A _ m, by rwa [htype], hstep, hf⟩

/-! ## Patterns that may fail -/

/-- **A test and a branch in front** of code that tries the fields. -/
theorem Tried.tested {b : NodeId} (hv : v.index < s.regs.size)
    (hd : Drawn σ s body s₁ [(a, .testType f v ty), (b, .branch f head)] P₁)
    (hf : New s s₁ ⟨.flag, some .bool⟩ f) (hstack : s₁.draft.stack = s.draft.stack) (hle : P ≤ P₁)
    (h : Tried σ s₁ (body ++ [(a, .testType f v ty), (b, Instr.branch f head)]) P₁ false v (Part.IsA ty)
      (.unpack ty fields) s' ys P' rs) :
    Tried σ s body P false v asks (.unpack ty fields) s'
      ((a, .testType f v ty) :: (b, Instr.branch f head) :: ys) P' rs where
  drawn := hd.trans h.drawn
  le := hle.trans h.le
  stack := by rw [h.stack, hstack]
  made := h.made
  apart r hr := (h.apart r hr).imp id hd.later.size.trans
  tries {S A lab before after zs hp x m} hh ho hl hx _ := by
    obtain ⟨w, hreg, hw⟩ := id hx
    have htype := hw.typeOf ho.keeps hl
    have hsize := h.drawn.later.size
    have hf' : f.index < m.regs.size := hf.lt.trans_le (hsize.trans ho.size)
    have hlive := hw.live ho.keeps hl
    have hg : ∀ t, m.Grows s.regs.size (m.set f (.bool t)) := fun _ =>
      Memory.grows_set (Heap.Extends.refl _) ho.arena hf.new
    have hcode : S.code = before ++ (a, .testType f v ty) :: (b, Instr.branch f (lab b)) ::
        (steer lab ys ++ after) := hh.code
    by_cases ht : x.type hp = some (.obj ty)
    · have hgo := Stage.goes_tested_yes hh.first (by simpa using hh.tail.first) hf' hcode hreg hlive
        (htype.trans ht)
      have hout := h.tries hh.tail.tail (ho.grows (hg true)) hl (hx.grows (hg true) hv) ht
      exact hgo.outcome (hg true) hout hd.later.size
    · obtain ⟨hfits, hreads⟩ := Pattern.trial_unpack_of_ne fields ht
      refine ⟨fun hfit => absurd (hfits.symm.trans hfit) (by simp), fun _ => ?_⟩
      obtain ⟨pre, k, us, hn, hlead⟩ := hh.leads (b, .branch f head) (by simp) (by simp [Instr.label?])
      have hgo := Stage.goes_tested_no hh.first (by simpa using hh.tail.first) hf' hcode hreg hlive
        (by rwa [htype]) hn
      rw [Trial.loads, hreads]
      exact ⟨_, hgo.trans (hlead _), hg false⟩

/-- **Writing a test and a branch** on the outcome. -/
theorem Fine.tests (h : Fine σ s body P) (hv : v ∈ P.regs) (ty : ObjType) :
    Runs (Gen.openTest v ty) (Gen.openTest v ty) s fun b s' => ∃ f a,
      Drawn σ s body s' [(a, .testType f v ty), (b.node, .branch f head)] (P.add f) ∧
        New s s' ⟨.flag, some .bool⟩ f ∧ s'.draft.stack = s.draft.stack := by
  unfold Gen.openTest
  refine h.creates (.testType · v ty) (fun _ => rfl) (fun _ => rfl) (fun _ => rfl)
    (fun _ => by simpa [Instr.inputs] using hv) (by simp) (fun _ => rfl) fun f s₁ a hd hf hstack => ?_
  refine (hd.openBranch hf.lt hf.role_eq).mono fun b s₂ hd₂ => ?_
  obtain ⟨hd₂, hs₂⟩ := hd₂
  exact ⟨f, a, hd₂, hf.later hs₂.later, hs₂.stack.trans hstack⟩

mutual

/-- **Code for a pattern that must match** tries the pattern. -/
theorem Fine.bindWhole_tries (hctx : ctx.types = σ.types) : ∀ {s : GenState} {body : Code} {P : Point}
    {v : Reg} (p : Pattern), Fine σ s body P → v ∈ P.regs →
    Runs (Gen.bindWhole ctx v p) (Gen.bindWhole ctx v p) s fun _ s' =>
      ∃ ys P' rs, Tried σ s body P true v (s.Knows v) p s' ys P' rs ∧ Flat ys ∧ p.validate σ.types = .ok ()
  | s, body, P, v, .bind, h, hv => by
    refine (h.drawn.bindReg hv).mono fun _ s₁ hd => ?_
    obtain ⟨hd, rfl⟩ := hd
    exact ⟨[], P, [v], h.tried_nil hd rfl hv (by simp) (fun _ => ⟨rfl, rfl⟩)
      fun hx _ => .cons hx .nil, flat_nil, by rw [Pattern.validate]⟩
  | s, body, P, v, .ignore, h, hv => runs_pure
    ⟨[], P, [], h.tried_nil h.drawn rfl hv (by simp) (fun _ => ⟨rfl, rfl⟩) fun _ _ => .nil, flat_nil,
      by rw [Pattern.validate]⟩
  | s, body, P, v, .unpack ty fields, h, hv => by
    refine runs_validated (c := true) hctx fun hp => ?_
    obtain ⟨n, hn, hfields⟩ := Pattern.validate_unpack hp
    refine Runs.read (knownType_run (h.lt hv)) ?_
    split
    · have hi : Plain σ s P (.guard v ty) := ⟨rfl, rfl, by simp, by simpa [Instr.inputs] using hv,
        fun _ hρ => hρ.calm⟩
      refine Runs.bind (h.drawn.write (hi.good h) (by simp [hi.creates])) fun _ s₁ hd => ?_
      obtain ⟨a, hd, hs⟩ := hd
      refine (Fine.bindParts_tries hctx hn fields hd.fine hv hfields).mono fun _ s₂ hd₂ => ?_
      obtain ⟨ys, P₂, rs, hd₂, hys⟩ := hd₂
      exact ⟨_, P₂, rs, Tried.guarded hd hs le_rfl hd₂, hys.cons rfl, hp⟩
    · rename_i hknown
      refine (Fine.bindParts_tries hctx hn fields h hv hfields).mono fun _ s₁ hd => ?_
      obtain ⟨ys, P₁, rs, hd, hys⟩ := hd
      exact ⟨ys, P₁, rs, hd.asking fun hx => hx _ (not_not.mp hknown), hys, hp⟩

theorem Fine.bindParts_tries (hctx : ctx.types = σ.types) : ∀ {s : GenState} {body : Code} {P : Point}
    {v : Reg} {ty : ObjType} {n : Nat}, ty.width σ.types = .ok n →
    ∀ fields : List (Nat × Pattern), Fine σ s body P → v ∈ P.regs →
    Pattern.validateFields σ.types ty n fields = .ok () →
    Runs (Gen.bindParts ctx v ty fields) (Gen.bindParts ctx v ty fields) s fun _ s' =>
      ∃ ys P' rs, Tried σ s body P true v (Part.IsA ty) (.unpack ty fields) s' ys P' rs ∧ Flat ys
  | s, body, P, v, ty, n, hn, [], h, hv, _ => runs_pure
    ⟨[], P, [], h.tried_no_fields, flat_nil⟩
  | s, body, P, v, ty, n, hn, (offset, p) :: rest, h, hv, hfields => by
    obtain ⟨hlt, -, hrest⟩ := Pattern.validateFields_cons hfields
    unfold Gen.bindParts
    split
    · rename_i hp
      have hp : p.isIgnore = false := by simpa using hp
      unfold Gen.readField
      simp only [bind_assoc, pure_bind]
      refine h.creates (.field · v offset) (fun _ => rfl) (fun _ => rfl) (fun _ => rfl)
        (fun _ => by simpa [Instr.inputs] using hv) (by simp) (by simp) fun f s₁ a hd hf hstack => ?_
      refine Runs.bind (Fine.bindWhole_tries hctx p hd.fine (P.mem_add f)) fun _ s₂ hd₂ => ?_
      obtain ⟨ys, P₂, rs, hd₂, hys, -⟩ := hd₂
      refine (Fine.bindParts_tries hctx hn rest hd₂.drawn.fine (hd₂.le.1 ((P.le_add f).1 hv)) hrest).mono
        fun _ s₃ hd₃ => ?_
      obtain ⟨zs, P₃, rs', hd₃, hzs⟩ := hd₃
      exact ⟨_, P₃, rs ++ rs', Tried.field (h.lt hv) hn hlt hp hd hf hstack (P.le_add f) hd₂ hd₃,
        (hys.append hzs).cons rfl⟩
    · rename_i hp
      obtain rfl : p = .ignore := Pattern.eq_ignore (by simpa using hp)
      refine (Fine.bindParts_tries hctx hn rest h hv hrest).mono fun _ s₁ hd => ?_
      obtain ⟨ys, P₁, rs, hd, hys⟩ := hd
      exact ⟨ys, P₁, rs, hd.ignored hn hlt, hys⟩

end

/-! ## Open branches -/

/-- **Code with branches that are open**, the innermost first, and without other labels. -/
inductive Open : Code → List NodeId → Prop
  | flat {ys : Code} : Flat ys → Open ys []
  | level {ys zs : Code} {b : NodeId} {f : Reg} {bs : List NodeId} : Open ys bs →
      Flat zs → Open (ys ++ (b, Instr.branch f head) :: zs) (b :: bs)

theorem Open.append {bs cs : List NodeId} (h : Open xs bs) (h' : Open ys cs) :
    Open (xs ++ ys) (cs ++ bs) := by
  induction h' with
  | flat hy =>
    cases h with
    | flat hx => exact .flat (hx.append hy)
    | level hx hz =>
      rw [List.append_assoc, List.cons_append]
      exact .level hx (hz.append hy)
  | level _ hz ih =>
    rw [← List.append_assoc]
    exact .level ih hz

/-- **What a step that opens branches writes**: code that tries a pattern, with these branches open. -/
def Descends (σ : Site) (s : GenState) (body : Code) (P : Point) (v : Reg) (asks : Heap → Part → Prop)
    (q : Pattern) (bs : List Branch) (s' : GenState) : Prop :=
  ∃ ys P' rs, Tried σ s body P false v asks q s' ys P' rs ∧ Open ys (bs.reverse.map (·.node))

theorem Open.single {i : Instr NodeId} (hi : i.label? = none) : Open [(a, i)] [] :=
  .flat (flat_nil.cons hi)

mutual

/-- **Code for a pattern that may fail** tries the pattern. -/
theorem Fine.descend_tries : ∀ {s : GenState} {body : Code} {P : Point} {v : Reg} (p : Pattern),
    Fine σ s body P → v ∈ P.regs → p.validate σ.types = .ok () →
    Runs (Gen.descend v p) (Gen.descend v p) s (Descends σ s body P v (s.Knows v) p)
  | s, body, P, v, .bind, h, hv, _ => by
    refine Runs.bind (h.drawn.bindReg hv) fun _ s₁ hd => ?_
    obtain ⟨hd, rfl⟩ := hd
    exact runs_pure ⟨[], P, [v], h.tried_nil hd rfl hv (by simp) (fun _ => ⟨rfl, rfl⟩)
      fun hx _ => .cons hx .nil, .flat flat_nil⟩
  | s, body, P, v, .ignore, h, hv, _ => runs_pure
    ⟨[], P, [], h.tried_nil h.drawn rfl hv (by simp) (fun _ => ⟨rfl, rfl⟩) fun _ _ => .nil, .flat flat_nil⟩
  | s, body, P, v, .unpack ty fields, h, hv, hp => by
    obtain ⟨n, hn, hfields⟩ := Pattern.validate_unpack hp
    refine Runs.read (knownType_run (h.lt hv)) ?_
    split
    · rw [map_eq_pure_bind, bind_assoc]
      refine Runs.bind (h.tests hv ty) fun b s₂ hd => ?_
      obtain ⟨f, a, hd, hf, hstack⟩ := hd
      rw [pure_bind]
      refine Runs.bind (Fine.descendParts_tries hn fields hd.fine ((P.le_add f).1 hv) hfields)
        fun bs s₃ hd₃ => ?_
      obtain ⟨ys, P₃, rs, hd₃, ho⟩ := hd₃
      refine runs_pure ⟨_, P₃, rs, Tried.tested (h.lt hv) hd hf hstack (P.le_add f) hd₃, ?_⟩
      have hlevel : Open ((a, .testType f v ty) :: (b.node, Instr.branch f head) :: []) [b.node] :=
        .level (show Open [(a, .testType f v ty)] [] from .single rfl) flat_nil
      simpa using hlevel.append ho
    · rename_i hknown
      rw [pure_bind]
      refine Runs.bind (Fine.descendParts_tries hn fields h hv hfields) fun bs s₁ hd => ?_
      obtain ⟨ys, P₁, rs, hd, ho⟩ := hd
      exact runs_pure ⟨ys, P₁, rs, hd.asking fun hx => hx _ (not_not.mp hknown), ho⟩

theorem Fine.descendParts_tries : ∀ {s : GenState} {body : Code} {P : Point} {v : Reg} {ty : ObjType}
    {n : Nat}, ty.width σ.types = .ok n → ∀ fields : List (Nat × Pattern), Fine σ s body P → v ∈ P.regs →
    Pattern.validateFields σ.types ty n fields = .ok () →
    Runs (Gen.descendParts v ty fields) (Gen.descendParts v ty fields) s
      (Descends σ s body P v (Part.IsA ty) (.unpack ty fields))
  | s, body, P, v, ty, n, hn, [], h, hv, _ => runs_pure
    ⟨[], P, [], h.tried_no_fields, .flat flat_nil⟩
  | s, body, P, v, ty, n, hn, (offset, p) :: rest, h, hv, hfields => by
    obtain ⟨hlt, hp, hrest⟩ := Pattern.validateFields_cons hfields
    unfold Gen.descendParts
    split
    · rename_i hignore
      obtain rfl : p = .ignore := Pattern.eq_ignore hignore
      rw [pure_bind]
      refine Runs.bind (Fine.descendParts_tries hn rest h hv hrest) fun bs s₁ hd => ?_
      obtain ⟨ys, P₁, rs, hd, ho⟩ := hd
      exact runs_pure ⟨ys, P₁, rs, hd.ignored hn hlt, ho⟩
    · rename_i hignore
      unfold Gen.readField
      simp only [bind_assoc, pure_bind]
      refine h.creates (.field · v offset) (fun _ => rfl) (fun _ => rfl) (fun _ => rfl)
        (fun _ => by simpa [Instr.inputs] using hv) (by simp) (by simp) fun f s₁ a hd hf hstack => ?_
      refine Runs.bind (Fine.descend_tries p hd.fine (P.mem_add f) hp) fun bs s₂ hd₂ => ?_
      obtain ⟨ys, P₂, rs, hd₂, ho⟩ := hd₂
      refine Runs.bind (Fine.descendParts_tries hn rest hd₂.drawn.fine (hd₂.le.1 ((P.le_add f).1 hv)) hrest)
        fun cs s₃ hd₃ => ?_
      obtain ⟨zs, P₃, rs', hd₃, ho'⟩ := hd₃
      refine runs_pure ⟨_, P₃, rs ++ rs', Tried.field (h.lt hv) hn hlt (by simpa using hignore) hd hf hstack
        (P.le_add f) hd₂ hd₃, ?_⟩
      have hboth := (Open.single (a := a) (i := .field f v offset) rfl).append (ho.append ho')
      simpa using hboth

end

end Gen

end CountedMachine
