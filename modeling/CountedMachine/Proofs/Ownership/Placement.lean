import CountedMachine.Proofs.Ownership.Weaving

/-! # Placing the ownership instructions succeeds

A listing that is `Ready` has orderly code without ownership instructions, and every register is used
as its role says. Then `placeOwnership` returns a listing with a block woven in after each node
(`placeOwnership_spec`), and the instructions on a register in a block are the ones planned for
it: at most one, and none on registers that are not counted (`Placed`). -/

namespace CountedMachine.Listing

/-- **A listing that the ownership instructions can be placed in.** -/
structure Ready (l : Listing) (code : Code) : Prop where
  linked : Linked l code
  orderly : Orderly code
  unadjusted : ∀ {a op r}, (a, .adjust op r) ∉ code
  known : ∀ {a i r}, (a, i) ∈ code → i.creates = some r ∨ i.reads r = true →
    ∃ f, l.regs[r.index]? = some f
  tests : ∀ {a c no f}, (a, .branch c no) ∈ code → l.regs[c.index]? = some f → f.counted = false
  single : ∀ {r f a b i j}, l.regs[r.index]? = some f → f.counted = true → (a, i) ∈ code →
    i.creates = some r → (b, j) ∈ code → j.creates = some r → a = b
  merged : ∀ {r f a i}, l.regs[r.index]? = some f → f.bornOwned = true → (a, i) ∈ code →
    i.creates = some r → i = .merge r ∨ i = .allocClosure r

variable {l : Listing} {code : Code} {r : Reg} {f : RegFacts} {a created : NodeId}
  {i : Instr NodeId}

/-! ## The registers created in a listing -/

theorem eraseReps_loop : ∀ (a : Reg) (as acc : List Reg),
    List.eraseRepsBy.loop (· == ·) a as acc =
      acc.reverse ++ List.eraseRepsBy.loop (· == ·) a as []
  | a, [], acc => by simp [List.eraseRepsBy.loop]
  | a, b :: as, acc => by
    rw [List.eraseRepsBy.loop, List.eraseRepsBy.loop]
    cases a == b
    · simp only
      rw [eraseReps_loop b as (a :: acc), eraseReps_loop b as [a]]
      simp
    · exact eraseReps_loop a as acc

/-- In a sorted list equal registers are neighbours. -/
theorem eraseReps_sorted_cons : ∀ (a : Reg) (as : List Reg),
    (a :: as).Pairwise (fun r r' => r.index ≤ r'.index) →
      (List.eraseRepsBy.loop (· == ·) a as []).Nodup ∧
      ∀ r, r ∈ List.eraseRepsBy.loop (· == ·) a as [] ↔ r ∈ a :: as
  | a, [], _ => by simp [List.eraseRepsBy.loop]
  | a, b :: as, hs => by
    obtain ⟨ha, hs'⟩ := List.pairwise_cons.mp hs
    rw [List.eraseRepsBy.loop]
    by_cases e : a = b
    · subst e
      rw [show (a == a) = true from beq_self_eq_true a]
      obtain ⟨hnd, hmem⟩ := eraseReps_sorted_cons a as hs'
      exact ⟨hnd, fun r => by rw [hmem]; simp⟩
    · rw [show (a == b) = false from by simpa using e]
      simp only
      rw [eraseReps_loop]
      obtain ⟨hnd, hmem⟩ := eraseReps_sorted_cons b as hs'
      refine ⟨?_, fun r => ?_⟩
      · rw [List.reverse_singleton, List.singleton_append, List.nodup_cons, hmem]
        refine ⟨fun hm => ?_, hnd⟩
        rcases List.mem_cons.mp hm with h | h
        · exact e h
        · have h₁ := ha b (by simp)
          have h₂ := (List.pairwise_cons.mp hs').1 a h
          exact e (by cases a; cases b; exact congrArg _ (Nat.le_antisymm h₁ h₂))
      · rw [List.reverse_singleton, List.singleton_append, List.mem_cons, hmem, List.mem_cons (b := a)]

theorem createdRegs_spec (hl : Linked l code) : l.createdRegs.Nodup ∧
    ∀ r, r ∈ l.createdRegs ↔ ∃ a i, (a, i) ∈ code ∧ i.creates = some r := by
  have hmem : ∀ r, r ∈ (l.entries.filterMap fun p => p.2.creates).mergeSort
      (fun a b => decide (a.index ≤ b.index)) ↔ ∃ a i, (a, i) ∈ code ∧ i.creates = some r := by
    intro r
    rw [List.mem_mergeSort, hl.entries_eq, List.mem_filterMap]
    exact ⟨fun ⟨⟨a, i⟩, h, e⟩ => ⟨a, i, h, e⟩, fun ⟨a, i, h, e⟩ => ⟨⟨a, i⟩, h, e⟩⟩
  have hs : ((l.entries.filterMap fun p => p.2.creates).mergeSort
      (fun a b => decide (a.index ≤ b.index))).Pairwise fun r r' => r.index ≤ r'.index := by
    refine (List.pairwise_mergeSort (fun a b c h h' => ?_) (fun a b => ?_) _).imp fun h => by
      simpa using h
    · simp only [decide_eq_true_eq] at *
      omega
    · simp only [Bool.or_eq_true, decide_eq_true_eq]
      omega
  unfold createdRegs
  generalize (l.entries.filterMap fun p => p.2.creates).mergeSort
    (fun a b => decide (a.index ≤ b.index)) = rs at *
  rcases rs with _ | ⟨a, as⟩
  · exact ⟨List.nodup_nil, hmem⟩
  · obtain ⟨hnd, hm⟩ := eraseReps_sorted_cons a as hs
    exact ⟨hnd, fun r => (hm r).trans (hmem r)⟩

theorem factsOf_eq (hf : l.regs[r.index]? = some f) : l.factsOf r = .ok f := by
  simp [factsOf, hf]

/-- A register that one node creates. -/
theorem Linked.creatorsOf_eq (hl : Linked l code) (hc : (created, i) ∈ code)
    (hcr : i.creates = some r)
    (huniq : ∀ {b j}, (b, j) ∈ code → j.creates = some r → b = created) :
    l.creatorsOf r = [created] := by
  rw [creatorsOf, hl.entries_eq]
  have hnd := hl.nodup
  obtain ⟨xs, ys, rfl⟩ := List.append_of_mem hc
  simp only [ids_append, ids_cons, List.nodup_append, List.nodup_cons] at hnd
  have hnone : ∀ zs : Code, (∀ x ∈ zs, x ∈ xs ++ (created, i) :: ys) → created ∉ ids zs →
      zs.filter (fun p => decide (p.2.creates = some r)) = [] := by
    intro zs hsub hout
    refine List.filter_eq_nil_iff.mpr fun ⟨b, j⟩ hx => ?_
    simp only [decide_eq_true_eq]
    intro hj
    exact hout (huniq (hsub _ hx) hj ▸ mem_ids hx)
  rw [List.filter_append, List.filter_cons_of_pos (by simpa using hcr),
    hnone xs (fun x hx => by simp [hx]) fun h => hnd.2.2 _ h _ (by simp) rfl,
    hnone ys (fun x hx => by simp [hx]) hnd.2.1.1]
  rfl

/-- A counted register has one creator. -/
theorem Ready.creatorsOf_eq (hr : Ready l code) (hf : l.regs[r.index]? = some f)
    (hcounted : f.counted = true) (hc : (created, i) ∈ code) (hcr : i.creates = some r) :
    l.creatorsOf r = [created] :=
  hr.linked.creatorsOf_eq hc hcr fun hb hj => hr.single hf hcounted hb hj hc hcr

/-- No branch tests a counted register. -/
theorem Ready.cond_ne (hr : Ready l code) (hf : l.regs[r.index]? = some f)
    (hcounted : f.counted = true) {c : Reg} {no : NodeId} (hb : (a, .branch c no) ∈ code) :
    c ≠ r := by
  rintro rfl
  rw [hr.tests hb hf] at hcounted
  cases hcounted

/-! ## The instructions on one register -/

/-- The ownership operation on `r` that an instruction is. -/
def opOn (r : Reg) : Instr NodeId → Option CountOp
  | .adjust op q => if q = r then some op else none
  | _ => none

/-- The ownership operations on `r`, in order. -/
def opsOn (r : Reg) (blk : Code) : List CountOp := blk.filterMap fun x => opOn r x.2

/-- **The instructions on a register** created at `created`, before `first`, are as planned. -/
structure PlacedFor (code : Code) (block : NodeId → Code) (r : Reg) (created first : NodeId)
    (owned : Bool) : Prop where
  acquire : Live code r first → owned = false → opsOn r (block created) = [.inc]
  keep : Live code r first → owned = true → opsOn r (block created) = []
  discard : ¬ Live code r first → opsOn r (block created) = [if owned then .unref else .drop]
  release : ∀ {a}, a ≠ created → Live code r first → Released code r first a →
    opsOn r (block a) = [.unref]
  none : ∀ {a}, a ≠ created → ¬ (Live code r first ∧ Released code r first a) →
    opsOn r (block a) = []

theorem PlacedFor.few {block : NodeId → Code} {first : NodeId} {owned : Bool}
    (hp : PlacedFor code block r created first owned) (a : NodeId) :
    opsOn r (block a) = [] ∨ ∃ op, opsOn r (block a) = [op] := by
  by_cases hL : Live code r first
  · by_cases ha : a = created
    · cases owned
      · exact Or.inr ⟨_, ha ▸ hp.acquire hL rfl⟩
      · exact Or.inl (ha ▸ hp.keep hL rfl)
    · by_cases hrel : Released code r first a
      · exact Or.inr ⟨_, hp.release ha hL hrel⟩
      · exact Or.inl (hp.none ha fun h => hrel h.2)
  · by_cases ha : a = created
    · exact Or.inr ⟨_, ha ▸ hp.discard hL⟩
    · exact Or.inl (hp.none ha fun h => hL h.1)

theorem eq_singleton {α : Type} {xs : List α} {y : α} (hnd : xs.Nodup) (h : ∀ x, x ∈ xs ↔ x = y) :
    xs = [y] := by
  have : xs.Perm [y] := (List.perm_ext_iff_of_nodup hnd (by simp)).mpr fun x => by simp [h]
  exact List.perm_singleton.mp this

/-- The block of a place in terms of the edits. -/
theorem opsOn_block {es : List Edit} {blk : Code}
    (h : blk.map (·.2) = (es.filter fun e => e.anchor = a).map Edit.instr) (r : Reg) :
    opsOn r blk = ((es.filter fun e => e.anchor = a).filter fun e => e.reg = r).map (·.op) := by
  have hmap : ∀ es : List Edit, (es.map Edit.instr).filterMap (opOn r) =
      (es.filter fun e => e.reg = r).map (·.op) := by
    intro es
    induction es with
    | nil => rfl
    | cons e es ih =>
      by_cases he : e.reg = r
      · simp [Edit.instr, opOn, he, ih]
      · simp [Edit.instr, opOn, he, ih]
  rw [← hmap, ← h, List.filterMap_map]
  rfl

theorem Planned.placedFor {first : NodeId} {owned : Bool} {es all : List Edit}
    {block : NodeId → Code} (hp : Planned code r created first owned es) (hnd : all.Nodup)
    (hall : ∀ e, e.reg = r → (e ∈ all ↔ e ∈ es))
    (hblock : ∀ a, (block a).map (·.2) = (all.filter fun e => e.anchor = a).map Edit.instr) :
    PlacedFor code block r created first owned := by
  have hmem : ∀ {a e}, e ∈ (all.filter fun e => e.anchor = a).filter (fun e => e.reg = r) ↔
      e.anchor = a ∧ e.reg = r ∧ ⟨a, e.op, r⟩ ∈ es := by
    intro a e
    obtain ⟨b, op, q⟩ := e
    simp only [List.mem_filter, decide_eq_true_eq]
    constructor
    · rintro ⟨⟨h, rfl⟩, rfl⟩
      exact ⟨rfl, rfl, (hall _ rfl).mp h⟩
    · rintro ⟨rfl, rfl, h⟩
      exact ⟨⟨(hall _ rfl).mpr h, rfl⟩, rfl⟩
  have hone : ∀ {a op}, (∀ op', ⟨a, op', r⟩ ∈ es ↔ op' = op) → opsOn r (block a) = [op] := by
    intro a op h
    rw [opsOn_block (hblock a), eq_singleton (y := (⟨a, op, r⟩ : Edit)) ((hnd.filter _).filter _)]
    · rfl
    · intro e
      obtain ⟨b, op', q⟩ := e
      rw [hmem, h, Edit.mk.injEq]
      tauto
  have hnone : ∀ {a}, (∀ op', (⟨a, op', r⟩ : Edit) ∉ es) → opsOn r (block a) = [] := by
    intro a h
    rw [opsOn_block (hblock a), List.eq_nil_iff_forall_not_mem.mpr fun e he => h _ (hmem.mp he).2.2]
    rfl
  refine ⟨fun hL ho => hone fun op => ?_, fun hL ho => hnone fun op => ?_,
    fun hL => hone fun op => ?_, fun ha hL hrel => hone fun op => ?_, fun ha hno => hnone fun op => ?_⟩
  · rw [hp.born]
    simp [hL, ho]
  · rw [hp.born]
    simp [hL, ho]
  · rw [hp.born]
    simp [hL]
  · rw [hp.later ha]
    simp [hL, hrel]
  · rw [hp.later ha]
    exact fun h => hno ⟨h.1, h.2.2⟩

/-- **What has been placed.** -/
structure Placed (l : Listing) (code : Code) (block : NodeId → Code) : Prop where
  adjusts : ∀ {a x i}, (x, i) ∈ block a → ∃ op q g, i = .adjust op q ∧
    l.regs[q.index]? = some g ∧ g.counted = true ∧ ∃ b j, (b, j) ∈ code ∧ j.creates = some q
  early : ∀ {a x op q pre post}, block a = pre ++ (x, Instr.adjust op q) :: post → op ≠ .unref →
    op ≠ .dec → ∀ {y q'}, (y, .adjust .unref q') ∉ pre
  placedFor : ∀ {r f created first i}, l.regs[r.index]? = some f → f.counted = true →
    (created, i) ∈ code → i.creates = some r → Next code created first →
      PlacedFor code block r created first f.bornOwned
  sorted : ∀ a, ∃ es : List Edit, (block a).map (·.2) = es.map Edit.instr ∧
    (∀ e ∈ es, e.anchor = a) ∧ es.Nodup ∧ es.Pairwise fun e e' => e.before e' = true

/-! ## All registers -/

/-- What is planned for a register, nothing where it is not counted. -/
structure PlannedFor (l : Listing) (code : Code) (r : Reg) (plan : Option (List Edit)) : Prop where
  uncounted : ∀ {f}, l.regs[r.index]? = some f → f.counted = false → plan = none
  counted : ∀ {f}, l.regs[r.index]? = some f → f.counted = true → ∃ es, plan = some es ∧
    ∀ {created first i}, (created, i) ∈ code → i.creates = some r → Next code created first →
      Planned code r created first f.bornOwned es
  anchors : ∀ {es e}, plan = some es → e ∈ es → e.reg = r ∧ e.anchor ∈ ids code ∧ e.anchor ≠ tail

theorem Orderly.ne_tail (ho : Orderly code) (ha : (a, i) ∈ code) (hi : i ≠ .done) : a ≠ tail := by
  rintro rfl
  obtain ⟨xs, hends⟩ := ho.ends
  exact hi (instr_unique ho.nodup ha (by rw [hends]; simp))

/-- A release is placed after a node that does not end the code. -/
theorem Released.ne_tail (ho : Orderly code) {first : NodeId} (h : Released code r first a) :
    a ≠ tail := by
  obtain ⟨b, -, ⟨rfl, i, hi, hcase⟩ | ⟨c, n, hb, -⟩⟩ := h
  · refine ho.ne_tail hi ?_
    rintro rfl
    rcases hcase with ⟨h, -⟩ | ⟨c, no, h, -⟩
    · cases h
    · cases h
  · obtain ⟨j, hj, hlab⟩ := ho.labels hb rfl
    refine ho.ne_tail hj ?_
    rintro rfl
    cases hlab

theorem Ready.editsIfCounted_spec (hr : Ready l code) (hc : (created, i) ∈ code)
    (hcr : i.creates = some r) :
    ∃ plan, l.editsIfCounted r = .ok plan ∧ PlannedFor l code r plan := by
  have ho := hr.orderly
  obtain ⟨f, hf⟩ := hr.known hc (Or.inl hcr)
  have hsame : ∀ {g}, l.regs[r.index]? = some g → g = f := fun hg => by
    rw [hf] at hg
    exact (Option.some.inj hg).symm
  cases hcounted : f.counted with
  | false =>
    refine ⟨none, ?_, ⟨fun _ _ => rfl, fun hg hgc => ?_, fun h => by cases h⟩⟩
    · simp [editsIfCounted, factsOf_eq hf, hcounted, bind, Except.bind, pure, Except.pure]
    · rw [hsame hg, hcounted] at hgc
      cases hgc
  | true =>
    have hdone : i ≠ .done := by
      rintro rfl
      cases hcr
    obtain ⟨first, hnext, hfirst⟩ := ho.exists_next hc hdone
    obtain ⟨es, hes, hp⟩ := editsFor_spec hr.linked ho hc hcr hnext
      (fun hb => hr.cond_ne hf hcounted hb) f.bornOwned
    have huniq : ∀ {c n j}, (c, j) ∈ code → j.creates = some r → Next code c n →
        c = created ∧ n = first := by
      intro c n j hj hjr hn
      obtain rfl := hr.single hf hcounted hj hjr hc hcr
      obtain ⟨xs, ys, rfl⟩ := List.append_of_mem hc
      rw [next_iff ho.nodup] at hn hnext
      rw [hn] at hnext
      exact ⟨rfl, Option.some.inj hnext⟩
    refine ⟨some es, ?_, ⟨fun hg hgc => ?_, fun {g} hg _ => ⟨es, rfl, fun hj hjr hn => ?_⟩,
      fun {es' e} h he => ?_⟩⟩
    · simp only [editsIfCounted, factsOf_eq hf, hcounted, if_true,
        hr.creatorsOf_eq hf hcounted hc hcr, hes, bind, Except.bind, pure, Except.pure]
    · rw [hsame hg, hcounted] at hgc
      cases hgc
    · obtain ⟨rfl, rfl⟩ := huniq hj hjr hn
      rw [hsame hg]
      exact hp
    · cases h
      have hreg := hp.reg he
      obtain ⟨b, op, q⟩ := e
      obtain rfl : q = r := hreg
      refine ⟨rfl, ?_⟩
      by_cases hb : b = created
      · exact hb ▸ ⟨mem_ids hc, ho.ne_tail hc hdone⟩
      · obtain ⟨-, -, hrel⟩ := (hp.later hb).mp he
        exact ⟨ho.reach_mem (hrel.reach ho) hfirst, hrel.ne_tail ho⟩

theorem flatten_filterMap {α β : Type} (g : α → Option (List β)) : ∀ xs : List α,
    ((xs.map g).filterMap id).flatten = xs.flatMap fun x => (g x).getD []
  | [] => rfl
  | x :: xs => by
    have ih := flatten_filterMap g xs
    rw [List.map_cons, List.flatMap_cons, ← ih]
    cases g x <;> rfl

section
variable {plan : Reg → Option (List Edit)} {block : NodeId → Code} {e : Edit} {es : List Edit}

/-- The edits that are planned for all registers. -/
def allEdits (l : Listing) (plan : Reg → Option (List Edit)) : List Edit :=
  l.createdRegs.flatMap fun q => (plan q).getD []

theorem mem_getD_plan : e ∈ (plan r).getD [] ↔ ∃ es, plan r = some es ∧ e ∈ es := by
  cases plan r with
  | none => simp
  | some es => simp

theorem mem_allEdits (hplanned : ∀ q ∈ l.createdRegs, PlannedFor l code q (plan q)) :
    e ∈ allEdits l plan ↔ e.reg ∈ l.createdRegs ∧ ∃ es, plan e.reg = some es ∧ e ∈ es := by
  rw [allEdits, List.mem_flatMap]
  constructor
  · rintro ⟨q, hq, he⟩
    obtain ⟨es, hes, hmem⟩ := mem_getD_plan.mp he
    obtain ⟨rfl, -⟩ := (hplanned q hq).anchors hes hmem
    exact ⟨hq, es, hes, hmem⟩
  · rintro ⟨hq, hes⟩
    exact ⟨e.reg, hq, mem_getD_plan.mpr hes⟩

/-- Where something is planned, the register is counted. -/
theorem Ready.planned (hr : Ready l code) (hplanned : PlannedFor l code r (plan r)) (hq : r ∈ l.createdRegs)
    (hes : plan r = some es) : ∃ f, l.regs[r.index]? = some f ∧ f.counted = true ∧ ∃ c first i,
      (c, i) ∈ code ∧ i.creates = some r ∧ Planned code r c first f.bornOwned es := by
  obtain ⟨-, hcreated⟩ := createdRegs_spec hr.linked
  obtain ⟨c, i, hc, hcr⟩ := (hcreated r).mp hq
  obtain ⟨f, hf⟩ := hr.known hc (Or.inl hcr)
  cases hcounted : f.counted with
  | false =>
    rw [hplanned.uncounted hf hcounted] at hes
    cases hes
  | true =>
    obtain ⟨es', hes', hp⟩ := hplanned.counted hf hcounted
    cases hes.symm.trans hes'
    obtain ⟨first, hnext, -⟩ := hr.orderly.exists_next hc (by rintro rfl; cases hcr)
    exact ⟨f, hf, hcounted, c, first, i, hc, hcr, hp hc hcr hnext⟩

/-- Nothing is planned twice. -/
theorem Ready.nodup_allEdits (hr : Ready l code)
    (hplanned : ∀ q ∈ l.createdRegs, PlannedFor l code q (plan q)) : (allEdits l plan).Nodup := by
  obtain ⟨hnd, -⟩ := createdRegs_spec hr.linked
  have hreg {q} (hq : q ∈ l.createdRegs) {e} (he : e ∈ (plan q).getD []) : e.reg = q := by
    obtain ⟨es, hes, he⟩ := mem_getD_plan.mp he
    exact ((hplanned q hq).anchors hes he).1
  rw [allEdits, List.nodup_flatMap]
  refine ⟨fun q hq => ?_, hnd.imp_of_mem fun {q q'} hq hq' hne e he he' =>
    hne ((hreg hq he).symm.trans (hreg hq' he'))⟩
  cases hes : plan q with
  | none => simp
  | some es =>
    obtain ⟨f, -, -, c, first, i, -, -, hp⟩ := hr.planned (hplanned q hq) hq hes
    exact hp.nodup

/-- **Releasing comes last**, since the edits of a place are sorted by kind. -/
theorem not_unref_of_sorted {a x y : NodeId} {op : CountOp} {q q' : Reg} {pre post : Code}
    (hs : es.Pairwise fun e e' => e.before e' = true)
    (hblock : (block a).map (·.2) = (es.filter fun e => e.anchor = a).map Edit.instr)
    (h : block a = pre ++ (x, .adjust op q) :: post) (hop : op ≠ .unref) (hop' : op ≠ .dec) :
    (y, .adjust .unref q') ∉ pre := by
  intro hy
  have hranks := byRank_filter hs a
  rw [h, List.map_append, List.map_cons] at hblock
  obtain ⟨es₁, es₂, he, h₁, h₂⟩ := List.map_eq_append_iff.mp hblock.symm
  obtain ⟨e, es₃, rfl, h₃, -⟩ := List.map_eq_cons_iff.mp h₂
  rw [ByRank, he, List.pairwise_append] at hranks
  have hy' : Instr.adjust .unref q' ∈ es₁.map Edit.instr := h₁ ▸ List.mem_map.mpr ⟨_, hy, rfl⟩
  obtain ⟨e', he', hi'⟩ := List.mem_map.mp hy'
  have hle := hranks.2.2 e' he' e (by simp)
  have hop₁ : e.op = op := by
    injection h₃
  have hop₂ : e'.op = .unref := by
    injection hi'
  rw [Edit.rank, Edit.rank, hop₁, hop₂] at hle
  cases op <;> simp at hle hop hop'

/-- **The edits have been placed** when each stands in its block, in order. -/
theorem Ready.placed (hr : Ready l code) (hplanned : ∀ q ∈ l.createdRegs, PlannedFor l code q (plan q))
    (hblock : ∀ a, (block a).map (·.2) =
      (((allEdits l plan).mergeSort Edit.before).filter fun e => e.anchor = a).map Edit.instr) :
    Placed l code block := by
  obtain ⟨-, hcreated⟩ := createdRegs_spec hr.linked
  have hperm : ((allEdits l plan).mergeSort Edit.before).Perm (allEdits l plan) := List.mergeSort_perm _ _
  have hsorted := sorted_edits (allEdits l plan)
  have hnodup := hperm.nodup_iff.mpr (hr.nodup_allEdits hplanned)
  refine ⟨fun {a x i} hx => ?_, fun h hop hop' y q' => not_unref_of_sorted hsorted (hblock _) h hop hop',
    fun {q f c first i} hf hcounted hc hcr hnext => ?_,
    fun a => ⟨_, hblock a, fun e he => ?_, hnodup.filter _, hsorted.filter _⟩⟩
  · have hi : i ∈ (block a).map (·.2) := List.mem_map.mpr ⟨_, hx, rfl⟩
    rw [hblock, List.mem_map] at hi
    obtain ⟨e, he, rfl⟩ := hi
    obtain ⟨hq, es, hes, -⟩ := (mem_allEdits hplanned).mp (hperm.mem_iff.mp (List.mem_filter.mp he).1)
    obtain ⟨f, hf, hcounted, c, first, j, hc, hcr, -⟩ := hr.planned (hplanned _ hq) hq hes
    exact ⟨e.op, e.reg, f, rfl, hf, hcounted, c, j, hc, hcr⟩
  · have hq : q ∈ l.createdRegs := (hcreated q).mpr ⟨c, i, hc, hcr⟩
    obtain ⟨es, hes, hp⟩ := (hplanned q hq).counted hf hcounted
    refine (hp hc hcr hnext).placedFor hnodup (fun e he => ?_) hblock
    rw [hperm.mem_iff, mem_allEdits hplanned, he]
    exact ⟨fun ⟨_, es', h, h'⟩ => by rw [hes] at h; cases h; exact h', fun h => ⟨hq, es, hes, h⟩⟩
  · rw [List.mem_filter, decide_eq_true_eq] at he
    exact he.2

end

/-- **Placing the ownership instructions.** -/
theorem placeOwnership_spec (hr : Ready l code) :
    ∃ l' counts block, l.placeOwnership = .ok (l', counts) ∧ Linked l' (weave code block) ∧
      Placed l code block ∧ l'.cursor = l.cursor ∧ l'.regs = l.regs := by
  obtain ⟨-, hcreated⟩ := createdRegs_spec hr.linked
  have hplan : ∀ q ∈ l.createdRegs, ∃ plan, l.editsIfCounted q = .ok plan ∧ PlannedFor l code q plan := by
    intro q hq
    obtain ⟨a, i, ha, hi⟩ := (hcreated q).mp hq
    exact hr.editsIfCounted_spec ha hi
  choose! plan hrun hplanned using hplan
  have hat : ∀ e ∈ (allEdits l plan).mergeSort Edit.before, e.anchor ∈ ids code ∧ e.anchor ≠ tail := by
    intro e he
    obtain ⟨hq, es, hes, he⟩ := (mem_allEdits hplanned).mp ((List.mergeSort_perm _ _).mem_iff.mp he)
    exact ((hplanned _ hq).anchors hes he).2
  obtain ⟨l', block, hins, hl', hblock, hcur, hregs⟩ :=
    insertAll_spec hr.linked (sorted_edits (allEdits l plan)) hat
  refine ⟨l', ((allEdits l plan).mergeSort Edit.before).foldl PlacementCounts.count
    { counted := ((l.createdRegs.map plan).filterMap id).length }, block, ?_, hl',
    hr.placed hplanned hblock, hcur, hregs⟩
  simp only [placeOwnership, mapM_eq_ok hrun, bind, Except.bind]
  rw [flatten_filterMap, ← allEdits, hins]
  rfl

end CountedMachine.Listing
