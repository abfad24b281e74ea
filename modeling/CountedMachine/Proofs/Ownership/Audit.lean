import CountedMachine.Ownership.Tidy
import CountedMachine.Proofs.Ownership.Borrows

/-! # The checkers accept what has been placed

The flows of registers and loads have few states, so that the fuel of the checkers is enough. They
are quiet in the woven code, and also in what is left of it when loads that nothing reads are taken
out with the ownership instructions on them (`Thinned`). So `audit` accepts both
(`Thinned.audit_eq`). -/

namespace CountedMachine.Listing

variable {l l' : Listing} {code : Code} {block : NodeId → Code} {keep : NodeId × Instr NodeId → Bool}
  {r load container : Reg} {f g : RegFacts} {a b created first : NodeId} {i : Instr NodeId}

/-! ## The states -/

theorem afterOps_cons (st : Holding) (x : NodeId × Instr NodeId) (blk : Code) :
    afterOps r st (x :: blk) = afterOps r (afterOps r st [x]) blk := by
  rw [afterOps, afterOps, afterOps, ← List.foldl_append, ← opsOn_append]
  rfl

theorem advance_adjust (st : Holding) (x : NodeId) (op : CountOp) (q : Reg) :
    st.advance r (.adjust op q) = afterOps r st [(x, .adjust op q)] := by
  by_cases hq : q = r
  · subst hq
    have hops : opsOn q [(x, .adjust op q)] = [op] := by simp [opsOn, opOn]
    rw [afterOps, hops]
    simp only [Holding.advance, if_true]
    cases op <;> rfl
  · simp [Holding.advance, hq, afterOps, opsOn, opOn]

/-- Where a block can be run its operations give the state. -/
theorem afterOps_of_runBlock {st st' : Holding} {blk : Code}
    (hadj : ∀ {x i}, (x, i) ∈ blk → ∃ op q, i = .adjust op q)
    (h : runBlock (observeReg r) blk st = .ok st') : st' = afterOps r st blk := by
  induction blk generalizing st with
  | nil => exact (Except.ok.inj h).symm
  | cons x blk ih =>
    obtain ⟨x, i⟩ := x
    obtain ⟨op, q, rfl⟩ := hadj (x := x) (i := i) (by simp)
    rw [runBlock_cons] at h
    cases hobs : st.observe r x (.adjust op q) with
    | error e => simp [observeReg, hobs, bind, Except.bind] at h
    | ok st₁ =>
      have hstep : observeReg r x (.adjust op q) [x] st = .ok st₁ :=
        observeReg_eq hobs (Or.inl (by simp))
      rw [hstep] at h
      rw [ih (fun hx => hadj (List.mem_cons_of_mem _ hx)) h, afterOps_cons, ← advance_adjust,
        Holding.advance_eq hobs]

theorem afterOpsBoth_of_runBlock {b b' : Borrow} {blk : Code}
    (hadj : ∀ {x i}, (x, i) ∈ blk → ∃ op q, i = .adjust op q)
    (h : runBlock (observeLoad load container) blk b = .ok b') :
    b' = afterOpsBoth load container b blk := by
  induction blk generalizing b with
  | nil =>
    rw [← Except.ok.inj h]
    obtain ⟨outer, _ | inner⟩ := b <;> rfl
  | cons x blk ih =>
    obtain ⟨x, i⟩ := x
    obtain ⟨op, q, rfl⟩ := hadj (x := x) (i := i) (by simp)
    rw [runBlock_cons] at h
    cases hobs : observeLoad load container x (.adjust op q) [x] b with
    | error e => simp [hobs, Except.bind] at h
    | ok b₁ =>
      rw [hobs] at h
      rw [ih (fun hx => hadj (List.mem_cons_of_mem _ hx)) h]
      have hb₁ : b₁ = afterOpsBoth load container b [(x, .adjust op q)] := by
        obtain ⟨outer, _ | inner⟩ := b
        · rw [← Except.ok.inj hobs, afterOpsBoth, ← advance_adjust]
          simp [Instr.creates]
        · simp only [observeLoad] at hobs
          split_ifs at hobs
          rw [← Except.ok.inj hobs, afterOpsBoth, ← advance_adjust, Option.map_some, ← advance_adjust]
      rw [hb₁]
      simp only [afterOpsBoth, Option.map_map, afterOps_cons _ (x, Instr.adjust op q) blk,
        Function.comp_def]

/-- At each point of a block the register is in one of the few states. -/
theorem Born.mem_holdings (ho : Orderly code) (hb : Born l code r f created first)
    (hp : PlacedFor code block r created first f.bornOwned) {st : Holding}
    (hD : Leaves code r f created first a st) {pre post : Code} (h : block a = pre ++ post) :
    afterOps r st pre ∈ holdings := by
  obtain ⟨hall, hafter⟩ := hb.leaves ho hp hD
  obtain ⟨i, hi, hfalls⟩ := hD.1
  obtain ⟨n, hn, -⟩ := ho.exists_next hi (by rintro rfl; cases hfalls.1)
  have hend := (hafter n hn).mem_holdings
  rcases hpre : opsOn r pre with _ | ⟨op, ops⟩
  · rw [afterOps, hpre]
    exact hD.mem_holdings
  · have hsame : opsOn r pre = opsOn r (block a) := by
      rw [h, opsOn_append]
      rcases hall with e | ⟨op', e, -⟩
      · rw [h, opsOn_append, hpre] at e
        simp at e
      · rw [h, opsOn_append, hpre] at e
        simp only [List.cons_append, List.cons.injEq, List.append_eq_nil_iff] at e
        rw [e.2.2, List.append_nil]
    rw [afterOps, hsame]
    exact hend

/-! ## Code that has been thinned -/

/-- What is left of the woven code in another listing: the nodes taken out load registers that
nothing reads, or are ownership instructions on them, and then no load of the register is left. -/
structure Thinned (l : Listing) (code : Code) (block : NodeId → Code) (l' : Listing)
    (keep : NodeId × Instr NodeId → Bool) : Prop where
  woven : ∃ l₁, Linked l₁ (weave code block)
  linked : Linked l' ((weave code block).filter keep)
  regs : l'.regs = l.regs
  ends : keep (tail, .done) = true
  about : ∀ {a i}, (a, i) ∈ weave code block → keep (a, i) = false → ∃ q, loadOrAdjust? i = some q
  unread : ∀ {a i q b j}, (a, i) ∈ weave code block → keep (a, i) = false →
    loadOrAdjust? i = some q → (b, j) ∈ code → j.reads q = false
  whole : ∀ {a i q g b j}, (a, i) ∈ weave code block → keep (a, i) = false →
    loadOrAdjust? i = some q → l.regs[q.index]? = some g → g.counted = true → (b, j) ∈ code →
    j.creates = some q → keep (b, j) = false

theorem mem_weave : (a, i) ∈ weave code block ↔ (a, i) ∈ code ∨ ∃ b ∈ ids code, (a, i) ∈ block b := by
  simp only [weave, List.mem_flatMap, List.mem_cons, ids, List.mem_map]
  constructor
  · rintro ⟨x, hx, rfl | h⟩
    · exact Or.inl hx
    · exact Or.inr ⟨x.1, ⟨x, hx, rfl⟩, h⟩
  · rintro (h | ⟨b, ⟨x, hx, rfl⟩, h⟩)
    · exact ⟨_, h, Or.inl rfl⟩
    · exact ⟨x, hx, Or.inr h⟩

theorem Placed.adjust_of_mem (hp : Placed l code block) {pre post : Code} (hblk : block a = pre ++ post)
    {x : NodeId} (hx : (x, i) ∈ pre) : ∃ op q, i = .adjust op q := by
  obtain ⟨op, q, g, e, -⟩ := hp.adjusts (a := a) (by rw [hblk]; exact List.mem_append_left _ hx)
  exact ⟨op, q, e⟩

/-- What is no ownership instruction is a node of the old code. -/
theorem Placed.mem_code (hp : Placed l code block) (h : (a, i) ∈ weave code block)
    (hi : ∀ op q, i ≠ .adjust op q) : (a, i) ∈ code := by
  refine (mem_weave.mp h).resolve_right ?_
  rintro ⟨b, -, hx⟩
  obtain ⟨op, q, g, e, -⟩ := hp.adjusts hx
  exact hi op q e

theorem Placed.mem_code_of_kept (hp : Placed l code block)
    (h : (a, i) ∈ (weave code block).filter keep) (hi : ∀ op q, i ≠ .adjust op q) :
    (a, i) ∈ code ∧ keep (a, i) = true := by
  obtain ⟨hw, hk⟩ := List.mem_filter.mp h
  exact ⟨hp.mem_code hw hi, hk⟩

theorem falls_of_loadOrAdjust {q : Reg} (h : loadOrAdjust? i = some q) : Falls i := by
  cases i <;> first | (cases h; done) | exact ⟨rfl, by simp⟩

theorem loadOrAdjust_of_label {L : Instr NodeId} (h : L.isLabel = true) : loadOrAdjust? L = none := by
  cases L <;> first | rfl | cases h

theorem reads_of_loadOrAdjust {q : Reg} (h : loadOrAdjust? i = some q) : i.reads r = false := by
  cases i <;> first | rfl | cases h

theorem creates_of_loadOrAdjust {q : Reg} (h : loadOrAdjust? i = some q) :
    i.creates = some q ∨ ∃ op, i = .adjust op q := by
  cases i <;> simp_all [loadOrAdjust?, Instr.creates]

/-- No node about the register has been taken out. -/
def Untouched (code : Code) (block : NodeId → Code) (keep : NodeId × Instr NodeId → Bool) (r : Reg) :
    Prop :=
  ∀ {a i}, (a, i) ∈ weave code block → keep (a, i) = false → loadOrAdjust? i ≠ some r

theorem observe_of_untouched {q : Reg} (hq : loadOrAdjust? i = some q) (hne : loadOrAdjust? i ≠ some r)
    (st : Holding) : st.observe r a i = .ok st := by
  refine Holding.observe_unread (fun op e => hne ?_) (reads_of_loadOrAdjust hq)
  rw [e]
  rfl

section
variable (hr : Ready l code) (hp : Placed l code block) (ht : Thinned l code block l' keep)
include hr hp ht

/-- Nodes that have been taken out leave the states of the others alone. -/
theorem Thinned.inert {σ : Type}
    {observe : NodeId → Instr NodeId → List NodeId → σ → Except Imbalance σ}
    (halone : ∀ {a i next st st'}, (a, i) ∈ weave code block → keep (a, i) = false →
      observe a i next st = .ok st' → st' = st) : Inert (weave code block) observe keep := by
  obtain ⟨l₁, hl₁⟩ := ht.woven
  have ho := hr.orderly
  refine ⟨fun hx hk => ?_, halone, fun {a i b} hx hlab => ?_, fun {xs x} e => ?_⟩
  · obtain ⟨q, hq⟩ := ht.about hx hk
    exact falls_of_loadOrAdjust hq
  · have hx' := hp.mem_code hx (by rintro op q rfl; cases hlab)
    obtain ⟨j, hj, hlabel⟩ := ho.labels hx' hlab
    have hj' : (b, j) ∈ weave code block := mem_weave.mpr (Or.inl hj)
    refine ⟨j, hj', ?_⟩
    by_contra hk
    obtain ⟨q, hq⟩ := ht.about hj' (by simpa using hk)
    rw [loadOrAdjust_of_label hlabel] at hq
    cases hq
  · obtain ⟨y, j⟩ := x
    have hlast := hl₁.last
    rw [e] at hlast
    obtain rfl : y = tail := by simpa [lastId_append, lastId] using hlast
    obtain ⟨zs, hends⟩ := ho.ends
    have hdone : (tail, Instr.done) ∈ weave code block :=
      mem_weave.mpr (Or.inl (by rw [hends]; simp))
    obtain rfl : j = .done := instr_unique hl₁.nodup (by rw [e]; simp) hdone
    exact ht.ends

theorem Thinned.inert_reg (hu : Untouched code block keep r) :
    Inert (weave code block) (observeReg r) keep := by
  refine ht.inert hr hp fun {a i next st st'} hx hk hobs => ?_
  obtain ⟨q, hq⟩ := ht.about hx hk
  simp only [observeReg, observe_of_untouched hq (hu hx hk), bind, Except.bind] at hobs
  split_ifs at hobs
  exact (Except.ok.inj hobs).symm

theorem Thinned.inert_load (hu : Untouched code block keep load)
    (hu' : Untouched code block keep container) :
    Inert (weave code block) (observeLoad load container) keep := by
  refine ht.inert hr hp fun {a i next st st'} hx hk hobs => ?_
  obtain ⟨q, hq⟩ := ht.about hx hk
  have hsame : ∀ {s : Holding} {r}, loadOrAdjust? i ≠ some r → s.advance r i = s := fun hne =>
    Holding.advance_eq (observe_of_untouched hq hne (a := a) _)
  have hnew : i.creates ≠ some load := fun e => by
    rcases creates_of_loadOrAdjust hq with h | ⟨op, rfl⟩
    · rw [h] at e
      exact hu hx hk (hq.trans e)
    · cases e
  obtain ⟨outer, _ | inner⟩ := st
  · rw [← Except.ok.inj hobs, hsame (hu' hx hk), if_neg hnew]
  · simp only [observeLoad, hsame (hu hx hk), hsame (hu' hx hk)] at hobs
    split_ifs at hobs
    exact (Except.ok.inj hobs).symm

/-- **The check of what leaves a node** finds nothing in the thinned code. -/
theorem Thinned.follow_eq {σ : Type} [BEq σ] [Hashable σ] [LawfulBEq σ]
    {observe : NodeId → Instr NodeId → List NodeId → σ → Except Imbalance σ}
    {A D : NodeId → σ → Prop} (hf : Flow code block observe A D) (hends : EndsOnly observe)
    (hin : Inert (weave code block) observe keep) (states : List σ) (fuel : Nat)
    (hstates : ∀ {a st}, Inside block observe A D a st → st ∈ states) {st : σ} (hD : D a st)
    (ha : (a, i) ∈ code) (hi : Falls i) (hl : i.label? = none) (hk : keep (a, i) = true)
    (hfuel : 2 + 2 * (l'.nodes.size * states.length) ≤ fuel) :
    ∃ next, l'.successors a = .ok next ∧ next ≠ [] ∧
      l'.follow observe fuel ∅ (next.reverse.map (·, st)) = .ok none := by
  have ho := hr.orderly
  obtain ⟨l₁, hl₁⟩ := ht.woven
  have hq : Quiet (weave code block) observe (Inside block observe A D) :=
    hf.quiet ho hends fun hx => by
      obtain ⟨op, q, g, rfl, -⟩ := hp.adjusts hx
      exact ⟨⟨rfl, by simp⟩, rfl⟩
  obtain ⟨xs, ys, hcode⟩ := List.append_of_mem ha
  set rest := block a ++ weave ys block with hrest
  have hw : weave code block = (weave xs block ++ [(a, i)]) ++ rest := by
    rw [hcode, weave_append, weave_cons]
    simp [hrest]
  have hfilter : (weave code block).filter keep =
      (weave xs block).filter keep ++ (a, i) :: rest.filter keep := by
    rw [hw]
    simp [hk]
  have hlinked := ht.linked
  rw [hfilter] at hlinked
  refine ⟨_, hlinked.successors_eq, fun e => ?_, ?_⟩
  · -- control goes on
    obtain ⟨n, hn, -⟩ := ho.firstId_of_falls hcode hi.1
    obtain ⟨m, hm⟩ := firstId_block (block a) n
    have hsome : firstId rest none = some m := by rw [hrest, firstId_append, firstId_weave, hn, hm]
    cases hnext : firstId (rest.filter keep) none with
    | none =>
      rw [hin.firstId_filter hw, hsome] at hnext
      cases hnext
    | some b =>
      rw [hnext, targets_eq_nil, hi.1] at e
      cases e
  · refine follow_quiet ht.linked (hq.filter hl₁.nodup hin hends) (fun h => hstates h.1) fuel ∅ _
      (fun p hmem => ?_) ?_
    · obtain ⟨b, hb, rfl⟩ := List.mem_map.mp hmem
      rcases mem_targets_iff.mp (List.mem_reverse.mp hb) with ⟨-, hb⟩ | hb
      · exact hq.skip hl₁.nodup hin hw (fun c hc => hf.leave hD hcode hc) hb
      · rw [hl] at hb
        cases hb
    · have h₁ := unseen_le (ids ((weave code block).filter keep)) states ∅
      have h₂ : (ids ((weave code block).filter keep)).length ≤ l'.nodes.size := by
        rw [ids, List.length_map]
        exact ht.linked.length_le
      have h₃ := Nat.mul_le_mul_right states.length h₂
      have h₄ := length_targets_le i (firstId (rest.filter keep) none)
      simp only [List.length_map, List.length_reverse]
      omega

/-- The creator of a counted register that is left. -/
theorem Thinned.born (hf : l.regs[r.index]? = some f) (hcounted : f.counted = true)
    (ha : (created, i) ∈ code) (hcr : i.creates = some r) (hk : keep (created, i) = true) :
    l'.creatorsOf r = [created] ∧ Untouched code block keep r ∧
      ∃ first, Born l code r f created first := by
  refine ⟨?_, fun hx hkx e => ?_, ?_⟩
  · refine ht.linked.creatorsOf_eq (i := i) ?_ hcr fun {b j} hb hj => ?_
    · exact List.mem_filter.mpr ⟨mem_weave.mpr (Or.inl ha), hk⟩
    · obtain ⟨hb, -⟩ := hp.mem_code_of_kept hb (by rintro op q rfl; cases hj)
      exact hr.single hf hcounted hb hj ha hcr
  · rw [ht.whole hx hkx e hf hcounted ha hcr] at hk
    cases hk
  · obtain ⟨first, hnext, -⟩ := hr.orderly.exists_next ha (by rintro rfl; cases hcr)
    exact ⟨first, hf, hcounted, ⟨i, ha, hcr⟩, hnext⟩

/-- **The check of a register** finds nothing. -/
theorem Thinned.auditReg_eq (hf : l.regs[r.index]? = some f) (hdef : l'.creatorsOf r ≠ []) :
    l'.auditReg r = .ok none := by
  have hfacts : l'.factsOf r = .ok f := factsOf_eq (ht.regs ▸ hf)
  cases hcounted : f.counted with
  | false => simp [auditReg, hfacts, hcounted, bind, Except.bind, pure, Except.pure]
  | true =>
    obtain ⟨created, hmem⟩ := List.exists_mem_of_ne_nil _ hdef
    rw [creatorsOf, ht.linked.entries_eq, List.mem_map] at hmem
    obtain ⟨⟨c, i⟩, hx, rfl⟩ := hmem
    obtain ⟨hx, hcr⟩ := List.mem_filter.mp hx
    have hcr : i.creates = some r := by simpa using hcr
    obtain ⟨hc, hk⟩ := hp.mem_code_of_kept hx (by rintro op q rfl; cases hcr)
    obtain ⟨hcreators, hu, first, hb⟩ := ht.born hr hp hf hcounted hc hcr hk
    have hpl := hp.placedFor hf hcounted hc hcr hb.next
    have hfalls := falls_of_creates hcr
    have hstates : ∀ {a st}, Inside block (observeReg r) (Arrives code r first)
        (Leaves code r f c first) a st → st ∈ holdings := by
      rintro a st (hA | ⟨a', pre, j, post, st₀, hD, hblk, hrun⟩)
      · exact hA.mem_holdings
      · rw [afterOps_of_runBlock (fun hx => ?_) hrun]
        · exact hb.mem_holdings hr.orderly hpl hD hblk
        · exact hp.adjust_of_mem hblk hx
    obtain ⟨next, hnext, hne, hfollow⟩ := ht.follow_eq hr hp (hr.flow hp hb) (endsOnly_observeReg r)
      (ht.inert_reg hr hp hu) holdings l'.auditRegFuel hstates ⟨⟨i, hc, hfalls⟩, Or.inl ⟨rfl, rfl⟩⟩ hc
      hfalls (label?_of_creates hcr) hk (by
        simp only [auditRegFuel, holdings, List.length_cons, List.length_nil]
        nlinarith)
    have hempty : next.isEmpty = false := by simpa using hne
    simp only [auditReg, hfacts, hcounted, if_true, hcreators, hnext, hempty, bind, Except.bind,
      Bool.false_eq_true, if_false]
    exact hfollow

/-- The states of a container and the value read out of it. -/
def borrows : List Borrow :=
  (holdings ×ˢ (none :: holdings.map some)).map fun p => ⟨p.1, p.2⟩

omit hr hp ht in
theorem mem_borrows {b : Borrow} (houter : b.outer ∈ holdings)
    (hinner : ∀ st, b.inner = some st → st ∈ holdings) : b ∈ borrows := by
  obtain ⟨outer, inner⟩ := b
  refine List.mem_map.mpr ⟨(outer, inner), List.mem_product.mpr ⟨houter, ?_⟩, rfl⟩
  rcases inner with _ | st
  · exact List.mem_cons_self
  · exact List.mem_cons_of_mem _ (List.mem_map.mpr ⟨st, hinner st rfl, rfl⟩)

/-- **The check of a borrowed load** finds nothing. -/
theorem Thinned.auditLoad_eq (ha : (a, i) ∈ (weave code block).filter keep)
    (hi : borrowed? i = some (load, container)) : l'.auditLoad load container = .ok none := by
  have hcr : i.creates = some load := by
    cases i <;> simp_all [borrowed?, Instr.creates]
  have hread : i.reads container = true := by
    cases i <;> simp_all [borrowed?, Instr.reads, Instr.inputs]
  have hkind : i ≠ .merge load ∧ i ≠ .allocClosure load := by
    constructor
    · rintro rfl
      cases hi
    · rintro rfl
      cases hi
  obtain ⟨hc, hk⟩ := hp.mem_code_of_kept ha (by rintro op q rfl; cases hcr)
  obtain ⟨g, hg⟩ := hr.known hc (Or.inl hcr)
  obtain ⟨f, hf⟩ := hr.known hc (Or.inr hread)
  have hfacts : l'.factsOf container = .ok f := factsOf_eq (ht.regs ▸ hf)
  have hfacts' : l'.factsOf load = .ok g := factsOf_eq (ht.regs ▸ hg)
  cases hcounted : f.counted with
  | false => simp [auditLoad, hfacts, hcounted, bind, Except.bind, pure, Except.pure]
  | true =>
  cases hcounted' : g.counted with
  | false => simp [auditLoad, hfacts, hfacts', hcounted, hcounted', bind, Except.bind, pure, Except.pure]
  | true =>
  have hown : g.bornOwned = false := by
    by_contra h
    exact (hr.merged hg (by simpa using h) hc hcr).elim hkind.1 hkind.2
  obtain ⟨-, hu, loadFirst, hload⟩ := ht.born hr hp hg hcounted' hc hcr hk
  have hu' : Untouched code block keep container := fun hx hkx e => by
    rw [ht.unread hx hkx e hc] at hread
    cases hread
  by_cases hdef : ∃ c j, (c, j) ∈ code ∧ j.creates = some container
  · obtain ⟨c, j, hj, hjc⟩ := hdef
    have hkj : keep (c, j) = true := by
      by_contra h
      obtain ⟨q, hq⟩ := ht.about (mem_weave.mpr (Or.inl hj)) (by simpa using h)
      refine hu' (mem_weave.mpr (Or.inl hj)) (by simpa using h) ?_
      rcases creates_of_loadOrAdjust hq with e | ⟨op, rfl⟩
      · rw [hq, ← e, hjc]
      · cases hjc
    obtain ⟨hcreators, -, first, hcont⟩ := ht.born hr hp hf hcounted hj hjc hkj
    have hfalls := falls_of_creates hjc
    have hpl := hp.placedFor hf hcounted hj hjc hcont.next
    have hpl' := hp.placedFor hg hcounted' hc hcr hload.next
    have hstates : ∀ {x b}, Inside block (observeLoad load container)
        (ArrivesBoth code load container loadFirst first)
        (LeavesBoth code load container g f a loadFirst c first) x b → b ∈ borrows := by
      rintro x b (hA | ⟨a', pre, j, post, b₀, hD, hblk, hrun⟩)
      · refine mem_borrows hA.1.mem_holdings fun st e => ?_
        rcases hA.2 with h | ⟨-, st', h, hst⟩
        · rw [h] at e
          cases e
        · rw [h] at e
          exact Option.some.inj e ▸ hst.mem_holdings
      · rw [afterOpsBoth_of_runBlock (hp.adjust_of_mem hblk) hrun]
        refine mem_borrows (hcont.mem_holdings hr.orderly hpl hD.1 hblk) fun st e => ?_
        rcases hD.2 with h | ⟨-, st', h, hst⟩
        · simp [afterOpsBoth, h] at e
        · simp only [afterOpsBoth, h, Option.map_some, Option.some.injEq] at e
          exact e ▸ hload.mem_holdings hr.orderly hpl' hst hblk
    have hstart : LeavesBoth code load container g f a loadFirst c first c
        ⟨Holding.start f, none⟩ := ⟨⟨⟨j, hj, hfalls⟩, Or.inl ⟨rfl, rfl⟩⟩, Or.inl rfl⟩
    obtain ⟨next, hnext, -, hfollow⟩ := ht.follow_eq hr hp
      (hr.flow_load hp hload hcont hown ⟨i, hc, hcr, hread⟩) (endsOnly_observeLoad load container)
      (ht.inert_load hr hp hu hu') borrows l'.auditLoadFuel hstates hstart hj hfalls
      (label?_of_creates hjc) hkj (by
        simp only [auditLoadFuel, borrows, holdings, List.length_map, List.length_product,
          List.length_cons, List.length_nil]
        nlinarith)
    simp only [auditLoad, hfacts, hfacts', hcounted, hcounted', hcreators, hnext, bind, Except.bind,
      Bool.not_true, Bool.false_eq_true, if_false]
    exact hfollow
  · have hnone : l'.creatorsOf container = [] := by
      rw [creatorsOf, ht.linked.entries_eq, List.map_eq_nil_iff, List.filter_eq_nil_iff]
      rintro ⟨c, j⟩ hx
      simp only [decide_eq_true_eq]
      intro hj
      exact hdef ⟨c, j, (hp.mem_code_of_kept hx (by rintro op q rfl; cases hj)).1, hj⟩
    simp [auditLoad, hfacts, hfacts', hcounted, hcounted', hnone, bind, Except.bind, pure, Except.pure]

end

theorem firstFinding_eq {α : Type} {check : α → Except Fault Verdict} : ∀ {xs : List α},
    (∀ x ∈ xs, check x = .ok none) → firstFinding check xs = .ok none
  | [], _ => rfl
  | x :: xs, h => by
    rw [firstFinding, h x (by simp)]
    exact firstFinding_eq fun y hy => h y (by simp [hy])

/-- **The checkers accept** code that has been thinned. -/
theorem Thinned.audit_eq (hr : Ready l code) (hp : Placed l code block)
    (ht : Thinned l code block l' keep) : l'.audit = .ok none := by
  have hregs : firstFinding l'.auditReg (((List.range l'.regs.size).map Reg.mk).filter
      fun r => !(l'.creatorsOf r).isEmpty) = .ok none := by
    refine firstFinding_eq fun r hmem => ?_
    obtain ⟨hmem, hdef⟩ := List.mem_filter.mp hmem
    obtain ⟨k, hk, rfl⟩ := List.mem_map.mp hmem
    rw [List.mem_range, ht.regs] at hk
    exact ht.auditReg_eq hr hp (Array.getElem?_eq_getElem hk) (by simpa using hdef)
  have hloads : firstFinding (fun p => l'.auditLoad p.1 p.2)
      (l'.entries.filterMap fun p => borrowed? p.2) = .ok none := by
    refine firstFinding_eq fun p hmem => ?_
    obtain ⟨⟨a, i⟩, hx, hi⟩ := List.mem_filterMap.mp hmem
    rw [ht.linked.entries_eq] at hx
    exact ht.auditLoad_eq hr hp hx hi
  simp only [audit, hregs, bind, Except.bind]
  exact hloads

end CountedMachine.Listing
