import CountedMachine.Proofs.Ownership.Registers

/-! # Borrowed loads are covered

The check of a load follows the value and its container side by side, each along the flow of its own
register. A value owns nothing only between the load and the instruction that acquires or drops it,
right after the load; the container is read by the load, so that it still owns its reference there,
and in the block after the load it is released last (`Ready.flow_load`). -/

namespace CountedMachine

namespace Holding

variable {st st' : Holding} {r : Reg} {a : NodeId} {i : Instr NodeId}

/-- Where a check has no objection it does what is done without checking. -/
theorem advance_eq (h : st.observe r a i = .ok st') : st.advance r i = st' := by
  have hread : (if i.reads r then if st.dead then .error (.touchedDead r a) else st.read r a i
      else .ok st) = Except.ok st' → (if i.consumes r then ⟨st.count - 1, true⟩ else st) = st' := by
    intro h
    by_cases hc : i.consumes r = true
    · simp only [Listing.reads_of_consumes hc, if_true, read, hc] at h ⊢
      split_ifs at h
      exact Except.ok.inj h
    · simp only [read, hc, if_false, Bool.false_eq_true] at h ⊢
      split_ifs at h
      · exact Except.ok.inj h
      · exact Except.ok.inj h
  cases i
  case adjust op q =>
    simp only [observe, advance] at h ⊢
    by_cases hq : q = r
    · simp only [hq, if_true] at h ⊢
      split_ifs at h
      cases op <;> simp only [adjust] at h
      · exact Except.ok.inj h
      · split_ifs at h
        exact Except.ok.inj h
      · split_ifs at h with hcount
        rw [← Except.ok.inj h]
        simp [not_not.mp hcount]
      · split_ifs at h with hcount
        have hdead : (st.count - 1 = 0) = (st.count = 1) := by
          rw [eq_iff_iff]
          omega
        rw [← Except.ok.inj h]
        simp only [hdead]
    · simp only [hq, if_false] at h ⊢
      exact Except.ok.inj h
  all_goals exact hread h

end Holding

namespace Listing

variable {l : Listing} {code : Code} {block : NodeId → Code} {load container : Reg}
  {f g : RegFacts} {a loaded loadFirst created first : NodeId} {i : Instr NodeId}

theorem endsOnly_observeLoad (load container : Reg) : EndsOnly (observeLoad load container) :=
  fun _ => rfl

/-! ## Blocks -/

/-- The states of container and value after a block. -/
def afterOpsBoth (load container : Reg) (b : Borrow) (blk : Code) : Borrow :=
  ⟨afterOps container b.outer blk, b.inner.map (afterOps load · blk)⟩

/-- A value that owns nothing is not touched in the block after its container has gone. -/
def Covered (load container : Reg) (outer st : Holding) (blk : Code) : Prop :=
  ∀ {pre x op post}, blk = pre ++ (x, Instr.adjust op load) :: post → (afterOps load st pre).count = 0 →
    (afterOps container outer pre).dead = false

/-- **A block is run** for a borrowed load. -/
theorem runBlock_observeLoad {b : Borrow} {blk : Code}
    (hadj : ∀ {x i}, (x, i) ∈ blk → ∃ op q, i = .adjust op q)
    (houter : Allowed container b.outer blk)
    (hinner : ∀ st, b.inner = some st → Allowed load st blk ∧ Covered load container b.outer st blk) :
    runBlock (observeLoad load container) blk b = .ok (afterOpsBoth load container b blk) := by
  have hstart : b = afterOpsBoth load container b [] := by
    obtain ⟨outer, _ | inner⟩ := b <;> rfl
  nth_rewrite 1 [hstart]
  refine runBlock_eq (afterOpsBoth load container b) (fun {pre x i post} e => ?_)
    (List.nil_append blk).symm
  obtain ⟨op, q, rfl⟩ := hadj (x := x) (i := i) (by simp [e])
  have h₁ := Holding.advance_eq (e ▸ houter).observe
  obtain ⟨outer, _ | inner⟩ := b
  · simp only [afterOpsBoth, observeLoad, Option.map_none, Instr.creates, h₁]
    rfl
  · obtain ⟨hall, hcov⟩ := hinner inner rfl
    have h₂ := Holding.advance_eq (e ▸ hall).observe
    simp only [afterOpsBoth, observeLoad, Option.map_some, h₁, h₂]
    refine if_neg fun h => ?_
    simp only [Bool.and_eq_true, decide_eq_true_eq] at h
    obtain ⟨⟨hcount, hdead⟩, htouch⟩ := h
    have hq : q = load := by simpa [touches, Instr.reads, Instr.inputs, Instr.adjusts] using htouch
    subst hq
    rw [hcov e hcount] at hdead
    cases hdead

/-! ## The flow of a borrowed load -/

/-- The states in which container and value reach a node. -/
def ArrivesBoth (code : Code) (load container : Reg) (loadFirst first a : NodeId) (b : Borrow) :
    Prop :=
  Arrives code container first a b.outer ∧
    (b.inner = none ∨ load ≠ container ∧ ∃ st, b.inner = some st ∧ Arrives code load loadFirst a st)

/-- The states in which container and value leave a node. -/
def LeavesBoth (code : Code) (load container : Reg) (g f : RegFacts)
    (loaded loadFirst created first a : NodeId) (b : Borrow) : Prop :=
  Leaves code container f created first a b.outer ∧
    (b.inner = none ∨ load ≠ container ∧
      ∃ st, b.inner = some st ∧ Leaves code load g loaded loadFirst a st)

theorem opsOn_of_opsOn {r : Reg} {pre post : Code} {x : NodeId} {op op' : CountOp}
    (h : opsOn r (pre ++ (x, Instr.adjust op r) :: post) = [op']) : opsOn r pre = [] ∧ op = op' := by
  rw [opsOn_append] at h
  have hops : opsOn r ((x, Instr.adjust op r) :: post) = op :: opsOn r post := by simp [opsOn, opOn]
  rw [hops] at h
  rcases hpre : opsOn r pre with _ | ⟨y, ys⟩
  · rw [hpre] at h
    exact ⟨rfl, (List.cons.inj h).1⟩
  · rw [hpre] at h
    simp at h

section
variable (hr : Ready l code) (hp : Placed l code block) (hload : Born l code load g loaded loadFirst)
  (hcont : Born l code container f created first) (hown : g.bornOwned = false)
  (hborrow : ∃ i, (loaded, i) ∈ code ∧ i.creates = some load ∧ i.reads container = true)
include hr hp hload hcont hown hborrow

/-- **The value is covered** in every block. -/
theorem Ready.covered (hne : load ≠ container) {outer st : Holding}
    (houter : Leaves code container f created first a outer)
    (hst : Leaves code load g loaded loadFirst a st) : Covered load container outer st (block a) := by
  intro pre x op post hblk hcount
  have ho := hr.orderly
  obtain ⟨c, hc, hcr⟩ := hload.instr
  have hpl := hp.placedFor hload.facts hload.counted hc hcr hload.next
  obtain ⟨hall, -⟩ := hload.leaves ho hpl hst
  -- the operation is the only one on the value
  obtain ⟨op', hops, hdead, -⟩ : ∃ op', opsOn load (block a) = [op'] ∧ st.dead = false ∧
      st.Fits op' := by
    rcases hall with e | h
    · rw [hblk, opsOn_append] at e
      simp [opsOn, opOn] at e
    · exact h
  obtain ⟨hpre, rfl⟩ := opsOn_of_opsOn (hblk ▸ hops)
  rw [afterOps, hpre, List.foldl_nil] at hcount
  -- a value that owns nothing has just been loaded
  have ha : a = loaded := by
    obtain ⟨-, ⟨e, -⟩ | ⟨-, ⟨-, rfl⟩ | ⟨-, rfl⟩⟩⟩ := hst
    · exact e
    · cases hcount
    · cases hdead
  subst ha
  have hop : op ≠ .unref ∧ op ≠ .dec := by
    by_cases hL : Live code load loadFirst
    · rw [hpl.acquire hL hown] at hops
      cases hops
      exact ⟨by decide, by decide⟩
    · rw [hpl.discard hL, hown] at hops
      cases hops
      exact ⟨by decide, by decide⟩
  have hearly : ∀ {y q'}, (y, .adjust .unref q') ∉ pre := hp.early hblk hop.1 hop.2
  -- the load reads the container, which is therefore still to be released
  obtain ⟨j, hj, hjl, hjc⟩ := hborrow
  obtain ⟨d, hd, hdc⟩ := hcont.instr
  have hacreated : a ≠ created := by
    rintro rfl
    rw [instr_unique ho.nodup hd hj, hjl] at hdc
    exact hne (Option.some.inj hdc)
  obtain ⟨hreach, hcase⟩ := houter.2.resolve_left fun h => hacreated h.1
  obtain ⟨-, rfl⟩ := hcase.resolve_right fun h => h.1 (Or.inl (.read hj hjc))
  have hnone : opsOn container pre = [] := by
    rw [opsOn, List.filterMap_eq_nil_iff]
    rintro ⟨y, k⟩ hy
    obtain ⟨op₂, q, -, rfl, -⟩ := hp.adjusts (a := a) (x := y) (i := k) (by simp [hblk, hy])
    rw [opOn, if_neg]
    rintro rfl
    have hmem : op₂ ∈ opsOn q (block a) := by
      refine List.mem_filterMap.mpr ⟨(y, .adjust op₂ q), by simp [hblk, hy], by simp [opOn]⟩
    have hpc := hp.placedFor hcont.facts hcont.counted hd hdc hcont.next
    have hunref : op₂ = .unref := by
      by_cases hrel : Live code q first ∧ Released code q first a
      · rw [hpc.release hacreated hrel.1 hrel.2] at hmem
        exact List.mem_singleton.mp hmem
      · rw [hpc.none hacreated hrel] at hmem
        simp at hmem
    exact hearly (hunref ▸ hy)
  rw [afterOps, hnone]
  rfl

/-- **The flow of a borrowed load.** -/
theorem Ready.flow_load : Flow code block (observeLoad load container)
    (ArrivesBoth code load container loadFirst first)
    (LeavesBoth code load container g f loaded loadFirst created first) where
  node {a b} hA := by
    have ho := hr.orderly
    obtain ⟨outer, inner⟩ := b
    obtain ⟨houter, hinner⟩ := hA
    obtain ⟨i, hi⟩ := exists_instr (hcont.mem ho houter.1)
    obtain ⟨outer', hobs, -, hlab, hfalls⟩ := hr.arrives hcont houter hi
    have hadv := Holding.advance_eq hobs
    rcases hinner with e | ⟨hne, st, e, hst⟩
    · cases e
      by_cases hcr : i.creates = some load
      · -- the value is loaded
        obtain ⟨c, hc, hc'⟩ := hload.instr
        obtain rfl : a = loaded := hr.single hload.facts hload.counted hi hcr hc hc'
        have hfall := falls_of_creates hcr
        have hne : load ≠ container := by
          rintro rfl
          obtain ⟨d, hd, hd'⟩ := hcont.instr
          have := hr.single hcont.facts hcont.counted hi hcr hd hd'
          exact hcont.not_reach ho (this ▸ houter.1)
        refine ⟨i, hi, ⟨outer', some ⟨0, false⟩⟩, fun next _ => ?_, fun b hl => ?_, fun _ => ?_⟩
        · simp [observeLoad, hadv, hcr]
        · cases i <;> first | (cases hl; done) | cases hcr
        · refine ⟨⟨⟨i, hi, hfall⟩, Or.inr (hfalls hfall ▸ houter)⟩, Or.inr ⟨hne, _, rfl, ?_⟩⟩
          exact ⟨⟨i, hi, hfall⟩, Or.inl ⟨rfl, by simp [Holding.start, hown]⟩⟩
      · refine ⟨i, hi, ⟨outer', none⟩, fun next _ => ?_, fun b hl => ⟨hlab b hl, Or.inl rfl⟩,
          fun hf => ⟨⟨⟨i, hi, hf⟩, Or.inr (hfalls hf ▸ houter)⟩, Or.inl rfl⟩⟩
        simp [observeLoad, hadv, hcr]
    · cases e
      obtain ⟨st', hobs', -, hlab', hfalls'⟩ := hr.arrives hload hst hi
      have hadv' := Holding.advance_eq hobs'
      refine ⟨i, hi, ⟨outer', some st'⟩, fun next _ => ?_,
        fun b hl => ⟨hlab b hl, Or.inr ⟨hne, st', rfl, hlab' b hl⟩⟩, fun hf => ?_⟩
      · simp only [observeLoad, hadv, hadv']
        refine if_neg fun h => ?_
        simp only [Bool.and_eq_true, decide_eq_true_eq] at h
        obtain ⟨⟨hcount, -⟩, htouch⟩ := h
        have hread : i.reads load = true := by
          rw [touches, Bool.or_eq_true] at htouch
          refine htouch.resolve_right fun h => ?_
          cases i
          case adjust op q => exact hr.unadjusted hi
          all_goals cases h
        obtain ⟨-, rfl⟩ := hst.2.resolve_right fun h => h.1 (Or.inl (.read hi hread))
        cases hcount
      · exact ⟨⟨⟨i, hi, hf⟩, Or.inr (hfalls hf ▸ houter)⟩,
          Or.inr ⟨hne, st', rfl, ⟨i, hi, hf⟩, Or.inr (hfalls' hf ▸ hst)⟩⟩
  block {a b} hD := by
    have ho := hr.orderly
    obtain ⟨outer, inner⟩ := b
    obtain ⟨houter, hinner⟩ := hD
    obtain ⟨c, hc, hcr⟩ := hcont.instr
    obtain ⟨d, hd, hdr⟩ := hload.instr
    obtain ⟨hall, hafter⟩ := hcont.leaves ho
      (hp.placedFor hcont.facts hcont.counted hc hcr hcont.next) houter
    have hin : ∀ st, inner = some st → load ≠ container ∧ Leaves code load g loaded loadFirst a st := by
      rintro st rfl
      rcases hinner with e | ⟨hne, st', e, hst⟩
      · cases e
      · exact ⟨hne, Option.some.inj e ▸ hst⟩
    have hboth : ∀ st, inner = some st → Allowed load st (block a) ∧ ∀ n, Next code a n →
        Arrives code load loadFirst n (afterOps load st (block a)) := fun st e =>
      hload.leaves ho (hp.placedFor hload.facts hload.counted hd hdr hload.next) (hin st e).2
    obtain ⟨i, hi, hf⟩ := houter.1
    refine ⟨i, hi, hf, _, runBlock_observeLoad (fun hx => ?_) hall fun st e => ⟨(hboth st e).1, ?_⟩,
      fun n hn => ⟨hafter n hn, ?_⟩⟩
    · obtain ⟨op, q, k, e, -⟩ := hp.adjusts hx
      exact ⟨op, q, e⟩
    · exact hr.covered hp hload hcont hown hborrow (hin st e).1 houter (hin st e).2
    · rcases inner with _ | st
      · exact Or.inl rfl
      · exact Or.inr ⟨(hin st rfl).1, _, rfl, (hboth st rfl).2 n hn⟩

end

end Listing

end CountedMachine
