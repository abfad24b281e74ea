import CountedMachine.Proofs.Generation.Layout

/-! # Finished code is vetted

What a unit comes to is its code with ownership instructions woven in, thinned out and laid out. The
environments in which its places are reached come from the body (`reached_layout`), the counts of its
registers from the flows that the checkers follow (`Thinned.walk`). So the finished code is vetted
where the body can be carried out and never comes to its end (`finishListing_vetted`). -/

namespace CountedMachine

open Listing

namespace World

variable {w : World} {code : Code} {S : NodeId → Env → Prop} {ρ ρ' : Env} {i : Instr NodeId}
  {pc pc' : Nat}

theorem Safe.relabel {L M : Type} {i : Instr L} (h : w.Safe ρ i) (f : L → M) :
    w.Safe ρ (i.relabel f) where
  noted := h.noted.mono fun _ hr => (Instr.spares_relabel i f _).mpr hr
  reads r hr := by
    obtain ⟨κ, hκ, hs⟩ := h.reads r (by simpa using hr)
    exact ⟨κ, hκ, fun e => by have := hs e; cases i <;> first | rfl | cases this⟩
  needs := by
    have := h.needs
    cases i <;> exact this
  unheld {r κ} hr hκ := by
    rw [h.unheld (by simpa using hr) hκ]
    rfl
  shields := by
    have := h.shields
    cases i <;> exact this

/-- Where control goes in finished code. -/
theorem goes_relabel {f : NodeId → Nat} (h : w.Goes ρ (i.relabel f) (some pc) ρ' pc') :
    (i.isTerminal = false ∧ pc' = pc ∧ ∀ b, w.Goes ρ i (some b) ρ' b) ∨
      ∃ b, i.label? = some b ∧ pc' = f b ∧ ∀ next, w.Goes ρ i next ρ' b := by
  cases i
  case branch cond no =>
    obtain ⟨rfl, ⟨hc, hn⟩ | ⟨hc, rfl⟩⟩ := h
    · exact Or.inl ⟨rfl, (Option.some.inj hn).symm, fun b => ⟨rfl, Or.inl ⟨hc, rfl⟩⟩⟩
    · exact Or.inr ⟨no, rfl, rfl, fun _ => ⟨rfl, Or.inr ⟨hc, rfl⟩⟩⟩
  case jump t =>
    obtain ⟨rfl, rfl⟩ := h
    exact Or.inr ⟨t, rfl, rfl, fun _ => ⟨rfl, rfl⟩⟩
  case ret => exact h.1.elim
  case tailCall => exact h.1.elim
  case done => exact h.1.elim
  all_goals exact Or.inl ⟨rfl, (Option.some.inj h.2).symm, fun b => ⟨h.1, rfl⟩⟩

/-- **The places of finished code** are reached in the environments of its nodes. -/
theorem Secure.reached (hS : w.Secure code S) (hnd : (ids code).Nodup) (hahead : Ahead code)
    (hends : Ends code) {a : NodeId} (hfirst : code[0]? = some (a, i)) (hstart : S a .start)
    (h : w.Reached (layout code) pc ρ) : ∃ a i, code[pc]? = some (a, i) ∧ S a ρ := by
  induction h with
  | start => exact ⟨a, i, hfirst, hstart⟩
  | @step pc pc' ρ ρ' k _ hk hg ih =>
    obtain ⟨a, i, ha, hρ⟩ := ih
    obtain ⟨a', i', ha', rfl⟩ := exists_of_layout hk
    obtain ⟨rfl, rfl⟩ : a' = a ∧ i' = i := by
      rw [ha] at ha'
      simpa [eq_comm] using ha'
    obtain ⟨xs, i, ys, hcode, -, hgo⟩ := hS _ _ hρ
    obtain ⟨xs', ys', hcode', rfl⟩ := split_of_getElem? ha
    obtain ⟨rfl, rfl, rfl⟩ := split_unique hnd hcode hcode'
    rcases goes_relabel hg with ⟨ht, rfl, hany⟩ | ⟨b, hb, rfl, hany⟩
    · obtain ⟨b, hb⟩ := hends.firstId hcode ht
      obtain ⟨j, hj⟩ := firstId_eq hcode hb
      exact ⟨b, j, hj, hgo ρ' b (by rw [hb]; exact hany b)⟩
    · obtain ⟨-, j, hj⟩ := hahead.label hnd hcode hb
      exact ⟨b, j, hj, hgo ρ' b (hany _)⟩

end World

namespace Listing

variable {l l' : Listing} {code : Code} {block : NodeId → Code} {keep : NodeId × Instr NodeId → Bool}
  {r : Reg} {f : RegFacts} {a b c x : NodeId} {i j : Instr NodeId} {pc : Nat} {st : Holding}
  {op : CountOp}

theorem Placed.adjust_of_block (hp : Placed l code block) (hx : (x, j) ∈ block a) :
    ∃ op q, j = .adjust op q := by
  obtain ⟨op, q, g, e, -⟩ := hp.adjusts hx
  exact ⟨op, q, e⟩

/-! ## Ownership instructions at a creation -/

/-- Control does not come back to what stands before a node. -/
theorem Ahead.mem_of_reach {xs ys : Code} (h : Ahead code) (hnd : (ids code).Nodup)
    (e : code = xs ++ (c, i) :: ys) (hb : b ∈ ids ys) (hr : Reach code b a) : a ∈ ids ys := by
  induction hr with
  | refl => exact hb
  | @tail b' b'' _ hstep ih =>
    obtain ⟨us, j, vs, e', ht⟩ := hstep
    obtain ⟨j', hj'⟩ := exists_instr ih
    obtain ⟨ys₁, ys₂, hys⟩ := List.append_of_mem hj'
    obtain ⟨-, rfl, rfl⟩ := split_unique hnd e' (by rw [e, hys]; simp : code = (xs ++ (c, i) :: ys₁) ++ (b', j') :: ys₂)
    suffices b'' ∈ ids vs by rw [hys]; simp [this]
    rcases mem_targets ht with hf | hl
    · exact firstId_mem hf rfl
    · exact h _ _ _ _ _ e' hl

/-- An instruction that acquires or drops is the first one after the creation of its register, which
does not own a reference by then. -/
theorem Placed.fresh_op (hr : Ready l code) (hp : Placed l code block) {pre post : Code}
    (hblk : block a = pre ++ (x, Instr.adjust op r) :: post) (hop : op ≠ .unref) :
    pre = [] ∧ ∃ i g, (a, i) ∈ code ∧ i.creates = some r ∧ l.regs[r.index]? = some g ∧
      g.counted = true ∧ g.bornOwned = false := by
  have hcreated : ∀ {x op r}, (x, .adjust op r) ∈ block a → op ≠ .unref →
      opsOn r (block a) = [op] ∧ ∃ i g, (a, i) ∈ code ∧ i.creates = some r ∧
        l.regs[r.index]? = some g ∧ g.counted = true ∧ g.bornOwned = false := by
    intro x op r hx hop
    obtain ⟨hone, -⟩ := hp.op_cases hr hx
    obtain ⟨_, _, g, e, hg, hcounted, c, i, hc, hcr⟩ := hp.adjusts hx
    cases e
    obtain ⟨first, hnext, -⟩ := hr.orderly.exists_next hc (by rintro rfl; cases hcr)
    have hpl := hp.placedFor hg hcounted hc hcr hnext
    have hac : a = c := by
      by_contra hne
      by_cases hrel : Live code r first ∧ Released code r first a
      · rw [hpl.release hne hrel.1 hrel.2] at hone
        exact hop (List.cons.inj hone).1.symm
      · rw [hpl.none hne hrel] at hone
        cases hone
    subst hac
    refine ⟨hone, i, g, hc, hcr, hg, hcounted, ?_⟩
    by_contra hown
    have hown : g.bornOwned = true := by simpa using hown
    by_cases hL : Live code r first
    · rw [hpl.keep hL hown] at hone
      cases hone
    · rw [hpl.discard hL, hown] at hone
      exact hop (List.cons.inj hone).1.symm
  obtain ⟨hone, i, g, hi, hcr, hrest⟩ := hcreated (x := x) (r := r) (by simp [hblk]) hop
  refine ⟨?_, i, g, hi, hcr, hrest⟩
  obtain ⟨-, hdec, -⟩ := hp.op_cases hr (x := x) (by simp [hblk] : (x, .adjust op r) ∈ block a)
  rcases pre with _ | ⟨⟨y, k⟩, pre⟩
  · rfl
  · -- what stands before it would be about the same register
    obtain ⟨op', q, rfl⟩ := hp.adjust_of_mem (i := k) (x := y) hblk (by simp)
    have hop' : op' ≠ .unref := by
      rintro rfl
      exact hp.early hblk hop hdec (List.mem_cons_self (a := (y, Instr.adjust .unref q)))
    obtain ⟨-, i', -, hi', hcr', -⟩ := hcreated (x := y) (r := q) (by simp [hblk]) hop'
    obtain rfl : q = r := by
      rw [instr_unique hr.orderly.nodup hi' hi, hcr] at hcr'
      exact (Option.some.inj hcr').symm
    rw [hblk] at hone
    simp [opsOn, opOn] at hone

/-- A register that is created without a reference is acquired or dropped right away. -/
theorem Placed.acquired (hr : Ready l code) (hp : Placed l code block) (hc : (c, i) ∈ code)
    (hcr : i.creates = some r) (hf : l.regs[r.index]? = some f) (hcounted : f.counted = true)
    (hown : f.bornOwned = false) :
    ∃ x op post, block c = (x, Instr.adjust op r) :: post ∧ (op = .inc ∨ op = .drop) := by
  obtain ⟨first, hnext, -⟩ := hr.orderly.exists_next hc (by rintro rfl; cases hcr)
  have hpl := hp.placedFor hf hcounted hc hcr hnext
  obtain ⟨op, hops, hop⟩ : ∃ op, opsOn r (block c) = [op] ∧ (op = .inc ∨ op = .drop) := by
    by_cases hL : Live code r first
    · exact ⟨_, hpl.acquire hL hown, Or.inl rfl⟩
    · exact ⟨_, hpl.discard hL, Or.inr (by simp [hown])⟩
  have hmem : op ∈ opsOn r (block c) := by simp [hops]
  obtain ⟨⟨x, k⟩, hx, hk⟩ := List.mem_filterMap.mp hmem
  obtain ⟨op', q, g, rfl, -⟩ := hp.adjusts hx
  obtain ⟨rfl, rfl⟩ : q = r ∧ op' = op := by
    by_cases e : q = r
    · exact ⟨e, by simpa [opOn, e] using hk⟩
    · simp [opOn, e] at hk
  obtain ⟨pre, post, hblk⟩ := List.append_of_mem hx
  obtain ⟨rfl, -⟩ := hp.fresh_op hr hblk (by rintro rfl; simp at hop)
  exact ⟨x, op', post, hblk, hop⟩

/-! ## Thinned code -/

section
variable (hr : Ready l code) (hp : Placed l code block) (ht : Thinned l code block l' keep)
include hr hp ht

theorem Thinned.thins : World.Thins (weave code block) keep where
  about := ht.about
  unread {a i r} ha hin := by
    rintro ⟨b, j, hb, hk, hload⟩
    have ha' : (a, i) ∈ code := hp.mem_code ha (by rintro op q rfl; simp [Instr.inputs] at hin)
    have := ht.unread hb hk hload ha'
    simp [Instr.reads, hin] at this
  labels {a i b} ha hl := by
    have ha' : (a, i) ∈ code := hp.mem_code ha (by rintro op q rfl; cases hl)
    obtain ⟨j, hj, hlab⟩ := hr.orderly.labels ha' hl
    have hj' : (b, j) ∈ weave code block := mem_weave.mpr (Or.inl hj)
    refine ⟨j, hj', ?_⟩
    by_contra hk
    obtain ⟨q, hq⟩ := ht.about hj' (by simpa using hk)
    rw [loadOrAdjust_of_label hlab] at hq
    cases hq

omit hp in
theorem Thinned.last : Ends ((weave code block).filter keep) := by
  rcases List.eq_nil_or_concat ((weave code block).filter keep) with h | ⟨xs, ⟨a, i⟩, h⟩
  · have hlast := ht.linked.last
    rw [h] at hlast
    cases hlast
  · rw [List.concat_eq_append] at h
    have hlast := ht.linked.last
    rw [h] at hlast
    obtain rfl : a = tail := by simpa [lastId_append, lastId] using hlast
    obtain ⟨ys, hcode⟩ := hr.orderly.ends
    obtain ⟨l₁, hl₁⟩ := ht.woven
    have hmem : (tail, i) ∈ weave code block :=
      (List.mem_filter.mp (show (tail, i) ∈ (weave code block).filter keep by simp [h])).1
    have hdone : (tail, Instr.done) ∈ weave code block := mem_weave.mpr (Or.inl (by simp [hcode]))
    exact ⟨xs, by rw [h, instr_unique hl₁.nodup hmem hdone]⟩

theorem Thinned.ahead (hahead : Ahead code) : Ahead ((weave code block).filter keep) := by
  obtain ⟨l₁, hl₁⟩ := ht.woven
  exact (hahead.weave hl₁.nodup hp.adjust_of_block).filter hl₁.nodup (ht.thins hr hp).labels

omit hr ht in
/-- The creation of a register that is left. -/
theorem Placed.of_creates (ha : ((weave code block).filter keep)[pc]? = some (a, i))
    (hcr : i.creates = some r) : (a, i) ∈ code ∧ keep (a, i) = true :=
  hp.mem_code_of_kept (List.mem_of_getElem? ha) (by rintro op q rfl; cases hcr)

/-- **The counts of a register** are those that its check follows. -/
theorem Thinned.walk (hf : l.regs[r.index]? = some f) (hcounted : f.counted = true)
    (hahead : Ahead code) (hc : (c, i) ∈ code) (hcr : i.creates = some r)
    (hk : keep (c, i) = true) (hown : i.createsOwner = f.bornOwned) :
    ∃ G, Quiet ((weave code block).filter keep) (observeReg r) G ∧
      ∀ {pc st}, Walk (layout ((weave code block).filter keep)) r pc st →
        ∃ a i, ((weave code block).filter keep)[pc]? = some (a, i) ∧ G a st := by
  obtain ⟨l₁, hl₁⟩ := ht.woven
  obtain ⟨-, hu, first, hb⟩ := ht.born hr hp hf hcounted hc hcr hk
  have hin := ht.inert_reg hr hp hu
  have hflow := hr.flow hp hb
  have hq : Quiet (weave code block) (observeReg r) (Inside block (observeReg r)
      (Arrives code r first) (Leaves code r f c first)) :=
    hflow.quiet hr.orderly (endsOnly_observeReg r) fun hx => by
      obtain ⟨op, q, rfl⟩ := hp.adjust_of_block hx
      exact ⟨⟨rfl, by simp⟩, rfl⟩
  set G : NodeId → Holding → Prop := fun a st => Inside block (observeReg r) (Arrives code r first)
    (Leaves code r f c first) a st ∧ ∃ i, (a, i) ∈ weave code block ∧ keep (a, i) = true with hG
  have hq' : Quiet ((weave code block).filter keep) (observeReg r) G :=
    hq.filter hl₁.nodup hin (endsOnly_observeReg r)
  have hnd := ht.linked.nodup
  have hahead' := ht.ahead hr hp hahead
  have hends := ht.last hr
  refine ⟨G, hq', fun {pc st} hwalk => ?_⟩
  induction hwalk with
  | @born pc pc' k hk' hkr hexit =>
    obtain ⟨a, j, ha, rfl⟩ := exists_of_layout hk'
    rw [Instr.creates_relabel] at hkr
    obtain ⟨ha', -⟩ := hp.of_creates ha hkr
    obtain rfl := hr.single hf hcounted ha' hkr hc hcr
    obtain rfl := instr_unique hr.orderly.nodup ha' hc
    obtain ⟨xs, ys, e, rfl⟩ := split_of_getElem? ha
    obtain ⟨-, b, j', hb', hj'⟩ := hahead'.exits hnd hends e hexit
    refine ⟨b, j', hj', ?_⟩
    have hstart : (⟨if (j.relabel (ids ((weave code block).filter keep)).idxOf).createsOwner then 1
        else 0, false⟩ : Holding) = Holding.start f := by
      have : (j.relabel (ids ((weave code block).filter keep)).idxOf).createsOwner = f.bornOwned := by
        rw [← hown]
        cases j <;> rfl
      rw [this]
      rfl
    rw [hstart]
    obtain ⟨us, vs, hcode⟩ := List.append_of_mem hc
    have hw : weave code block = (weave us block ++ [(a, j)]) ++ (block a ++ weave vs block) := by
      rw [hcode, weave_append, weave_cons]
      simp
    have e' : (weave code block).filter keep = (weave us block).filter keep ++ (a, j) ::
        (block a ++ weave vs block).filter keep := by
      rw [hw]
      simp [hk]
    obtain ⟨-, -, rfl⟩ := split_unique hnd e e'
    have hfalls := falls_of_creates hcr
    rcases mem_targets_iff.mp hb' with ⟨-, hb'⟩ | hl
    · exact hq.skip hl₁.nodup hin hw (fun d hd =>
        hflow.leave ⟨⟨j, hc, hfalls⟩, Or.inl ⟨rfl, rfl⟩⟩ hcode hd) hb'
    · rw [label?_of_creates hcr] at hl
      cases hl
  | @step pc pc' k st _ hk' hexit ih =>
    obtain ⟨a, j, ha, hst⟩ := ih
    obtain ⟨a', j', ha', rfl⟩ := exists_of_layout hk'
    obtain ⟨rfl, rfl⟩ : a' = a ∧ j' = j := by
      rw [ha] at ha'
      simpa [eq_comm] using ha'
    obtain ⟨xs, ys, e, rfl⟩ := split_of_getElem? ha
    obtain ⟨-, b, k, hb', hk⟩ := hahead'.exits hnd hends e hexit
    obtain ⟨xs', j, ys', e', st', hobs, hgo⟩ := hq' hst
    obtain ⟨rfl, rfl, rfl⟩ := split_unique hnd e e'
    obtain ⟨hobs, -⟩ := observe_of_observeReg hobs
    refine ⟨b, k, hk, ?_⟩
    rw [Instr.placed, relabel_relabel, Holding.advance_eq (observe_relabel hobs _ tail)]
    exact hgo b hb'

end

end Listing

theorem Walk.created {code : Array (Instr Nat)} {r : Reg} {pc : Nat} {st : Holding}
    (h : Walk code r pc st) : ∃ (pc : Nat) (i : Instr Nat), code[pc]? = some i ∧ i.creates = some r := by
  induction h with
  | born hi hcr _ => exact ⟨_, _, hi, hcr⟩
  | step _ _ _ ih => exact ih

namespace Listing

variable {l l' : Listing} {code : Code} {block : NodeId → Code} {keep : NodeId × Instr NodeId → Bool}
  {w : World} {r : Reg} {f : RegFacts} {a b c x : NodeId} {i j : Instr NodeId} {k k' : Instr Nat}
  {pc pc' : Nat} {st : Holding} {op : CountOp}

/-- A register of the code whose ownership is managed. -/
theorem Ready.counted (hr : Ready l code) (hfacts : w.facts = l.regs) (ha : (a, i) ∈ code)
    (hcr : i.creates = some r) (hu : ¬ w.Uncounted r) :
    ∃ f, l.regs[r.index]? = some f ∧ f.counted = true := by
  obtain ⟨f, hf⟩ := hr.known ha (Or.inl hcr)
  refine ⟨f, hf, ?_⟩
  by_contra hc
  exact hu ⟨f, hfacts ▸ hf, by simpa using hc⟩

/-- The instructions of the code say which registers own a reference from the start. -/
def OwnersTold (l : Listing) (code : Code) : Prop :=
  ∀ a i r f, (a, i) ∈ code → i.creates = some r → l.regs[r.index]? = some f →
    i.createsOwner = f.bornOwned

theorem Writes.ownersTold {ys : Code} (hw : Writes #[] l.regs ys) (hr : Ready l (unitCode ys)) :
    OwnersTold l (unitCode ys) := by
  intro a i r f ha hcr hf
  have ha' : (a, i) ∈ ys := by
    simp only [unitCode, List.cons_append, List.mem_cons, List.mem_append, List.not_mem_nil, or_false,
      Prod.mk.injEq] at ha
    rcases ha with ⟨-, rfl⟩ | ha | ⟨-, rfl⟩
    · cases hcr
    · exact ha
    · cases hcr
  rw [Bool.eq_iff_iff]
  constructor
  · intro ho
    have := (hw.good _ ha').owner hcr ho
    rw [roleOf, hf] at this
    simpa [RegFacts.bornOwned] using this
  · intro ho
    rcases hr.merged hf ho ha hcr with rfl | rfl
    · rfl
    · rfl

theorem createsOwner_relabel {L M : Type} (f : L → M) (i : Instr L) :
    (i.relabel f).createsOwner = i.createsOwner := by
  cases i <;> rfl

section
variable (hr : Ready l code) (hp : Placed l code block) (ht : Thinned l code block l' keep)
include hr hp ht

omit hr in
/-- A creation in the finished code. -/
theorem Thinned.creation (hk : (layout ((weave code block).filter keep))[pc]? = some k)
    (hkr : k.creates = some r) : ∃ a i xs ys, code = xs ++ (a, i) :: ys ∧ keep (a, i) = true ∧
      i.creates = some r ∧ k.createsOwner = i.createsOwner ∧
      ((weave xs block).filter keep).length = pc ∧ (weave code block).filter keep =
        (weave xs block).filter keep ++ (a, i) :: (block a ++ weave ys block).filter keep := by
  obtain ⟨a, i, ha, rfl⟩ := exists_of_layout hk
  rw [Instr.creates_relabel] at hkr
  obtain ⟨ha', hk'⟩ := hp.of_creates ha hkr
  obtain ⟨xs, ys, hcode⟩ := List.append_of_mem ha'
  have e : (weave code block).filter keep =
      (weave xs block).filter keep ++ (a, i) :: (block a ++ weave ys block).filter keep := by
    rw [hcode, weave_append, weave_cons, List.filter_append, List.filter_cons_of_pos hk']
  obtain ⟨us, vs, e', rfl⟩ := split_of_getElem? ha
  obtain ⟨rfl, -, -⟩ := split_unique ht.linked.nodup e e'
  exact ⟨a, i, xs, ys, hcode, hk', hkr, createsOwner_relabel _ i, rfl, e⟩

theorem Thinned.single (hfacts : w.facts = l.regs) (hu : ¬ w.Uncounted r)
    (hk : (layout ((weave code block).filter keep))[pc]? = some k) (hkr : k.creates = some r)
    (hk' : (layout ((weave code block).filter keep))[pc']? = some k') (hkr' : k'.creates = some r) :
    pc = pc' := by
  obtain ⟨a, i, xs, ys, e, -, hi, -, rfl, -⟩ := ht.creation hp hk hkr
  obtain ⟨b, j, xs', ys', e', -, hj, -, rfl, -⟩ := ht.creation hp hk' hkr'
  have ha : (a, i) ∈ code := by simp [e]
  obtain ⟨f, hf, hc⟩ := hr.counted hfacts ha hi hu
  obtain rfl := hr.single hf hc ha hi (by simp [e'] : (b, j) ∈ code) hj
  rw [(split_unique hr.orderly.nodup e e').1]

theorem Thinned.balanced (hahead : Ahead code) (hown : OwnersTold l code) (hfacts : w.facts = l.regs)
    (hu : ¬ w.Uncounted r) (hwalk : Walk (layout ((weave code block).filter keep)) r pc st)
    (hk : (layout ((weave code block).filter keep))[pc]? = some k) :
    ∃ st', st.observe r ⟨pc⟩ k.placed = .ok st' ∧ (k.isTerminal = true → st' = ⟨0, true⟩) := by
  obtain ⟨pc₀, k₀, hk₀, hkr⟩ := hwalk.created
  obtain ⟨c, i, xs, ys, e, hkeep, hcr, -, -, -⟩ := ht.creation hp hk₀ hkr
  have hc : (c, i) ∈ code := by simp [e]
  obtain ⟨f, hf, hcounted⟩ := hr.counted hfacts hc hcr hu
  obtain ⟨G, hq, hG⟩ := ht.walk hr hp hf hcounted hahead hc hcr hkeep (hown c i r f hc hcr hf)
  obtain ⟨a, j, ha, hst⟩ := hG hwalk
  obtain ⟨a', j', ha', rfl⟩ := exists_of_layout hk
  obtain ⟨rfl, rfl⟩ : a' = a ∧ j' = j := by
    rw [ha] at ha'
    simpa [eq_comm] using ha'
  obtain ⟨us, j, vs, e', st', hobs, -⟩ := hq hst
  obtain rfl := instr_unique (j := j) ht.linked.nodup (List.mem_of_getElem? ha) (by rw [e']; simp)
  obtain ⟨hobs, hend⟩ := observe_of_observeReg hobs
  refine ⟨st', ?_, fun hterm => hend ?_⟩
  · rw [Instr.placed, relabel_relabel]
    exact observe_relabel hobs _ _
  · rw [Instr.isTerminal_relabel] at hterm
    cases j' <;> first | rfl | cases hterm

theorem Thinned.acquired (hown : OwnersTold l code) (hfacts : w.facts = l.regs)
    (hu : ¬ w.Uncounted r) (hk : (layout ((weave code block).filter keep))[pc]? = some k)
    (hkr : k.creates = some r) (howner : k.createsOwner = false) :
    (layout ((weave code block).filter keep))[pc + 1]? = some (.adjust .inc r) ∨
      (layout ((weave code block).filter keep))[pc + 1]? = some (.adjust .drop r) := by
  obtain ⟨c, i, xs, ys, e, hkeep, hcr, ho, rfl, e'⟩ := ht.creation hp hk hkr
  have hc : (c, i) ∈ code := by simp [e]
  obtain ⟨f, hf, hcounted⟩ := hr.counted hfacts hc hcr hu
  have hborn : f.bornOwned = false := by rw [← hown c i r f hc hcr hf, ← ho, howner]
  obtain ⟨x, op, post, hblk, hop⟩ := hp.acquired hr hc hcr hf hcounted hborn
  obtain ⟨-, hunt, -⟩ := ht.born hr hp hf hcounted hc hcr hkeep
  have hx : (x, .adjust op r) ∈ weave code block :=
    mem_weave.mpr (Or.inr ⟨c, mem_ids hc, by simp [hblk]⟩)
  have hkx : keep (x, .adjust op r) = true := by
    by_contra h
    exact hunt hx (by simpa using h) rfl
  have hnext : ((weave code block).filter keep)[((weave xs block).filter keep).length + 1]? =
      some (x, .adjust op r) := by
    rw [e', hblk, List.cons_append, List.filter_cons_of_pos hkx, List.getElem?_append_right (by omega)]
    simp
  rw [getElem?_layout, hnext]
  rcases hop with rfl | rfl
  · exact Or.inl rfl
  · exact Or.inr rfl

/-- An ownership instruction stands after the creation of its register. -/
theorem Thinned.created (hahead : Ahead code)
    (hpair : ∀ {x op q b j}, (x, .adjust op q) ∈ weave code block → keep (x, .adjust op q) = true →
      (b, j) ∈ code → j.creates = some q → keep (b, j) = true)
    (hk : (layout ((weave code block).filter keep))[pc]? = some (.adjust op r)) :
    ∃ (pc' : Nat) (k : Instr Nat), pc' < pc ∧
      (layout ((weave code block).filter keep))[pc']? = some k ∧ k.creates = some r := by
  obtain ⟨x, i, hx, e⟩ := exists_of_layout hk
  obtain rfl : i = .adjust op r := by
    cases i <;> first | (injection e with h₁ h₂; rw [h₁, h₂]) | cases e
  obtain ⟨hxw, hkx⟩ := List.mem_filter.mp (List.mem_of_getElem? hx)
  obtain ⟨a, ha, hxa⟩ := (mem_weave.mp hxw).resolve_left hr.unadjusted
  obtain ⟨_, _, g, e', hg, hcounted, c, i, hc, hcr⟩ := hp.adjusts hxa
  cases e'
  obtain ⟨first, hnext, -⟩ := hr.orderly.exists_next hc (by rintro rfl; cases hcr)
  have hpl := hp.placedFor hg hcounted hc hcr hnext
  obtain ⟨xs, ys, hcode⟩ := List.append_of_mem hc
  have hfirst : first ∈ ids ys :=
    firstId_mem ((next_iff (hcode ▸ hr.orderly.nodup)).mp (hcode ▸ hnext)) rfl
  -- the block it stands in comes after the creation
  have hmem : (x, Instr.adjust op r) ∈ (block c ++ weave ys block).filter keep := by
    refine List.mem_filter.mpr ⟨?_, hkx⟩
    by_cases hac : a = c
    · exact List.mem_append_left _ (hac ▸ hxa)
    · refine List.mem_append_right _ (mem_weave.mpr (Or.inr ⟨a, ?_, hxa⟩))
      by_cases hrel : Live code r first ∧ Released code r first a
      · exact hahead.mem_of_reach hr.orderly.nodup hcode hfirst (hrel.2.reach hr.orderly)
      · have hone := (hp.op_cases hr hxa).1
        rw [hpl.none hac hrel] at hone
        cases hone
  obtain ⟨us, vs, hsplit⟩ := List.append_of_mem hmem
  have e₁ : (weave code block).filter keep =
      (weave xs block).filter keep ++ (c, i) :: (block c ++ weave ys block).filter keep := by
    rw [hcode, weave_append, weave_cons, List.filter_append,
      List.filter_cons_of_pos (hpair hxw hkx hc hcr)]
  have e₂ : (weave code block).filter keep =
      ((weave xs block).filter keep ++ (c, i) :: us) ++ (x, Instr.adjust op r) :: vs := by
    rw [e₁, hsplit]
    simp
  obtain ⟨us', vs', e₃, rfl⟩ := split_of_getElem? hx
  obtain ⟨rfl, -, -⟩ := split_unique ht.linked.nodup e₂ e₃
  have hget : ((weave code block).filter keep)[((weave xs block).filter keep).length]? =
      some (c, i) := by
    rw [e₁]
    simp
  exact ⟨((weave xs block).filter keep).length, i.relabel _, by simp,
    by rw [getElem?_layout, hget]; rfl, by rw [Instr.creates_relabel, hcr]⟩

theorem Thinned.adjusts (hown : OwnersTold l code) (hfacts : w.facts = l.regs)
    (hpair : ∀ {x op q b j}, (x, .adjust op q) ∈ weave code block → keep (x, .adjust op q) = true →
      (b, j) ∈ code → j.creates = some q → keep (b, j) = true)
    (hk : (layout ((weave code block).filter keep))[pc]? = some (.adjust op r)) :
    ¬ w.Uncounted r ∧ (op = .unref ∨ ∃ (pc' : Nat) (k : Instr Nat), pc = pc' + 1 ∧
      (layout ((weave code block).filter keep))[pc']? = some k ∧ k.creates = some r ∧
      k.createsOwner = false) := by
  obtain ⟨x, i, hx, e⟩ := exists_of_layout hk
  obtain rfl : i = .adjust op r := by
    cases i <;> first | (injection e with h₁ h₂; rw [h₁, h₂]) | cases e
  obtain ⟨hxw, hkx⟩ := List.mem_filter.mp (List.mem_of_getElem? hx)
  obtain ⟨a, ha, hxa⟩ := (mem_weave.mp hxw).resolve_left hr.unadjusted
  obtain ⟨_, _, g, e', hg, hcounted, -⟩ := hp.adjusts hxa
  cases e'
  refine ⟨?_, ?_⟩
  · rintro ⟨g', hg', hun⟩
    rw [hfacts, hg] at hg'
    rw [← Option.some.inj hg', hcounted] at hun
    cases hun
  · by_cases hop : op = .unref
    · exact Or.inl hop
    · obtain ⟨pre, post, hblk⟩ := List.append_of_mem hxa
      obtain ⟨rfl, i, g', hi, hcr, hg', -, hborn⟩ := hp.fresh_op hr hblk hop
      have hki := hpair hxw hkx hi hcr
      obtain ⟨xs, ys, hcode⟩ := List.append_of_mem hi
      have e₁ : (weave code block).filter keep = (weave xs block).filter keep ++ (a, i) ::
          (x, Instr.adjust op r) :: (post ++ weave ys block).filter keep := by
        rw [hcode, weave_append, weave_cons, hblk, List.filter_append, List.filter_cons_of_pos hki,
          List.nil_append, List.cons_append, List.filter_cons_of_pos hkx]
      have e₂ : (weave code block).filter keep = ((weave xs block).filter keep ++ [(a, i)]) ++
          (x, Instr.adjust op r) :: (post ++ weave ys block).filter keep := by
        rw [e₁]
        simp
      obtain ⟨us, vs, e₃, rfl⟩ := split_of_getElem? hx
      obtain ⟨rfl, -, -⟩ := split_unique ht.linked.nodup e₂ e₃
      have hget : ((weave code block).filter keep)[((weave xs block).filter keep).length]? =
          some (a, i) := by
        rw [e₁]
        simp
      refine Or.inr ⟨((weave xs block).filter keep).length, i.relabel _, by simp,
        by rw [getElem?_layout, hget]; rfl, ?_, ?_⟩
      · rw [Instr.creates_relabel, hcr]
      · rw [createsOwner_relabel, hown a i r g' hi hcr hg', hborn]

end

end Listing

/-! ## The finished unit -/

theorem ahead_unitCode {l : Listing} {T : Block} (hT : T.Proper) (hr : Ready l (unitCode T.code)) :
    Ahead (unitCode T.code) :=
  Shaped.ahead (.plain rfl (by simp) hT.shaped) (by simp [Instr.label?]) hr.orderly.nodup

/-- **What is left of a unit is vetted** where its body can be carried out and never comes to its
end. -/
theorem Listing.Thinned.vetted {l l' : Listing} {T : Block} {block : NodeId → Code}
    {keep : NodeId × Instr NodeId → Bool} {w : World} (hT : T.Proper) (hw : Writes #[] l.regs T.code)
    (hr : Ready l (unitCode T.code)) (hp : Placed l (unitCode T.code) block)
    (ht : Thinned l (unitCode T.code) block l' keep)
    (hpair : ∀ {x op q b j}, (x, .adjust op q) ∈ weave (unitCode T.code) block →
      keep (x, .adjust op q) = true → (b, j) ∈ unitCode T.code → j.creates = some q →
      keep (b, j) = true)
    (hfacts : w.facts = l.regs) (hok : T.Ok w .start) (hend : ∀ ρ, ¬ T.Run w .start ρ) :
    w.Vetted (layout ((weave (unitCode T.code) block).filter keep)) := by
  obtain ⟨l₁, hl₁⟩ := ht.woven
  have hnd := ht.linked.nodup
  have hahead := ahead_unitCode hT hr
  have hahead' := ht.ahead hr hp hahead
  have hends := ht.last hr
  have hown := hw.ownersTold hr
  have hsecure := ((World.secure_unitCode hT hok hend).weave hr.orderly hp.adjust_of_block).filter
    hl₁.nodup (ht.thins hr hp)
  have hkhead : keep (head, .nop) = true := by
    by_contra h
    obtain ⟨q, hq⟩ := ht.about (i := .nop) (a := head) (mem_weave.mpr (Or.inl (by simp [unitCode])))
      (by simpa using h)
    cases hq
  have hfirst : ((weave (unitCode T.code) block).filter keep)[0]? = some (head, .nop) := by
    rw [unitCode, List.cons_append, weave_cons, List.filter_cons_of_pos hkhead]
    rfl
  refine ⟨fun {pc ρ} hreach => ?_, fun {pc pc' k} hk hexit => ?_, ht.single hr hp hfacts,
    ht.balanced hr hp hahead hown hfacts, ht.acquired hr hp hown hfacts,
    ht.adjusts hr hp hown hfacts hpair, ht.created hr hp hahead hpair⟩
  · obtain ⟨a, i, ha, hS⟩ := hsecure.reached hnd hahead' hends hfirst
      ⟨⟨.nop, mem_weave.mpr (Or.inl (by simp [unitCode])), hkhead⟩, .start,
        Or.inl (Or.inl ⟨rfl, rfl⟩), .refl _ _⟩ hreach
    obtain ⟨xs, i', ys, e, hs, -⟩ := hsecure _ _ hS
    obtain rfl := instr_unique (j := i') hnd (List.mem_of_getElem? ha) (by rw [e]; simp)
    exact ⟨_, by rw [getElem?_layout, ha]; rfl, hs.relabel _⟩
  · obtain ⟨a, i, ha, rfl⟩ := exists_of_layout hk
    obtain ⟨xs, ys, e, rfl⟩ := split_of_getElem? ha
    obtain ⟨hlt, b, j, -, hj⟩ := hahead'.exits hnd hends e hexit
    refine ⟨hlt, ?_⟩
    rw [size_layout]
    exact (List.getElem?_eq_some_iff.mp hj).1

/-- **Finishing a unit succeeds**, whether the checkers are run or not, and where its body can be
carried out and never comes to its end, the code is vetted. -/
theorem finishListing_vetted {l : Listing} {T : Block} (hT : T.Proper)
    (hw : Writes #[] l.regs T.code) (hr : Ready l (unitCode T.code))
    (hclear : ∀ isNil, Clear l isNil (unitCode T.code))
    (settings : Settings) (pool : Array Constant) (name : String) :
    ∃ code, code ≠ #[] ∧
      (∀ v, Gen.finishListing { settings with verify := v } pool name l = .ok (code, l.regs.size)) ∧
      ∀ w : World, w.facts = l.regs → T.Ok w .start → (∀ ρ, ¬ T.Run w .start ρ) → w.Vetted code := by
  obtain ⟨l', counts, block, hplace, hl, hp, hcur, hregs⟩ := placeOwnership_spec hr
  obtain ⟨l'', keep, htidied, ht, hpair⟩ := tidied_eq hr hp hl hcur hregs hclear settings pool
  have hout := ht.linked.assemble_eq (ht.ahead hr hp (ahead_unitCode hT hr)).inner
  refine ⟨_, fun hempty => ?_, fun v => ?_,
    fun w hfacts hok hend => ht.vetted hT hw hr hp hpair hfacts hok hend⟩
  · have hlen : ((weave (unitCode T.code) block).filter keep).length = _ := size_layout.symm
    rw [hempty, Array.size_empty, List.length_eq_zero_iff] at hlen
    have hfirst := ht.linked.first
    rw [hlen] at hfirst
    cases hfirst
  · have htidied' : Gen.tidied { settings with verify := v } pool l' = .ok l'' := htidied
    have haudited : Gen.audited { settings with verify := v } name l'' = .ok () := by
      unfold Gen.audited
      cases v
      · rfl
      · simp only [if_true, ht.audit_eq hr hp, bind, Except.bind]
        rfl
    simp only [Gen.finishListing, hplace, htidied', haudited, hout, bind, Except.bind]
    rw [ht.regs]
    rfl

end CountedMachine
