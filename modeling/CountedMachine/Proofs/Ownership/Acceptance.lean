import CountedMachine.Proofs.Ownership.Tidying

/-! # The ownership pass on well-formed units

A listing that has been put together by the operations on listings is well-formed when it ends, has no
loops and no ownership instructions, and uses labels, tests and registers as they are meant
(`WellFormed`). On such a listing the pass succeeds, only adds instructions, and its checkers accept
the result; after cleaning up they accept it just when no unread load stands in the way
(`WellFormed.accepted`). -/

namespace CountedMachine.Listing

/-- Control may go from one node of the listing to the other. -/
def Edge (l : Listing) (a b : NodeId) : Prop := ∃ next, l.successors a = .ok next ∧ b ∈ next

/-- **A unit that the ownership pass is made for.** -/
structure WellFormed (l : Listing) : Prop where
  built : Built l
  unadjusted : ∀ {a op r}, (a, .adjust op r) ∉ l.entries
  ends : l.get tail = .ok .done
  acyclic : ∀ a, ¬ Relation.TransGen (Edge l) a a
  labels : ∀ {a i b}, (a, i) ∈ l.entries → i.label? = some b →
    ∃ j, (b, j) ∈ l.entries ∧ j.isLabel = true
  only : ∀ {a c no p}, (a, .branch c no) ∈ l.entries → Edge l p no → p = a
  tests : ∀ {a c no f}, (a, .branch c no) ∈ l.entries → l.regs[c.index]? = some f → f.counted = false
  known : ∀ {a i r}, (a, i) ∈ l.entries → i.creates = some r ∨ i.reads r = true →
    r.index < l.regs.size
  single : ∀ {r f a b i j}, l.regs[r.index]? = some f → f.counted = true → (a, i) ∈ l.entries →
    i.creates = some r → (b, j) ∈ l.entries → j.creates = some r → a = b
  merged : ∀ {r f a i}, l.regs[r.index]? = some f → f.bornOwned = true → (a, i) ∈ l.entries →
    i.creates = some r → i = .merge r ∨ i = .allocClosure r

variable {l l' : Listing} {code : Code} {block : NodeId → Code} {a b : NodeId} {i : Instr NodeId}

/-- The edges of a linked listing are the steps of its code. -/
theorem Linked.edge_of_step (hl : Linked l code) (h : Step code a b) : Edge l a b := by
  obtain ⟨xs, i, ys, rfl, hb⟩ := h
  exact ⟨_, hl.successors_eq, hb⟩

theorem Linked.ends (hl : Linked l code) (htail : l.get tail = .ok .done) :
    ∃ xs, code = xs ++ [(tail, Instr.done)] := by
  rcases List.eq_nil_or_concat code with rfl | ⟨xs, ⟨a, i⟩, rfl⟩
  · cases hl.last
  · rw [List.concat_eq_append] at hl ⊢
    have hlast := hl.last
    obtain rfl : a = tail := by simpa [lastId_append, lastId] using hlast
    have hi := hl.get_eq (a := tail) (i := i) (by simp)
    rw [htail] at hi
    exact ⟨xs, by rw [Except.ok.inj hi]⟩

/-- **A well-formed unit is ready.** -/
theorem WellFormed.ready (h : WellFormed l) : Ready l l.entries := by
  obtain ⟨code, hl⟩ := h.built.linked
  have hentries := hl.entries_eq
  have hl' : Linked l l.entries := hentries ▸ hl
  refine ⟨hl', ⟨hl'.nodup, hl'.ends h.ends, fun a ha => h.acyclic a ?_, h.labels,
    fun hb hs => h.only hb (hl'.edge_of_step hs)⟩, h.unadjusted, fun ha hi => ?_, h.tests, h.single,
    h.merged⟩
  · exact Relation.TransGen.mono (fun _ _ => hl'.edge_of_step) _ _ ha
  · exact ⟨_, Array.getElem?_eq_getElem (h.known ha hi)⟩

/-! ## Taking the ownership instructions out again -/

/-- The instruction is an ownership instruction. -/
def isAdjust : Instr NodeId → Bool
  | .adjust _ _ => true
  | _ => false

theorem Linked.eraseAll {out : NodeId × Instr NodeId → Bool} : ∀ {ys xs : Code} {l : Listing},
    Linked l (xs ++ ys) →
    (∀ p ∈ ys, out p = true → p.1 ≠ head ∧ p.1 ≠ tail ∧ p.1 ≠ l.cursor) →
      ∃ l', ((ys.filter out).map (·.1)).foldlM Listing.erase l = .ok l' ∧
        Linked l' (xs ++ ys.filter fun p => !out p)
  | [], xs, l, hl, _ => ⟨l, rfl, by simpa using hl⟩
  | (a, i) :: ys, xs, l, hl, hfree => by
    cases ho : out (a, i) with
    | false =>
      have hl₁ : Linked l ((xs ++ [(a, i)]) ++ ys) := by simpa using hl
      obtain ⟨l', e, hl'⟩ := hl₁.eraseAll fun p hp => hfree p (by simp [hp])
      refine ⟨l', ?_, by simpa [ho] using hl'⟩
      rw [List.filter_cons_of_neg (by simp [ho])]
      exact e
    | true =>
      obtain ⟨hhead, htail, hcur⟩ := hfree (a, i) (by simp) ho
      obtain ⟨l₁, e₁, hl₁, hcur₁, -⟩ := hl.erase hhead htail hcur
      obtain ⟨l', e, hl'⟩ := hl₁.eraseAll fun p hp hout => by
        rw [hcur₁]
        exact hfree p (by simp [hp]) hout
      refine ⟨l', ?_, by simpa [ho] using hl'⟩
      rw [List.filter_cons_of_pos ho, List.map_cons, List.foldlM_cons, e₁]
      exact e

/-- Without its ownership instructions the woven code is the old code. -/
theorem Placed.filter_weave (hp : Placed l code block)
    (hun : ∀ {a op r}, (a, .adjust op r) ∉ code) :
    (weave code block).filter (fun p => !isAdjust p.2) = code := by
  have hkeep : ∀ {a i}, (a, i) ∈ code → (!isAdjust i) = true := fun {a i} h => by
    cases i
    case adjust op r => exact absurd h hun
    all_goals rfl
  have hblock : ∀ a, (block a).filter (fun p => !isAdjust p.2) = [] := fun a => by
    refine List.filter_eq_nil_iff.mpr fun ⟨x, i⟩ hx => ?_
    obtain ⟨op, q, g, rfl, -⟩ := hp.adjusts hx
    simp [isAdjust]
  clear hun hp
  induction code with
  | nil => rfl
  | cons x code ih =>
    obtain ⟨a, i⟩ := x
    have hi : (!isAdjust (a, i).2) = true := hkeep List.mem_cons_self
    rw [weave_cons, List.filter_cons, if_pos hi, List.filter_append, hblock, List.nil_append,
      ih fun h => hkeep (List.mem_cons_of_mem _ h)]

/-- **The inserted instructions can be taken out again**, which gives back the old code. -/
theorem Placed.erase_adjusts (hr : Ready l code) (hp : Placed l code block)
    (hl : Linked l' (weave code block)) (hcur : l'.cursor = l.cursor) :
    ∃ l₀, ((l'.entries.filter fun p => isAdjust p.2).map (·.1)).foldlM Listing.erase l' = .ok l₀ ∧
      l₀.entries = code := by
  have hold : ∀ {a b i}, (a, i) ∈ weave code block → isAdjust i = true → b ∈ ids code → a ≠ b := by
    rintro a b i ha hi hb rfl
    obtain ⟨j, hj⟩ := exists_instr hb
    rw [instr_unique hl.nodup ha (mem_weave.mpr (Or.inl hj))] at hi
    cases j <;> first | (cases hi; done) | exact hr.unadjusted hj
  have hl' : Linked l' ([] ++ weave code block) := hl
  rw [hl.entries_eq]
  have hfree : ∀ p ∈ weave code block, isAdjust p.2 = true →
      p.1 ≠ head ∧ p.1 ≠ tail ∧ p.1 ≠ l'.cursor := fun p hp hout =>
    ⟨hold hp hout hr.linked.head_mem, hold hp hout hr.linked.tail_mem,
      hcur ▸ hold hp hout hr.linked.cursor⟩
  obtain ⟨l₀, e, hl₀⟩ := hl'.eraseAll hfree
  refine ⟨l₀, e, ?_⟩
  rw [hl₀.entries_eq, List.nil_append, hp.filter_weave hr.unadjusted]

/-! ## The pass -/

/-- The woven code is thinned code from which nothing has been taken out. -/
theorem Placed.thinned_self (hl : Linked l' (weave code block)) (hregs : l'.regs = l.regs) :
    Thinned l code block l' fun _ => true where
  woven := ⟨l', hl⟩
  linked := by
    rw [List.filter_eq_self.mpr fun _ _ => rfl]
    exact hl
  regs := hregs
  ends := rfl
  about _ h := by cases h
  unread _ h := by cases h
  whole _ h := by cases h

/-- **The checkers accept a cleaned up unit** just when nothing stands in the way. -/
theorem Placed.tidy_iff (hr : Ready l code) (hp : Placed l code block)
    (hl : Linked l' (weave code block)) (hcur : l'.cursor = l.cursor) (hregs : l'.regs = l.regs)
    (isNil : ConstId → Bool) :
    (∃ l'' n, l'.tidy isNil = .ok (l'', n) ∧ l''.audit = .ok none) ↔ Clear l isNil code := by
  constructor
  · rintro ⟨l'', n, htidy, haudit⟩
    have hhead : ∀ {i r}, (head, i) ∈ code → loadOrAdjust? i = some r → Dead isNil code r →
        l'.cursor = head := by
      intro i r hi hload hdead
      by_contra hne
      rw [hp.tidy_head hl hi hload hdead hne] at htidy
      cases htidy
    refine ⟨fun hi hload hdead => hcur ▸ hhead hi hload hdead, fun {i r f} hi hload hdead hf => ?_⟩
    obtain ⟨l₁, n₁, htidy₁, hl₁, hregs₁⟩ := hp.tidy_eq hr hl hhead
    rw [htidy] at htidy₁
    cases htidy₁
    by_contra hcounted
    exact hp.tidy_cursor hr hl (hcur ▸ hi) hload hdead hf (by simpa using hcounted) hl₁
      (hregs₁.trans hregs) haudit
  · intro hc
    obtain ⟨l'', n, htidy, hl'', hregs''⟩ := hp.tidy_eq hr hl fun hi hload hdead =>
      hcur.trans (hc.head hi hload hdead)
    exact ⟨l'', n, htidy, (hp.thinned hr hl hcur hregs hc hl'' hregs'').audit_eq hr hp⟩

/-- **The ownership pass on a well-formed unit:** it succeeds, taking the inserted instructions out
again gives back the unit, and the checkers accept the result. After cleaning up they accept it just
when the first node and the node under the cursor load no dead register. -/
theorem WellFormed.accepted (h : WellFormed l) : ∃ l' counts, l.placeOwnership = .ok (l', counts) ∧
    (∃ l₀, ((l'.entries.filter fun p => isAdjust p.2).map (·.1)).foldlM Listing.erase l' = .ok l₀ ∧
      l₀.entries = l.entries) ∧ l'.audit = .ok none ∧
    ∀ isNil, (∃ l'' n, l'.tidy isNil = .ok (l'', n) ∧ l''.audit = .ok none) ↔
      Clear l isNil l.entries := by
  have hr := h.ready
  obtain ⟨l', counts, block, hplace, hl, hp, hcur, hregs⟩ := placeOwnership_spec hr
  exact ⟨l', counts, hplace, hp.erase_adjusts hr hl hcur,
    (Placed.thinned_self hl hregs).audit_eq hr hp, hp.tidy_iff hr hl hcur hregs⟩

/-! ## An unread parameter -/

/-- A unit that loads a parameter, which nothing reads, and returns a constant. -/
def unreadParam (cursor : NodeId) : Listing where
  nodes := #[some ⟨.nop, none, some ⟨2⟩⟩, some ⟨.done, some ⟨4⟩, none⟩,
    some ⟨.param ⟨0⟩ 0, some head, some ⟨3⟩⟩, some ⟨.const ⟨1⟩ ⟨0⟩, some ⟨2⟩, some ⟨4⟩⟩,
    some ⟨.ret ⟨1⟩, some ⟨3⟩, some tail⟩]
  free := []
  cursor := cursor
  regs := #[⟨.temp, none⟩, ⟨.temp, none⟩]

theorem entries_unreadParam (cursor : NodeId) : (unreadParam cursor).entries =
    [(head, .nop), (⟨2⟩, .param ⟨0⟩ 0), (⟨3⟩, .const ⟨1⟩ ⟨0⟩), (⟨4⟩, .ret ⟨1⟩), (tail, .done)] :=
  rfl

theorem built_unreadParam : Built (unreadParam tail) := by
  have h₁ := (Built.empty.freshReg .temp).freshReg .temp
  have h₂ := h₁.append (i := .param ⟨0⟩ 0) rfl
  exact (h₂.append (i := .const ⟨1⟩ ⟨0⟩) rfl).append (i := .ret ⟨1⟩) rfl

theorem edge_unreadParam {cursor : NodeId} (h : Edge (unreadParam cursor) a b) :
    a.index < b.index := by
  obtain ⟨next, e, hb⟩ := h
  obtain ⟨_ | _ | _ | _ | _ | a⟩ := a
  all_goals cases e
  all_goals simp [Instr.isTerminal] at hb
  all_goals subst hb
  all_goals decide

theorem wellFormed_unreadParam {cursor : NodeId} (hb : Built (unreadParam cursor)) :
    WellFormed (unreadParam cursor) where
  built := hb
  unadjusted h := by simp [entries_unreadParam] at h
  ends := rfl
  acyclic a h := by
    have hlt : ∀ {b}, Relation.TransGen (Edge (unreadParam cursor)) a b → a.index < b.index := by
      intro b h
      induction h with
      | single h => exact edge_unreadParam h
      | tail _ h ih => exact ih.trans (edge_unreadParam h)
    exact absurd (hlt h) (Nat.lt_irrefl _)
  labels h hl := by
    simp only [entries_unreadParam, List.mem_cons, List.not_mem_nil, or_false, Prod.mk.injEq] at h
    rcases h with ⟨-, rfl⟩ | ⟨-, rfl⟩ | ⟨-, rfl⟩ | ⟨-, rfl⟩ | ⟨-, rfl⟩ <;> cases hl
  only h := by simp [entries_unreadParam] at h
  tests h := by simp [entries_unreadParam] at h
  known h hr := by
    simp only [entries_unreadParam, List.mem_cons, List.not_mem_nil, or_false, Prod.mk.injEq] at h
    rcases h with ⟨-, rfl⟩ | ⟨-, rfl⟩ | ⟨-, rfl⟩ | ⟨-, rfl⟩ | ⟨-, rfl⟩
    all_goals simp [Instr.creates, Instr.reads, Instr.inputs] at hr
    all_goals subst hr
    all_goals simp [unreadParam]
  single _ _ h hr h' hr' := by
    simp only [entries_unreadParam, List.mem_cons, List.not_mem_nil, or_false, Prod.mk.injEq] at h h'
    rcases h with ⟨rfl, rfl⟩ | ⟨rfl, rfl⟩ | ⟨rfl, rfl⟩ | ⟨rfl, rfl⟩ | ⟨rfl, rfl⟩ <;>
      rcases h' with ⟨rfl, rfl⟩ | ⟨rfl, rfl⟩ | ⟨rfl, rfl⟩ | ⟨rfl, rfl⟩ | ⟨rfl, rfl⟩ <;>
      first | rfl | (cases hr; done) | (cases hr'; done) | (cases hr; cases hr')
  merged {r f a i} hf hown _ _ := by
    have : f.bornOwned = false := by
      obtain ⟨_ | _ | r⟩ := r
      · cases hf
        rfl
      · cases hf
        rfl
      · simp [unreadParam] at hf
    rw [this] at hown
    cases hown

/-- With the cursor at the end the parameter goes away with its ownership instructions. -/
theorem accepted_unreadParam : ∃ l' counts, (unreadParam tail).placeOwnership = .ok (l', counts) ∧
    l'.audit = .ok none ∧
    ∃ l'' n, l'.tidy (fun _ => true) = .ok (l'', n) ∧ l''.audit = .ok none := by
  obtain ⟨l', counts, hplace, -, haudit, htidy⟩ :=
    (wellFormed_unreadParam built_unreadParam).accepted
  refine ⟨l', counts, hplace, haudit, (htidy _).mpr ⟨fun hi hload => ?_, fun hi hload => ?_⟩⟩
  · simp only [entries_unreadParam, List.mem_cons, List.not_mem_nil, or_false, Prod.mk.injEq] at hi
    rcases hi with ⟨-, rfl⟩ | ⟨h, -⟩ | ⟨h, -⟩ | ⟨h, -⟩ | ⟨h, -⟩
    · cases hload
    all_goals cases h
  · simp only [entries_unreadParam, List.mem_cons, List.not_mem_nil, or_false, Prod.mk.injEq] at hi
    rcases hi with ⟨h, -⟩ | ⟨h, -⟩ | ⟨h, -⟩ | ⟨h, -⟩ | ⟨-, rfl⟩
    · cases h
    · cases h
    · cases h
    · cases h
    · cases hload

/-- **With the cursor on the parameter** its ownership instructions go away alone, and the checkers do
not accept the unit any more. -/
theorem not_accepted_unreadParam : ¬ ∀ (l : Listing) (isNil : ConstId → Bool), WellFormed l →
    ∃ l' counts l'' n, l.placeOwnership = .ok (l', counts) ∧ l'.tidy isNil = .ok (l'', n) ∧
      l''.audit = .ok none := by
  intro hall
  have hw := wellFormed_unreadParam (built_unreadParam.moveCursor (a := ⟨2⟩) rfl)
  have hr := hw.ready
  obtain ⟨l', counts, block, hplace, hl, hp, hcur, hregs⟩ := placeOwnership_spec hr
  obtain ⟨l₁, counts₁, l'', n, hplace₁, htidy, haudit⟩ := hall _ (fun _ => false) hw
  rw [hplace] at hplace₁
  cases hplace₁
  have hc := (hp.tidy_iff hr hl hcur hregs fun _ => false).mp ⟨l'', n, htidy, haudit⟩
  have hcounted := hc.cursor (i := .param ⟨0⟩ 0) (r := ⟨0⟩) (f := ⟨.temp, none⟩)
    (by rw [entries_unreadParam]; simp [unreadParam]) rfl ⟨⟨⟨2⟩, .param ⟨0⟩ 0, by
      rw [entries_unreadParam]; simp, rfl⟩, fun a i h => ?_⟩ rfl
  · cases hcounted
  · simp only [entries_unreadParam, List.mem_cons, List.not_mem_nil, or_false, Prod.mk.injEq] at h
    rcases h with ⟨-, rfl⟩ | ⟨-, rfl⟩ | ⟨-, rfl⟩ | ⟨-, rfl⟩ | ⟨-, rfl⟩ <;> decide

end CountedMachine.Listing
