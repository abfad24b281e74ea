import CountedMachine.Proofs.Ownership.Flow

/-! # The shape of generated code

Generated code is a sequence of plain instructions and of branches with two arms: the first arm ends
with a jump over the second one, which starts with a label of its own (`Shaped`). So control only
goes forward, labels stand in the code, and the label of a second arm is entered from its branch
alone: shaped code that ends is `Orderly` (`Shaped.orderly`). -/

namespace CountedMachine.Listing

/-- **Code that is put together from plain instructions and branches with two arms.** -/
inductive Shaped : Code → Prop
  | nil : Shaped []
  | plain {a i xs} : i.label? = none → (∀ op r, i ≠ .adjust op r) → Shaped xs →
    Shaped ((a, i) :: xs)
  | arms {b flag n ys j m zs k ws} : Shaped ys → Shaped zs → k.isLabel = true → Shaped ws →
    Shaped ((b, Instr.branch flag n) :: (ys ++ (j, Instr.jump m) :: (n, Instr.nop) :: (zs ++ (m, k) :: ws)))

variable {code xs ys zs ws : Code} {a b : NodeId} {i : Instr NodeId}

theorem label?_of_isLabel (h : i.isLabel = true) : i.label? = none := by
  cases i <;> first | rfl | cases h

theorem Shaped.unadjusted (h : Shaped code) : ∀ {a op r}, (a, .adjust op r) ∉ code := by
  induction h with
  | nil => simp
  | plain hl ha _ ih =>
    intro b op r hb
    rcases List.mem_cons.mp hb with e | hb
    · cases e
      exact ha op r rfl
    · exact ih hb
  | arms _ _ hk _ ih₁ ih₂ ih₃ =>
    intro b op r hb
    simp only [List.mem_cons, List.mem_append, Prod.mk.injEq, reduceCtorEq, and_false, false_or] at hb
    rcases hb with hb | hb | ⟨-, rfl⟩ | hb
    · exact ih₁ hb
    · exact ih₂ hb
    · cases hk
    · exact ih₃ hb

/-! ## Labels -/

/-- One node stands before the other. -/
def Before (code : Code) (a b : NodeId) : Prop := [a, b].Sublist (ids code)

theorem Before.of_sublist (h : Before xs a b) (hs : xs.Sublist ys) : Before ys a b :=
  List.Sublist.trans h (hs.map _)

theorem before_of_append (xs ys : Code) (ha : a ∈ ids xs) (hb : b ∈ ids ys) :
    Before (xs ++ ys) a b := by
  rw [Before, ids_append]
  exact (List.singleton_sublist.mpr ha).append (List.singleton_sublist.mpr hb)

/-- The labels of the code stand in it, after the instructions that lead there. -/
def Closed (code : Code) : Prop :=
  ∀ a i b, (a, i) ∈ code → i.label? = some b →
    Before code a b ∧ ∃ j, (b, j) ∈ code ∧ j.isLabel = true

theorem Closed.within (h : Closed xs) (hs : xs.Sublist code) (ha : (a, i) ∈ xs)
    (hl : i.label? = some b) : Before code a b ∧ ∃ j, (b, j) ∈ code ∧ j.isLabel = true := by
  obtain ⟨hb, j, hj, hlab⟩ := h a i b ha hl
  exact ⟨hb.of_sublist hs, j, hs.subset hj, hlab⟩

theorem Shaped.closed (h : Shaped code) : Closed code := by
  induction h with
  | nil => simp [Closed]
  | plain hl _ _ ih =>
    intro a i b ha hb
    rcases List.mem_cons.mp ha with e | ha
    · cases e
      rw [hl] at hb
      cases hb
    · exact ih.within (List.sublist_cons_self _ _) ha hb
  | @arms p flag n ys j m zs k ws _ _ hk _ ih₁ ih₂ ih₃ =>
    intro a i b ha hb
    simp only [List.mem_cons, List.mem_append] at ha
    rcases ha with e | ha | e | e | ha | e | ha
    · cases e
      obtain rfl : n = b := Option.some.inj hb
      refine ⟨?_, .nop, by simp, rfl⟩
      exact before_of_append [(p, .branch flag n)] _ (by simp) (by simp)
    · refine ih₁.within ?_ ha hb
      exact (List.sublist_append_left ys _).cons _
    · cases e
      obtain rfl : m = b := Option.some.inj hb
      refine ⟨?_, k, by simp, hk⟩
      refine (before_of_append [(j, Instr.jump m)] ((n, Instr.nop) :: (zs ++ (m, k) :: ws)) (by simp)
        (by simp)).of_sublist ?_
      exact (List.sublist_append_right ys _).cons _
    · cases e
      cases hb
    · refine ih₂.within ?_ ha hb
      refine List.Sublist.cons _ ((List.sublist_append_of_sublist_right ?_).trans (List.Sublist.refl _))
      exact ((List.sublist_append_left zs _).cons _).cons _
    · cases e
      rw [label?_of_isLabel hk] at hb
      cases hb
    · refine ih₃.within ?_ ha hb
      refine List.Sublist.cons _ (List.sublist_append_of_sublist_right ?_)
      exact ((List.sublist_append_of_sublist_right (List.sublist_cons_self _ _)).cons _).cons _

/-- The label of a second arm is the label of its branch alone. -/
def Alone (code : Code) : Prop :=
  ∀ a c no p j, (a, .branch c no) ∈ code → (p, j) ∈ code → j.label? = some no → p = a

/-- The labels of the code stand in it. -/
def Inner (code : Code) : Prop := ∀ a i b, (a, i) ∈ code → i.label? = some b → b ∈ ids code

theorem Shaped.inner (h : Shaped code) : Inner code := fun _ _ _ ha hb => by
  obtain ⟨-, j, hj, -⟩ := h.closed _ _ _ ha hb
  exact mem_ids hj

theorem Inner.append (hx : Inner xs) (hy : Inner ys) : Inner (xs ++ ys) := by
  intro a i b ha hb
  rw [ids_append, List.mem_append]
  exact (List.mem_append.mp ha).imp (fun ha => hx _ _ _ ha hb) fun ha => hy _ _ _ ha hb

theorem Alone.append (hx : Alone xs) (hy : Alone ys) (hix : Inner xs) (hiy : Inner ys)
    (hd : ∀ a, a ∈ ids xs → a ∉ ids ys) : Alone (xs ++ ys) := by
  intro a c no p j ha hp hl
  rcases List.mem_append.mp ha with ha | ha
  · rcases List.mem_append.mp hp with hp | hp
    · exact hx _ _ _ _ _ ha hp hl
    · exact absurd (hiy _ _ _ hp hl) (hd no (hix _ _ _ ha rfl))
  · rcases List.mem_append.mp hp with hp | hp
    · exact absurd (hiy _ _ _ ha rfl) (hd no (hix _ _ _ hp hl))
    · exact hy _ _ _ _ _ ha hp hl

theorem Shaped.alone (h : Shaped code) (hnd : (ids code).Nodup) : Alone code := by
  induction h with
  | nil => simp [Alone]
  | @plain a i xs hl _ hx ih =>
    intro b c no p j hb hp hlab
    rw [ids_cons, List.nodup_cons] at hnd
    have hin : ∀ {p j}, (p, j) ∈ (a, i) :: xs → j.label? = some no → (p, j) ∈ xs := by
      intro p j hp hlab
      rcases List.mem_cons.mp hp with e | hp
      · cases e
        rw [hl] at hlab
        cases hlab
      · exact hp
    exact ih hnd.2 _ _ _ _ _ (hin hb rfl) (hin hp hlab) hlab
  | @arms p flag n ys j m zs k ws hy hz hk hw ih₁ ih₂ ih₃ =>
    -- the branch, the jump and their labels, apart from what stands between them
    set frame : Code := [(p, .branch flag n), (j, .jump m), (n, .nop), (m, k)] with hframe
    simp only [ids_append, ids_cons, List.nodup_cons, List.nodup_append, List.mem_append,
      List.mem_cons, not_or] at hnd
    obtain ⟨hp, hyn, ⟨hj, hn, hzn, ⟨hm, hwn⟩, hzw⟩, hyr⟩ := hnd
    have hnm : n ≠ m := hn.2.1
    have hfa : Alone frame := by
      intro a c no q i ha hq hl
      simp only [hframe, List.mem_cons, Prod.mk.injEq, List.not_mem_nil, or_false, reduceCtorEq,
        and_false, false_or, Instr.branch.injEq] at ha hq
      rcases ha with ⟨rfl, rfl, rfl⟩ | ⟨-, rfl⟩
      · rcases hq with ⟨rfl, -⟩ | ⟨-, rfl⟩ | ⟨-, rfl⟩ | ⟨-, rfl⟩
        · rfl
        · exact absurd (Option.some.inj hl).symm hnm
        · cases hl
        · rw [label?_of_isLabel hk] at hl
          cases hl
      · cases hk
    have hfi : Inner frame := by
      intro a i b ha hl
      simp only [hframe, List.mem_cons, Prod.mk.injEq, List.not_mem_nil, or_false] at ha
      rcases ha with ⟨rfl, rfl⟩ | ⟨-, rfl⟩ | ⟨-, rfl⟩ | ⟨-, rfl⟩
      · simp [hframe, Option.some.inj hl]
      · simp [hframe, Option.some.inj hl]
      · cases hl
      · rw [label?_of_isLabel hk] at hl
        cases hl
    have hall : Alone (frame ++ (ys ++ (zs ++ ws))) := by
      have h₃ : Alone (zs ++ ws) := by
        refine (ih₂ hzn).append (ih₃ hwn) hz.inner hw.inner fun a ha ha' => ?_
        exact hzw a ha a (Or.inr ha') rfl
      have h₂ : Alone (ys ++ (zs ++ ws)) := by
        refine (ih₁ hyn).append h₃ hy.inner (hz.inner.append hw.inner) fun a ha ha' => ?_
        rw [ids_append, List.mem_append] at ha'
        refine hyr a ha a (Or.inr (Or.inr ?_)) rfl
        exact ha'.imp id Or.inr
      refine hfa.append h₂ hfi (hy.inner.append (hz.inner.append hw.inner)) fun a ha ha' => ?_
      simp only [hframe, ids_cons, ids_nil, List.mem_cons, List.not_mem_nil, or_false] at ha
      simp only [ids_append, List.mem_append] at ha'
      rcases ha with rfl | rfl | rfl | rfl
      · exact ha'.elim hp.1 fun h => h.elim hp.2.2.2.1 hp.2.2.2.2.2
      · exact ha'.elim (fun h => hyr _ h _ (Or.inl rfl) rfl) fun h => h.elim hj.2.1 hj.2.2.2
      · exact ha'.elim (fun h => hyr _ h _ (Or.inr (Or.inl rfl)) rfl) fun h => h.elim hn.1 hn.2.2
      · refine ha'.elim (fun h => hyr _ h _ (Or.inr (Or.inr (Or.inr (Or.inl rfl)))) rfl) fun h =>
          h.elim (fun h => ?_) hm
        exact hzw _ h _ (Or.inl rfl) rfl
    have hsame : ∀ {x}, x ∈ (p, Instr.branch flag n) :: (ys ++ (j, Instr.jump m) :: (n, Instr.nop) ::
        (zs ++ (m, k) :: ws)) → x ∈ frame ++ (ys ++ (zs ++ ws)) := by
      intro x hx
      simp only [hframe, List.mem_cons, List.mem_append, List.not_mem_nil, or_false] at hx ⊢
      rcases hx with h | h | h | h | h | h | h <;> simp only [h, true_or, or_true]
    intro a c no q i ha hq hl
    exact hall _ _ _ _ _ (hsame ha) (hsame hq) hl

/-- A second arm begins right after a jump. -/
def Guarded (code : Code) : Prop :=
  ∀ a c no, (a, Instr.branch c no) ∈ code → ∃ xs j m ys, code = xs ++ (j, Instr.jump m) :: (no, Instr.nop) :: ys

theorem Guarded.within (h : Guarded ys) {c : Reg} {no : NodeId} (ha : (a, .branch c no) ∈ ys)
    (xs zs : Code) : ∃ us j m vs, xs ++ (ys ++ zs) = us ++ (j, Instr.jump m) :: (no, Instr.nop) :: vs := by
  obtain ⟨us, j, m, vs, e⟩ := h a c no ha
  exact ⟨xs ++ us, j, m, vs ++ zs, by rw [e]; simp⟩

theorem Shaped.guarded (h : Shaped code) : Guarded code := by
  induction h with
  | nil => simp [Guarded]
  | @plain b i xs hl _ _ ih =>
    intro a c no ha
    rcases List.mem_cons.mp ha with e | ha
    · cases e
      cases hl
    · simpa using ih.within ha [(b, i)] []
  | @arms p flag n ys j m zs k ws _ _ hk _ ih₁ ih₂ ih₃ =>
    intro a c no ha
    simp only [List.mem_cons, List.mem_append, Prod.mk.injEq, reduceCtorEq, and_false, false_or] at ha
    rcases ha with ⟨-, e⟩ | ha | ha | ⟨-, rfl⟩ | ha
    · cases e
      exact ⟨(p, Instr.branch flag n) :: ys, j, m, zs ++ (m, k) :: ws, by simp⟩
    · exact ih₁.within ha [(p, Instr.branch flag n)] ((j, Instr.jump m) :: (n, Instr.nop) :: (zs ++ (m, k) :: ws))
    · have := ih₂.within ha ((p, Instr.branch flag n) :: (ys ++ [(j, Instr.jump m), (n, Instr.nop)])) ((m, k) :: ws)
      simpa only [List.cons_append, List.append_assoc, List.nil_append] using this
    · cases hk
    · have := ih₃.within ha
        ((p, Instr.branch flag n) :: (ys ++ (j, Instr.jump m) :: (n, Instr.nop) :: (zs ++ [(m, k)]))) []
      simpa only [List.cons_append, List.append_assoc, List.nil_append, List.append_nil] using this

/-! ## Orderly code -/

theorem idxOf_lt_of_before (hnd : (ids code).Nodup) (h : Before code a b) :
    (ids code).idxOf a < (ids code).idxOf b := by
  have hpw : (ids code).Pairwise fun x y => (ids code).idxOf x < (ids code).idxOf y := by
    rw [List.pairwise_iff_getElem]
    intro i j hi hj hij
    rwa [hnd.idxOf_getElem i hi, hnd.idxOf_getElem j hj]
  have := hpw.sublist h
  simpa using this

/-- **Shaped code that ends is orderly.** -/
theorem Shaped.orderly (h : Shaped xs) (hnd : (ids (xs ++ [(tail, Instr.done)])).Nodup) :
    Orderly (xs ++ [(tail, Instr.done)]) := by
  have hin : ∀ {a i b}, (a, i) ∈ xs ++ [(tail, Instr.done)] → i.label? = some b → (a, i) ∈ xs := by
    intro a i b ha hb
    rcases List.mem_append.mp ha with ha | ha
    · exact ha
    · cases List.mem_singleton.mp ha
      cases hb
  have hsub : xs.Sublist (xs ++ [(tail, Instr.done)]) := List.sublist_append_left _ _
  have hnd' : (ids xs).Nodup := hnd.sublist (hsub.map _)
  -- control only goes forward
  have hforward : ∀ {a b}, Step (xs ++ [(tail, Instr.done)]) a b →
      (ids (xs ++ [(tail, Instr.done)])).idxOf a < (ids (xs ++ [(tail, Instr.done)])).idxOf b := by
    rintro a b ⟨us, i, vs, e, hb⟩
    refine idxOf_lt_of_before hnd ?_
    rcases mem_targets_iff.mp hb with ⟨-, hb⟩ | hb
    · rw [e]
      have := before_of_append (us ++ [(a, i)]) vs (a := a) (by simp) (firstId_mem hb rfl)
      simpa using this
    · exact (h.closed.within hsub (hin (by rw [e]; simp) hb) hb).1
  refine ⟨hnd, ⟨xs, rfl⟩, fun a ha => ?_, fun ha hb => ?_, fun {a c no p} ha hs => ?_⟩
  · have hlt : ∀ {b}, Relation.TransGen (Step (xs ++ [(tail, Instr.done)])) a b →
        (ids (xs ++ [(tail, Instr.done)])).idxOf a < (ids (xs ++ [(tail, Instr.done)])).idxOf b := by
      intro b hab
      induction hab with
      | single h => exact hforward h
      | tail _ h ih => exact ih.trans (hforward h)
    exact absurd (hlt ha) (Nat.lt_irrefl _)
  · exact (h.closed.within hsub (hin ha hb) hb).2
  · have ha' := hin ha rfl
    obtain ⟨us, i, vs, e, hno⟩ := hs
    rcases mem_targets_iff.mp hno with ⟨hfalls, hno⟩ | hno
    · -- the node before the second arm is a jump
      obtain ⟨xs', j, m, ys', e'⟩ := h.guarded a c no ha'
      rcases vs with _ | ⟨⟨q, k⟩, vs⟩
      · cases hno
      · obtain rfl : q = no := Option.some.inj hno
        have h₁ : xs ++ [(tail, Instr.done)] = (us ++ [(p, i)]) ++ (q, k) :: vs := by simp [e]
        have h₂ : xs ++ [(tail, Instr.done)] = (xs' ++ [(j, Instr.jump m)]) ++ (q, Instr.nop) ::
            (ys' ++ [(tail, Instr.done)]) := by simp [e']
        obtain ⟨hsame, -, -⟩ := split_unique hnd h₁ h₂
        have hlast := List.append_inj_right' hsame rfl
        simp only [List.cons.injEq, Prod.mk.injEq, and_true] at hlast
        exact absurd hlast.2 (hfalls.2 m)
    · have hp : (p, i) ∈ xs ++ [(tail, Instr.done)] := by rw [e]; simp
      exact h.alone hnd' _ _ _ _ _ ha' (hin hp hno) hno

end CountedMachine.Listing
