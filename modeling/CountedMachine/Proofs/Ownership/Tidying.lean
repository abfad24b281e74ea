import CountedMachine.Proofs.Ownership.Audit

/-! # Cleaning up after the ownership instructions

`tidy` takes out the loads of registers that nothing reads and the ownership instructions on them, but
not what stands under the cursor (`eraseUnreadLoads_eq`). No pair is left to fold, since a register is
released in a block of its own, after a node that stays (`Placed.unfused`). So the result is thinned
code, which the checkers accept, unless the cursor stands on the load of a counted register
(`Placed.tidy_spec`). -/

namespace CountedMachine.Listing

variable {l l' : Listing} {code xs ys : Code} {block : NodeId → Code} {r : Reg}
  {isNil : ConstId → Bool} {a b : NodeId} {i j : Instr NodeId}

theorem creates_of_idleLoad (h : idleLoad? isNil i = some r) : i.creates = some r := by
  cases i <;> simp_all [idleLoad?, Instr.creates]

theorem loadOrAdjust_of_idleLoad (h : idleLoad? isNil i = some r) : loadOrAdjust? i = some r := by
  cases i <;> simp_all [idleLoad?, loadOrAdjust?]

/-- **A register that is loaded without effect and never read.** -/
def Dead (isNil : ConstId → Bool) (code : Code) (r : Reg) : Prop :=
  (∃ a i, (a, i) ∈ code ∧ idleLoad? isNil i = some r) ∧ ∀ a i, (a, i) ∈ code → i.reads r = false

/-- The registers whose loads are taken out. -/
def deadRegs (isNil : ConstId → Bool) (code : Code) : List Reg :=
  (code.filterMap fun p => idleLoad? isNil p.2).filter fun r =>
    !(Std.HashSet.ofList (code.flatMap fun p => p.2.inputs)).contains r

theorem contains_deadRegs : (deadRegs isNil code).contains r = true ↔ Dead isNil code r := by
  rw [List.contains_iff_mem, deadRegs, List.mem_filter, List.mem_filterMap]
  simp only [Std.HashSet.contains_ofList, Bool.not_eq_true', List.contains_eq_mem,
    decide_eq_false_iff_not, List.mem_flatMap, not_exists, not_and, Prod.exists]
  refine and_congr Iff.rfl (forall₂_congr fun a i => ?_)
  rw [Instr.reads, List.contains_eq_mem, decide_eq_false_iff_not]

/-- A node is kept unless it is about a dead register and not under the cursor. -/
def kept (isNil : ConstId → Bool) (code : Code) (cursor : NodeId) (p : NodeId × Instr NodeId) : Bool :=
  !((loadOrAdjust? p.2).any (deadRegs isNil code).contains && p.1 ≠ cursor)

theorem kept_eq_false {cursor : NodeId} : kept isNil code cursor (a, i) = false ↔
    (∃ r, loadOrAdjust? i = some r ∧ Dead isNil code r) ∧ a ≠ cursor := by
  simp only [kept, Bool.not_eq_false', Bool.and_eq_true, decide_eq_true_eq]
  refine and_congr_left fun _ => ?_
  cases loadOrAdjust? i with
  | none => simp
  | some r =>
    rw [Option.any_some, contains_deadRegs]
    exact ⟨fun h => ⟨r, rfl, h⟩, fun ⟨r', e, h⟩ => Option.some.inj e ▸ h⟩

/-! ## Taking loads out -/

theorem eraseDead_loop {dead : List Reg} {keep : NodeId × Instr NodeId → Bool} {cursor : NodeId}
    (hkeep : ∀ a i, keep (a, i) = !((loadOrAdjust? i).any dead.contains && a ≠ cursor)) :
    ∀ {ys : Code} {l : Listing} {xs : Code} {n : Nat}, Linked l (xs ++ ys) → l.cursor = cursor →
      (∀ p ∈ ys, keep p = false → p.1 ≠ head ∧ p.1 ≠ tail) →
      ∃ l' n', ys.foldlM (eraseDead dead) (l, n) = .ok (l', n') ∧ Linked l' (xs ++ ys.filter keep) ∧
        l'.cursor = cursor ∧ l'.regs = l.regs
  | [], l, xs, n, hl, hcur, _ => ⟨l, n, rfl, by simpa using hl, hcur, rfl⟩
  | (a, i) :: ys, l, xs, n, hl, hcur, hends => by
    cases hk : keep (a, i) with
    | true =>
      have hcond : ((loadOrAdjust? i).any dead.contains && decide (a ≠ l.cursor)) = false := by
        rw [hkeep, Bool.not_eq_true'] at hk
        rw [hcur]
        exact hk
      have hl' : Linked l ((xs ++ [(a, i)]) ++ ys) := by simpa using hl
      obtain ⟨l', n', e, hl'', hcur', hregs⟩ := eraseDead_loop hkeep (n := n) hl' hcur
        fun p hp => hends p (by simp [hp])
      refine ⟨l', n', ?_, by simpa [hk] using hl'', hcur', hregs⟩
      rw [List.foldlM_cons, eraseDead, if_neg (by rw [hcond]; simp)]
      exact e
    | false =>
      have hcond : ((loadOrAdjust? i).any dead.contains && decide (a ≠ l.cursor)) = true := by
        rw [hkeep, Bool.not_eq_false'] at hk
        rw [hcur]
        exact hk
      obtain ⟨hhead, htail⟩ := hends (a, i) (by simp) hk
      have hne : a ≠ l.cursor := by simpa using (Bool.and_eq_true_iff.mp hcond).2
      obtain ⟨l₁, e₁, hl₁, hcur₁, hregs₁⟩ := hl.erase hhead htail hne
      obtain ⟨l', n', e, hl'', hcur', hregs⟩ := eraseDead_loop hkeep (n := n + 1) hl₁
        (hcur₁.trans hcur) fun p hp => hends p (by simp [hp])
      refine ⟨l', n', ?_, by simpa [hk] using hl'', hcur', hregs.trans hregs₁⟩
      rw [List.foldlM_cons, eraseDead, if_pos hcond, e₁]
      exact e

/-- **Taking out the unread loads** of a listing. -/
theorem eraseUnreadLoads_eq (hl : Linked l code)
    (hends : ∀ p ∈ code, kept isNil code l.cursor p = false → p.1 ≠ head ∧ p.1 ≠ tail) :
    ∃ l' n, l.eraseUnreadLoads isNil = .ok (l', n) ∧
      Linked l' (code.filter (kept isNil code l.cursor)) ∧ l'.cursor = l.cursor ∧ l'.regs = l.regs := by
  rw [eraseUnreadLoads, hl.entries_eq]
  have hl' : Linked l ([] ++ code) := hl
  exact eraseDead_loop (fun _ _ => rfl) hl' rfl hends

/-- The first node cannot be taken out. -/
theorem eraseUnreadLoads_head (hl : Linked l code) (hi : (head, i) ∈ code)
    (hk : kept isNil code l.cursor (head, i) = false) :
    l.eraseUnreadLoads isNil = .error .sentinelRemoved := by
  obtain ⟨xs, rfl⟩ : ∃ ys, code = (head, i) :: ys := by
    rcases code with _ | ⟨⟨a, j⟩, ys⟩
    · simp at hi
    · obtain rfl : a = head := Option.some.inj hl.first
      obtain rfl : i = j := instr_unique hl.nodup hi List.mem_cons_self
      exact ⟨ys, rfl⟩
  rw [eraseUnreadLoads, hl.entries_eq]
  have hcond : ((loadOrAdjust? i).any (deadRegs isNil ((head, i) :: xs)).contains &&
      decide (head ≠ l.cursor)) = true := by
    simpa [kept] using hk
  have herase : l.erase head = .error .sentinelRemoved := rfl
  change List.foldlM (eraseDead (deadRegs isNil ((head, i) :: xs))) (l, 0) ((head, i) :: xs) = _
  rw [List.foldlM_cons, eraseDead, if_pos hcond, herase]
  rfl

/-! ## Folding pairs -/

/-- No ownership instruction stands right after one that it would undo. -/
def Unfused (code : Code) : Prop :=
  ∀ {xs a b r op ys}, code = xs ++ (a, Instr.adjust .inc r) :: (b, Instr.adjust op r) :: ys →
    op ≠ .dec ∧ op ≠ .unref

theorem fusePair_eq (h : ∀ {r op}, i = .adjust .inc r → j = .adjust op r → op ≠ .dec ∧ op ≠ .unref) :
    l.fusePair a b i j = .ok (l, some b, 0) := by
  unfold fusePair
  split
  · rw [if_neg]
    · rfl
    · intro hc
      simp only [Bool.and_eq_true, decide_eq_true_eq] at hc
      exact (h rfl (by rw [hc.1.1])).1 rfl
  · rw [if_neg]
    · rfl
    · intro hc
      simp only [Bool.and_eq_true, decide_eq_true_eq] at hc
      exact (h rfl (by rw [hc.1])).2 rfl
  · rfl

theorem fusePairsFrom_eq (hl : Linked l code) (hu : Unfused code) : ∀ (fuel : Nat) (o : Option NodeId)
    (n : Nat), (∀ a, o = some a → a ∈ ids code) → fusePairsFrom fuel l o n = .ok (l, n)
  | 0, _, _, _ => rfl
  | fuel + 1, none, _, _ => rfl
  | fuel + 1, some a, n, ho => by
    obtain ⟨xs, i, ys, hcode⟩ := exists_split (ho a rfl)
    have hnode := (hcode ▸ hl : Linked l (xs ++ (a, i) :: ys)).node?_eq
    rcases ys with _ | ⟨⟨b, j⟩, ys⟩
    · simp [fusePairsFrom, node, hnode, firstId, bind, Except.bind, pure, Except.pure]
    · have hpair : l.fusePair a b i j = .ok (l, some b, 0) :=
        fusePair_eq fun hi hj => hu (by rw [hcode, hi, hj])
      have hb : l.get b = .ok j := hl.get_eq (by simp [hcode])
      simp only [fusePairsFrom, node, hnode, firstId, hb, hpair, bind, Except.bind]
      refine fusePairsFrom_eq hl hu fuel (some b) (n + 0) fun c hc => ?_
      simp [hcode, Option.some.inj hc]

/-- **Code without pairs** stays as it is. -/
theorem fusePairs_eq (hl : Linked l code) (hu : Unfused code) : l.fusePairs = .ok (l, 0) := by
  obtain ⟨xs, i, ys, hcode⟩ := exists_split hl.head_mem
  rw [fusePairs, (hcode ▸ hl : Linked l (xs ++ (head, i) :: ys)).next_eq]
  refine fusePairsFrom_eq hl hu _ _ 0 fun a ha => ?_
  have := firstId_mem ha rfl
  simp [hcode, this]

/-! ## The woven code -/

/-- A node after whose block a register is released is no load. -/
theorem Released.loadOrAdjust (ho : Orderly code) {first : NodeId} (h : Released code r first a) :
    ∃ i, (a, i) ∈ code ∧ loadOrAdjust? i = none := by
  obtain ⟨b, -, ⟨rfl, i, hi, hcase⟩ | ⟨c, n, hb, -⟩⟩ := h
  · refine ⟨i, hi, ?_⟩
    rcases hcase with ⟨hr, -⟩ | ⟨c, no, rfl, -⟩
    · cases hq : loadOrAdjust? i with
      | none => rfl
      | some q =>
        rw [reads_of_loadOrAdjust hq] at hr
        cases hr
    · rfl
  · obtain ⟨j, hj, hlab⟩ := ho.labels hb rfl
    exact ⟨j, hj, loadOrAdjust_of_label hlab⟩

section
variable (hr : Ready l code) (hp : Placed l code block)
include hp

theorem Placed.dead_weave : Dead isNil (weave code block) r ↔ Dead isNil code r := by
  constructor
  · rintro ⟨⟨a, i, hi, hidle⟩, hunread⟩
    refine ⟨⟨a, i, hp.mem_code hi (by rintro op q rfl; cases hidle), hidle⟩, fun b j hj => ?_⟩
    exact hunread b j (mem_weave.mpr (Or.inl hj))
  · rintro ⟨⟨a, i, hi, hidle⟩, hunread⟩
    refine ⟨⟨a, i, mem_weave.mpr (Or.inl hi), hidle⟩, fun b j hj => ?_⟩
    rcases mem_weave.mp hj with hj | ⟨c, -, hj⟩
    · exact hunread b j hj
    · obtain ⟨op, q, g, rfl, -⟩ := hp.adjusts hj
      rfl

/-- What is taken out of the woven code. -/
theorem Placed.kept_weave {cursor : NodeId} : kept isNil (weave code block) cursor (a, i) = false ↔
    (∃ r, loadOrAdjust? i = some r ∧ Dead isNil code r) ∧ a ≠ cursor := by
  rw [kept_eq_false]
  refine and_congr_left fun _ => exists_congr fun r => and_congr_right fun _ => hp.dead_weave

include hr

/-- An operation in a block is the one that was planned: acquiring or dropping at the creation, or
releasing after a node that is no load. -/
theorem Placed.op_cases {x : NodeId} {op : CountOp} (hx : (x, .adjust op r) ∈ block a) :
    opsOn r (block a) = [op] ∧ op ≠ .dec ∧
      (op = .unref → ∀ {y i j}, (y, i) ∈ code → i.creates = some r → a ≠ y →
        (a, j) ∈ code → loadOrAdjust? j = none) ∧
      (op = .inc → ∃ i, (a, i) ∈ code ∧ i.creates = some r) := by
  obtain ⟨op', q, g, e, hg, hcounted, c, i, hc, hcr⟩ := hp.adjusts hx
  cases e
  obtain ⟨first, hnext, -⟩ := hr.orderly.exists_next hc (by rintro rfl; cases hcr)
  have hpl := hp.placedFor hg hcounted hc hcr hnext
  have hmem : op ∈ opsOn r (block a) := List.mem_filterMap.mpr ⟨_, hx, by simp [opOn]⟩
  have hone : opsOn r (block a) = [op] := by
    rcases hpl.few a with e | ⟨op', e⟩
    · rw [e] at hmem
      simp at hmem
    · rw [e] at hmem ⊢
      rw [List.mem_singleton.mp hmem]
  have hcreated : op ≠ .unref → a = c := fun hop => by
    by_contra hne
    by_cases hrel : Live code r first ∧ Released code r first a
    · rw [hpl.release hne hrel.1 hrel.2] at hone
      exact hop (List.cons.inj hone).1.symm
    · rw [hpl.none hne hrel] at hone
      cases hone
  refine ⟨hone, ?_, ?_, fun hop => ?_⟩
  · rintro rfl
    obtain rfl := hcreated (by decide)
    by_cases hL : Live code r first
    · cases hown : g.bornOwned with
      | true =>
        rw [hpl.keep hL hown] at hone
        cases hone
      | false =>
        rw [hpl.acquire hL hown] at hone
        cases hone
    · rw [hpl.discard hL] at hone
      cases hown : g.bornOwned <;> rw [hown] at hone <;> cases hone
  · rintro rfl y i' j hy hycr hne hj
    obtain rfl := hr.single hg hcounted hy hycr hc hcr
    by_cases hrel : Live code r first ∧ Released code r first a
    · obtain ⟨k, hk, hnone⟩ := hrel.2.loadOrAdjust hr.orderly
      rw [instr_unique hr.orderly.nodup hj hk]
      exact hnone
    · rw [hpl.none hne hrel] at hone
      cases hone
  · obtain rfl := hcreated (by rw [hop]; decide)
    exact ⟨i, hc, hcr⟩

/-- **No pair is left to fold**, whatever loads and ownership instructions are taken out. -/
theorem Placed.unfused {keep : NodeId × Instr NodeId → Bool} (hnd : (ids (weave code block)).Nodup)
    (hkeep : ∀ {a i}, (a, i) ∈ code → loadOrAdjust? i = none → keep (a, i) = true) :
    Unfused ((weave code block).filter keep) := by
  intro xs a b r op ys e
  -- what stood between the two has been taken out
  obtain ⟨X, Y, hw, -, hY⟩ := List.filter_eq_append_iff.mp e
  obtain ⟨X₂, Y₂, hX₂, hout, -, hY₂⟩ := List.filter_eq_cons_iff.mp hY
  obtain ⟨M, Y₃, hM, hgone, -, -⟩ := List.filter_eq_cons_iff.mp hY₂
  set front := X ++ X₂ with hfront
  have hw' : weave code block = front ++ (a, Instr.adjust .inc r) :: (M ++ (b, Instr.adjust op r) :: Y₃) := by
    rw [hw, hX₂, hM, hfront]
    simp
  have hblock : ∀ x op, (x, Instr.adjust op r) ∈ weave code block →
      ∃ c ∈ ids code, (x, .adjust op r) ∈ block c := fun _ _ h =>
    (mem_weave.mp h).resolve_left hr.unadjusted
  obtain ⟨c, hc, hac⟩ := hblock a .inc (by rw [hw']; simp)
  obtain ⟨d, hd, hbd⟩ := hblock b op (by rw [hw']; simp)
  obtain ⟨hone, hdec, hunref, -⟩ := hp.op_cases hr hbd
  obtain ⟨hone', -, -, hinc⟩ := hp.op_cases hr hac
  obtain ⟨ic, hic, hcreates⟩ := hinc rfl
  refine ⟨hdec, ?_⟩
  rintro rfl
  have hne : d ≠ c := by
    rintro rfl
    rw [hone] at hone'
    cases hone'
  -- the node before the release stands in between, and it is no load
  obtain ⟨cs, k, ds, hcode⟩ := exists_split hd
  obtain ⟨pre, post, hpre⟩ := List.append_of_mem hbd
  have hw₂ : weave code block =
      (weave cs block ++ (d, k) :: pre) ++ (b, Instr.adjust .unref r) :: (post ++ weave ds block) := by
    rw [hcode, weave_append, weave_cons, hpre]
    simp
  have hw₁ : weave code block =
      (front ++ (a, Instr.adjust .inc r) :: M) ++ (b, Instr.adjust .unref r) :: Y₃ := by
    rw [hw']
    simp
  obtain ⟨hsame, -, -⟩ := split_unique hnd hw₁ hw₂
  have hdk : (d, k) ∈ code := by simp [hcode]
  have hstays : (d, k) ∉ M := fun hmem => by
    have := hgone _ hmem
    rw [hkeep hdk (hunref rfl hic hcreates hne hdk)] at this
    exact this rfl
  have hadj : (a, Instr.adjust CountOp.inc r) ≠ (d, k) := fun he => hr.unadjusted (he ▸ hdk)
  rcases List.append_eq_append_iff.mp hsame with ⟨zs, h₁, h₂⟩ | ⟨zs, h₁, h₂⟩
  · rcases zs with _ | ⟨z, zs⟩
    · exact hadj (List.cons.inj h₂).1
    · exact hstays (by rw [(List.cons.inj h₂).2]; simp)
  · rcases zs with _ | ⟨z, zs⟩
    · exact hadj (List.cons.inj h₂).1.symm
    · -- the release would stand in the block of the creation
      have hin : (a, .adjust .inc r) ∈ block d := by
        rw [hpre, (List.cons.inj h₂).2]
        simp
      obtain ⟨hone'', -⟩ := hp.op_cases hr hin
      rw [hone] at hone''
      cases hone''

end

/-- **What can be cleaned up:** the first node does not load a dead register, unless it is under the
cursor, and the node under the cursor does not load a dead register that is counted. -/
structure Clear (l : Listing) (isNil : ConstId → Bool) (code : Code) : Prop where
  head : ∀ {i r}, (head, i) ∈ code → loadOrAdjust? i = some r → Dead isNil code r → l.cursor = head
  cursor : ∀ {i r f}, (l.cursor, i) ∈ code → loadOrAdjust? i = some r → Dead isNil code r →
    l.regs[r.index]? = some f → f.counted = false

section
variable (hr : Ready l code) (hp : Placed l code block) (hl : Linked l' (weave code block))
  (hcur : l'.cursor = l.cursor) (hregs : l'.regs = l.regs)
include hr hp hl

/-- **Cleaning up** takes loads and ownership instructions out, and does nothing else. -/
theorem Placed.tidy_eq (hhead : ∀ {i r}, (head, i) ∈ code → loadOrAdjust? i = some r →
    Dead isNil code r → l'.cursor = head) :
    ∃ l'' n, l'.tidy isNil = .ok (l'', n) ∧
      Linked l'' ((weave code block).filter (kept isNil (weave code block) l'.cursor)) ∧
      l''.regs = l'.regs := by
  have hends : ∀ p ∈ weave code block, kept isNil (weave code block) l'.cursor p = false →
      p.1 ≠ head ∧ p.1 ≠ tail := by
    rintro ⟨a, i⟩ hmem hk
    obtain ⟨⟨r, hload, hdead⟩, hne⟩ := hp.kept_weave.mp hk
    have hin : ∀ {b j}, (b, j) ∈ code → a = b → (b, j) = (a, i) := fun hb e => by
      subst e
      rw [instr_unique hl.nodup hmem (mem_weave.mpr (Or.inl hb))]
    refine ⟨fun e => ?_, fun e => ?_⟩
    · obtain ⟨j, hj⟩ := exists_instr hr.linked.head_mem
      have hji := hin hj e
      simp only [Prod.mk.injEq] at hji
      exact hne (e.trans (hhead hj (hji.2 ▸ hload) hdead).symm)
    · obtain ⟨zs, hcode⟩ := hr.orderly.ends
      have hji := hin (j := .done) (by rw [hcode]; simp) e
      simp only [Prod.mk.injEq] at hji
      rw [← hji.2] at hload
      cases hload
  obtain ⟨l₁, n, e, hl₁, -, hregs₁⟩ := eraseUnreadLoads_eq hl hends
  have hu : Unfused ((weave code block).filter (kept isNil (weave code block) l'.cursor)) :=
    hp.unfused hr hl.nodup fun {a i} _ hnone => by
      by_contra h
      obtain ⟨⟨r, hload, -⟩, -⟩ := hp.kept_weave.mp (by simpa using h)
      rw [hnone] at hload
      cases hload
  refine ⟨l₁, n + 0, ?_, hl₁, hregs₁⟩
  simp only [tidy, e, fusePairs_eq hl₁ hu, bind, Except.bind]
  rfl

include hcur hregs

/-- **What is left is thinned code** when the cursor does not stand in the way. -/
theorem Placed.thinned (hc : Clear l isNil code) {l'' : Listing}
    (hl'' : Linked l'' ((weave code block).filter (kept isNil (weave code block) l'.cursor)))
    (hregs'' : l''.regs = l'.regs) :
    Thinned l code block l'' (kept isNil (weave code block) l'.cursor) := by
  refine ⟨⟨l', hl⟩, hl'', hregs''.trans hregs, ?_, fun hx hk => ?_, fun hx hk hq hb => ?_,
    fun {a i q g b j} hx hk hq hg hcounted hb hj => ?_⟩
  · by_contra h
    obtain ⟨⟨r, hload, -⟩, -⟩ := hp.kept_weave.mp (by simpa using h)
    cases hload
  · obtain ⟨⟨r, hload, -⟩, -⟩ := hp.kept_weave.mp hk
    exact ⟨r, hload⟩
  · obtain ⟨⟨r, hload, hdead⟩, -⟩ := hp.kept_weave.mp hk
    obtain rfl : r = _ := Option.some.inj (hload.symm.trans hq)
    exact hdead.2 _ _ hb
  · obtain ⟨⟨r, hload, hdead⟩, -⟩ := hp.kept_weave.mp hk
    obtain rfl : r = q := Option.some.inj (hload.symm.trans hq)
    -- the register is created by the load without effect only
    obtain ⟨c, k, hck, hidle⟩ := hdead.1
    obtain rfl : b = c := hr.single hg hcounted hb hj hck (creates_of_idleLoad hidle)
    obtain rfl : j = k := instr_unique hr.orderly.nodup hb hck
    refine hp.kept_weave.mpr ⟨⟨r, loadOrAdjust_of_idleLoad hidle, hdead⟩, fun e => ?_⟩
    rw [hc.cursor (hcur ▸ e ▸ hb) (loadOrAdjust_of_idleLoad hidle) hdead hg] at hcounted
    cases hcounted

omit hr hcur hregs in
/-- The first node is not taken out: cleaning up fails when it loads a dead register. -/
theorem Placed.tidy_head (hi : (head, i) ∈ code) (hload : loadOrAdjust? i = some r)
    (hdead : Dead isNil code r) (hne : l'.cursor ≠ head) :
    l'.tidy isNil = .error .sentinelRemoved := by
  have hk : kept isNil (weave code block) l'.cursor (head, i) = false :=
    hp.kept_weave.mpr ⟨⟨r, hload, hdead⟩, hne.symm⟩
  rw [tidy, eraseUnreadLoads_head hl (mem_weave.mpr (Or.inl hi)) hk]
  rfl

end

/-! ## A load under the cursor -/

theorem firstFinding_none {α : Type} {check : α → Except Fault Verdict} : ∀ {xs : List α},
    firstFinding check xs = .ok none → ∀ x ∈ xs, check x = .ok none
  | x :: xs, h, y, hy => by
    rw [firstFinding] at h
    cases hx : check x with
    | error e => simp [hx, bind, Except.bind] at h
    | ok v =>
      cases v with
      | some e => simp [hx, bind, Except.bind, pure, Except.pure] at h
      | none =>
        rcases List.mem_cons.mp hy with rfl | hy
        · exact hx
        · exact firstFinding_none (by simpa [hx, bind, Except.bind] using h) y hy

/-- When the checkers accept a listing they accept its registers. -/
theorem auditReg_of_audit (h : l.audit = .ok none) (hr : r.index < l.regs.size)
    (hdef : l.creatorsOf r ≠ []) : l.auditReg r = .ok none := by
  have hregs : firstFinding l.auditReg (((List.range l.regs.size).map Reg.mk).filter
      fun r => !(l.creatorsOf r).isEmpty) = .ok none := by
    simp only [audit, bind, Except.bind] at h
    split at h
    · cases h
    · rename_i v hv
      split at h
      · cases h
      · exact hv
  refine firstFinding_none hregs r (List.mem_filter.mpr ⟨?_, by simpa using hdef⟩)
  exact List.mem_map.mpr ⟨r.index, List.mem_range.mpr hr, rfl⟩

/-- Nodes from which a path never ends: a terminal instruction is never among them. -/
structure Endless (code : Code) (S : NodeId → Prop) : Prop where
  goes : ∀ {a}, S a → ∃ xs i ys, code = xs ++ (a, i) :: ys ∧ i.isTerminal = false ∧
    ∀ b ∈ targets i (firstId ys none), S b

/-- Past a block that has been thinned. -/
theorem Endless.skip {S : NodeId → Prop} (hS : Endless code S) (hnd : (ids code).Nodup) :
    ∀ {xs ys zs : Code}, code = xs ++ (ys ++ zs) → (∀ x i, (x, i) ∈ ys → Falls i) →
      (∀ b, firstId (ys ++ zs) none = some b → S b) → ∀ b, firstId zs none = some b → S b
  | xs, [], zs, _, _, h => h
  | xs, (x, i) :: ys, zs, hcode, hfalls, h => by
    obtain ⟨xs', i', ys', hcode', -, hnext⟩ := hS.goes (h x rfl)
    obtain ⟨-, rfl, rfl⟩ := split_unique hnd hcode hcode'
    have hcode₁ : code = (xs ++ [(x, i)]) ++ (ys ++ zs) := by simp [hcode]
    refine hS.skip hnd hcode₁ (fun y j hy => hfalls y j (by simp [hy])) fun b hb => ?_
    exact hnext b (mem_targets_iff.mpr (Or.inl ⟨hfalls x i (by simp), hb⟩))

/-- The next old node, when what comes before it in the woven code has been passed. -/
theorem Orderly.exists_cons (ho : Orderly code) {xs ys : Code} (hcode : code = xs ++ (a, i) :: ys)
    (hi : i.isTerminal = false) : ∃ n k zs, ys = (n, k) :: zs := by
  obtain ⟨n, hn, -⟩ := ho.firstId_of_falls hcode hi
  rcases ys with _ | ⟨⟨n', k⟩, zs⟩
  · cases hn
  · exact ⟨n', k, zs, rfl⟩

section
variable (hr : Ready l code) (hp : Placed l code block) (hl : Linked l' (weave code block))
include hr hp hl

/-- **In thinned code every path ends**: the paths are those of the old code. -/
theorem Placed.not_endless {cursor : NodeId} {S : NodeId → Prop}
    (hS : Endless ((weave code block).filter (kept isNil (weave code block) cursor)) S) (a : NodeId) :
    ∀ {xs i ys}, code = xs ++ (a, i) :: ys → (∀ b, firstId ((weave ((a, i) :: ys) block).filter
      (kept isNil (weave code block) cursor)) none = some b → S b) → False := by
  have ho := hr.orderly
  set keep := kept isNil (weave code block) cursor with hkeep
  have hnd : (ids ((weave code block).filter keep)).Nodup :=
    hl.nodup.sublist (List.Sublist.map _ List.filter_sublist)
  have hblock : ∀ {c x j}, (x, j) ∈ (block c).filter keep → Falls j := fun hx => by
    obtain ⟨op, q, g, rfl, -⟩ := hp.adjusts (List.mem_filter.mp hx).1
    exact ⟨rfl, by simp⟩
  induction a using ho.induction with
  | hstep a ih =>
    intro xs i ys hcode hfirst
    have hw : (weave code block).filter keep = (weave xs block).filter keep ++
        (weave ((a, i) :: ys) block).filter keep := by
      rw [hcode, weave_append, List.filter_append]
    rw [weave_cons] at hfirst hw
    have hia : (a, i) ∈ code := by simp [hcode]
    -- when control falls through, the next old node is reached
    have hfall : ∀ {zs : Code}, (weave code block).filter keep =
        zs ++ (block a ++ weave ys block).filter keep → Falls i →
        (∀ b, firstId ((block a ++ weave ys block).filter keep) none = some b → S b) → False := by
      intro zs hzs hi hb
      rw [List.filter_append] at hzs hb
      obtain ⟨n, k, ws, rfl⟩ := ho.exists_cons hcode hi.1
      have hstep : Step code a n :=
        step_of_falls ho.nodup hia hi ⟨xs, i, (n, k) :: ws, hcode, rfl⟩
      have hcode' : code = (xs ++ [(a, i)]) ++ (n, k) :: ws := by simp [hcode]
      refine ih n hstep hcode' ?_
      exact hS.skip hnd hzs (fun x j hx => hblock hx) hb
    cases hk : keep (a, i) with
    | false =>
      obtain ⟨⟨r, hload, -⟩, -⟩ := hp.kept_weave.mp (hkeep ▸ hk)
      rw [List.filter_cons_of_neg (by simp [hk])] at hfirst hw
      exact hfall hw (falls_of_loadOrAdjust hload) hfirst
    | true =>
      rw [List.filter_cons_of_pos hk] at hfirst hw
      obtain ⟨xs', i', ys', hsplit, hterm, hnext⟩ := hS.goes (hfirst a rfl)
      obtain ⟨-, rfl, rfl⟩ := split_unique hnd hw hsplit
      cases hlab : i.label? with
      | some t =>
        obtain ⟨j, hj, hjl⟩ := ho.labels hia hlab
        obtain ⟨cs, ds, hcs⟩ := List.append_of_mem hj
        have hkt : keep (t, j) = true := by
          by_contra h
          obtain ⟨⟨r, hload, -⟩, -⟩ := hp.kept_weave.mp (by simpa [hkeep] using h)
          rw [loadOrAdjust_of_label hjl] at hload
          cases hload
        refine ih t (step_of_label hia hlab) hcs fun b hb => ?_
        rw [weave_cons, List.filter_cons_of_pos hkt] at hb
        obtain rfl : t = b := Option.some.inj hb
        exact hnext t (mem_targets_iff.mpr (Or.inr hlab))
      | none =>
        have hi : Falls i := ⟨hterm, fun t e => by rw [e] at hlab; cases hlab⟩
        have hw' : (weave code block).filter keep =
            ((weave xs block).filter keep ++ [(a, i)]) ++ (block a ++ weave ys block).filter keep := by
          rw [hw]
          simp
        exact hfall hw' hi fun b hb => hnext b (mem_targets_iff.mpr (Or.inl ⟨hi, hb⟩))

/-- **A load under the cursor** loses its ownership instructions, and the checkers find that it is
never released. -/
theorem Placed.tidy_cursor {f : RegFacts} (hi : (l'.cursor, i) ∈ code)
    (hload : loadOrAdjust? i = some r) (hdead : Dead isNil code r) (hf : l.regs[r.index]? = some f)
    (hcounted : f.counted = true) {l'' : Listing}
    (hl'' : Linked l'' ((weave code block).filter (kept isNil (weave code block) l'.cursor)))
    (hregs'' : l''.regs = l.regs) : l''.audit ≠ .ok none := by
  intro haudit
  have ho := hr.orderly
  set keep := kept isNil (weave code block) l'.cursor with hkeep
  set c := l'.cursor with hc
  have hcr : i.creates = some r := by
    refine (creates_of_loadOrAdjust hload).resolve_right ?_
    rintro ⟨op, rfl⟩
    exact hr.unadjusted hi
  have hk : keep (c, i) = true := by
    by_contra h
    exact (hp.kept_weave.mp (by simpa [hkeep] using h)).2 rfl
  have hcreators : l''.creatorsOf r = [c] := by
    refine hl''.creatorsOf_eq (List.mem_filter.mpr ⟨mem_weave.mpr (Or.inl hi), hk⟩) hcr ?_
    intro b j hb hj
    obtain ⟨hb, -⟩ := hp.mem_code_of_kept hb (by rintro op q rfl; cases hj)
    exact hr.single hf hcounted hb hj hi hcr
  have hsize : r.index < l''.regs.size := by
    rw [hregs'']
    exact (Array.getElem?_eq_some_iff.mp hf).1
  have hreg := auditReg_of_audit haudit hsize (by rw [hcreators]; simp)
  obtain ⟨xs, ys, hcode⟩ := List.append_of_mem hi
  have hw : (weave code block).filter keep =
      (weave xs block).filter keep ++ (c, i) :: (block c ++ weave ys block).filter keep := by
    rw [hcode, weave_append, weave_cons, List.filter_append, List.filter_cons_of_pos hk]
  have hfalls := falls_of_creates hcr
  have hfacts : l''.factsOf r = .ok f := factsOf_eq (hregs'' ▸ hf)
  have hlink : Linked l'' ((weave xs block).filter keep ++
      (c, i) :: (block c ++ weave ys block).filter keep) := hw ▸ hl''
  simp only [auditReg, hfacts, hcounted, if_true, hcreators, hlink.successors_eq, bind,
    Except.bind] at hreg
  split_ifs at hreg
  · cases hreg
  · obtain ⟨seen, -, hwork, hquiet⟩ := follow_none _ _ _ hreg fun h => by simp at h
    -- no instruction that is left changes the state
    have hS : Endless ((weave code block).filter keep)
        fun b => seen.contains (b, Holding.start f) = true := by
      refine ⟨fun {b} hb => ?_⟩
      obtain ⟨j, next, after, hj, hnext, hobs, hclosed⟩ := hquiet hb
      have hmem : ∃ n, l''.node b = .ok n := by
        cases hn : l''.node b with
        | error e => simp [Listing.get, hn, Except.map] at hj
        | ok n => exact ⟨n, rfl⟩
      obtain ⟨n, hn⟩ := hmem
      obtain ⟨xs', j', ys', hsplit⟩ := hl''.mem_of_node hn
      have hjm : (b, j') ∈ (weave code block).filter keep := by rw [hsplit]; simp
      obtain rfl : j' = j := by
        rw [hl''.get_eq hjm] at hj
        exact Except.ok.inj hj
      have hjw := (List.mem_filter.mp hjm).1
      rw [(hsplit ▸ hl'' : Linked l'' (xs' ++ (b, j') :: ys')).successors_eq] at hnext
      obtain rfl := Except.ok.inj hnext
      have hunread : j'.reads r = false := (hp.dead_weave.mpr hdead).2 b j' hjw
      have hadj : ∀ op, j' ≠ .adjust op r := by
        rintro op rfl
        have hne : b ≠ c := by
          rintro rfl
          have := instr_unique hl.nodup hjw (mem_weave.mpr (Or.inl hi))
          rw [← this] at hi
          exact hr.unadjusted hi
        have hout : keep (b, .adjust op r) = false := hp.kept_weave.mpr ⟨⟨r, rfl, hdead⟩, hne⟩
        rw [(List.mem_filter.mp hjm).2] at hout
        cases hout
      simp only [observeReg, Holding.observe_unread hadj hunread, bind, Except.bind] at hobs
      split_ifs at hobs with hend
      obtain rfl := Except.ok.inj hobs
      refine ⟨xs', j', ys', hsplit, ?_, fun b' hb' => (hclosed b' hb').resolve_right (by simp)⟩
      by_contra ht
      refine hend ?_
      have : targets j' (firstId ys' none) = [] := by
        cases j' <;> first | rfl | exact absurd rfl ht
      simp [this, Holding.start]
    -- the path from the load on never ends
    obtain ⟨n, k, zs, rfl⟩ := ho.exists_cons hcode hfalls.1
    have hnd : (ids ((weave code block).filter keep)).Nodup := hl''.nodup
    have hw' : (weave code block).filter keep = ((weave xs block).filter keep ++ [(c, i)]) ++
        ((block c).filter keep ++ (weave ((n, k) :: zs) block).filter keep) := by
      rw [hw]
      simp
    have hcode' : code = (xs ++ [(c, i)]) ++ (n, k) :: zs := by simp [hcode]
    refine hp.not_endless hr hl hS n hcode' ?_
    refine hS.skip hnd hw' (fun x j hx => ?_) fun b hb => ?_
    · obtain ⟨op, q, g, rfl, -⟩ := hp.adjusts (List.mem_filter.mp hx).1
      exact ⟨rfl, by simp⟩
    · rw [← List.filter_append] at hb
      refine hwork (b, Holding.start f) (List.mem_map.mpr ⟨b, List.mem_reverse.mpr ?_, rfl⟩)
      exact mem_targets_iff.mpr (Or.inl ⟨hfalls, hb⟩)

end

end CountedMachine.Listing
