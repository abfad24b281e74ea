import CountedMachine.Ownership.Placement
import CountedMachine.Proofs.Ownership.Liveness

/-! # The planned edits

What `editsFor` plans for a register, said without the search: at its creation it is acquired, or
released when nothing reads it, and the places of the other releases are given by `ReleasedBy`: a
last read, a branch whose else arm alone goes on reading, and the label of an else arm that does not
while the other arm does. No two nodes ask for a release in the same place (`ReleasedBy.unique`), so
that at most one instruction on the register is planned for a place (`editsFor_spec`). -/

namespace CountedMachine.Listing

variable {l : Listing} {code : Code} {r : Reg} {a b : NodeId} {i : Instr NodeId}

/-- One node follows the other in the sequence. -/
def Next (code : Code) (a b : NodeId) : Prop :=
  ∃ xs i ys, code = xs ++ (a, i) :: ys ∧ firstId ys none = some b

/-- **The register is released after `a` on account of the node `b`.** -/
def ReleasedBy (code : Code) (r : Reg) (b a : NodeId) : Prop :=
  (a = b ∧ ∃ i, (b, i) ∈ code ∧
    ((i.reads r = true ∧ i.consumes r = false ∧ ∀ c, Step code b c → ¬ Live code r c) ∨
      ∃ c no, i = .branch c no ∧ Live code r no ∧ ∀ n, Next code b n → ¬ Live code r n)) ∨
  ∃ c n, (b, .branch c a) ∈ code ∧ Next code b n ∧ Live code r n ∧ ¬ Live code r a

theorem isLabel_eq_false (hi : i.reads r = true ∨ ∃ c no, i = .branch c no) : i.isLabel = false := by
  rcases hi with h | ⟨c, no, rfl⟩
  · cases i <;> first | rfl | cases h
  · rfl

/-- A path never ends with a read that does not consume. -/
theorem consumes_of_isTerminal (hi : i.isTerminal = true) (hr : i.reads r = true) :
    i.consumes r = true := by
  cases i
  case ret src => simpa [Instr.reads, Instr.inputs, Instr.consumes, eq_comm] using hr
  case tailCall f n => simpa [Instr.reads, Instr.inputs, Instr.consumes, eq_comm] using hr
  case done => cases hr
  all_goals cases hi

theorem Orderly.step_else (ho : Orderly code) {c : Reg} {no : NodeId}
    (hb : (b, .branch c no) ∈ code) : Step code b no := by
  obtain ⟨xs, ys, rfl⟩ := List.append_of_mem hb
  exact ⟨xs, _, ys, rfl, by simp [targets]⟩

theorem ReleasedBy.unique (ho : Orderly code) {b' : NodeId} (h : ReleasedBy code r b a)
    (h' : ReleasedBy code r b' a) : b = b' := by
  have hlabel : ∀ {b b'}, (a = b ∧ ∃ i, (b, i) ∈ code ∧
      ((i.reads r = true ∧ i.consumes r = false ∧ ∀ c, Step code b c → ¬ Live code r c) ∨
      ∃ c no, i = .branch c no ∧ Live code r no ∧ ∀ n, Next code b n → ¬ Live code r n)) →
      (∃ c n, (b', .branch c a) ∈ code ∧ Next code b' n ∧ Live code r n ∧ ¬ Live code r a) →
      False := by
    rintro b b' ⟨rfl, i, hi, hcase⟩ ⟨c, n, hb', -⟩
    obtain ⟨j, hj, hlab⟩ := ho.labels hb' rfl
    rw [instr_unique ho.nodup hj hi, isLabel_eq_false (r := r)] at hlab
    · cases hlab
    · exact hcase.imp (·.1) fun ⟨c, no, e, _⟩ => ⟨c, no, e⟩
  rcases h with h | h
  · rcases h' with h' | h'
    · exact h.1.symm.trans h'.1
    · exact (hlabel h h').elim
  · rcases h' with h' | h'
    · exact (hlabel h' h).elim
    · obtain ⟨c, n, hb, -⟩ := h
      obtain ⟨c', n', hb', -⟩ := h'
      exact ho.only hb' (ho.step_else hb)

theorem Orderly.exists_next (ho : Orderly code) (ha : (a, i) ∈ code) (hi : i ≠ .done) :
    ∃ b, Next code a b ∧ b ∈ ids code := by
  obtain ⟨xs, ys, rfl⟩ := List.append_of_mem ha
  obtain ⟨zs, hends⟩ := ho.ends
  rcases ys with _ | ⟨⟨b, j⟩, ys⟩
  · have := List.append_inj_right' hends rfl
    simp only [List.cons.injEq, Prod.mk.injEq, and_true] at this
    exact absurd this.2 hi
  · exact ⟨b, ⟨xs, i, _, rfl, rfl⟩, by simp⟩

theorem next_iff {xs ys : Code} (hnd : (ids (xs ++ (a, i) :: ys)).Nodup) :
    Next (xs ++ (a, i) :: ys) a b ↔ firstId ys none = some b := by
  refine ⟨fun ⟨xs', i', ys', e, hb⟩ => ?_, fun hb => ⟨xs, i, ys, rfl, hb⟩⟩
  obtain ⟨rfl, rfl, rfl⟩ := split_unique hnd rfl e
  exact hb

/-! ## The edits of one node -/

/-- The edits are releases of the register in the places given by `p`, at most one. -/
structure ReleasesAt (r : Reg) (p : NodeId → Prop) (es : List Edit) : Prop where
  few : es.length ≤ 1
  mem : ∀ {e}, e ∈ es ↔ e.op = .unref ∧ e.reg = r ∧ p e.anchor

theorem releasesAt_nil {p : NodeId → Prop} (hp : ∀ a, ¬ p a) : ReleasesAt r p [] :=
  ⟨by simp, fun {e} => by simp [hp e.anchor]⟩

theorem releasesAt_singleton {p : NodeId → Prop} (hp : ∀ b, p b ↔ b = a) :
    ReleasesAt r p [⟨a, .unref, r⟩] := by
  refine ⟨by simp, fun {e} => ?_⟩
  obtain ⟨b, op, q⟩ := e
  simp only [List.mem_singleton, Edit.mk.injEq, hp]
  tauto

variable (hl : Linked l code) (ho : Orderly code) {live : Std.HashMap NodeId Bool}
  (hd : Decided code r live)
include hl ho hd

theorem editsAt_branch {c : Reg} {no : NodeId} (hb : (b, .branch c no) ∈ code)
    (hin : live.contains b = true) (hc : c ≠ r) :
    ∃ es, l.editsAt r live b = .ok es ∧ ReleasesAt r (ReleasedBy code r b) es := by
  have hno : live.contains no = true := hd.closed hin (ho.step_else hb)
  obtain ⟨j, hj, hlab⟩ := ho.labels hb rfl
  have hreads : (Instr.branch c no).reads r = false := by simp [Instr.reads, Instr.inputs, hc.symm]
  obtain ⟨n, hnext, -⟩ := ho.exists_next hb (by simp)
  have hget := hl.get_eq hb
  obtain ⟨xs, ys, rfl⟩ := List.append_of_mem hb
  have hn : firstId ys none = some n := (next_iff ho.nodup).mp hnext
  have hyes : live.contains n = true :=
    hd.closed hin ⟨xs, _, ys, rfl, by simp [targets, hn]⟩
  have hby : ∀ a, ReleasedBy (xs ++ (b, Instr.branch c no) :: ys) r b a ↔
      (a = b ∧ Live (xs ++ (b, Instr.branch c no) :: ys) r no ∧
        ¬ Live (xs ++ (b, Instr.branch c no) :: ys) r n) ∨
      (a = no ∧ Live (xs ++ (b, Instr.branch c no) :: ys) r n ∧
        ¬ Live (xs ++ (b, Instr.branch c no) :: ys) r no) := by
    intro a
    have huniq : ∀ n', Next (xs ++ (b, Instr.branch c no) :: ys) b n' ↔ n' = n := fun n' => by
      rw [next_iff ho.nodup, hn, Option.some.injEq, eq_comm]
    constructor
    · rintro (⟨rfl, i, hi, ⟨hr, -⟩ | ⟨c', no', rfl, hlive, hdead⟩⟩ | ⟨c', n', hb', hn', hlive, hdead⟩)
      · rw [← instr_unique ho.nodup hb hi, hreads] at hr
        cases hr
      · cases instr_unique ho.nodup hb hi
        exact Or.inl ⟨rfl, hlive, hdead n hnext⟩
      · cases instr_unique ho.nodup hb hb'
        rw [huniq] at hn'
        exact Or.inr ⟨rfl, hn' ▸ hlive, hdead⟩
    · rintro (⟨rfl, hlive, hdead⟩ | ⟨rfl, hlive, hdead⟩)
      · exact Or.inl ⟨rfl, _, hb, Or.inr ⟨c, no, rfl, hlive, fun n' hn' => by
          rw [huniq] at hn'
          exact hn' ▸ hdead⟩⟩
      · exact Or.inr ⟨c, n, hb, hnext, hlive, hdead⟩
  have hL : ∀ {a}, live.contains a = true → (live.getD a false = true ↔
      Live (xs ++ (b, Instr.branch c no) :: ys) r a) := fun h => hd.getD_iff h
  have hrun : l.editsAt r live b = l.editsAtBranch r live b no := by
    simp only [editsAt, hget, bind, Except.bind]
  rw [hrun]
  simp only [editsAtBranch, hl.next_eq, hn, hl.get_eq hj, hlab, bind, Except.bind, Option.any_some,
    Bool.and_eq_true, Bool.not_eq_true', if_true]
  split_ifs with h₁ h₂
  · have h₁' := (hL hyes).mp h₁.1
    have h₂' := mt (hL hno).mpr (by simp [h₁.2])
    refine ⟨_, rfl, releasesAt_singleton fun a => ?_⟩
    rw [hby]
    tauto
  · have h₁' := (hL hno).mp h₂.1
    have h₂' := mt (hL hyes).mpr (by simp [h₂.2])
    refine ⟨_, rfl, releasesAt_singleton fun a => ?_⟩
    rw [hby]
    tauto
  · refine ⟨_, rfl, releasesAt_nil fun a => ?_⟩
    rw [hby, ← hL hyes, ← hL hno]
    simp only [Bool.not_eq_true] at *
    tauto

theorem editsAt_other (hb : (b, i) ∈ code) (hin : live.contains b = true)
    (hi : ∀ c no, i ≠ .branch c no) :
    ∃ es, l.editsAt r live b = .ok es ∧ ReleasesAt r (ReleasedBy code r b) es := by
  have hget := hl.get_eq hb
  have hby : ∀ a, ReleasedBy code r b a ↔
      a = b ∧ i.reads r = true ∧ i.consumes r = false ∧ ∀ c, Step code b c → ¬ Live code r c := by
    intro a
    constructor
    · rintro (⟨rfl, j, hj, h | ⟨c, no, rfl, -⟩⟩ | ⟨c, n, hb', -⟩)
      · cases instr_unique ho.nodup hb hj
        exact ⟨rfl, h⟩
      · exact absurd (instr_unique ho.nodup hb hj) (hi c no)
      · exact absurd (instr_unique ho.nodup hb hb') (hi c a)
    · rintro ⟨rfl, h⟩
      exact Or.inl ⟨rfl, i, hb, Or.inl h⟩
  obtain ⟨xs, ys, rfl⟩ := List.append_of_mem hb
  have hafter : ((targets i (firstId ys none)).any fun n => live.getD n false) = true ↔
      ∃ c, Step (xs ++ (b, i) :: ys) b c ∧ Live (xs ++ (b, i) :: ys) r c := by
    rw [List.any_eq_true]
    refine exists_congr fun c => ?_
    rw [step_iff ho.nodup]
    refine and_congr_right fun hc => hd.getD_iff (hd.closed hin ?_)
    exact (step_iff ho.nodup).mpr hc
  have hrun : l.editsAt r live b = l.editsAfterRead r live b i := by
    simp only [editsAt, hget, bind, Except.bind]
  rw [hrun]
  simp only [editsAfterRead, hl.successors_eq, bind, Except.bind, Bool.and_eq_true,
    Bool.not_eq_true']
  split_ifs with h₁ h₂
  · rw [consumes_of_isTerminal h₂ h₁.1.1] at h₁
    cases h₁.1.2
  · refine ⟨_, rfl, releasesAt_singleton fun a => ?_⟩
    rw [hby]
    refine ⟨fun h => h.1, fun e => ⟨e, h₁.1.1, h₁.1.2, fun c hc hlive => ?_⟩⟩
    rw [hafter.mpr ⟨c, hc, hlive⟩] at h₁
    cases h₁.2
  · refine ⟨_, rfl, releasesAt_nil fun a => ?_⟩
    rw [hby]
    rintro ⟨-, hr, hcons, hdead⟩
    refine h₁ ⟨⟨hr, hcons⟩, ?_⟩
    rw [← Bool.not_eq_true, hafter]
    exact fun ⟨c, hc, hlive⟩ => hdead c hc hlive

/-- **The edits of one node.** -/
theorem editsAt_spec (hin : live.contains b = true)
    (hcond : ∀ {a c no}, (a, .branch c no) ∈ code → c ≠ r) :
    ∃ es, l.editsAt r live b = .ok es ∧ ReleasesAt r (ReleasedBy code r b) es := by
  obtain ⟨i, hb⟩ := exists_instr (hd.mem hin)
  by_cases hi : ∃ c no, i = .branch c no
  · obtain ⟨c, no, rfl⟩ := hi
    exact editsAt_branch hl ho hd hb hin (hcond hb)
  · exact editsAt_other hl ho hd hb hin fun c no e => hi ⟨c, no, e⟩

omit hl ho hd

/-! ## The edits of a register -/

theorem mapM_eq_ok {α β ε : Type} {f : α → Except ε β} {g : α → β} : ∀ {xs : List α},
    (∀ x ∈ xs, f x = .ok (g x)) → xs.mapM f = .ok (xs.map g)
  | [], _ => rfl
  | x :: xs, h => by
    rw [List.mapM_cons, h x (by simp), mapM_eq_ok fun y hy => h y (by simp [hy])]
    rfl

/-- The register is released after `a`, on account of a node reachable from `first`. -/
def Released (code : Code) (r : Reg) (first a : NodeId) : Prop :=
  ∃ b, Reach code first b ∧ ReleasedBy code r b a

/-- **What is planned for a register** created at `created`, before `first`. -/
structure Planned (code : Code) (r : Reg) (created first : NodeId) (owned : Bool)
    (es : List Edit) : Prop where
  nodup : es.Nodup
  reg : ∀ {e}, e ∈ es → e.reg = r
  born : ∀ {op}, ⟨created, op, r⟩ ∈ es ↔ (Live code r first ∧ owned = false ∧ op = .inc) ∨
    (¬ Live code r first ∧ op = if owned then .unref else .drop)
  later : ∀ {a op}, a ≠ created → (⟨a, op, r⟩ ∈ es ↔
    Live code r first ∧ op = .unref ∧ Released code r first a)

/-- A release is placed after a node that can be reached. -/
theorem Released.reach (ho : Orderly code) {first : NodeId} (h : Released code r first a) :
    Reach code first a := by
  obtain ⟨b, hr, ⟨rfl, -⟩ | ⟨c, n, hb, -⟩⟩ := h
  · exact hr
  · exact hr.tail (ho.step_else hb)

theorem step_next {xs ys : Code} (hcr : i.creates = some r) (hn : firstId ys none = some b) :
    Step (xs ++ (a, i) :: ys) a b := by
  refine ⟨xs, i, ys, rfl, ?_⟩
  cases i <;> first | (simp [targets, Instr.isTerminal, hn]; done) | cases hcr

/-- **The edits for one register.** -/
theorem editsFor_spec (hl : Linked l code) (ho : Orderly code) {created first : NodeId}
    (hcreated : (created, i) ∈ code) (hcr : i.creates = some r) (hnext : Next code created first)
    (hcond : ∀ {a c no}, (a, .branch c no) ∈ code → c ≠ r) (owned : Bool) :
    ∃ es, l.editsFor r created owned = .ok es ∧ Planned code r created first owned es := by
  obtain ⟨xs, ys, rfl⟩ := List.append_of_mem hcreated
  have hfirst : firstId ys none = some first := (next_iff ho.nodup).mp hnext
  have hstep : Step (xs ++ (created, i) :: ys) created first := step_next hcr hfirst
  have hback : ¬ Reach (xs ++ (created, i) :: ys) first created := fun h =>
    ho.acyclic created (.head' hstep h)
  obtain ⟨live, hrun, hd, hreach⟩ := liveness_spec hl ho (ho.step_mem hstep).2 r
  have hlive := hd.getD_iff ((hreach first).mpr .refl)
  simp only [editsFor, hl.next_eq, hfirst, hrun, bind, Except.bind]
  by_cases hL : Live (xs ++ (created, i) :: ys) r first
  · rw [if_pos (hlive.mpr hL)]
    set keys := live.keys.mergeSort fun a b => decide (a.index ≤ b.index) with hkeys
    have hmem : ∀ {b}, b ∈ keys ↔ Reach (xs ++ (created, i) :: ys) first b := fun {b} => by
      rw [hkeys, List.mem_mergeSort, Std.HashMap.mem_keys, Std.HashMap.mem_iff_contains, hreach]
    have hnd : keys.Nodup := (List.mergeSort_perm _ _).nodup_iff.mpr Std.HashMap.nodup_keys
    choose! rel hrel hat using fun b (hb : b ∈ keys) =>
      editsAt_spec hl ho hd ((hreach b).mpr (hmem.mp hb)) hcond
    rw [mapM_eq_ok hrel]
    have hin : ∀ {e}, e ∈ (keys.map rel).flatten ↔ e.op = .unref ∧ e.reg = r ∧
        Released (xs ++ (created, i) :: ys) r first e.anchor := by
      intro e
      simp only [List.mem_flatten, List.mem_map, exists_exists_and_eq_and]
      constructor
      · rintro ⟨b, hb, he⟩
        obtain ⟨h₁, h₂, h₃⟩ := (hat b hb).mem.mp he
        exact ⟨h₁, h₂, b, hmem.mp hb, h₃⟩
      · rintro ⟨h₁, h₂, b, hb, h₃⟩
        exact ⟨b, hmem.mpr hb, (hat b (hmem.mpr hb)).mem.mpr ⟨h₁, h₂, h₃⟩⟩
    have hndf : (keys.map rel).flatten.Nodup := by
      rw [← List.flatMap_def, List.nodup_flatMap]
      refine ⟨fun b hb => ?_, ?_⟩
      · rcases hes : rel b with _ | ⟨e, _ | ⟨e', es⟩⟩
        · simp
        · simp
        · have := (hat b hb).few
          simp [hes] at this
      · refine hnd.imp_of_mem fun {b b'} hb hb' hne e he he' => hne ?_
        exact ((hat b hb).mem.mp he).2.2.unique ho ((hat b' hb').mem.mp he').2.2
    have hout : ∀ {op}, (⟨created, op, r⟩ : Edit) ∉ (keys.map rel).flatten := fun h =>
      hback ((hin.mp h).2.2.reach ho)
    refine ⟨_, rfl, ?_⟩
    cases owned
    · refine ⟨List.nodup_cons.mpr ⟨hout, hndf⟩, fun {e} he => ?_, fun {op} => ?_, fun {a op} hne => ?_⟩
      · rcases List.mem_cons.mp he with rfl | he
        · rfl
        · exact (hin.mp he).2.1
      · simp only [Bool.false_eq_true, if_false, List.singleton_append, List.mem_cons, hout, or_false,
          Edit.mk.injEq, hL, not_true_eq_false, false_and, true_and, and_true]
      · simp only [Bool.false_eq_true, if_false, List.singleton_append, List.mem_cons, Edit.mk.injEq,
          hne, false_and, false_or, hin, hL, true_and]
    · refine ⟨by simpa using hndf, fun {e} he => ?_, fun {op} => ?_, fun {a op} hne => ?_⟩
      · exact (hin.mp (by simpa using he)).2.1
      · simp only [if_true, List.nil_append, hout, hL, not_true_eq_false, false_and, true_and,
          Bool.true_eq_false, or_self]
      · simp only [if_true, List.nil_append, hin, hL, true_and]
  · rw [if_neg (mt hlive.mp hL)]
    refine ⟨_, rfl, by simp, fun {e} he => ?_, fun {op} => ?_, fun {a op} hne => ?_⟩
    · rw [List.mem_singleton.mp he]
    · simp only [List.mem_singleton, Edit.mk.injEq, hL, false_and, false_or, not_false_eq_true,
        true_and, and_true]
    · simp only [List.mem_singleton, Edit.mk.injEq, hne, hL, false_and]

end CountedMachine.Listing
