import CountedMachine.Proofs.Ownership.Following
import CountedMachine.Proofs.Ownership.Placement

/-! # Flows along woven code

What a checker follows through a listing with blocks woven in can be given by the states in which the
old nodes are reached and left (`Flow`): a block leads from the state in which its node is left to
the one in which the next node is reached. A flow leaves the checker nothing to find (`Flow.quiet`).
Nothing is found either when nodes that leave the state alone are taken out (`Quiet.filter`). -/

namespace CountedMachine.Listing

/-- Control falls through to the node that follows. -/
def Falls (i : Instr NodeId) : Prop := i.isTerminal = false ∧ ∀ t, i ≠ .jump t

variable {l : Listing} {code : Code} {block : NodeId → Code} {r : Reg} {a b : NodeId}
  {i : Instr NodeId}

theorem mem_targets_iff {next : Option NodeId} :
    b ∈ targets i next ↔ (Falls i ∧ next = some b) ∨ i.label? = some b := by
  cases i <;> simp [targets, Falls, Instr.isTerminal, Instr.label?, eq_comm]

theorem firstId_weave (ys : Code) (q : Option NodeId) :
    firstId (weave ys block) q = firstId ys q := by
  cases ys <;> rfl

/-! ## Blocks -/

section
variable {σ : Type} {observe : NodeId → Instr NodeId → List NodeId → σ → Except Imbalance σ}

/-- The state after a block, which never ends a path. -/
def runBlock (observe : NodeId → Instr NodeId → List NodeId → σ → Except Imbalance σ) (blk : Code)
    (st : σ) : Except Imbalance σ :=
  blk.foldlM (fun st x => observe x.1 x.2 [x.1] st) st

theorem runBlock_append (pre post : Code) (st : σ) : runBlock observe (pre ++ post) st =
    (runBlock observe pre st).bind (runBlock observe post) :=
  List.foldlM_append

theorem runBlock_cons (x : NodeId × Instr NodeId) (post : Code) (st : σ) :
    runBlock observe (x :: post) st = (observe x.1 x.2 [x.1] st).bind (runBlock observe post) :=
  List.foldlM_cons

/-- A block is run when the states in front of its instructions are known. -/
theorem runBlock_eq (state : Code → σ) {blk : Code}
    (h : ∀ {pre x i post}, blk = pre ++ (x, i) :: post →
      observe x i [x] (state pre) = .ok (state (pre ++ [(x, i)]))) :
    ∀ {pre post : Code}, blk = pre ++ post → runBlock observe post (state pre) = .ok (state blk)
  | pre, [], e => by
    rw [e, List.append_nil]
    rfl
  | pre, (x, i) :: post, e => by
    rw [runBlock_cons, h e]
    exact runBlock_eq state h (by simp [e])

/-- **The states in which nodes are reached**, `A`, **and left**, `D`, agree with what instructions
and blocks do to them. -/
structure Flow (code : Code) (block : NodeId → Code)
    (observe : NodeId → Instr NodeId → List NodeId → σ → Except Imbalance σ)
    (A D : NodeId → σ → Prop) : Prop where
  node : ∀ {a st}, A a st → ∃ i, (a, i) ∈ code ∧ ∃ st',
    (∀ next, (next = [] ↔ i.isTerminal = true) → observe a i next st = .ok st') ∧
    (∀ b, i.label? = some b → A b st') ∧ (Falls i → D a st')
  block : ∀ {a st}, D a st → ∃ i, (a, i) ∈ code ∧ Falls i ∧ ∃ st',
    runBlock observe (block a) st = .ok st' ∧ ∀ n, Next code a n → A n st'

/-- The states in which the nodes of the woven code are reached. -/
def Inside (block : NodeId → Code)
    (observe : NodeId → Instr NodeId → List NodeId → σ → Except Imbalance σ)
    (A D : NodeId → σ → Prop) (x : NodeId) (st : σ) : Prop :=
  A x st ∨ ∃ a pre i post st₀, D a st₀ ∧ block a = pre ++ (x, i) :: post ∧
    runBlock observe pre st₀ = .ok st

/-- Of the nodes that follow it matters only whether there are any. -/
def EndsOnly (observe : NodeId → Instr NodeId → List NodeId → σ → Except Imbalance σ) : Prop :=
  ∀ {a i n n' st}, (n = [] ↔ n' = []) → observe a i n st = observe a i n' st

variable {A D : NodeId → σ → Prop}

theorem targets_eq_nil (n : NodeId) : targets i (some n) = [] ↔ i.isTerminal = true := by
  cases i <;> simp [targets, Instr.isTerminal]

theorem Orderly.firstId_of_falls (ho : Orderly code) {xs ys : Code} (hcode : code = xs ++ (a, i) :: ys)
    (hi : i.isTerminal = false) : ∃ n, firstId ys none = some n ∧ Next code a n := by
  obtain ⟨n, hn, -⟩ := ho.exists_next (a := a) (i := i) (by simp [hcode]) (by rintro rfl; cases hi)
  exact ⟨n, (next_iff (hcode ▸ ho.nodup)).mp (hcode ▸ hn), hn⟩

theorem firstId_block (blk : Code) (n : NodeId) : ∃ m, firstId blk (some n) = some m := by
  rcases blk with _ | ⟨⟨y, j⟩, rest⟩
  · exact ⟨n, rfl⟩
  · exact ⟨y, rfl⟩

/-- A state that leaves a node reaches what follows it in the woven code. -/
theorem Flow.leave (hf : Flow code block observe A D) {st : σ} (hD : D a st) {xs ys : Code}
    (hcode : code = xs ++ (a, i) :: ys) (hb : firstId (block a ++ weave ys block) none = some b) :
    Inside block observe A D b st := by
  rw [firstId_append, firstId_weave] at hb
  obtain ⟨-, -, -, st', hrun, hafter⟩ := hf.block hD
  rcases hblk : block a with _ | ⟨⟨y, j⟩, rest⟩
  · rw [hblk] at hb hrun
    cases hrun
    exact Or.inl (hafter b ⟨xs, i, ys, hcode, hb⟩)
  · rw [hblk] at hb
    obtain rfl : y = b := Option.some.inj hb
    exact Or.inr ⟨a, [], j, rest, st, hD, hblk, rfl⟩

theorem Flow.quiet_node (hf : Flow code block observe A D) (ho : Orderly code) {st : σ}
    (hA : A a st) : ∃ xs i ys,
    weave code block = xs ++ (a, i) :: ys ∧
      ∃ st', observe a i (targets i (firstId ys none)) st = .ok st' ∧
        ∀ b ∈ targets i (firstId ys none), Inside block observe A D b st' := by
  obtain ⟨i, hi, st', hobs, hlab, hfalls⟩ := hf.node hA
  obtain ⟨xs, ys, hcode⟩ := List.append_of_mem hi
  refine ⟨weave xs block, i, block a ++ weave ys block, ?_, st', hobs _ ?_, fun b hb => ?_⟩
  · rw [hcode, weave_append, weave_cons]
  · cases ht : i.isTerminal with
    | true => cases i <;> first | (simp [targets, Instr.isTerminal]; done) | cases ht
    | false =>
      obtain ⟨n, hn, -⟩ := ho.firstId_of_falls hcode ht
      obtain ⟨m, hm⟩ := firstId_block (block a) n
      rw [firstId_append, firstId_weave, hn, hm, targets_eq_nil, ht]
  · rcases mem_targets_iff.mp hb with ⟨hfall, hnext⟩ | hl
    · exact hf.leave (hfalls hfall) hcode hnext
    · exact Or.inl (hlab b hl)

theorem Flow.quiet_block (hf : Flow code block observe A D) (ho : Orderly code)
    (hends : EndsOnly observe) {x : NodeId} {j : Instr NodeId} (hj : Falls j) (hl : j.label? = none)
    {st₀ st : σ} {pre post : Code} (hD : D a st₀) (hb : block a = pre ++ (x, j) :: post)
    (hst : runBlock observe pre st₀ = .ok st) : ∃ xs i ys,
    weave code block = xs ++ (x, i) :: ys ∧
      ∃ st', observe x i (targets i (firstId ys none)) st = .ok st' ∧
        ∀ b ∈ targets i (firstId ys none), Inside block observe A D b st' := by
  obtain ⟨i, hi, hfall, st'', hrun, hafter⟩ := hf.block hD
  obtain ⟨xs, ys, hcode⟩ := List.append_of_mem hi
  obtain ⟨n, hn, hnext⟩ := ho.firstId_of_falls hcode hfall.1
  rw [hb, runBlock_append, hst] at hrun
  cases hobs : observe x j [x] st with
  | error e => simp [Except.bind, runBlock_cons, hobs] at hrun
  | ok st' =>
    replace hrun : runBlock observe post st' = .ok st'' := by
      simpa [Except.bind, runBlock_cons, hobs] using hrun
    have hpre : runBlock observe (pre ++ [(x, j)]) st₀ = .ok st' := by
      rw [runBlock_append, hst, Except.bind, runBlock_cons, hobs]
      rfl
    refine ⟨weave xs block ++ (a, i) :: pre, j, post ++ weave ys block, ?_, st', ?_,
      fun b hb' => ?_⟩
    · rw [hcode, weave_append, weave_cons, hb]
      simp
    · rw [← hobs, firstId_append, firstId_weave, hn]
      obtain ⟨m, hm⟩ := firstId_block post n
      exact hends (by simp [hm, targets_eq_nil, hj.1])
    · rw [firstId_append, firstId_weave, hn, mem_targets_iff, hl] at hb'
      rcases hb' with ⟨-, hb'⟩ | hb'
      · rcases hpost : post with _ | ⟨⟨y, k⟩, rest⟩
        · rw [hpost] at hrun hb'
          cases hrun
          exact Or.inl (hafter b (Option.some.inj hb' ▸ hnext))
        · rw [hpost] at hb' hb
          obtain rfl : y = b := Option.some.inj hb'
          exact Or.inr ⟨a, pre ++ [(x, j)], k, rest, st₀, hD, by simp [hb], hpre⟩
      · cases hb'

/-- **A flow leaves the checker nothing to find.** -/
theorem Flow.quiet (hf : Flow code block observe A D) (ho : Orderly code) (hends : EndsOnly observe)
    (hblock : ∀ {a x j}, (x, j) ∈ block a → Falls j ∧ j.label? = none) :
    Quiet (weave code block) observe (Inside block observe A D) := by
  rintro x st (hA | ⟨a, pre, j, post, st₀, hD, hb, hst⟩)
  · exact hf.quiet_node ho hA
  · obtain ⟨hj, hl⟩ := hblock (a := a) (x := x) (j := j) (by simp [hb])
    exact hf.quiet_block ho hends hj hl hD hb hst

end

/-! ## Taking nodes out -/

theorem targets_nil_congr {o o' : Option NodeId} (h : o = none ↔ o' = none) :
    targets i o = [] ↔ targets i o' = [] := by
  have hnil : ∀ {o : Option NodeId}, o.toList = [] ↔ o = none := fun {o} => by cases o <;> simp
  cases i <;> simp [targets, Instr.isTerminal, hnil, h]

theorem firstId_none {ys : Code} : firstId ys none = none ↔ ys = [] := by
  rcases ys with _ | ⟨⟨a, i⟩, ys⟩
  · simp [firstId]
  · simp [firstId]

variable {σ : Type} {observe : NodeId → Instr NodeId → List NodeId → σ → Except Imbalance σ}
  {G : NodeId → σ → Prop} {keep : NodeId × Instr NodeId → Bool}

/-- Nodes that can be taken out: control just passes them, and they leave the state alone. -/
structure Inert (code : Code)
    (observe : NodeId → Instr NodeId → List NodeId → σ → Except Imbalance σ)
    (keep : NodeId × Instr NodeId → Bool) : Prop where
  passes : ∀ {a i}, (a, i) ∈ code → keep (a, i) = false → Falls i
  alone : ∀ {a i next st st'}, (a, i) ∈ code → keep (a, i) = false → observe a i next st = .ok st' →
    st' = st
  labels : ∀ {a i b}, (a, i) ∈ code → i.label? = some b → ∃ j, (b, j) ∈ code ∧ keep (b, j) = true
  last : ∀ {xs : Code} {x}, code = xs ++ [x] → keep x = true

/-- The last node of all is kept, so that taking nodes out ends no path. -/
theorem Inert.firstId_filter (hin : Inert code observe keep) {xs ys : Code} (hcode : code = xs ++ ys) :
    firstId (ys.filter keep) none = none ↔ firstId ys none = none := by
  rw [firstId_none, firstId_none]
  refine ⟨fun h => ?_, fun h => by rw [h]; rfl⟩
  rcases List.eq_nil_or_concat ys with rfl | ⟨zs, z, rfl⟩
  · rfl
  · rw [List.concat_eq_append] at h hcode
    have hcode' : code = (xs ++ zs) ++ [z] := by simp [hcode]
    rw [List.filter_append, List.filter_cons_of_pos (hin.last hcode')] at h
    simp at h

/-- Past nodes that have been taken out the state stays the same. -/
theorem Quiet.skip (hq : Quiet code observe G) (hnd : (ids code).Nodup)
    (hin : Inert code observe keep) {st : σ} : ∀ {xs ys : Code}, code = xs ++ ys →
    (∀ b, firstId ys none = some b → G b st) → firstId (ys.filter keep) none = some b →
      G b st ∧ ∃ j, (b, j) ∈ code ∧ keep (b, j) = true
  | xs, [], _, _, hb => by cases hb
  | xs, (c, j) :: ys, hcode, hG, hb => by
    have hc : G c st := hG c rfl
    by_cases hk : keep (c, j) = true
    · rw [List.filter_cons_of_pos hk] at hb
      obtain rfl : c = b := Option.some.inj hb
      exact ⟨hc, j, by simp [hcode], hk⟩
    · have hk : keep (c, j) = false := by simpa using hk
      rw [List.filter_cons_of_neg (by simp [hk])] at hb
      obtain ⟨xs', j', ys', hcode', st', hobs, hnext⟩ := hq hc
      obtain ⟨rfl, rfl, rfl⟩ := split_unique hnd hcode hcode'
      obtain rfl := hin.alone (by simp [hcode]) hk hobs
      have hfalls := hin.passes (a := c) (i := j) (by simp [hcode]) hk
      have hcode' : code = (xs ++ [(c, j)]) ++ ys := by simp [hcode]
      refine Quiet.skip hq hnd hin hcode' (fun d hd => ?_) hb
      exact hnext d (mem_targets_iff.mpr (Or.inl ⟨hfalls, hd⟩))

/-- **Taking out inert nodes** leaves nothing to find. -/
theorem Quiet.filter (hq : Quiet code observe G) (hnd : (ids code).Nodup)
    (hin : Inert code observe keep) (hends : EndsOnly observe) :
    Quiet (code.filter keep) observe fun a st =>
      G a st ∧ ∃ i, (a, i) ∈ code ∧ keep (a, i) = true := by
  rintro a st ⟨hG, i, hi, hk⟩
  obtain ⟨xs, i', ys, hcode, st', hst', hnext⟩ := hq hG
  obtain rfl : i = i' := instr_unique hnd hi (by simp [hcode])
  have hcode' : code = (xs ++ [(a, i)]) ++ ys := by simp [hcode]
  have hnil := hin.firstId_filter hcode'
  refine ⟨xs.filter keep, i, ys.filter keep, ?_, st', ?_, fun b hb => ?_⟩
  · rw [hcode, List.filter_append, List.filter_cons_of_pos hk]
  · rw [hends (targets_nil_congr hnil)]
    exact hst'
  · rcases mem_targets_iff.mp hb with ⟨hf, hb⟩ | hl
    · refine hq.skip hnd hin hcode' (fun c hc => ?_) hb
      exact hnext c (mem_targets_iff.mpr (Or.inl ⟨hf, hc⟩))
    · exact ⟨hnext b (mem_targets_iff.mpr (Or.inr hl)), hin.labels hi hl⟩

end CountedMachine.Listing
