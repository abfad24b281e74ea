import CountedMachine.Proofs.Ownership.Acceptance

/-! # Balanced lives

The life of a register along a control path is the list of what the instructions of the path do with
it: they read it, change its count, or consume it. `Balanced` says which lists are lives in order. The
check of a register keeps count and end of the life along all paths at once, and it is exact: on
listings without loops it finds nothing just when every maximal path is a balanced life
(`Built.auditReg_exact`).

One instruction carries a balanced rest of a life from its state on to the next one
(`balanced_touch_iff`). Along a path the states of the check are those of the life, and without loops
the count stays below the number of nodes, so the check comes to an end. -/

namespace CountedMachine

/-- What an instruction does with a register. -/
inductive Touch
  | read
  | count (op : CountOp)
  | consume

/-- What an instruction does with `r`, if anything. -/
def Instr.touch? (r : Reg) : Instr NodeId → Option Touch
  | .adjust op q => if q = r then some (.count op) else none
  | i => if i.consumes r then some .consume else if i.reads r then some .read else none

/-- **The rest of a life in order**, for a register that owns `n` references and whose life has ended
or not. A count is only lowered where it is positive, and nothing is touched after the end. -/
inductive Balanced : Nat → Bool → List Touch → Prop
  | ended : Balanced 0 true []
  | read {n rest} : Balanced n false rest → Balanced n false (.read :: rest)
  | inc {n rest} : Balanced (n + 1) false rest → Balanced n false (.count .inc :: rest)
  | dec {n rest} : Balanced n false rest → Balanced (n + 1) false (.count .dec :: rest)
  | unref {n rest} : Balanced n (n = 0) rest → Balanced (n + 1) false (.count .unref :: rest)
  | drop {rest} : Balanced 0 true rest → Balanced 0 false (.count .drop :: rest)
  | consume {n rest} : Balanced n true rest → Balanced (n + 1) false (.consume :: rest)

theorem balanced_nil_iff {n : Nat} {dead : Bool} : Balanced n dead [] ↔ n = 0 ∧ dead = true :=
  ⟨fun h => by cases h; exact ⟨rfl, rfl⟩, fun ⟨hn, hd⟩ => hn ▸ hd ▸ .ended⟩

theorem not_balanced_dead {n : Nat} {touch : Touch} {rest : List Touch} :
    ¬ Balanced n true (touch :: rest) := nofun

namespace Holding

variable {st st' : Holding} {r : Reg} {a : NodeId} {i : Instr NodeId} {rest : List Touch}

theorem observe_untouched (h : i.touch? r = none) : st.observe r a i = .ok st := by
  cases i
  case adjust op q =>
    refine observe_adjust_ne fun e => ?_
    simp [Instr.touch?, e] at h
  all_goals
    refine observe_unread (fun op => nofun) ?_
    simp only [Instr.touch?] at h
    split_ifs at h with _ hr
    simpa using hr

theorem observe_dead {touch : Touch} (h : i.touch? r = some touch) (hd : st.dead = true) :
    st.observe r a i = .error (.touchedDead r a) := by
  cases i
  case adjust op q =>
    simp only [Instr.touch?] at h
    split_ifs at h with hq
    simp [observe, hq, hd]
  all_goals
    simp only [Instr.touch?] at h
    split_ifs at h with hc hr
    · simp only [observe, Listing.reads_of_consumes hc, if_true, hd]
    · simp only [observe, hr, if_true, hd]

theorem observe_count {op : CountOp} (h : i.touch? r = some (.count op)) (hd : st.dead = false) :
    st.observe r a i = st.adjust r a op := by
  cases i
  case adjust op' q =>
    simp only [Instr.touch?] at h
    split_ifs at h with hq
    cases h
    simp [observe, hq, hd]
  all_goals
    simp only [Instr.touch?] at h
    split_ifs at h
    all_goals cases h

theorem observe_reading (h : i.touch? r = some .read) (hd : st.dead = false) :
    st.observe r a i = .ok st := by
  cases i
  case adjust op' q =>
    simp only [Instr.touch?] at h
    split_ifs at h
    cases h
  all_goals
    simp only [Instr.touch?] at h
    split_ifs at h with hc hr
    · cases h
    · simp [observe, read, hr, hd, hc]

theorem observe_consuming (h : i.touch? r = some .consume) (hd : st.dead = false) :
    st.observe r a i =
      if st.count = 0 then .error (.unownedRelease r a) else .ok ⟨st.count - 1, true⟩ := by
  cases i
  case adjust op' q =>
    simp only [Instr.touch?] at h
    split_ifs at h
    cases h
  all_goals
    simp only [Instr.touch?] at h
    split_ifs at h with hc hr
    · have hr := Listing.reads_of_consumes hc
      simp only [observe, read, hr, hd, hc, if_true, Bool.false_eq_true, if_false]
    · cases h

/-- An ownership operation that is in order, and the rest of the life. -/
theorem balanced_count_iff (op : CountOp) (hd : st.dead = false) :
    Balanced st.count false (.count op :: rest) ↔
      ∃ st', st.adjust r a op = .ok st' ∧ Balanced st'.count st'.dead rest := by
  obtain ⟨n, dead⟩ := st
  obtain rfl : dead = false := hd
  cases op
  case inc =>
    exact ⟨fun h => by cases h with | inc h => exact ⟨_, rfl, h⟩,
      fun ⟨_, e, h⟩ => by cases e; exact .inc h⟩
  case drop =>
    constructor
    · intro h
      cases h with
      | drop h => exact ⟨_, rfl, h⟩
    · rintro ⟨st', e, h⟩
      obtain rfl : n = 0 := by
        by_contra hn
        simp [adjust, hn] at e
      cases e
      exact .drop h
  case dec =>
    constructor
    · intro h
      cases h with
      | dec h => exact ⟨_, rfl, h⟩
    · rintro ⟨st', e, h⟩
      rcases n with _ | n
      · cases e
      · cases e
        exact .dec h
  case unref =>
    constructor
    · intro h
      cases h with
      | unref h => exact ⟨_, rfl, by simpa using h⟩
    · rintro ⟨st', e, h⟩
      rcases n with _ | n
      · cases e
      · cases e
        exact .unref (by simpa using h)

/-- **One instruction of a life:** the life is in order just when the check of the instruction has no
objection and the rest is in order from the state it leads to. -/
theorem balanced_touch_iff (st : Holding) (r : Reg) (a : NodeId) (i : Instr NodeId) :
    Balanced st.count st.dead ((i.touch? r).toList ++ rest) ↔
      ∃ st', st.observe r a i = .ok st' ∧ Balanced st'.count st'.dead rest := by
  rcases ht : i.touch? r with _ | touch
  · simp [observe_untouched ht]
  · rw [Option.toList_some, List.singleton_append]
    by_cases hd : st.dead = true
    · rw [observe_dead ht hd, hd]
      exact ⟨fun h => absurd h not_balanced_dead, nofun⟩
    · have hd : st.dead = false := by simpa using hd
      rw [hd]
      cases touch with
      | read =>
        rw [observe_reading ht hd]
        obtain ⟨n, dead⟩ := st
        obtain rfl : dead = false := hd
        constructor
        · intro h
          cases h with
          | read h => exact ⟨_, rfl, h⟩
        · rintro ⟨st', e, h⟩
          cases e
          exact .read h
      | count op =>
        rw [observe_count ht hd]
        exact balanced_count_iff op hd
      | consume =>
        rw [observe_consuming ht hd]
        obtain ⟨n, dead⟩ := st
        rcases n with _ | n
        · exact ⟨nofun, nofun⟩
        · constructor
          · intro h
            cases h with
            | consume h => exact ⟨_, rfl, h⟩
          · rintro ⟨st', e, h⟩
            cases e
            exact .consume h

/-- An instruction raises the count by one at most. -/
theorem count_observe_le (h : st.observe r a i = .ok st') : st'.count ≤ st.count + 1 := by
  rcases ht : i.touch? r with _ | touch
  · rw [observe_untouched ht] at h
    cases h
    omega
  · by_cases hd : st.dead = true
    · rw [observe_dead ht hd] at h
      cases h
    · have hd : st.dead = false := by simpa using hd
      cases touch with
      | read =>
        rw [observe_reading ht hd] at h
        cases h
        omega
      | consume =>
        rw [observe_consuming ht hd] at h
        split_ifs at h
        cases h
        simp only
        omega
      | count op =>
        rw [observe_count ht hd] at h
        unfold adjust at h
        split at h
        all_goals try split_ifs at h
        all_goals cases h
        all_goals simp only
        all_goals omega

end Holding

namespace Listing

variable {l : Listing} {code xs ys : Code} {r : Reg} {f : RegFacts} {a b created : NodeId}
  {i : Instr NodeId} {st : Holding} {path : List (Instr NodeId)}

/-- **A maximal control path** from a node: the instructions up to one that nothing follows. -/
inductive Path : Listing → NodeId → List (Instr NodeId) → Prop
  | last {l : Listing} {a i} : l.get a = .ok i → l.successors a = .ok [] → Path l a [i]
  | step {l : Listing} {a b i next path} : l.get a = .ok i → l.successors a = .ok next → b ∈ next →
      Path l b path → Path l a (i :: path)

theorem Path.cases_next {next : List NodeId} (hp : Path l a path) (hi : l.get a = .ok i)
    (hn : l.successors a = .ok next) :
    (next = [] ∧ path = [i]) ∨ ∃ b ∈ next, ∃ rest, Path l b rest ∧ path = i :: rest := by
  cases hp with
  | last hi' hn' =>
    rw [hi] at hi'
    rw [hn] at hn'
    cases hi'
    cases hn'
    exact Or.inl ⟨rfl, rfl⟩
  | step hi' hn' hb hpath =>
    rw [hi] at hi'
    rw [hn] at hn'
    cases hi'
    cases hn'
    exact Or.inr ⟨_, hb, _, hpath, rfl⟩

/-- **The life of a register** along a path. -/
def life (r : Reg) (path : List (Instr NodeId)) : List Touch := path.filterMap (·.touch? r)

theorem life_cons : life r (i :: path) = (i.touch? r).toList ++ life r path := by
  unfold life
  rw [List.filterMap_cons]
  cases i.touch? r <;> rfl

/-- From the node on, the life is balanced along every path. -/
def AllBalanced (l : Listing) (r : Reg) (a : NodeId) (st : Holding) : Prop :=
  ∀ path, Path l a path → Balanced st.count st.dead (life r path)

/-- The check of an instruction that something follows is the check of its touch. -/
theorem observeReg_of_next {next : List NodeId} (hb : b ∈ next) :
    observeReg r a i next st = st.observe r a i := by
  have : next.isEmpty = false := List.isEmpty_eq_false_iff_exists_mem.mpr ⟨b, hb⟩
  unfold observeReg
  rw [this]
  cases st.observe r a i <;> rfl

theorem observeReg_of_last :
    (∃ st', observeReg r a i [] st = .ok st') ↔
      ∃ st', st.observe r a i = .ok st' ∧ Balanced st'.count st'.dead [] := by
  unfold observeReg
  cases h : st.observe r a i with
  | error e => simp [bind, Except.bind]
  | ok st' =>
    simp only [bind, Except.bind, List.isEmpty_nil, Bool.true_and, Except.ok.injEq, exists_eq_left',
      balanced_nil_iff]
    by_cases he : (!st'.dead || decide (st'.count ≠ 0)) = true
    · rw [if_pos he]
      simp only [Bool.or_eq_true, Bool.not_eq_true', decide_eq_true_eq] at he
      refine ⟨nofun, fun ⟨hc, hd⟩ => ?_⟩
      rcases he with he | he
      · rw [hd] at he
        cases he
      · exact absurd hc he
    · rw [if_neg he]
      simp only [Bool.or_eq_true, Bool.not_eq_true', decide_eq_true_eq, not_or, not_not,
        Bool.not_eq_false] at he
      exact ⟨fun _ => ⟨he.2, he.1⟩, fun _ => ⟨st', rfl⟩⟩

/-! ## What the check has seen -/

/-- **What the check has seen is balanced:** along a path from a state it has seen, the states are
those of the life. -/
theorem QuietUpTo.balanced {seen : Std.HashSet (NodeId × Holding)}
    (hq : QuietUpTo l (observeReg r) seen []) (hp : Path l a path) :
    ∀ st, seen.contains (a, st) = true → Balanced st.count st.dead (life r path) := by
  induction hp with
  | @last a i hi hn =>
    intro st hst
    obtain ⟨i', next, after, hi', hn', hobs, -⟩ := hq hst
    rw [hi] at hi'
    rw [hn] at hn'
    cases hi'
    cases hn'
    rw [life_cons, Holding.balanced_touch_iff st r a i]
    exact observeReg_of_last.mp ⟨after, hobs⟩
  | @step a b i next path hi hn hb _ ih =>
    intro st hst
    obtain ⟨i', next', after, hi', hn', hobs, hnext⟩ := hq hst
    rw [hi] at hi'
    rw [hn] at hn'
    cases hi'
    cases hn'
    rw [observeReg_of_next hb] at hobs
    rw [life_cons, Holding.balanced_touch_iff st r a i]
    exact ⟨after, hobs, ih after ((hnext b hb).resolve_right (by simp))⟩

/-! ## Without loops -/

/-- **Control stays in the code and never comes back.** -/
structure Acyclic (l : Listing) (code : Code) : Prop where
  linked : Linked l code
  step_mem : ∀ {a b}, Step code a b → a ∈ ids code ∧ b ∈ ids code
  acyclic : ∀ a, ¬ Relation.TransGen (Step code) a a

/-- Every node starts a maximal path. -/
theorem Acyclic.exists_path (h : Acyclic l code) (ha : a ∈ ids code) : ∃ path, Path l a path := by
  obtain ⟨rank, hrank, -⟩ := exists_rank h.step_mem h.acyclic
  induction hn : rank a using Nat.strong_induction_on generalizing a with
  | _ n ih =>
    subst hn
    obtain ⟨xs, i, ys, hcode⟩ := exists_split ha
    have hl : Linked l (xs ++ (a, i) :: ys) := hcode ▸ h.linked
    have hi : l.get a = .ok i := hl.get_eq (by simp)
    rcases hnext : targets i (firstId ys none) with _ | ⟨b, next⟩
    · exact ⟨[i], .last hi (hnext ▸ hl.successors_eq)⟩
    · have hs : Step code a b := ⟨xs, i, ys, hcode, by simp [hnext]⟩
      obtain ⟨path, hpath⟩ := ih (rank b) (hrank a b hs) (h.step_mem hs).2 rfl
      exact ⟨i :: path, .step hi hl.successors_eq (by simp [hnext]) hpath⟩

/-- **A balanced state is not objected to**, and all the states it leads to are balanced. -/
theorem Acyclic.allBalanced_step (h : Acyclic l code) (hcode : code = xs ++ (a, i) :: ys)
    (hall : AllBalanced l r a st) :
    ∃ st', observeReg r a i (targets i (firstId ys none)) st = .ok st' ∧
      ∀ b ∈ targets i (firstId ys none), AllBalanced l r b st' := by
  have hl : Linked l (xs ++ (a, i) :: ys) := hcode ▸ h.linked
  have hi : l.get a = .ok i := hl.get_eq (by simp)
  have hn := hl.successors_eq
  have hsplit : ∀ {path}, Path l a (i :: path) → ∃ st', st.observe r a i = .ok st' ∧
      Balanced st'.count st'.dead (life r path) := fun hp => by
    rw [← Holding.balanced_touch_iff, ← life_cons]
    exact hall _ hp
  rcases hnext : targets i (firstId ys none) with _ | ⟨b, next⟩
  · obtain ⟨st', hobs⟩ := observeReg_of_last.mpr (hsplit (.last hi (hnext ▸ hn)))
    exact ⟨st', hobs, by simp⟩
  · -- a path through the first successor gives the state, and every other path the same one
    rw [hnext] at hn
    have hb : b ∈ b :: next := by simp
    obtain ⟨path, hpath⟩ := h.exists_path (h.step_mem ⟨xs, i, ys, hcode, hnext ▸ hb⟩).2
    obtain ⟨st', hobs, -⟩ := hsplit (.step hi hn hb hpath)
    refine ⟨st', (observeReg_of_next hb).trans hobs, fun c hc path hpath => ?_⟩
    obtain ⟨st'', hobs', hbal⟩ := hsplit (.step hi hn hc hpath)
    rw [hobs] at hobs'
    cases hobs'
    exact hbal

/-! ## The check comes to an end -/

/-- The states with a count up to a bound. -/
def holdingsUpTo (bound : Nat) : List Holding :=
  ((List.range (bound + 1)) ×ˢ [false, true]).map fun p => ⟨p.1, p.2⟩

theorem mem_holdingsUpTo {bound : Nat} (h : st.count ≤ bound) : st ∈ holdingsUpTo bound := by
  refine List.mem_map.mpr ⟨(st.count, st.dead), List.mem_product.mpr ⟨?_, ?_⟩, rfl⟩
  · exact List.mem_range.mpr (Nat.lt_succ_of_le h)
  · cases st.dead <;> simp

theorem length_holdingsUpTo (bound : Nat) : (holdingsUpTo bound).length = 2 * (bound + 1) := by
  unfold holdingsUpTo
  rw [List.length_map, List.length_product, List.length_range]
  exact Nat.mul_comm _ _

/-- The states a register can reach a node in: the count and the length of the way to the end are
bounded together. -/
def Within (code : Code) (rank : NodeId → Nat) (bound : Nat) (a : NodeId) (st : Holding) : Prop :=
  a ∈ ids code ∧ st.count + rank a ≤ bound

theorem Acyclic.stable_within (h : Acyclic l code) {rank : NodeId → Nat}
    (hrank : ∀ a b, Step code a b → rank b < rank a) (bound : Nat) :
    Stable code (observeReg r) (Within code rank bound) := by
  intro a st ⟨ha, hle⟩
  obtain ⟨xs, i, ys, hcode⟩ := exists_split ha
  refine ⟨xs, i, ys, hcode, fun st' hobs b hb => ?_⟩
  have hs : Step code a b := ⟨xs, i, ys, hcode, hb⟩
  have hcount := Holding.count_observe_le (observe_of_observeReg hobs).1
  have hlt := hrank a b hs
  exact ⟨(h.step_mem hs).2, by omega⟩

/-- The fuel of the check covers the states. -/
theorem Linked.fuel_le (hl : Linked l code) (st : Holding) {next : List NodeId} (hnext : next.length ≤ 2) :
    (next.reverse.map (·, st)).length +
      2 * unseen (ids code) (holdingsUpTo (l.nodes.size + 1)) (∅ : Std.HashSet (NodeId × Holding)) ≤
      l.auditRegFuel := by
  have hun := unseen_le (ids code) (holdingsUpTo (l.nodes.size + 1))
    (∅ : Std.HashSet (NodeId × Holding))
  have hlen : (ids code).length ≤ l.nodes.size + 2 := by
    have := hl.length_le
    rw [ids, List.length_map]
    omega
  rw [length_holdingsUpTo] at hun
  have hmul := hun.trans (Nat.mul_le_mul_right _ hlen)
  have hsq : 2 ≤ (l.nodes.size + 2) * (l.nodes.size + 2) := by nlinarith
  have heq : (l.nodes.size + 2) * (2 * (l.nodes.size + 1 + 1)) =
      2 * ((l.nodes.size + 2) * (l.nodes.size + 2)) := by ring
  unfold auditRegFuel
  simp only [List.length_map, List.length_reverse]
  omega

/-- **The check from the successors of a node** comes to an end, and it finds nothing just when all
lives are balanced from them on. -/
theorem Acyclic.follow_iff (h : Acyclic l code) {next : List NodeId} (hlen : next.length ≤ 2)
    (hmem : ∀ b ∈ next, b ∈ ids code) (hst : st.count ≤ 1) :
    ∃ v, l.follow (observeReg r) l.auditRegFuel ∅ (next.reverse.map (·, st)) = .ok v ∧
      (v = none ↔ ∀ b ∈ next, AllBalanced l r b st) := by
  obtain ⟨rank, hrank, hle⟩ := exists_rank h.step_mem h.acyclic
  have hfuel := h.linked.fuel_le st hlen
  have hwithin : ∀ b ∈ next, Within code rank (l.nodes.size + 1) b st := fun b hb => by
    have := hle b
    have := h.linked.length_le
    exact ⟨hmem b hb, by omega⟩
  have hwork : ∀ {P : NodeId → Holding → Prop}, (∀ b ∈ next, P b st) →
      ∀ p ∈ next.reverse.map (·, st), P p.1 p.2 := fun hP p hp => by
    obtain ⟨b, hb, rfl⟩ := List.mem_map.mp hp
    exact hP b (List.mem_reverse.mp hb)
  have hstates : ∀ {a st}, Within code rank (l.nodes.size + 1) a st →
      st ∈ holdingsUpTo (l.nodes.size + 1) := fun hw => mem_holdingsUpTo (by have := hw.2; omega)
  obtain ⟨v, hv⟩ : ∃ v, l.follow (observeReg r) l.auditRegFuel ∅ (next.reverse.map (·, st)) = .ok v := by
    rcases follow_cases h.linked (h.stable_within hrank _) hstates _ _ _ (hwork hwithin) hfuel with
      e | ⟨-, -, -, -, -, finding, -, -, -, e⟩
    · exact ⟨_, e⟩
    · exact ⟨_, e⟩
  refine ⟨v, hv, fun hnone b hb path hpath => ?_, fun hall => ?_⟩
  · subst hnone
    obtain ⟨seen, -, hin, hq⟩ := follow_none _ _ _ hv fun hs => by simp at hs
    refine hq.balanced hpath st (hin (b, st) ?_)
    exact List.mem_map.mpr ⟨b, List.mem_reverse.mpr hb, rfl⟩
  · have hquiet : Quiet code (observeReg r)
        fun a st => Within code rank (l.nodes.size + 1) a st ∧ AllBalanced l r a st := by
      intro a st ⟨hw, hall⟩
      obtain ⟨xs, i, ys, hcode⟩ := exists_split hw.1
      obtain ⟨st', hobs, hnext⟩ := h.allBalanced_step hcode hall
      obtain ⟨xs', i', ys', hcode', hstays⟩ := h.stable_within (r := r) hrank _ hw
      obtain ⟨rfl, rfl, rfl⟩ := split_unique h.linked.nodup hcode hcode'
      exact ⟨xs, i, ys, hcode, st', hobs, fun b hb => ⟨hstays st' hobs b hb, hnext b hb⟩⟩
    have e := follow_quiet h.linked hquiet (fun hG => hstates hG.1) _ _ _
      (hwork (P := fun a st => Within code rank (l.nodes.size + 1) a st ∧ AllBalanced l r a st)
        fun b hb => ⟨hwithin b hb, hall b hb⟩) hfuel
    rw [hv] at e
    exact Except.ok.inj e

/-- The creation of a register is no touch that matters. -/
theorem observe_creates (hcr : i.creates = some r) :
    (Holding.start f).observe r a i = .ok (Holding.start f) := by
  rcases ht : i.touch? r with _ | _ | op | _
  · exact Holding.observe_untouched ht
  · exact Holding.observe_reading ht rfl
  · cases i <;> simp [Instr.touch?, Instr.creates, Instr.consumes] at hcr ht
  · cases i <;> simp [Instr.touch?, Instr.creates, Instr.consumes] at hcr ht

theorem allBalanced_created {next : List NodeId} (hi : l.get created = .ok i)
    (hn : l.successors created = .ok next) (hcr : i.creates = some r) (hne : next ≠ []) :
    AllBalanced l r created (Holding.start f) ↔
      ∀ b ∈ next, AllBalanced l r b (Holding.start f) := by
  have hiff : ∀ path, Balanced (Holding.start f).count (Holding.start f).dead (life r (i :: path)) ↔
      Balanced (Holding.start f).count (Holding.start f).dead (life r path) := fun path => by
    rw [life_cons, Holding.balanced_touch_iff _ r created i, observe_creates hcr]
    simp
  constructor
  · intro h b hb path hpath
    exact (hiff path).mp (h _ (.step hi hn hb hpath))
  · intro h path hpath
    obtain ⟨b, hb, rest, hrest, rfl⟩ := (hpath.cases_next hi hn).resolve_left fun e => hne e.1
    exact (hiff rest).mpr (h b hb rest hrest)

/-- The creation of a register is a path of its own where nothing follows it, and no balanced one. -/
theorem not_allBalanced_created (hi : l.get created = .ok i)
    (hn : l.successors created = .ok []) (hcr : i.creates = some r) :
    ¬ AllBalanced l r created (Holding.start f) := by
  intro h
  have hbal := h [i] (.last hi hn)
  rw [life_cons, Holding.balanced_touch_iff _ r created i, observe_creates hcr] at hbal
  obtain ⟨st', e, hbal⟩ := hbal
  cases e
  cases (balanced_nil_iff.mp hbal).2

/-- A listing whose labels are its nodes and whose control graph has no loops. -/
theorem Built.acyclic (hb : Built l)
    (hlabels : ∀ {a i b}, (a, i) ∈ l.entries → i.label? = some b → b ∈ l.toList)
    (hac : ∀ a, ¬ Relation.TransGen (Edge l) a a) : Acyclic l l.entries := by
  obtain ⟨code, hl⟩ := hb.linked
  rw [hl.entries_eq] at hlabels ⊢
  rw [hl.toList_eq] at hlabels
  refine ⟨hl, fun {a b} hs => ?_, fun a ha => hac a ?_⟩
  · obtain ⟨xs, i, ys, rfl, hmem⟩ := hs
    exact ⟨by simp, targets_mem (fun c hc => hlabels (a := a) (i := i) (by simp) hc) hmem⟩
  · exact Relation.TransGen.mono (fun _ _ => hl.edge_of_step) _ _ ha

/-- **The check of a register is exact.** On a listing whose labels are its nodes and whose control
graph has no loops it comes to a verdict on every counted register that one instruction creates, and
it finds nothing just when the life of the register is balanced along every maximal path from there:
starting with one reference for a merged value, with none for the others. -/
theorem Built.auditReg_exact (hb : Built l)
    (hlabels : ∀ {a i b}, (a, i) ∈ l.entries → i.label? = some b → b ∈ l.toList)
    (hac : ∀ a, ¬ Relation.TransGen (Edge l) a a) (hf : l.regs[r.index]? = some f)
    (hcounted : f.counted = true) (hone : l.creatorsOf r = [created]) :
    ∃ v, l.auditReg r = .ok v ∧
      (v = none ↔ ∀ path, Path l created path →
        Balanced (if f.role = .merged then 1 else 0) false (life r path)) := by
  have hacyclic := hb.acyclic hlabels hac
  obtain ⟨i, hi, hcr⟩ : ∃ i, (created, i) ∈ l.entries ∧ i.creates = some r := by
    have hmem : created ∈ l.creatorsOf r := by simp [hone]
    obtain ⟨⟨a, i⟩, hfound, rfl⟩ := List.mem_map.mp hmem
    rw [List.mem_filter, decide_eq_true_eq] at hfound
    exact ⟨i, hfound⟩
  obtain ⟨xs, ys, hcode⟩ := List.append_of_mem hi
  have hl : Linked l (xs ++ (created, i) :: ys) := hcode ▸ hacyclic.linked
  have hget : l.get created = .ok i := hl.get_eq (by simp)
  have hstart : (Holding.start f).count = if f.role = .merged then 1 else 0 := by
    simp [Holding.start, RegFacts.bornOwned]
  have haudit : l.auditReg r =
      if (targets i (firstId ys none)).isEmpty then .ok (some (.neverReleased r created))
      else l.follow (observeReg r) l.auditRegFuel ∅
        ((targets i (firstId ys none)).reverse.map (·, Holding.start f)) := by
    simp only [auditReg, factsOf_eq hf, bind, Except.bind, hcounted, if_true, hone, hl.successors_eq]
    rfl
  rw [haudit, ← hstart]
  rcases hnext : targets i (firstId ys none) with _ | ⟨b, next⟩
  · refine ⟨_, rfl, fun h => (Option.some_ne_none _ h).elim, fun hall => ?_⟩
    exact absurd hall (not_allBalanced_created hget (hnext ▸ hl.successors_eq) hcr)
  · have hlen := length_targets_le i (firstId ys none)
    have hmem : ∀ b ∈ targets i (firstId ys none), b ∈ ids l.entries := fun b hb =>
      (hacyclic.step_mem ⟨xs, i, ys, hcode, hb⟩).2
    have hcount : (Holding.start f).count ≤ 1 := by
      rw [hstart]
      split_ifs <;> omega
    obtain ⟨v, hv, hiff⟩ := hacyclic.follow_iff (r := r) hlen hmem hcount
    rw [hnext] at hv hiff
    refine ⟨v, hv, hiff.trans (allBalanced_created hget ?_ hcr (by simp)).symm⟩
    rw [← hnext]
    exact hl.successors_eq

/-! ## Two arms -/

/-- A unit that acquires a parameter and returns it on one arm of a branch; `op` is what the
other arm does to it before the unit ends. -/
def forked (op : CountOp) : Listing where
  nodes := #[some ⟨.nop, none, some ⟨2⟩⟩, some ⟨.done, some ⟨8⟩, none⟩,
    some ⟨.param ⟨0⟩ 0, some head, some ⟨3⟩⟩, some ⟨.adjust .inc ⟨0⟩, some ⟨2⟩, some ⟨4⟩⟩,
    some ⟨.flag ⟨1⟩ true, some ⟨3⟩, some ⟨5⟩⟩, some ⟨.branch ⟨1⟩ ⟨7⟩, some ⟨4⟩, some ⟨6⟩⟩,
    some ⟨.ret ⟨0⟩, some ⟨5⟩, some ⟨7⟩⟩, some ⟨.nop, some ⟨6⟩, some ⟨8⟩⟩,
    some ⟨.adjust op ⟨0⟩, some ⟨7⟩, some tail⟩]
  free := []
  cursor := tail
  regs := #[⟨.temp, none⟩, ⟨.flag, some .bool⟩]

theorem built_forked (op : CountOp) : Built (forked op) := by
  have h₁ := (Built.empty.freshReg .temp).freshReg .flag
  have h₂ := (h₁.append (i := .param ⟨0⟩ 0) rfl).append (i := .adjust .inc ⟨0⟩) rfl
  have h₃ := (h₂.append (i := .flag ⟨1⟩ true) rfl).append (i := .branch ⟨1⟩ ⟨7⟩) rfl
  exact ((h₃.append (i := .ret ⟨0⟩) rfl).append (i := .nop) rfl).append (i := .adjust op ⟨0⟩) rfl

theorem entries_forked (op : CountOp) : (forked op).entries =
    [(head, .nop), (⟨2⟩, .param ⟨0⟩ 0), (⟨3⟩, .adjust .inc ⟨0⟩), (⟨4⟩, .flag ⟨1⟩ true),
      (⟨5⟩, .branch ⟨1⟩ ⟨7⟩), (⟨6⟩, .ret ⟨0⟩), (⟨7⟩, .nop), (⟨8⟩, .adjust op ⟨0⟩), (tail, .done)] := rfl

/-- Control goes down the unit, whose last node stands in an early slot. -/
theorem edge_forked {op : CountOp} (h : Edge (forked op) a b) :
    a ≠ tail ∧ (b = tail ∨ a.index < b.index) := by
  obtain ⟨next, e, hb⟩ := h
  obtain ⟨_ | _ | _ | _ | _ | _ | _ | _ | _ | a⟩ := a
  all_goals cases e
  all_goals simp [Instr.isTerminal] at hb
  all_goals first | (obtain rfl | rfl := hb; decide; decide) | (subst hb; decide)

theorem acyclic_forked {op : CountOp} (a : NodeId) :
    ¬ Relation.TransGen (Edge (forked op)) a a := by
  intro h
  have hlt : ∀ {b}, Relation.TransGen (Edge (forked op)) a b →
      a ≠ tail ∧ (b = tail ∨ a.index < b.index) := by
    intro b h
    induction h with
    | single h => exact edge_forked h
    | tail _ h ih =>
      obtain ⟨hne, hstep⟩ := edge_forked h
      exact ⟨ih.1, hstep.imp id fun hlt => (ih.2.resolve_left hne).trans hlt⟩
  obtain ⟨hne, heq | hlt⟩ := hlt h
  · exact hne heq
  · exact Nat.lt_irrefl _ hlt

/-- The paths of the unit. -/
theorem path_forked {op : CountOp} (h : Path (forked op) ⟨2⟩ path) :
    path = [.param ⟨0⟩ 0, .adjust .inc ⟨0⟩, .flag ⟨1⟩ true, .branch ⟨1⟩ ⟨7⟩, .ret ⟨0⟩] ∨
    path = [.param ⟨0⟩ 0, .adjust .inc ⟨0⟩, .flag ⟨1⟩ true, .branch ⟨1⟩ ⟨7⟩, .nop,
      .adjust op ⟨0⟩, .done] := by
  have hone : ∀ {a b i path}, Path (forked op) a path → (forked op).get a = .ok i →
      (forked op).successors a = .ok [b] → ∃ rest, Path (forked op) b rest ∧ path = i :: rest := by
    intro a b i path h hi hn
    obtain ⟨b', hb, rest, hrest, rfl⟩ := (h.cases_next hi hn).resolve_left (by simp)
    exact ⟨rest, List.mem_singleton.mp hb ▸ hrest, rfl⟩
  obtain ⟨p₃, h₃, rfl⟩ := hone h rfl rfl
  obtain ⟨p₄, h₄, rfl⟩ := hone h₃ rfl rfl
  obtain ⟨p₅, h₅, rfl⟩ := hone h₄ rfl rfl
  obtain ⟨b, hb, rest, hrest, rfl⟩ := (h₅.cases_next rfl rfl).resolve_left (by simp)
  rcases List.mem_cons.mp hb with rfl | hb
  · obtain ⟨-, rfl⟩ := (hrest.cases_next rfl rfl).resolve_right (by simp [Instr.isTerminal])
    exact Or.inl rfl
  · obtain rfl := List.mem_singleton.mp hb
    obtain ⟨p₈, h₈, rfl⟩ := hone hrest rfl rfl
    obtain ⟨p₁, h₁, rfl⟩ := hone h₈ rfl rfl
    obtain ⟨-, rfl⟩ := (h₁.cases_next rfl rfl).resolve_right (by simp [Instr.isTerminal])
    exact Or.inr rfl

theorem elsePath_forked (op : CountOp) : Path (forked op) ⟨2⟩ [.param ⟨0⟩ 0, .adjust .inc ⟨0⟩,
    .flag ⟨1⟩ true, .branch ⟨1⟩ ⟨7⟩, .nop, .adjust op ⟨0⟩, .done] := by
  have hdone : Path (forked op) tail [.done] := .last rfl rfl
  have hrelease : Path (forked op) ⟨8⟩ [.adjust op ⟨0⟩, .done] := .step rfl rfl (.head _) hdone
  have helse := Path.step (l := forked op) (a := ⟨7⟩) rfl rfl (.head _) hrelease
  have hbranch := Path.step (l := forked op) (a := ⟨5⟩) rfl rfl (.tail _ (.head _)) helse
  have hflag := Path.step (l := forked op) (a := ⟨4⟩) rfl rfl (.head _) hbranch
  exact .step rfl rfl (.head _) (.step (a := ⟨3⟩) rfl rfl (.head _) hflag)

/-- **Releasing the parameter on the other arm** makes the unit balanced, acquiring it again does
not. -/
theorem auditReg_forked : (forked .unref).auditReg ⟨0⟩ = .ok none ∧
    ∃ finding, (forked .inc).auditReg ⟨0⟩ = .ok (some finding) := by
  have hlabels : ∀ {op a i b}, (a, i) ∈ (forked op).entries → i.label? = some b →
      b ∈ (forked op).toList := by
    intro op a i b h hl
    rw [entries_forked] at h
    fin_cases h <;> cases hl
    show _ ∈ [head, ⟨2⟩, ⟨3⟩, ⟨4⟩, ⟨5⟩, ⟨6⟩, ⟨7⟩, ⟨8⟩, tail]
    decide
  have hexact : ∀ op, ∃ v, (forked op).auditReg ⟨0⟩ = .ok v ∧
      (v = none ↔ ∀ path, Path (forked op) ⟨2⟩ path → Balanced 0 false (life ⟨0⟩ path)) := fun op =>
    (built_forked op).auditReg_exact hlabels acyclic_forked (f := ⟨.temp, none⟩) rfl rfl rfl
  constructor
  · obtain ⟨v, hv, hiff⟩ := hexact .unref
    rw [hv, hiff.mpr fun path hpath => ?_]
    rcases path_forked hpath with rfl | rfl
    · exact .inc (.consume .ended)
    · exact .inc (.unref .ended)
  · obtain ⟨v, hv, hiff⟩ := hexact .inc
    rcases v with _ | finding
    · obtain _ | _ | ⟨_ | _ | h⟩ := hiff.mp rfl _ (elsePath_forked .inc)
      cases h
    · exact ⟨finding, hv⟩

end Listing

end CountedMachine
