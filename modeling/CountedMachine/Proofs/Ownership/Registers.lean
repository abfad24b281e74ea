import CountedMachine.Proofs.Ownership.Flow

/-! # Every register is released once

A counted register that is still to be released on reaching a node is `Owing` there: some path reads
it from there on, or the node is the else arm of a branch whose other arm reads it. It is reached
owning one reference where it is owing and dead elsewhere, and the instructions placed for it are what
takes it from one to the other (`Born.flow`). So the check of a register finds nothing
(`Born.quiet`). -/

namespace CountedMachine

namespace Holding

/-- What an ownership operation does to the state. -/
def applyOp (st : Holding) : CountOp → Holding
  | .inc => { st with count := st.count + 1 }
  | .dec => { st with count := st.count - 1 }
  | .unref => ⟨st.count - 1, st.count - 1 = 0⟩
  | .drop => { st with dead := st.count = 0 }

/-- The operation is allowed in the state. -/
def Fits (st : Holding) : CountOp → Prop
  | .inc => True
  | .drop => st.count = 0
  | .dec => st.count ≠ 0
  | .unref => st.count ≠ 0

/-- A register that owns its one reference. -/
def owning : Holding := ⟨1, false⟩

/-- A register whose life has ended. -/
def ended : Holding := ⟨0, true⟩

variable {st : Holding} {r : Reg} {a : NodeId} {i : Instr NodeId}

theorem observe_adjust {op : CountOp} (hd : st.dead = false) (hf : st.Fits op) :
    st.observe r a (.adjust op r) = .ok (st.applyOp op) := by
  simp only [observe, if_true, hd, Bool.false_eq_true, if_false]
  cases op
  · rfl
  · rw [adjust, if_neg hf]
    rfl
  · have : st.count = 0 := hf
    simp [adjust, applyOp, this]
  · rw [adjust, if_neg hf, applyOp]
    have : st.count ≠ 0 := hf
    congr 2
    rw [decide_eq_decide]
    omega

theorem observe_adjust_ne {op : CountOp} {q : Reg} (hq : q ≠ r) :
    st.observe r a (.adjust op q) = .ok st := by
  simp [observe, hq]

theorem observe_unread (hi : ∀ op, i ≠ .adjust op r) (hr : i.reads r = false) :
    st.observe r a i = .ok st := by
  cases i
  case adjust op q => exact observe_adjust_ne fun e => hi op (by rw [e])
  all_goals simp [observe, hr]

theorem observe_read (hr : i.reads r = true) :
    owning.observe r a i = .ok (if i.consumes r then ended else owning) := by
  cases i
  case adjust op q => cases hr
  all_goals
    simp only [observe, hr, if_true, owning, Bool.false_eq_true, if_false, read, Nat.one_ne_zero]
    split_ifs <;> rfl

end Holding

namespace Listing

variable {l : Listing} {code : Code} {block : NodeId → Code} {r : Reg} {f : RegFacts}
  {a b n created first : NodeId} {i : Instr NodeId}

/-- **A counted register**, created at one node and alive from the next one on. -/
structure Born (l : Listing) (code : Code) (r : Reg) (f : RegFacts) (created first : NodeId) :
    Prop where
  facts : l.regs[r.index]? = some f
  counted : f.counted = true
  instr : ∃ i, (created, i) ∈ code ∧ i.creates = some r
  next : Next code created first

/-- **The register is to be released** from the node on, if the node is reached. -/
def Owing (code : Code) (r : Reg) (first a : NodeId) : Prop :=
  Live code r a ∨ ∃ b c n, Reach code first b ∧ (b, .branch c a) ∈ code ∧ Next code b n ∧ Live code r n

/-! ## The control graph around a node -/

theorem next_unique (hnd : (ids code).Nodup) (h : Next code a b) (h' : Next code a n) : b = n := by
  obtain ⟨xs, i, ys, hcode, hb⟩ := h
  obtain ⟨xs', i', ys', hcode', hn⟩ := h'
  obtain ⟨rfl, rfl, rfl⟩ := split_unique hnd hcode hcode'
  exact Option.some.inj (hb.symm.trans hn)

theorem step_of_falls (hnd : (ids code).Nodup) (ha : (a, i) ∈ code) (hi : Falls i)
    (hn : Next code a n) : Step code a n := by
  obtain ⟨xs, j, ys, hcode, hy⟩ := hn
  obtain rfl : i = j := instr_unique hnd ha (by simp [hcode])
  exact ⟨xs, i, ys, hcode, mem_targets_iff.mpr (Or.inl ⟨hi, hy⟩)⟩

theorem step_of_label (ha : (a, i) ∈ code) (hl : i.label? = some b) : Step code a b := by
  obtain ⟨xs, ys, hcode⟩ := List.append_of_mem ha
  exact ⟨xs, i, ys, hcode, mem_targets_iff.mpr (Or.inr hl)⟩

/-- Control goes on to the next node or to the label. -/
theorem step_cases (hnd : (ids code).Nodup) (ha : (a, i) ∈ code) (hs : Step code a b) :
    (Falls i ∧ Next code a b) ∨ i.label? = some b := by
  obtain ⟨xs, j, ys, hcode, hb⟩ := hs
  obtain rfl : i = j := instr_unique hnd ha (by simp [hcode])
  exact (mem_targets_iff.mp hb).imp (fun h => ⟨h.1, xs, i, ys, hcode, h.2⟩) id

theorem falls_of_creates (hcr : i.creates = some r) : Falls i := by
  cases i <;> first | (cases hcr; done) | exact ⟨rfl, by simp⟩

theorem label?_of_creates (hcr : i.creates = some r) : i.label? = none := by
  cases i <;> first | rfl | cases hcr

theorem consumes_of_falls (hi : Falls i) : i.consumes r = false := by
  cases i <;> first | rfl | cases hi.1

theorem consumes_of_label (hl : i.label? = some b) : i.consumes r = false := by
  cases i <;> first | rfl | cases hl

theorem reads_of_consumes (h : i.consumes r = true) : i.reads r = true := by
  cases i
  case ret src => simpa [Instr.reads, Instr.inputs, Instr.consumes, eq_comm] using h
  case tailCall g k => simpa [Instr.reads, Instr.inputs, Instr.consumes, eq_comm] using h
  all_goals cases h

theorem Live.of_reach (hr : Reach code a b) (h : Live code r b) : Live code r a := by
  induction hr with
  | refl => exact h
  | tail _ hs ih => exact ih (.step hs h)

/-- A node that is no label is owing just when it is live. -/
theorem owing_iff_live (ho : Orderly code) (ha : (a, i) ∈ code) (hi : i.isLabel = false) :
    Owing code r first a ↔ Live code r a := by
  refine ⟨fun h => h.resolve_right ?_, Or.inl⟩
  rintro ⟨b, c, n, -, hb, -⟩
  obtain ⟨j, hj, hlab⟩ := ho.labels hb rfl
  rw [instr_unique ho.nodup hj ha, hi] at hlab
  cases hlab

/-- So is the node that control falls through to. -/
theorem owing_next_iff (ho : Orderly code) (ha : (a, i) ∈ code) (hi : Falls i)
    (hn : Next code a n) : Owing code r first n ↔ Live code r n := by
  refine ⟨fun h => ?_, Or.inl⟩
  rcases h with h | ⟨b, c, n', -, hb, hn', hlive⟩
  · exact h
  · obtain rfl := ho.only hb (step_of_falls ho.nodup ha hi hn)
    exact next_unique ho.nodup hn' hn ▸ hlive

/-- Going to a label changes nothing. -/
theorem owing_label_iff (ho : Orderly code) (hreach : Reach code first a) (ha : (a, i) ∈ code)
    (hl : i.label? = some b) (hcond : i.reads r = false) :
    Owing code r first a ↔ Owing code r first b := by
  have hlabel : i.isLabel = false := by
    cases i <;> first | rfl | cases hl
  rw [owing_iff_live ho ha hlabel, live_iff ho.nodup ha, hcond]
  constructor
  · rintro (h | ⟨c, hs, hc⟩)
    · cases h
    · rcases step_cases ho.nodup ha hs with ⟨hfall, hn⟩ | hl'
      · -- the other arm of a branch
        cases i
        case branch cond no =>
          obtain rfl : no = b := Option.some.inj hl
          exact Or.inr ⟨a, cond, c, hreach, ha, hn, hc⟩
        case jump t => exact absurd rfl (hfall.2 t)
        all_goals cases hl
      · rw [hl] at hl'
        exact Or.inl (Option.some.inj hl' ▸ hc)
  · have hs := step_of_label ha hl
    rintro (h | ⟨b', c, n, -, hb', hn, hlive⟩)
    · exact Or.inr ⟨b, hs, h⟩
    · obtain rfl := ho.only hb' hs
      obtain rfl := instr_unique ho.nodup ha hb'
      exact Or.inr ⟨n, step_of_falls ho.nodup ha ⟨rfl, by simp⟩ hn, hlive⟩

/-- **A register is released** where it is owing and no longer so on the next node. -/
theorem released_iff (ho : Orderly code) (hreach : Reach code first a) (ha : (a, i) ∈ code)
    (hi : Falls i) (hn : Next code a n) :
    Released code r first a ↔ Owing code r first a ∧ ¬ Owing code r first n := by
  have hstep := step_of_falls ho.nodup ha hi hn
  rw [owing_next_iff ho ha hi hn]
  constructor
  · rintro ⟨b, hb, ⟨rfl, j, hj, ⟨hr, -, hdead⟩ | ⟨c, no, rfl, hlive, hdead⟩⟩ | ⟨c, n', hb', hn', hlive, hdead⟩⟩
    · exact ⟨Or.inl (.read hj hr), hdead n hstep⟩
    · exact ⟨Or.inl (.step (ho.step_else hj) hlive), hdead n hn⟩
    · exact ⟨Or.inr ⟨b, c, n', hb, hb', hn', hlive⟩, fun h => hdead (.step hstep h)⟩
  · rintro ⟨howing, hdead⟩
    have hdead' : ∀ n', Next code a n' → ¬ Live code r n' := fun n' hn' =>
      next_unique ho.nodup hn hn' ▸ hdead
    by_cases hL : Live code r a
    · refine ⟨a, hreach, Or.inl ⟨rfl, i, ha, ?_⟩⟩
      by_cases hlab : ∃ c no, i = .branch c no ∧ Live code r no
      · obtain ⟨c, no, rfl, hno⟩ := hlab
        exact Or.inr ⟨c, no, rfl, hno, hdead'⟩
      · have hafter : ∀ c, Step code a c → ¬ Live code r c := fun c hs hc => by
          rcases step_cases ho.nodup ha hs with ⟨-, hn'⟩ | hl
          · exact hdead' c hn' hc
          · cases i
            case branch cond no => exact hlab ⟨cond, no, rfl, Option.some.inj hl ▸ hc⟩
            case jump t => exact hi.2 t rfl
            all_goals cases hl
        refine Or.inl ⟨?_, consumes_of_falls hi, hafter⟩
        exact ((live_iff ho.nodup ha).mp hL).resolve_right fun ⟨c, hs, hc⟩ => hafter c hs hc
    · obtain ⟨b, c, n', hb, hb', hn', hlive⟩ := howing.resolve_left hL
      exact ⟨b, hb, Or.inr ⟨c, n', hb', hn', hlive, hL⟩⟩

/-! ## The flow of a register -/

/-- The states in which a register reaches a node. -/
def Arrives (code : Code) (r : Reg) (first a : NodeId) (st : Holding) : Prop :=
  Reach code first a ∧
    ((Owing code r first a ∧ st = .owning) ∨ (¬ Owing code r first a ∧ st = .ended))

/-- The states in which a register leaves a node for the next one. -/
def Leaves (code : Code) (r : Reg) (f : RegFacts) (created first a : NodeId) (st : Holding) : Prop :=
  (∃ i, (a, i) ∈ code ∧ Falls i) ∧
    ((a = created ∧ st = Holding.start f) ∨ Arrives code r first a st)

section
variable (hb : Born l code r f created first)
include hb

theorem Born.step (ho : Orderly code) : Step code created first := by
  obtain ⟨i, hi, hcr⟩ := hb.instr
  exact step_of_falls ho.nodup hi (falls_of_creates hcr) hb.next

theorem Born.not_reach (ho : Orderly code) : ¬ Reach code first created := fun h =>
  ho.acyclic created (.head' (hb.step ho) h)

theorem Born.mem (ho : Orderly code) (h : Reach code first a) : a ∈ ids code :=
  ho.reach_mem h (ho.step_mem (hb.step ho)).2

end

/-- Owing comes from the first node. -/
theorem Owing.live_first (hnd : (ids code).Nodup) (hreach : Reach code first a)
    (h : Owing code r first a) : Live code r first := by
  rcases h with h | ⟨b, c, n, hb, hbr, hn, hlive⟩
  · exact .of_reach hreach h
  · exact .of_reach (hb.tail (step_of_falls hnd hbr ⟨rfl, by simp⟩ hn)) hlive

theorem opsOn_append (r : Reg) (xs ys : Code) : opsOn r (xs ++ ys) = opsOn r xs ++ opsOn r ys :=
  List.filterMap_append

/-- The state after the operations of a block on a register. -/
def afterOps (r : Reg) (st : Holding) (blk : Code) : Holding := (opsOn r blk).foldl Holding.applyOp st

theorem endsOnly_observeReg (r : Reg) : EndsOnly (observeReg r) := by
  intro a i n n' st h
  have : n.isEmpty = n'.isEmpty := by
    rw [Bool.eq_iff_iff, List.isEmpty_iff, List.isEmpty_iff]
    exact h
  simp only [observeReg, this]

theorem observeReg_eq {st st' : Holding} {next : List NodeId} (hobs : st.observe r a i = .ok st')
    (hend : next ≠ [] ∨ st' = .ended) : observeReg r a i next st = .ok st' := by
  simp only [observeReg, hobs, bind, Except.bind]
  refine if_neg fun h => ?_
  rw [Bool.and_eq_true, List.isEmpty_iff] at h
  rcases hend with hne | rfl
  · exact hne h.1
  · exact absurd h.2 (by decide)

theorem observe_of_observeReg {st st' : Holding} {next : List NodeId}
    (h : observeReg r a i next st = .ok st') :
    st.observe r a i = .ok st' ∧ (next = [] → st' = .ended) := by
  cases hobs : st.observe r a i with
  | error e => simp [observeReg, hobs, bind, Except.bind] at h
  | ok st₁ =>
    simp only [observeReg, hobs, bind, Except.bind] at h
    split_ifs at h with hend
    obtain rfl : st₁ = st' := Except.ok.inj h
    refine ⟨rfl, fun e => ?_⟩
    obtain ⟨n, d⟩ := st₁
    rw [e] at hend
    cases d <;> simp_all [Holding.ended]

/-- The operations on a register in a block are allowed: there is at most one. -/
def Allowed (r : Reg) (st : Holding) (blk : Code) : Prop :=
  opsOn r blk = [] ∨ ∃ op, opsOn r blk = [op] ∧ st.dead = false ∧ st.Fits op

theorem Allowed.observe {st : Holding} {pre post : Code} {x : NodeId} {op : CountOp} {q : Reg}
    (h : Allowed r st (pre ++ (x, Instr.adjust op q) :: post)) :
    (afterOps r st pre).observe r x (.adjust op q) =
      .ok (afterOps r st (pre ++ [(x, Instr.adjust op q)])) := by
  unfold afterOps
  rw [opsOn_append]
  by_cases hq : q = r
  · subst hq
    have hops : opsOn q [(x, .adjust op q)] = [op] := by simp [opsOn, opOn]
    have hall : opsOn q (pre ++ (x, Instr.adjust op q) :: post) = opsOn q pre ++ op :: opsOn q post := by
      rw [opsOn_append]
      simp [opsOn, opOn]
    rw [Allowed, hall] at h
    rcases h with e | ⟨op', e, hdead, hfits⟩
    · simp at e
    · rcases hpre : opsOn q pre with _ | ⟨y, ys⟩
      · rw [hpre] at e
        simp only [List.nil_append, List.cons.injEq] at e
        rw [hops]
        exact Holding.observe_adjust hdead (e.1 ▸ hfits)
      · rw [hpre] at e
        simp at e
  · have hops : opsOn r [(x, .adjust op q)] = [] := by simp [opsOn, opOn, hq]
    rw [hops, List.append_nil]
    exact Holding.observe_adjust_ne hq

/-- **A block is run** for a register. -/
theorem runBlock_observeReg {st : Holding} {blk : Code}
    (hadj : ∀ {x i}, (x, i) ∈ blk → ∃ op q, i = .adjust op q) (h : Allowed r st blk) :
    runBlock (observeReg r) blk st = .ok (afterOps r st blk) := by
  refine runBlock_eq (afterOps r st) (fun {pre x i post} e => ?_) (List.nil_append blk).symm
  obtain ⟨op, q, rfl⟩ := hadj (x := x) (i := i) (by simp [e])
  exact observeReg_eq (e ▸ h).observe (Or.inl (by simp))

/-- What the operations of a block do to a state that leaves a node. -/
theorem Born.leaves (ho : Orderly code) (hb : Born l code r f created first)
    (hp : PlacedFor code block r created first f.bornOwned) {st : Holding}
    (hD : Leaves code r f created first a st) :
    Allowed r st (block a) ∧ ∀ n, Next code a n → Arrives code r first n (afterOps r st (block a)) := by
  obtain ⟨⟨i, hi, hfalls⟩, ⟨rfl, rfl⟩ | ⟨hreach, hst⟩⟩ := hD
  · -- the register has just been created
    have hfirst : ∀ {st}, Arrives code r first first st → ∀ n, Next code a n →
        Arrives code r first n st := fun h n hn => by
      rw [next_unique ho.nodup hn hb.next]
      exact h
    have howing : Owing code r first first ↔ Live code r first := owing_next_iff ho hi hfalls hb.next
    by_cases hL : Live code r first
    · cases hown : f.bornOwned with
      | true =>
        have hops := hp.keep hL hown
        refine ⟨Or.inl hops, hfirst ⟨.refl, Or.inl ⟨howing.mpr hL, ?_⟩⟩⟩
        simp [afterOps, hops, Holding.start, hown, Holding.owning]
      | false =>
        have hops := hp.acquire hL hown
        refine ⟨Or.inr ⟨_, hops, rfl, trivial⟩, hfirst ⟨.refl, Or.inl ⟨howing.mpr hL, ?_⟩⟩⟩
        simp [afterOps, hops, Holding.start, hown, Holding.owning, Holding.applyOp]
    · have hops := hp.discard hL
      refine ⟨Or.inr ⟨_, hops, rfl, ?_⟩, hfirst ⟨.refl, Or.inr ⟨mt howing.mp hL, ?_⟩⟩⟩
      · cases hown : f.bornOwned <;> simp [Holding.Fits, Holding.start, hown]
      · rw [afterOps, hops]
        cases hown : f.bornOwned <;> simp [Holding.start, hown, Holding.applyOp, Holding.ended]
  · have hne : a ≠ created := fun e => hb.not_reach ho (e ▸ hreach)
    obtain ⟨n, hn, -⟩ := ho.exists_next hi (by rintro rfl; cases hfalls.1)
    have hrel := released_iff ho hreach hi hfalls hn (r := r)
    have hreach' : Reach code first n := hreach.tail (step_of_falls ho.nodup hi hfalls hn)
    have huniq : ∀ n', Next code a n' → n' = n := fun n' hn' => next_unique ho.nodup hn' hn
    rcases hst with ⟨howing, rfl⟩ | ⟨howing, rfl⟩
    · by_cases hn' : Owing code r first n
      · have hops : opsOn r (block a) = [] := hp.none hne fun h => (hrel.mp h.2).2 hn'
        refine ⟨Or.inl hops, fun m hm => huniq m hm ▸ ⟨hreach', Or.inl ⟨hn', ?_⟩⟩⟩
        rw [afterOps, hops]
        rfl
      · have hops := hp.release hne (howing.live_first ho.nodup hreach) (hrel.mpr ⟨howing, hn'⟩)
        refine ⟨Or.inr ⟨_, hops, rfl, Nat.one_ne_zero⟩,
          fun m hm => huniq m hm ▸ ⟨hreach', Or.inr ⟨hn', ?_⟩⟩⟩
        rw [afterOps, hops]
        rfl
    · have hops : opsOn r (block a) = [] := hp.none hne fun h => howing (hrel.mp h.2).1
      refine ⟨Or.inl hops, fun m hm => huniq m hm ▸ ⟨hreach', Or.inr ⟨fun h => howing ?_, ?_⟩⟩⟩
      · rw [owing_next_iff ho hi hfalls hn] at h
        exact Or.inl (.step (step_of_falls ho.nodup hi hfalls hn) h)
      · rw [afterOps, hops]
        rfl

/-- What an instruction does to a state that reaches it. -/
theorem Ready.arrives (hr : Ready l code) (hb : Born l code r f created first) {st : Holding}
    (hA : Arrives code r first a st) (hi : (a, i) ∈ code) : ∃ st', st.observe r a i = .ok st' ∧
      (i.isTerminal = true → st' = .ended) ∧ (∀ b, i.label? = some b → Arrives code r first b st') ∧
      (Falls i → st' = st) := by
  have ho := hr.orderly
  obtain ⟨hreach, hst⟩ := hA
  have hadj : ∀ op, i ≠ .adjust op r := fun op e => hr.unadjusted (e ▸ hi)
  have hlabel : ∀ b, i.label? = some b → Arrives code r first b st := fun b hl => by
    have hcond : i.reads r = false := by
      cases i
      case branch c no =>
        have := hr.cond_ne hb.facts hb.counted hi
        simp [Instr.reads, Instr.inputs, this.symm]
      case jump => rfl
      all_goals cases hl
    rw [Arrives, ← owing_label_iff ho hreach hi hl hcond]
    exact ⟨hreach.tail (step_of_label hi hl), hst⟩
  by_cases hread : i.reads r = true
  · have howing : Owing code r first a := Or.inl (.read hi hread)
    obtain ⟨-, rfl⟩ := hst.resolve_right fun h => h.1 howing
    refine ⟨_, Holding.observe_read hread, fun ht => ?_, fun b hl => ?_, fun hf => ?_⟩
    · rw [consumes_of_isTerminal ht hread]
      rfl
    · rw [consumes_of_label hl]
      exact hlabel b hl
    · rw [consumes_of_falls hf]
      rfl
  · have hread : i.reads r = false := by simpa using hread
    refine ⟨st, Holding.observe_unread hadj hread, fun ht => ?_, hlabel, fun _ => rfl⟩
    have hlab : i.isLabel = false := by
      cases i <;> first | rfl | cases ht
    have hdead : ¬ Owing code r first a := by
      rw [owing_iff_live ho hi hlab, live_iff ho.nodup hi, hread]
      rintro (h | ⟨b, hs, -⟩)
      · cases h
      · rcases step_cases ho.nodup hi hs with ⟨hf, -⟩ | hl
        · rw [hf.1] at ht
          cases ht
        · cases i <;> first | (cases hl; done) | cases ht
    exact (hst.resolve_left fun h => hdead h.1).2

/-- **The flow of a register.** -/
theorem Ready.flow (hr : Ready l code) (hp : Placed l code block)
    (hb : Born l code r f created first) :
    Flow code block (observeReg r) (Arrives code r first) (Leaves code r f created first) where
  node {a st} hA := by
    obtain ⟨i, hi⟩ := exists_instr (hb.mem hr.orderly hA.1)
    obtain ⟨st', hobs, hterm, hlab, hfalls⟩ := hr.arrives hb hA hi
    refine ⟨i, hi, st', fun next hnext => observeReg_eq hobs ?_, hlab, fun hf => ?_⟩
    · by_cases ht : i.isTerminal = true
      · exact Or.inr (hterm ht)
      · exact Or.inl (mt hnext.mp ht)
    · exact ⟨⟨i, hi, hf⟩, Or.inr (hfalls hf ▸ hA)⟩
  block {a st} hD := by
    obtain ⟨c, hc, hcr⟩ := hb.instr
    obtain ⟨hall, hafter⟩ := hb.leaves hr.orderly
      (hp.placedFor hb.facts hb.counted hc hcr hb.next) hD
    obtain ⟨i, hi, hf⟩ := hD.1
    refine ⟨i, hi, hf, _, runBlock_observeReg (fun hx => ?_) hall, hafter⟩
    obtain ⟨op, q, g, e, -⟩ := hp.adjusts hx
    exact ⟨op, q, e⟩

/-- The states of a register. -/
def holdings : List Holding := [⟨0, false⟩, .owning, .ended]

theorem Arrives.mem_holdings {st : Holding} (h : Arrives code r first a st) : st ∈ holdings := by
  rcases h.2 with ⟨-, rfl⟩ | ⟨-, rfl⟩ <;> decide

theorem Leaves.mem_holdings {st : Holding} (h : Leaves code r f created first a st) :
    st ∈ holdings := by
  rcases h.2 with ⟨-, rfl⟩ | h
  · rw [Holding.start]
    cases f.bornOwned <;> decide
  · exact h.mem_holdings

end Listing

end CountedMachine
