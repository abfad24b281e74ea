import CountedMachine.Proofs.Code.Untraced
import CountedMachine.Proofs.Ownership.Tidying

/-! # Placing the ownership instructions in code without traces

`bare` leaves the traces out of a listing and gives other names to its nodes. The register of a trace
is returned right after it (`Erasable`), so that a trace is never the last to read a register, and what
is reached through a trace is reached without it: the registers are live at the same nodes
(`Erasable.live_iff`) and released after the same nodes (`Erasable.released_iff`). Hence the
ownership instructions are the same with traces and without (`Erasable.block_eq`), and none is placed
after a trace (`Erasable.block_trace`). -/

namespace CountedMachine.Listing

variable {code xs ys : Code} {f : NodeId → NodeId} {a b c d first : NodeId} {i j : Instr NodeId}
  {r : Reg}

/-- The node is no trace. -/
def plain (x : NodeId × Instr NodeId) : Bool := !x.2.isTrace

/-- **Code without its traces**, under other names. -/
def bare (f : NodeId → NodeId) (code : Code) : Code :=
  (code.filter plain).map fun x => (f x.1, x.2.relabel f)

@[simp] theorem bare_nil : bare f [] = [] := rfl

@[simp] theorem bare_append (xs ys : Code) : bare f (xs ++ ys) = bare f xs ++ bare f ys := by
  simp [bare]

theorem bare_cons (hi : i.isTrace = false) :
    bare f ((a, i) :: ys) = (f a, i.relabel f) :: bare f ys := by
  simp [bare, plain, hi]

theorem bare_trace (hi : i.isTrace = true) : bare f ((a, i) :: ys) = bare f ys := by
  simp [bare, plain, hi]

theorem mem_bare {x : NodeId × Instr NodeId} : x ∈ bare f code ↔
    ∃ a i, (a, i) ∈ code ∧ i.isTrace = false ∧ x = (f a, i.relabel f) := by
  simp only [bare, plain, List.mem_map, List.mem_filter, Bool.not_eq_true', Prod.exists]
  constructor
  · rintro ⟨a, i, ⟨h, hi⟩, rfl⟩
    exact ⟨a, i, h, hi, rfl⟩
  · rintro ⟨a, i, h, hi, rfl⟩
    exact ⟨a, i, ⟨h, hi⟩, rfl⟩

/-- **Code whose traces can be left out**: it is orderly, the other names tell the nodes apart that are
left, and the register of a trace is returned right after it. -/
structure Erasable (f : NodeId → NodeId) (code : Code) : Prop where
  orderly : Orderly code
  apart : ∀ {a b i j}, (a, i) ∈ code → i.isTrace = false → (b, j) ∈ code → j.isTrace = false →
    f a = f b → a = b
  returns : ∀ {xs ys : Code} {a : NodeId} {r : Reg} {loc : Location}, code = xs ++ (a, Instr.trace r loc) :: ys →
    ∃ b zs, ys = (b, Instr.ret r) :: zs

/-- **Where control at a node gets to** without traces: to the node itself, or past a trace to the
return that follows. -/
inductive Past (code : Code) : NodeId → NodeId → Prop
  | here {a : NodeId} {i : Instr NodeId} : (a, i) ∈ code → i.isTrace = false → Past code a a
  | beyond {xs ys : Code} {a b : NodeId} {r : Reg} {loc : Location} :
    code = xs ++ (a, Instr.trace r loc) :: (b, Instr.ret r) :: ys → Past code a b

theorem mem_of_split (e : code = xs ++ (a, i) :: ys) : (a, i) ∈ code := by
  rw [e]
  simp

theorem mem_of_split_snd {x : NodeId × Instr NodeId} (e : code = xs ++ x :: (b, j) :: ys) :
    (b, j) ∈ code := by
  rw [e]
  simp

theorem Past.mem (h : Past code a b) : ∃ j, (b, j) ∈ code ∧ j.isTrace = false := by
  cases h with
  | here ha hi => exact ⟨_, ha, hi⟩
  | beyond e => exact ⟨_, mem_of_split_snd e, rfl⟩

theorem isTrace_of_isLabel (h : i.isLabel = true) : i.isTrace = false := by
  cases i <;> simp_all [Instr.isLabel, Instr.isTrace]

theorem isTrace_of_creates (h : i.creates = some r) : i.isTrace = false := by
  cases i <;> simp_all [Instr.creates, Instr.isTrace]

theorem isTrace_of_label (h : i.label? = some b) : i.isTrace = false := by
  cases i <;> simp_all [Instr.label?, Instr.isTrace]

namespace Erasable

variable (he : Erasable f code)
include he

theorem exists_past (ha : a ∈ ids code) : ∃ b, Past code a b := by
  obtain ⟨xs, i, ys, e⟩ := exists_split ha
  cases hi : i.isTrace with
  | false => exact ⟨a, .here (mem_of_split e) hi⟩
  | true =>
    obtain ⟨r, loc, rfl⟩ := Instr.exists_of_isTrace hi
    obtain ⟨b, zs, rfl⟩ := he.returns e
    exact ⟨b, .beyond e⟩

theorem past_unique (h : Past code a b) (h' : Past code a c) : b = c := by
  have hnd := he.orderly.nodup
  cases h with
  | here ha hi =>
    cases h' with
    | here => rfl
    | beyond e =>
      cases instr_unique hnd ha (mem_of_split e)
      cases hi
  | beyond e =>
    cases h' with
    | here ha hi =>
      cases instr_unique hnd ha (mem_of_split e)
      cases hi
    | beyond e' =>
      obtain ⟨-, -, hys⟩ := split_unique hnd e e'
      exact (Prod.mk.inj (List.cons.inj hys).1).1

theorem past_here (ha : (a, i) ∈ code) (hi : i.isTrace = false) (h : Past code a b) : b = a :=
  he.past_unique h (.here ha hi)

theorem past_label (h : Past code a b) (hb : (b, i) ∈ code) (hi : i.isLabel = true) : a = b := by
  cases h with
  | here => rfl
  | beyond e =>
    cases instr_unique he.orderly.nodup hb (mem_of_split_snd e)
    cases hi

/-- A node that is left, under its other name. -/
theorem mem_bare_iff (ha : (a, i) ∈ code) (hi : i.isTrace = false) {k : Instr NodeId} :
    (f a, k) ∈ bare f code ↔ k = i.relabel f := by
  rw [mem_bare]
  constructor
  · rintro ⟨b, j, hb, hj, e⟩
    obtain ⟨e₁, e₂⟩ := Prod.mk.inj e
    obtain rfl := he.apart ha hi hb hj e₁
    rw [e₂, instr_unique he.orderly.nodup ha hb]
  · rintro rfl
    exact ⟨a, i, ha, hi, rfl⟩

theorem nodup_bare : (ids (bare f code)).Nodup := by
  have hnd : (code.filter plain).Nodup := (List.Nodup.of_map _ he.orderly.nodup).filter _
  rw [ids, bare, List.map_map]
  refine hnd.map_on fun x hx y hy e => ?_
  obtain ⟨hx, hxp⟩ := List.mem_filter.mp hx
  obtain ⟨hy, hyp⟩ := List.mem_filter.mp hy
  obtain ⟨a, i⟩ := x
  obtain ⟨b, j⟩ := y
  obtain rfl := he.apart hx (by simpa [plain] using hxp) hy (by simpa [plain] using hyp) e
  rw [instr_unique he.orderly.nodup hx hy]

/-- What follows a node. -/
theorem firstId_bare (e : code = xs ++ (a, i) :: ys) (hb : firstId ys none = some b)
    (hp : Past code b c) : firstId (bare f ys) none = some (f c) := by
  rcases ys with _ | ⟨⟨b', j⟩, zs⟩
  · cases hb
  · obtain rfl : b' = b := Option.some.inj hb
    have e' : code = (xs ++ [(a, i)]) ++ (b', j) :: zs := by rw [e]; simp
    cases hp with
    | here hmem hj =>
      obtain rfl := instr_unique he.orderly.nodup hmem (mem_of_split e')
      rw [bare_cons hj]
      rfl
    | beyond e'' =>
      obtain ⟨-, rfl, rfl⟩ := split_unique he.orderly.nodup e' e''
      rw [bare_trace rfl, bare_cons rfl]
      rfl

theorem exists_firstId (e : code = xs ++ (a, i) :: ys) (hd : firstId (bare f ys) none = some d) :
    ∃ b c, firstId ys none = some b ∧ Past code b c ∧ d = f c := by
  rcases ys with _ | ⟨⟨b, j⟩, zs⟩
  · cases hd
  · obtain ⟨c, hc⟩ := he.exists_past (a := b) (by rw [e]; simp)
    have := he.firstId_bare e rfl hc
    exact ⟨b, c, rfl, hc, Option.some.inj (hd.symm.trans this)⟩

/-! ## Steps -/

omit he in
theorem falls_relabel : Falls (i.relabel f) ↔ Falls i := by
  unfold Falls
  rw [Instr.isTerminal_relabel]
  refine and_congr_right fun _ => ?_
  cases i <;> simp [Instr.relabel]

theorem step_bare (ha : (a, i) ∈ code) (hi : i.isTrace = false) (hs : Step code a b)
    (hp : Past code b c) : Step (bare f code) (f a) (f c) := by
  obtain ⟨xs, j, ys, e, hb⟩ := hs
  obtain rfl := instr_unique he.orderly.nodup ha (mem_of_split e)
  refine ⟨bare f xs, i.relabel f, bare f ys, by rw [e, bare_append, bare_cons hi], ?_⟩
  rcases mem_targets_iff.mp hb with ⟨hfalls, hnext⟩ | hlabel
  · exact mem_targets_iff.mpr (Or.inl ⟨falls_relabel.mpr hfalls, he.firstId_bare e hnext hp⟩)
  · obtain ⟨k, hk, hkl⟩ := he.orderly.labels ha hlabel
    obtain rfl := he.past_here hk (isTrace_of_isLabel hkl) hp
    exact mem_targets_iff.mpr (Or.inr (by rw [Instr.label?_relabel, hlabel]; rfl))

theorem exists_step (ha : (a, i) ∈ code) (hi : i.isTrace = false)
    (hs : Step (bare f code) (f a) d) : ∃ b c, Step code a b ∧ Past code b c ∧ d = f c := by
  obtain ⟨xs, ys, e⟩ := List.append_of_mem ha
  have hbare : bare f code = bare f xs ++ (f a, i.relabel f) :: bare f ys := by
    rw [e, bare_append, bare_cons hi]
  rw [hbare, step_iff (hbare ▸ he.nodup_bare)] at hs
  rcases mem_targets_iff.mp hs with ⟨hfalls, hnext⟩ | hlabel
  · obtain ⟨b, c, hb, hp, rfl⟩ := he.exists_firstId e hnext
    exact ⟨b, c, ⟨xs, i, ys, e, mem_targets_iff.mpr (Or.inl ⟨falls_relabel.mp hfalls, hb⟩)⟩, hp, rfl⟩
  · rw [Instr.label?_relabel, Option.map_eq_some_iff] at hlabel
    obtain ⟨b, hb, rfl⟩ := hlabel
    obtain ⟨k, hk, hkl⟩ := he.orderly.labels ha hb
    exact ⟨b, b, ⟨xs, i, ys, e, mem_targets_iff.mpr (Or.inr hb)⟩, .here hk (isTrace_of_isLabel hkl), rfl⟩

/-- Control goes from a trace to what follows it. -/
theorem step_beyond {loc : Location} (e : code = xs ++ (a, Instr.trace r loc) :: (b, Instr.ret r) :: ys)
    (hs : Step code a d) : d = b := by
  rw [e, step_iff (e ▸ he.orderly.nodup)] at hs
  exact List.mem_singleton.mp hs

/-! ## Liveness -/

theorem live_past (h : Past code a b) : Live code r a ↔ Live code r b := by
  cases h with
  | here => exact Iff.rfl
  | @beyond xs ys _ _ q loc e =>
    have ha : (a, .trace q loc) ∈ code := mem_of_split e
    have hb : (b, .ret q) ∈ code := mem_of_split_snd e
    rw [live_iff he.orderly.nodup ha]
    constructor
    · rintro (hread | ⟨d, hd, hl⟩)
      · exact .read hb hread
      · exact he.step_beyond e hd ▸ hl
    · exact fun hl => Or.inr ⟨b, ⟨_, _, _, e, List.mem_singleton.mpr rfl⟩, hl⟩

theorem live_bare (h : Live code r a) : ∀ {b}, Past code a b → Live (bare f code) r (f b) := by
  induction h with
  | @read a i ha hread =>
    intro b hp
    cases hp with
    | here ha' hi =>
      obtain rfl := instr_unique he.orderly.nodup ha ha'
      exact .read ((he.mem_bare_iff ha hi).mpr rfl) (by rwa [Instr.reads_relabel])
    | beyond e =>
      cases instr_unique he.orderly.nodup ha (mem_of_split e)
      exact .read (mem_bare.mpr ⟨_, _, mem_of_split_snd e, rfl, rfl⟩) hread
  | @step a b hs _ ih =>
    intro c hp
    cases hp with
    | here ha hi =>
      obtain ⟨d, hd⟩ := he.exists_past (he.orderly.step_mem hs).2
      exact .step (he.step_bare ha hi hs hd) (ih hd)
    | beyond e =>
      obtain rfl := he.step_beyond e hs
      exact ih (.here (mem_of_split_snd e) rfl)

theorem live_of_bare (h : Live (bare f code) r d) :
    ∀ {a i}, (a, i) ∈ code → i.isTrace = false → d = f a → Live code r a := by
  induction h with
  | read hd hread =>
    rintro a i ha hi rfl
    obtain rfl := (he.mem_bare_iff ha hi).mp hd
    exact .read ha (by rwa [Instr.reads_relabel] at hread)
  | step hs _ ih =>
    rintro a i ha hi rfl
    obtain ⟨b, c, hb, hp, rfl⟩ := he.exists_step ha hi hs
    obtain ⟨j, hj, hjp⟩ := hp.mem
    exact .step hb ((he.live_past hp).mpr (ih hj hjp rfl))

/-- **The registers are live at the same nodes.** -/
theorem live_iff (h : Past code a b) : Live (bare f code) r (f b) ↔ Live code r a := by
  obtain ⟨j, hj, hjp⟩ := h.mem
  exact ⟨fun hl => (he.live_past h).mpr (he.live_of_bare hl hj hjp rfl), fun hl => he.live_bare hl h⟩

theorem dead_steps_iff (ha : (a, i) ∈ code) (hi : i.isTrace = false) :
    (∀ d, Step (bare f code) (f a) d → ¬ Live (bare f code) r d) ↔
      ∀ b, Step code a b → ¬ Live code r b := by
  constructor
  · intro h b hs hl
    obtain ⟨c, hc⟩ := he.exists_past (he.orderly.step_mem hs).2
    exact h _ (he.step_bare ha hi hs hc) ((he.live_iff hc).mpr hl)
  · intro h d hs hl
    obtain ⟨b, c, hb, hp, rfl⟩ := he.exists_step ha hi hs
    exact h b hb ((he.live_iff hp).mp hl)

/-- A register is live at the node that follows, or it is not, with traces and without. -/
theorem live_next_iff (ha : (a, i) ∈ code) (hi : i.isTrace = false) :
    (∃ n, Next (bare f code) (f a) n ∧ Live (bare f code) r n) ↔
      ∃ n, Next code a n ∧ Live code r n := by
  obtain ⟨xs, ys, e⟩ := List.append_of_mem ha
  have hbare : bare f code = bare f xs ++ (f a, i.relabel f) :: bare f ys := by
    rw [e, bare_append, bare_cons hi]
  constructor
  · rintro ⟨n, hn, hl⟩
    rw [hbare, next_iff (hbare ▸ he.nodup_bare)] at hn
    obtain ⟨b, c, hb, hp, rfl⟩ := he.exists_firstId e hn
    exact ⟨b, ⟨xs, i, ys, e, hb⟩, (he.live_iff hp).mp hl⟩
  · rintro ⟨n, hn, hl⟩
    have hn' := hn
    rw [e, next_iff (e ▸ he.orderly.nodup)] at hn'
    obtain ⟨c, hc⟩ := he.exists_past (a := n) (by
      have := firstId_mem hn' rfl
      rw [e]
      simp [this])
    exact ⟨f c, ⟨_, _, _, hbare, he.firstId_bare e hn' hc⟩, (he.live_iff hc).mpr hl⟩

theorem next_bare (ha : (a, i) ∈ code) (hi : i.isTrace = false) (hn : Next code a b)
    (hp : Past code b c) : Next (bare f code) (f a) (f c) := by
  obtain ⟨xs, j, ys, e, hb⟩ := hn
  obtain rfl := instr_unique he.orderly.nodup ha (mem_of_split e)
  exact ⟨bare f xs, i.relabel f, bare f ys, by rw [e, bare_append, bare_cons hi], he.firstId_bare e hb hp⟩

/-! ## Paths and releases -/

theorem reach_bare (hr : Reach code a b) : ∀ {a' b'}, Past code a a' → Past code b b' →
    Reach (bare f code) (f a') (f b') := by
  induction hr with
  | refl =>
    intro a' b' hp hp'
    rw [he.past_unique hp hp']
  | @tail b c hr hs ih =>
    intro a' c' hp hp'
    obtain ⟨b', hb'⟩ := he.exists_past (he.orderly.step_mem hs).1
    cases hb' with
    | here hb hi => exact (ih hp (.here hb hi)).tail (he.step_bare hb hi hs hp')
    | beyond e =>
      obtain rfl := he.step_beyond e hs
      rw [he.past_here (mem_of_split_snd e) rfl hp']
      exact ih hp (.beyond e)

theorem reach_of_bare (hr : Reach (bare f code) (f a) d) (ha : (a, i) ∈ code)
    (hi : i.isTrace = false) :
    ∃ b j, (b, j) ∈ code ∧ j.isTrace = false ∧ d = f b ∧ Reach code a b := by
  induction hr with
  | refl => exact ⟨a, i, ha, hi, rfl, .refl⟩
  | tail _ hs ih =>
    obtain ⟨b, j, hb, hj, rfl, hreach⟩ := ih
    obtain ⟨c, c', hc, hp, rfl⟩ := he.exists_step hb hj hs
    obtain ⟨k, hk, hkp⟩ := hp.mem
    refine ⟨c', k, hk, hkp, rfl, ?_⟩
    cases hp with
    | here => exact hreach.tail hc
    | beyond e => exact (hreach.tail hc).tail ⟨_, _, _, e, List.mem_singleton.mpr rfl⟩

/-- **A node asks for the same releases.** -/
theorem releasedBy_iff (ha : (a, i) ∈ code) (hi : i.isTrace = false) (hb : (b, j) ∈ code)
    (hj : j.isTrace = false) : ReleasedBy (bare f code) r (f b) (f a) ↔ ReleasedBy code r b a := by
  have hlabel : ∀ {q no}, j = .branch q no → Past code no no := by
    rintro q no rfl
    obtain ⟨k, hk, hkl⟩ := he.orderly.labels hb rfl
    exact .here hk (isTrace_of_isLabel hkl)
  have hnext : (∀ n, Next (bare f code) (f b) n → ¬ Live (bare f code) r n) ↔
      ∀ n, Next code b n → ¬ Live code r n := by
    have := not_congr (he.live_next_iff (r := r) hb hj)
    push Not at this
    exact this
  unfold ReleasedBy
  refine or_congr ?_ ?_
  · constructor
    · rintro ⟨hab, k, hk, hcase⟩
      obtain rfl := he.apart ha hi hb hj hab
      obtain rfl := (he.mem_bare_iff hb hj).mp hk
      refine ⟨rfl, j, hb, ?_⟩
      rcases hcase with ⟨hread, hcons, hdead⟩ | ⟨q, no, e, hlive, hdead⟩
      · exact Or.inl ⟨by simpa using hread, by simpa using hcons, (he.dead_steps_iff hb hj).mp hdead⟩
      · obtain ⟨no', rfl, rfl⟩ := Instr.eq_branch_of_relabel e
        exact Or.inr ⟨q, no', rfl, (he.live_iff (hlabel rfl)).mp hlive, hnext.mp hdead⟩
    · rintro ⟨rfl, k, hk, hcase⟩
      obtain rfl := instr_unique he.orderly.nodup hb hk
      refine ⟨rfl, _, (he.mem_bare_iff hb hj).mpr rfl, ?_⟩
      rcases hcase with ⟨hread, hcons, hdead⟩ | ⟨q, no, rfl, hlive, hdead⟩
      · exact Or.inl ⟨by simpa using hread, by simpa using hcons, (he.dead_steps_iff hb hj).mpr hdead⟩
      · exact Or.inr ⟨q, f no, rfl, (he.live_iff (hlabel rfl)).mpr hlive, hnext.mpr hdead⟩
  · constructor
    · rintro ⟨q, n, hmem, hn, hl, hdead⟩
      have e := (he.mem_bare_iff hb hj).mp hmem
      obtain ⟨no, rfl, hno⟩ := Instr.eq_branch_of_relabel e.symm
      obtain ⟨k, hk, hkl⟩ := he.orderly.labels hb rfl
      obtain rfl := he.apart ha hi hk (isTrace_of_isLabel hkl) hno
      obtain ⟨m, hm, hlm⟩ := (he.live_next_iff hb hj).mp ⟨n, hn, hl⟩
      exact ⟨q, m, hb, hm, hlm, fun h => hdead ((he.live_iff (.here ha hi)).mpr h)⟩
    · rintro ⟨q, n, hmem, hn, hl, hdead⟩
      obtain rfl := instr_unique he.orderly.nodup hb hmem
      obtain ⟨m, hm, hlm⟩ := (he.live_next_iff hb hj).mpr ⟨n, hn, hl⟩
      exact ⟨q, m, (he.mem_bare_iff hb hj).mpr rfl, hm, hlm,
        fun h => hdead ((he.live_iff (.here ha hi)).mp h)⟩

/-- A trace never asks for a release. -/
theorem plain_of_releasedBy (h : ReleasedBy code r b a) (hb : (b, j) ∈ code) : j.isTrace = false := by
  cases hj : j.isTrace with
  | false => rfl
  | true =>
    obtain ⟨q, loc, rfl⟩ := Instr.exists_of_isTrace hj
    rcases h with ⟨-, k, hk, hcase⟩ | ⟨c, n, hk, -⟩
    · obtain rfl := instr_unique he.orderly.nodup hb hk
      rcases hcase with ⟨hread, -, hdead⟩ | ⟨c, no, e, -⟩
      · obtain ⟨xs, ys, e⟩ := List.append_of_mem hb
        obtain ⟨c, zs, rfl⟩ := he.returns e
        exact (hdead c ⟨_, _, _, e, List.mem_singleton.mpr rfl⟩ (.read (mem_of_split_snd e) hread)).elim
      · cases e
    · cases instr_unique he.orderly.nodup hb hk

/-- Nothing is released after a trace. -/
theorem not_released_trace (ha : (a, i) ∈ code) (hi : i.isTrace = true) :
    ¬ Released code r first a := by
  rintro ⟨b, -, h⟩
  have h' := h
  rcases h' with ⟨rfl, j, hj, -⟩ | ⟨c, n, hb, -⟩
  · rw [instr_unique he.orderly.nodup ha hj, he.plain_of_releasedBy h hj] at hi
    cases hi
  · obtain ⟨k, hk, hkl⟩ := he.orderly.labels hb rfl
    rw [instr_unique he.orderly.nodup ha hk, isTrace_of_isLabel hkl] at hi
    cases hi

/-- **The registers are released after the same nodes.** -/
theorem released_iff (hf : Past code first b) (ha : (a, i) ∈ code) (hi : i.isTrace = false) :
    Released (bare f code) r (f b) (f a) ↔ Released code r first a := by
  obtain ⟨k, hk, hkp⟩ := hf.mem
  constructor
  · rintro ⟨d, hreach, hrel⟩
    obtain ⟨c, j, hc, hj, rfl, hpath⟩ := he.reach_of_bare hreach hk hkp
    refine ⟨c, ?_, (he.releasedBy_iff ha hi hc hj).mp hrel⟩
    cases hf with
    | here => exact hpath
    | beyond e => exact .head ⟨_, _, _, e, List.mem_singleton.mpr rfl⟩ hpath
  · rintro ⟨c, hreach, hrel⟩
    have hfirst : first ∈ ids code := by
      cases hf with
      | here hmem => exact mem_ids hmem
      | beyond e => exact mem_ids (mem_of_split e)
    obtain ⟨j, hj⟩ := exists_instr (he.orderly.reach_mem hreach hfirst)
    have hjp := he.plain_of_releasedBy hrel hj
    exact ⟨f c, he.reach_bare hreach hf (.here hj hjp), (he.releasedBy_iff ha hi hj hjp).mpr hrel⟩

/-! ## Readiness -/

/-- A step without traces is a path with them. -/
theorem path_of_step {d' : NodeId} (hs : Step (bare f code) d d') :
    ∃ a c, d = f a ∧ d' = f c ∧ Past code a a ∧ Past code c c ∧ Relation.TransGen (Step code) a c := by
  have hmem : ∃ k, (d, k) ∈ bare f code := by
    obtain ⟨xs, k, ys, e, -⟩ := hs
    exact ⟨k, mem_of_split e⟩
  obtain ⟨k, hk⟩ := hmem
  obtain ⟨a, i, ha, hi, e⟩ := mem_bare.mp hk
  obtain ⟨rfl, -⟩ := Prod.mk.inj e
  obtain ⟨b, c, hb, hp, rfl⟩ := he.exists_step ha hi hs
  obtain ⟨j, hj, hjp⟩ := hp.mem
  refine ⟨a, c, rfl, rfl, .here ha hi, .here hj hjp, ?_⟩
  cases hp with
  | here => exact .single hb
  | beyond e => exact (Relation.TransGen.single hb).tail ⟨_, _, _, e, List.mem_singleton.mpr rfl⟩

theorem past_inj (ha : Past code a a) (hb : Past code b b) (h : f a = f b) : a = b := by
  obtain ⟨i, hi, hip⟩ := ha.mem
  obtain ⟨j, hj, hjp⟩ := hb.mem
  exact he.apart hi hip hj hjp h

/-- **Code without traces is orderly.** -/
theorem orderly_bare (htail : f tail = tail) : Orderly (bare f code) where
  nodup := he.nodup_bare
  ends := by
    obtain ⟨xs, e⟩ := he.orderly.ends
    refine ⟨bare f xs, ?_⟩
    rw [e, bare_append, bare_cons rfl, htail]
    rfl
  acyclic d hd := by
    have hpath : ∀ {d d'}, Relation.TransGen (Step (bare f code)) d d' →
        ∃ a c, d = f a ∧ d' = f c ∧ Past code a a ∧ Past code c c ∧
          Relation.TransGen (Step code) a c := by
      intro d d' h
      induction h with
      | single hs => exact he.path_of_step hs
      | tail _ hs ih =>
        obtain ⟨a, c, rfl, rfl, ha, hc, hac⟩ := ih
        obtain ⟨c', e, hcc, rfl, hc', he', hce⟩ := he.path_of_step hs
        obtain rfl := he.past_inj hc hc' hcc
        exact ⟨a, e, rfl, rfl, ha, he', hac.trans hce⟩
    obtain ⟨a, c, rfl, hac, ha, hc, h⟩ := hpath hd
    obtain rfl := he.past_inj ha hc hac
    exact he.orderly.acyclic a h
  labels {d k d'} hd hl := by
    obtain ⟨a, i, ha, hi, e⟩ := mem_bare.mp hd
    obtain ⟨rfl, rfl⟩ := Prod.mk.inj e
    rw [Instr.label?_relabel, Option.map_eq_some_iff] at hl
    obtain ⟨b, hb, rfl⟩ := hl
    obtain ⟨j, hj, hjl⟩ := he.orderly.labels ha hb
    refine ⟨j.relabel f, mem_bare.mpr ⟨b, j, hj, isTrace_of_isLabel hjl, rfl⟩, ?_⟩
    cases j <;> exact hjl
  only {d q no d'} hd hs := by
    obtain ⟨a, i, ha, hi, e⟩ := mem_bare.mp hd
    obtain ⟨rfl, hbranch⟩ := Prod.mk.inj e
    obtain ⟨no', rfl, rfl⟩ := Instr.eq_branch_of_relabel hbranch.symm
    obtain ⟨k, hk, hkl⟩ := he.orderly.labels ha rfl
    obtain ⟨j, hj⟩ : ∃ j, (d', j) ∈ bare f code := by
      obtain ⟨xs, j, ys, e, -⟩ := hs
      exact ⟨j, mem_of_split e⟩
    obtain ⟨p, m, hp, hm, e⟩ := mem_bare.mp hj
    obtain ⟨rfl, -⟩ := Prod.mk.inj e
    obtain ⟨b, c, hb, hpast, hno⟩ := he.exists_step hp hm hs
    obtain ⟨n, hn, hnp⟩ := hpast.mem
    obtain rfl := he.apart hk (isTrace_of_isLabel hkl) hn hnp hno
    obtain rfl := he.past_label hpast hk hkl
    rw [he.orderly.only ha hb]

/-- **A listing without traces is ready** when it is so with them. -/
theorem ready_bare {l l' : Listing} (hr : Ready l code) (htail : f tail = tail)
    (hl : Linked l' (bare f code)) (hregs : l'.regs = l.regs) : Ready l' (bare f code) where
  linked := hl
  orderly := he.orderly_bare htail
  unadjusted {d op r} hd := by
    obtain ⟨a, i, ha, hi, e⟩ := mem_bare.mp hd
    obtain ⟨-, h⟩ := Prod.mk.inj e
    obtain rfl := Instr.eq_adjust_of_relabel h.symm
    exact hr.unadjusted ha
  known {d k r} hd h := by
    obtain ⟨a, i, ha, hi, e⟩ := mem_bare.mp hd
    obtain ⟨-, rfl⟩ := Prod.mk.inj e
    rw [hregs]
    exact hr.known ha (by simpa using h)
  tests {d c no g} hd hg := by
    obtain ⟨a, i, ha, hi, e⟩ := mem_bare.mp hd
    obtain ⟨-, h⟩ := Prod.mk.inj e
    obtain ⟨no', rfl, -⟩ := Instr.eq_branch_of_relabel h.symm
    exact hr.tests ha (hregs ▸ hg)
  single {r g d d' k k'} hg hc hd hk hd' hk' := by
    obtain ⟨a, i, ha, hi, e⟩ := mem_bare.mp hd
    obtain ⟨rfl, rfl⟩ := Prod.mk.inj e
    obtain ⟨b, j, hb, hj, e⟩ := mem_bare.mp hd'
    obtain ⟨rfl, rfl⟩ := Prod.mk.inj e
    rw [hr.single (hregs ▸ hg) hc ha (by simpa using hk) hb (by simpa using hk')]
  merged {r g d k} hg hb hd hk := by
    obtain ⟨a, i, ha, hi, e⟩ := mem_bare.mp hd
    obtain ⟨-, rfl⟩ := Prod.mk.inj e
    rcases hr.merged (hregs ▸ hg) hb ha (by simpa using hk) with rfl | rfl
    · exact Or.inl rfl
    · exact Or.inr rfl

end Erasable

/-! ## The same ownership instructions -/

open Classical in
/-- The instructions on one register, node by node. -/
theorem PlacedFor.opsOn_eq {block : NodeId → Code} {created : NodeId} {owned : Bool}
    (hp : PlacedFor code block r created first owned) (a : NodeId) : opsOn r (block a) =
      if a = created then
        if Live code r first then if owned then [] else [.inc]
        else [if owned then .unref else .drop]
      else if Live code r first ∧ Released code r first a then [.unref] else [] := by
  by_cases ha : a = created
  · subst ha
    rw [if_pos rfl]
    by_cases hl : Live code r first
    · rw [if_pos hl]
      cases owned with
      | true => exact hp.keep hl rfl
      | false => exact hp.acquire hl rfl
    · rw [if_neg hl]
      exact hp.discard hl
  · rw [if_neg ha]
    by_cases hrel : Live code r first ∧ Released code r first a
    · rw [if_pos hrel]
      exact hp.release ha hrel.1 hrel.2
    · rw [if_neg hrel]
      exact hp.none ha hrel

/-- There are no instructions on a register that is not counted or not created. -/
theorem Placed.opsOn_nil {l : Listing} {block : NodeId → Code} (hp : Placed l code block)
    (h : ¬ ∃ g b j, l.regs[r.index]? = some g ∧ g.counted = true ∧ (b, j) ∈ code ∧ j.creates = some r)
    (a : NodeId) : opsOn r (block a) = [] := by
  refine List.eq_nil_iff_forall_not_mem.mpr fun op hop => h ?_
  obtain ⟨⟨x, k⟩, hx, hk⟩ := List.mem_filterMap.mp hop
  obtain ⟨op', q, g, rfl, hg, hc, b, j, hb, hj⟩ := hp.adjusts hx
  obtain rfl : q = r := by
    by_contra hne
    simp [opOn, hne] at hk
  exact ⟨g, b, j, hg, hc, hb, hj⟩

namespace Erasable

variable {l l' : Listing} {block block' : NodeId → Code} (he : Erasable f code)
  (hr : Ready l code) (hp : Placed l code block) (hp' : Placed l' (bare f code) block')
  (hregs : l'.regs = l.regs)
include he hr hp

/-- **No ownership instruction is placed after a trace.** -/
theorem block_trace (ha : (a, i) ∈ code) (hi : i.isTrace = true) : block a = [] := by
  refine List.eq_nil_iff_forall_not_mem.mpr fun ⟨x, k⟩ hx => ?_
  obtain ⟨op, q, g, rfl, hg, hc, b, j, hb, hj⟩ := hp.adjusts hx
  obtain ⟨n, hn, -⟩ := hr.orderly.exists_next hb (by rintro rfl; cases hj)
  have hops := (hp.placedFor hg hc hb hj hn).opsOn_eq a
  have hne : a ≠ b := by
    rintro rfl
    rw [instr_unique he.orderly.nodup ha hb, isTrace_of_creates hj] at hi
    cases hi
  rw [if_neg hne, if_neg fun h => he.not_released_trace ha hi h.2] at hops
  have hmem : op ∈ opsOn q (block a) := List.mem_filterMap.mpr ⟨_, hx, by simp [opOn]⟩
  rw [hops] at hmem
  cases hmem

include hp' hregs

open Classical in
theorem opsOn_eq (ha : (a, i) ∈ code) (hi : i.isTrace = false) (r : Reg) :
    opsOn r (block' (f a)) = opsOn r (block a) := by
  by_cases h : ∃ g b j, l.regs[r.index]? = some g ∧ g.counted = true ∧ (b, j) ∈ code ∧ j.creates = some r
  · obtain ⟨g, b, j, hg, hc, hb, hj⟩ := h
    have hjp := isTrace_of_creates hj
    obtain ⟨n, hn, hmem⟩ := hr.orderly.exists_next hb (by rintro rfl; cases hj)
    obtain ⟨n', hn'⟩ := he.exists_past hmem
    have hops := (hp.placedFor hg hc hb hj hn).opsOn_eq a
    have hops' := (hp'.placedFor (hregs ▸ hg) hc ((he.mem_bare_iff hb hjp).mpr rfl) (by simpa using hj)
      (he.next_bare hb hjp hn hn')).opsOn_eq (f a)
    have hsame : f a = f b ↔ a = b := ⟨fun e => he.apart ha hi hb hjp e, fun e => e ▸ rfl⟩
    rw [hops, hops']
    simp only [hsame, he.live_iff hn', he.released_iff hn' ha hi]
  · rw [hp.opsOn_nil h, hp'.opsOn_nil]
    rintro ⟨g, d, k, hg, hc, hd, hk⟩
    obtain ⟨b, j, hb, -, e⟩ := mem_bare.mp hd
    obtain ⟨-, rfl⟩ := Prod.mk.inj e
    exact h ⟨g, b, j, hregs ▸ hg, hc, hb, by simpa using hk⟩

omit hp' hregs he in
/-- The edits of a block: sorted, each there once, and here said to be about the place `c`. -/
theorem exists_edits (a c : NodeId) : ∃ es : List Edit, (block a).map (·.2) = es.map Edit.instr ∧
    es.Nodup ∧ (∀ e, e ∈ es ↔ e.anchor = c ∧ e.op ∈ opsOn e.reg (block a)) ∧
    (∀ e ∈ es, e.op ≠ .dec) ∧ es.Pairwise fun e e' => e.before e' = true := by
  obtain ⟨es, hes, hat, hnd, hsorted⟩ := hp.sorted a
  have hops : ∀ r, opsOn r (block a) = (es.filter fun e => e.reg = r).map (·.op) := by
    intro r
    have hself : es.filter (fun e => e.anchor = a) = es :=
      List.filter_eq_self.mpr fun e he => decide_eq_true (hat e he)
    rw [opsOn_block (a := a) (show (block a).map (·.2) = _ by rw [hself, hes]), hself]
  have hmem : ∀ {op r}, op ∈ opsOn r (block a) ↔ ⟨a, op, r⟩ ∈ es := by
    intro op r
    rw [hops]
    simp only [List.mem_map, List.mem_filter, decide_eq_true_eq]
    constructor
    · rintro ⟨⟨b, op, q⟩, ⟨h, rfl⟩, rfl⟩
      obtain rfl : b = a := hat _ h
      exact h
    · exact fun h => ⟨_, ⟨h, rfl⟩, rfl⟩
  refine ⟨es.map fun e => { e with anchor := c }, by rw [hes, List.map_map]; rfl, ?_, ?_, ?_, ?_⟩
  · refine hnd.map_on fun e he e' he' h => ?_
    obtain ⟨b, op, q⟩ := e
    obtain ⟨b', op', q'⟩ := e'
    obtain rfl : b = a := hat _ he
    obtain rfl : b' = b := hat _ he'
    simpa using h
  · rintro ⟨b, op, q⟩
    simp only [List.mem_map, Edit.mk.injEq, hmem]
    constructor
    · rintro ⟨⟨b', op', q'⟩, h, rfl, rfl, rfl⟩
      obtain rfl : b' = a := hat _ h
      exact ⟨rfl, h⟩
    · rintro ⟨rfl, h⟩
      exact ⟨_, h, rfl, rfl, rfl⟩
  · intro e he
    obtain ⟨⟨b, op, q⟩, h, rfl⟩ := List.mem_map.mp he
    obtain rfl : b = a := hat _ h
    have hx : Instr.adjust op q ∈ (block b).map (·.2) := by
      rw [hes]
      exact List.mem_map.mpr ⟨_, h, rfl⟩
    obtain ⟨⟨x, k⟩, hx, hk⟩ := List.mem_map.mp hx
    obtain rfl : k = .adjust op q := hk
    exact (hp.op_cases hr hx).2.1
  · refine List.pairwise_map.mpr (hsorted.imp_of_mem fun {e e'} he he' h => ?_)
    rw [before_iff] at h ⊢
    rw [hat e he, hat e' he'] at h
    rcases h with h | ⟨-, h⟩
    · exact absurd h (Nat.lt_irrefl _)
    · exact Or.inr ⟨rfl, h⟩

/-- **The same ownership instructions** are placed after a node, in the same order. -/
theorem block_eq (hr' : Ready l' (bare f code)) (ha : (a, i) ∈ code) (hi : i.isTrace = false) :
    (block' (f a)).map (·.2) = (block a).map (·.2) := by
  obtain ⟨es, hes, hnd, hmem, hdec, hsorted⟩ := exists_edits hr hp a a
  obtain ⟨es', hes', hnd', hmem', hdec', hsorted'⟩ := exists_edits hr' hp' (f a) a
  have hperm : es'.Perm es := by
    refine (List.perm_ext_iff_of_nodup hnd' hnd).mpr fun e => ?_
    rw [hmem', hmem, he.opsOn_eq hr hp hp' hregs ha hi]
  rw [hes, hes', hperm.eq_of_pairwise (fun e e' h h' hle hle' => ?_) hsorted' hsorted]
  -- kinds of one rank are the same, since nothing is given up without being freed here
  have hne := hdec' e h
  have hne' := hdec e' h'
  have hat := ((hmem' e).mp h).1
  have hat' := ((hmem e').mp h').1
  obtain ⟨b, op, q⟩ := e
  obtain ⟨b', op', q'⟩ := e'
  obtain rfl : b = a := hat
  obtain rfl : b' = b := hat'
  rw [before_iff] at hle hle'
  dsimp only at hle hle'
  have hreg : q = q' := by
    have : q.index = q'.index := by omega
    cases q
    cases q'
    exact congrArg _ this
  have hrank : (⟨b', op, q⟩ : Edit).rank = (⟨b', op', q'⟩ : Edit).rank := by omega
  subst hreg
  congr 1
  cases op <;> cases op' <;> simp_all [Edit.rank]

end Erasable

end CountedMachine.Listing
