import CountedMachine.Proofs.Machine.Reading

/-! # Registers that are not read

Two machines at work that agree on everything but registers which the next instruction does not read take
the same step, and leave those registers as they are (`Running.step_reads`). A call that is entered parks the
frame, with the registers that differ, below the frames of the call. Both machines then go through the call in
lockstep (`Lockstep`), with the same effect at each step, until it comes back: the result is the same, and goes
into the register that the instruction creates. The chain may yield in between, and the host may do with the
machine what it likes before it resumes the chain. -/

namespace CountedMachine

variable {p : Program} {limit : Nat}

/-! ## Runs of a call -/

/-- **The machine goes on** after a step: at once, or when the host resumes the chain that has yielded. -/
inductive Progress.LeadsTo : Progress → Running → Prop
  | more (s : Running) : LeadsTo (.more s) s
  | resumed {m : Machine} {v : Value} {frames : Array Frame} {f : Frame} (m' : Machine) :
    frames.back? = some f → LeadsTo (.stop m (.yielded v ⟨frames⟩)) ⟨m', frames.pop, f⟩

namespace Running

/-- A step after which the machine goes on. -/
def Onward (p : Program) (limit : Nat) (s t : Running) : Prop :=
  ∃ q, s.step p limit = .ok q ∧ q.LeadsTo t

/-- The machine goes from one state to another, and more than `n` frames wait all the time. -/
inductive Inside (p : Program) (limit n : Nat) (s : Running) : Running → Prop
  | refl : n < s.callers.size → Inside p limit n s s
  | step {t u : Running} : Inside p limit n s t → t.Onward p limit u → n < u.callers.size →
    Inside p limit n s u

/-- **A call that comes back:** the step enters a call, and control is in the frame again when no more
frames wait than before. -/
def Calls (p : Program) (limit : Nat) (s t : Running) : Prop :=
  ∃ a b, s.step p limit = .ok (.more a) ∧ Inside p limit s.callers.size a b ∧ b.Onward p limit t ∧
    t.callers.size ≤ s.callers.size

/-- **Machines at work that agree** on everything but registers of the current frame other than `rs`. -/
structure AgreeOn (rs : List Reg) (s s' : Running) : Prop where
  machine : s'.machine = s.machine
  callers : s'.callers = s.callers
  frame : s'.cur = s.cur.fill s'.cur.regs
  size : s'.cur.regs.size = s.cur.regs.size
  regs : ∀ r ∈ rs, s'.cur.regs[r.index]? = s.cur.regs[r.index]?

end Running

/-! ## One step -/

section
variable {i : Instr Nat} {γ γ' : Array Frame} {f f' : Frame} {s s' : Running}

/-- A step that goes well in the one has its effect on the other as well. -/
theorem SameEffect.of_ok {y y' : Except Fault Progress} {q : Progress}
    (h : SameEffect i γ γ' f f' y y') (hy : y = .ok q) :
    ∃ e : Effect, e.Of i f.ret ∧ q = e.on γ f ∧ y' = .ok (e.on γ' f') := by
  cases h with
  | fault x => cases hy
  | @effect e he => exact ⟨e, he, (Except.ok.inj hy).symm, rfl⟩

theorem Frame.read_of_get? {r : Reg} (h : f'.regs[r.index]? = f.regs[r.index]?) :
    f'.read r = f.read r := by
  rw [Frame.read, Frame.read, h]

namespace Running

/-- **A step has the same effect** where the registers that the instruction reads, or whose ownership it
adjusts, are the same. -/
theorem sameEffect_step (hi : s.fetch p = .ok i) (hm : s'.machine = s.machine)
    (hγ : Peers s.callers s'.callers) (hf : s'.cur = s.cur.fill s'.cur.regs)
    (hsize : s'.cur.regs.size = s.cur.regs.size)
    (hreads : ∀ r ∈ i.inputs, s'.cur.read r = s.cur.read r)
    (hadjusts : ∀ op r, i = .adjust op r → s'.cur.read r = s.cur.read r) :
    SameEffect i s.callers s'.callers s.advance.cur s'.advance.cur (s.step p limit)
      (s'.step p limit) := by
  obtain ⟨m, γ, f⟩ := s
  obtain ⟨m', γ', f'⟩ := s'
  dsimp only at hm hγ hf hsize hreads hadjusts
  generalize f'.regs = ρ at hf hsize
  subst hm hf
  have hi' : (⟨m', γ', f.fill ρ⟩ : Running).fetch p = .ok i := hi
  simp only [step, hi, hi', bind, Except.bind]
  exact SameEffect.exec (f := { f with pc := f.pc + 1 }) hγ hsize hreads hadjusts

theorem AgreeOn.sameEffect (hs : s.AgreeOn i.inputs s') (hi : s.fetch p = .ok i)
    (hown : ∀ op r, i ≠ .adjust op r) :
    SameEffect i s.callers s'.callers s.advance.cur s'.advance.cur (s.step p limit)
      (s'.step p limit) :=
  sameEffect_step hi hs.machine (hs.callers ▸ Peers.refl s.callers) hs.frame hs.size
    (fun r hr => Frame.read_of_get? (hs.regs r hr)) fun op r e => absurd e (hown op r)

end Running

end

/-! ## Lockstep -/

/-- **Chains that differ in one frame only**, `P` on one side and `P'` on the other, with the frames
`below` it; the result of the frame above it goes into `ret`. -/
def Buried (below : Array Frame) (P P' : Frame) (ret : Option Reg) (γ γ' : Array Frame) (f : Frame) :
    Prop :=
  ∃ above : List Frame, γ.toList = below.toList ++ P :: above ∧
    γ'.toList = below.toList ++ P' :: above ∧ (above.head?.getD f).ret = ret

/-- **Machines in lockstep:** at work on the same frame, over chains that differ in one frame only. -/
structure Lockstep (below : Array Frame) (P P' : Frame) (ret : Option Reg) (b b' : Running) : Prop where
  machine : b'.machine = b.machine
  cur : b'.cur = b.cur
  chain : Buried below P P' ret b.callers b'.callers b.cur

section
variable {below γ γ' : Array Frame} {P P' f g : Frame} {ret : Option Reg}

namespace Buried

theorem start (h : f.ret = ret) : Buried below P P' ret (below.push P) (below.push P') f :=
  ⟨[], by simp, by simp, h⟩

/-- Another frame is at work that returns into the same register. -/
theorem of_ret (h : Buried below P P' ret γ γ' f) (hg : g.ret = f.ret) :
    Buried below P P' ret γ γ' g := by
  obtain ⟨above, hγ, hγ', hret⟩ := h
  refine ⟨above, hγ, hγ', ?_⟩
  cases above with
  | nil => exact hg.trans hret
  | cons x above => exact hret

theorem push (h : Buried below P P' ret γ γ' f) (g : Frame) :
    Buried below P P' ret (γ.push f) (γ'.push f) g := by
  obtain ⟨above, hγ, hγ', hret⟩ := h
  refine ⟨above ++ [f], by simp [hγ], by simp [hγ'], ?_⟩
  cases above with
  | nil => exact hret
  | cons x above => exact hret

/-- The last of the callers is the frame that differs, or it is the same on both sides. -/
theorem pop (h : Buried below P P' ret γ γ' f) :
    (γ = below.push P ∧ γ' = below.push P' ∧ f.ret = ret) ∨
      ∃ x, γ.back? = some x ∧ γ'.back? = some x ∧ Buried below P P' ret γ.pop γ'.pop x := by
  obtain ⟨above, hγ, hγ', hret⟩ := h
  obtain rfl | ⟨above, x, rfl⟩ := above.eq_nil_or_concat
  · left
    exact ⟨Array.toList_inj.mp (by simpa using hγ), Array.toList_inj.mp (by simpa using hγ'), hret⟩
  · right
    rw [List.concat_eq_append, ← List.cons_append, ← List.append_assoc] at hγ hγ'
    refine ⟨x, ?_, ?_, above, ?_, ?_, ?_⟩
    · rw [← Array.getLast?_toList, hγ, List.getLast?_concat]
    · rw [← Array.getLast?_toList, hγ', List.getLast?_concat]
    · rw [Array.toList_pop, hγ, List.dropLast_concat]
    · rw [Array.toList_pop, hγ', List.dropLast_concat]
    · cases above with
      | nil => exact hret
      | cons _ _ => exact hret

theorem size (h : Buried below P P' ret γ γ' f) : γ'.size = γ.size ∧ below.size < γ.size := by
  obtain ⟨above, hγ, hγ', -⟩ := h
  rw [← Array.length_toList, ← Array.length_toList, ← Array.length_toList, hγ, hγ']
  simp

theorem peers (h : Buried below P P' ret γ γ' f) (hP : P'.regs.size = P.regs.size) : Peers γ γ' := by
  refine ⟨h.size.1, ?_⟩
  obtain ⟨rfl, rfl, -⟩ | ⟨x, hx, hx', -⟩ := h.pop
  · simp [hP]
  · rw [hx, hx']

end Buried

variable {i : Instr Nat} {a a' b b' s s' t u : Running} {e : Effect}

namespace Lockstep

/-- **An effect on machines in lockstep** leaves them in lockstep, unless it leaves the call: then the
frame that differs receives the same value on both sides. -/
theorem effect (h : Lockstep below P P' ret b b') (he : e.Of i b.cur.ret)
    (hu : (e.on b.callers b.advance.cur).LeadsTo u) :
    (∃ u', (e.on b'.callers b'.advance.cur).LeadsTo u' ∧ Lockstep below P P' ret u u') ∨
      ∃ v, u = ⟨u.machine, below, P.receive ret v⟩ ∧
        (e.on b'.callers b'.advance.cur).LeadsTo ⟨u.machine, below, P'.receive ret v⟩ := by
  obtain ⟨m, γ, f⟩ := b
  obtain ⟨m', γ', f'⟩ := b'
  obtain ⟨hm, hcur, hchain⟩ := h
  dsimp only at hm hcur hchain he
  subst hm hcur
  have hparked : Buried below P P' ret γ γ' (Running.advance ⟨m', γ, f'⟩).cur := hchain.of_ret rfl
  cases e with
  | goes m pc scopes =>
    cases hu
    exact .inl ⟨_, .more _, rfl, rfl, hchain.of_ret rfl⟩
  | sets m r v =>
    cases hu
    exact .inl ⟨_, .more _, rfl, rfl, hchain.of_ret rfl⟩
  | enters m callee =>
    cases hu
    exact .inl ⟨_, .more _, rfl, rfl, hparked.push callee⟩
  | replaces m callee =>
    cases hu
    exact .inl ⟨_, .more _, rfl, rfl, hchain.of_ret he.2⟩
  | leaves m v =>
    obtain ⟨rfl, rfl, hret⟩ | ⟨x, hx, hx', hpop⟩ := hchain.pop
    · simp only [Effect.on, Running.advance, Array.back?_push, Array.pop_push, hret] at hu ⊢
      cases hu
      exact .inr ⟨v, rfl, .more _⟩
    · simp only [Effect.on, Running.advance, hx, hx'] at hu ⊢
      cases hu
      refine .inl ⟨_, .more _, rfl, rfl, hpop.of_ret ?_⟩
      unfold Frame.receive
      split <;> rfl
  | yields m v =>
    generalize hq : (Effect.yields m v).on γ _ = q at hu
    cases hu with
    | more => cases hq
    | resumed m' hback =>
      cases hq
      rw [Array.back?_push] at hback
      obtain rfl := Option.some.inj hback
      refine .inl ⟨_, .resumed m' (Array.back?_push ..), rfl, rfl, ?_⟩
      simp only [Array.pop_push]
      exact hparked

/-- **A step of machines in lockstep.** -/
theorem step (h : Lockstep below P P' ret b b') (hP : P'.regs.size = P.regs.size)
    (hu : b.Onward p limit u) :
    (∃ u', b'.Onward p limit u' ∧ Lockstep below P P' ret u u') ∨
      ∃ v, u = ⟨u.machine, below, P.receive ret v⟩ ∧
        b'.Onward p limit ⟨u.machine, below, P'.receive ret v⟩ := by
  obtain ⟨q, hq, hu⟩ := hu
  obtain ⟨i, hi, -⟩ := bind_ok hq
  have hsame : SameEffect i b.callers b'.callers b.advance.cur b'.advance.cur (b.step p limit)
      (b'.step p limit) :=
    Running.sameEffect_step hi h.machine (h.chain.peers hP) (by rw [h.cur]; rfl) (by rw [h.cur])
      (fun _ _ => by rw [h.cur]) fun _ _ _ => by rw [h.cur]
  obtain ⟨e, he, rfl, hq'⟩ := hsame.of_ok hq
  obtain ⟨u', hu', hlock⟩ | ⟨v, hv, hu'⟩ := h.effect he hu
  · exact .inl ⟨u', ⟨_, hq', hu'⟩, hlock⟩
  · exact .inr ⟨v, hv, ⟨_, hq', hu'⟩⟩

/-- **A run of machines in lockstep.** -/
theorem run (h : Lockstep below P P' ret a a') (hP : P'.regs.size = P.regs.size)
    (hb : Running.Inside p limit below.size a b) :
    ∃ b', Running.Inside p limit below.size a' b' ∧ Lockstep below P P' ret b b' := by
  induction hb with
  | refl hn => exact ⟨a', .refl (h.chain.size.1 ▸ hn), h⟩
  | step _ ht hn ih =>
    obtain ⟨t', ht', hlock⟩ := ih
    obtain ⟨u', hu', hlock'⟩ | ⟨v, hv, -⟩ := hlock.step hP ht
    · exact ⟨u', .step ht' hu' (hlock'.chain.size.1 ▸ hn), hlock'⟩
    · rw [hv] at hn
      exact absurd hn (Nat.lt_irrefl _)

end Lockstep

/-! ## Calls -/

/-- An effect after which more frames wait enters a call. -/
theorem Effect.enters_of_size {e : Effect} (he : e.on γ f = .more a) (hsize : γ.size < a.callers.size) :
    ∃ m callee, e = .enters m callee := by
  cases e with
  | enters m callee => exact ⟨m, callee, rfl⟩
  | goes m pc scopes =>
    cases he
    exact absurd hsize (Nat.lt_irrefl _)
  | sets m r v =>
    cases he
    exact absurd hsize (Nat.lt_irrefl _)
  | replaces m callee =>
    cases he
    exact absurd hsize (Nat.lt_irrefl _)
  | leaves m v =>
    simp only [Effect.on] at he
    split at he
    · cases he
    · cases he
      simp only [Array.size_pop] at hsize
      omega
  | yields m v => cases he

theorem Running.Inside.size (h : Running.Inside p limit n a b) : n < a.callers.size := by
  induction h with
  | refl hn => exact hn
  | step _ _ _ ih => exact ih

namespace Running

/-- A call comes back on both sides, with the same value. -/
theorem AgreeOn.calls (hs : s.AgreeOn i.inputs s') (hi : s.fetch p = .ok i)
    (hown : ∀ op r, i ≠ .adjust op r) (ht : s.Calls p limit t) :
    ∃ dst v, i.creates = some dst ∧
      t = ⟨t.machine, s.callers, s.advance.cur.receive (some dst) v⟩ ∧
      s'.Calls p limit ⟨t.machine, s.callers, s'.advance.cur.receive (some dst) v⟩ := by
  obtain ⟨a, b, ha, hb, ht, hsize⟩ := ht
  obtain ⟨e, he, hon, ha'⟩ := (hs.sameEffect hi hown).of_ok ha
  obtain ⟨m, callee, rfl⟩ := Effect.enters_of_size hon.symm hb.size
  obtain ⟨⟨dst, func, nargs, checked, rfl⟩, hret⟩ := he
  cases hon
  have hstart : Lockstep s.callers s.advance.cur s'.advance.cur (some dst)
      ⟨m, s.callers.push s.advance.cur, callee⟩ ⟨m, s'.callers.push s'.advance.cur, callee⟩ :=
    ⟨rfl, rfl, hs.callers ▸ .start hret⟩
  obtain ⟨b', hb', hlock⟩ := hstart.run hs.size hb
  obtain ⟨u', -, hlock'⟩ | ⟨v, hv, ht'⟩ := hlock.step hs.size ht
  · exact absurd hlock'.chain.size.2 (Nat.not_lt.mpr hsize)
  · refine ⟨dst, v, rfl, hv, _, b', ha', ?_, ht', ?_⟩
    · rwa [hs.callers] at hb' ⊢
    · exact Nat.le_of_eq (congrArg Array.size hs.callers.symm)

/-- **What instructions read and write.** A step in which the instruction is no ownership instruction has the
same effect, or ends in the same fault, on machines at work that agree on everything but registers of the
current frame that the instruction does not read: control goes to the same place, the machine, the callers
and what the host receives are the same, and so is the value of the one register that is set, which is the one
that the instruction creates or moves to (`Effect.on`, `Effect.Of`). A call that comes back has set the
register that it creates and no other, to the same value on both sides. -/
theorem step_reads (hi : s.fetch p = .ok i) (hown : ∀ op r, i ≠ .adjust op r)
    (hs : s.AgreeOn i.inputs s') :
    SameEffect i s.callers s.callers s.advance.cur s'.advance.cur (s.step p limit)
        (s'.step p limit) ∧
      ∀ t, s.Calls p limit t → ∃ dst v, i.creates = some dst ∧
        t = ⟨t.machine, s.callers, s.advance.cur.receive (some dst) v⟩ ∧
        s'.Calls p limit ⟨t.machine, s.callers, s'.advance.cur.receive (some dst) v⟩ := by
  have hsame : SameEffect i s.callers s'.callers s.advance.cur s'.advance.cur (s.step p limit)
      (s'.step p limit) := hs.sameEffect hi hown
  rw [hs.callers] at hsame
  exact ⟨hsame, fun t ht => hs.calls hi hown ht⟩

/-- A unit that calls the function in its second register, and one that answers. -/
def asking : Program where
  units := #[⟨"ask", 0, 0, 3, #[.call ⟨0⟩ ⟨1⟩ 0 false]⟩,
    ⟨"answer", 0, 0, 1, #[.flag ⟨0⟩ true, .ret ⟨0⟩]⟩]
  consts := #[]
  types := #[]
  entry := ⟨0⟩

/-- A machine that holds the function that answers. -/
def holding (rc : Nat) (stats : CallCounts) : Machine where
  heap := { slots := #[some ⟨rc, .closure (.plain ⟨1⟩)⟩], stats := ⟨1, 0, 1, 0⟩ }
  consts := #[]
  stack := []
  stats := stats

/-- The frame that asks. -/
def asker (pc : Nat) (x y : Value) : Frame := ⟨⟨0⟩, pc, #[x, .obj ⟨0⟩, y], [], none, none, []⟩

/-- The frame that answers. -/
def answerer (pc : Nat) (x : Value) : Frame :=
  ⟨⟨1⟩, pc, #[x], [], some (.obj ⟨0⟩), some ⟨0⟩, []⟩

theorem calls_asking : Calls asking 10 ⟨holding 1 {}, #[], asker 0 .nil .nil⟩
    ⟨holding 1 ⟨1, 0, 2⟩, #[], asker 1 (.bool true) .nil⟩ :=
  ⟨⟨holding 2 ⟨1, 0, 2⟩, #[asker 1 .nil .nil], answerer 0 .nil⟩,
    ⟨holding 2 ⟨1, 0, 2⟩, #[asker 1 .nil .nil], answerer 1 (.bool true)⟩, rfl,
    .step (.refl Nat.one_pos) ⟨_, rfl, .more _⟩ Nat.one_pos, ⟨_, rfl, .more _⟩, Nat.le_refl 0⟩

/-- The answer is the same when the other two registers hold something else. -/
theorem step_reads_asking :
    AgreeOn [⟨1⟩] ⟨holding 1 {}, #[], asker 0 .nil .nil⟩
      ⟨holding 1 {}, #[], asker 0 (.bool false) (.obj ⟨7⟩)⟩ ∧
    Calls asking 10 ⟨holding 1 {}, #[], asker 0 (.bool false) (.obj ⟨7⟩)⟩
      ⟨holding 1 ⟨1, 0, 2⟩, #[], asker 1 (.bool true) (.obj ⟨7⟩)⟩ := by
  have hs : AgreeOn [⟨1⟩] ⟨holding 1 {}, #[], asker 0 .nil .nil⟩
      ⟨holding 1 {}, #[], asker 0 (.bool false) (.obj ⟨7⟩)⟩ :=
    ⟨rfl, rfl, rfl, rfl, by simp [asker]⟩
  have hi : fetch asking ⟨holding 1 {}, #[], asker 0 .nil .nil⟩ = .ok (.call ⟨0⟩ ⟨1⟩ 0 false) := rfl
  obtain ⟨dst, v, hdst, ht, ht'⟩ := (step_reads hi (fun _ _ => nofun) hs).2 _ calls_asking
  cases hdst
  have hv : v = .bool true := by
    simpa [asker, Frame.receive, Frame.fill, advance] using (congrArg Running.cur ht).symm
  subst hv
  exact ⟨hs, ht'⟩

end Running

end

end CountedMachine
