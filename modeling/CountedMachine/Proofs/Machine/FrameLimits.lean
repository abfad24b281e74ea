import CountedMachine.Proofs.Heap.Effects
import CountedMachine.Proofs.Machine.Control

/-! # The limit on frames

A moment is a host that acts, or one that waits for the machine at work, and a chronicle is the list of
moments since the program was loaded. The host may resume the chains that it holds in any order, so
chains come back at any depth.

An event keeps all chains within the limit, and a chain that is longer than all before is noted
(`Moment.Next.within`, `Moment.Next.noted`). So in every chronicle the chains have at least one frame
and no more than the limit, or one where the limit is zero, and the length that the machine has noted is
that of the longest chain so far. What happens to the frames at a tail call and at a refused call is said
for every state, whether it can be reached or not (`Running.tailCall_keeps`, `Running.call_beyond`).
`frame_limit` is all this together. -/

namespace CountedMachine

/-! ## Calls at the limit -/

namespace Running

variable {p : Program} {limit : Nat} {s s' : Running} {q : Progress} {dst func : Reg} {nargs : Nat}
  {checked : Bool} {f : Value} {unit : UnitId} {reason : CallRefusal} {args : List Value}

theorem takeArgs_cases {m m' : Machine} (e : m.takeArgs nargs = .ok (m', args)) :
    m' = m.fed m.heap nargs ∧ args = (m.stack.take nargs).reverse := by
  refine ⟨Machine.eq_of_takeArgs e, ?_⟩
  obtain ⟨heap, consts, stack, stats⟩ := m
  simp only [Machine.takeArgs] at e
  split_ifs at e
  cases e
  rfl

/-- **How a call goes:** when it finds a unit and is not at the limit it is made, and else refused. -/
theorem call_cases (e : s.call p limit dst func nargs checked = .ok q) :
    ∃ f out, s.cur.read func = .ok f ∧ p.resolveCall s.machine.heap f nargs = .ok out ∧
      ((∃ unit, out = .ok unit ∧ s.callers.size + 1 < limit ∧
        enter p unit f (s.machine.stack.take nargs).reverse dst
          ⟨s.machine.fed s.machine.heap nargs, s.callers, s.cur⟩ = .ok q) ∨
      ∃ reason, (∀ unit, out = .ok unit → limit ≤ s.callers.size + 1 ∧ reason = .stackOverflow) ∧
        refuse reason (s.machine.stack.take nargs).reverse dst
          ⟨s.machine.fed s.machine.heap nargs, s.callers, s.cur⟩ = .ok q) := by
  obtain ⟨⟨m, args⟩, hargs, e⟩ := bind_ok e
  obtain ⟨f, hf, e⟩ := bind_ok e
  obtain ⟨out, hout, e⟩ := bind_ok e
  obtain ⟨rfl, rfl⟩ := takeArgs_cases hargs
  refine ⟨f, out, hf, hout, ?_⟩
  split at e
  · next unit =>
    split_ifs at e with hfull
    · exact .inr ⟨_, fun _ _ => ⟨hfull, rfl⟩, e⟩
    · exact .inl ⟨unit, rfl, Nat.not_le.mp hfull, e⟩
  · split at e
    · cases e
    · exact .inr ⟨_, nofun, e⟩

/-- A refused call gives back one reference to each argument, and puts an error value into its register. -/
theorem refuse_cases (e : refuse reason args dst s = .ok q) :
    ∃ h, s.machine.heap.unrefAll args = .ok h ∧
      q = .more ⟨{ s.machine with heap := (h.undefined reason.tag).1 }, s.callers,
        { s.cur with regs := s.cur.regs.setIfInBounds dst.index (h.undefined reason.tag).2 }⟩ := by
  obtain ⟨s₁, hs₁, e⟩ := bind_ok e
  obtain ⟨m, hm, hs₁⟩ := bind_ok hs₁
  obtain ⟨h, hh, hm⟩ := bind_ok hm
  cases hm
  cases hs₁
  obtain ⟨out, hout, e⟩ := bind_ok e
  obtain rfl := Except.ok.inj hout
  obtain ⟨cur, hcur, e⟩ := bind_ok e
  unfold Frame.write at hcur
  split_ifs at hcur
  cases hcur
  cases e
  exact ⟨h, hh, rfl⟩

/-- A call lengthens the chain only below the limit. -/
theorem size_lt_of_call (e : s.call p limit dst func nargs checked = .ok (.more s'))
    (hlt : s.callers.size < s'.callers.size) : s.callers.size + 1 < limit := by
  obtain ⟨f, out, -, -, ⟨unit, -, hbelow, -⟩ | ⟨reason, -, e⟩⟩ := call_cases e
  · exact hbelow
  · obtain ⟨h, -, hq⟩ := refuse_cases e
    cases hq
    exact absurd hlt (Nat.lt_irrefl _)

/-- **A call beyond the limit** leaves all frames as they are, except for its register, and gives back
one reference to each of its arguments. -/
theorem call_beyond (hi : s.fetch p = .ok (.call dst func nargs checked))
    (hf : s.cur.read func = .ok f) (hunit : p.resolveCall s.machine.heap f nargs = .ok (.ok unit))
    (hfull : limit ≤ s.callers.size + 1) (e : s.step p limit = .ok q) :
    ∃ h, s.machine.heap.unrefAll (s.machine.stack.take nargs).reverse = .ok h ∧
      (∀ R, Heap.Sound s.machine.heap (refsOf (s.machine.stack.take nargs).reverse + R) [] →
        Heap.Sound h R []) ∧
      q = .more ⟨s.machine.fed (h.undefined "stack-overflow").1 nargs, s.callers,
        { s.parked with regs :=
          s.cur.regs.setIfInBounds dst.index (h.undefined "stack-overflow").2 }⟩ := by
  obtain ⟨i, hi', e⟩ := bind_ok e
  obtain rfl := Except.ok.inj (hi.symm.trans hi')
  replace e : s.advance.call p limit dst func nargs checked = .ok q := e
  obtain ⟨f', out, hf', hout, hcase⟩ := call_cases e
  obtain rfl : f = f' := Except.ok.inj (hf.symm.trans hf')
  obtain rfl := Except.ok.inj (hunit.symm.trans hout)
  obtain ⟨_, -, hbelow, -⟩ | ⟨reason, hreason, e⟩ := hcase
  · exact absurd hbelow (Nat.not_lt.mpr hfull)
  · obtain ⟨-, rfl⟩ := hreason unit rfl
    obtain ⟨h, hh, rfl⟩ := refuse_cases e
    refine ⟨h, hh, fun R hs => ?_, rfl⟩
    have hgiven : Ensures False (s.machine.heap.unrefAll _) _ := hs.ensures_unrefAll _
    exact (hgiven.result hh).1

/-- **A tail call that finds a unit** replaces the current frame. -/
theorem tailCall_keeps (hi : s.fetch p = .ok (.tailCall func nargs))
    (hf : s.cur.read func = .ok f) (hunit : p.resolveCall s.machine.heap f nargs = .ok (.ok unit))
    (e : s.step p limit = .ok q) :
    ∃ s', q = .more s' ∧ s'.callers = s.callers := by
  obtain ⟨i, hi', e⟩ := bind_ok e
  obtain rfl := Except.ok.inj (hi.symm.trans hi')
  obtain ⟨⟨m, args⟩, hargs, e⟩ := bind_ok e
  obtain ⟨f', hf', e⟩ := bind_ok e
  obtain ⟨out, hout, e⟩ := bind_ok e
  obtain ⟨rfl, rfl⟩ := takeArgs_cases hargs
  obtain rfl : f = f' := Except.ok.inj (hf.symm.trans hf')
  obtain rfl := Except.ok.inj (hunit.symm.trans hout)
  obtain ⟨m₁, -, e⟩ := bind_ok e
  obtain ⟨m₂, -, e⟩ := bind_ok e
  obtain ⟨callee, hcallee, e⟩ := bind_ok e
  obtain ⟨u, -, hcallee⟩ := bind_ok hcallee
  cases hcallee
  cases e
  exact ⟨_, rfl, rfl⟩

end Running

/-! ## Chronicles -/

/-- The lengths of the chains that the host holds. -/
def Host.lengths (H : Host) : List Nat :=
  H.suspensions.toList.filterMap fun c => c.map Suspension.depth

/-- A host that acts, or waits for the machine at work. -/
inductive Moment
  | idle (H : Host)
  | busy (H : Host) (s : Running)

namespace Moment

/-- The machine. -/
def machine : Moment → Machine
  | idle H => H.machine
  | busy _ s => s.machine

/-- The lengths of all chains: of the one at work, and of those that the host holds. -/
def lengths : Moment → List Nat
  | idle H => H.lengths
  | busy H s => (s.callers.size + 1) :: H.lengths

/-- **What can happen next:** the host acts without setting the machine to work, or sets it to work; the
machine takes a step, with which it may come back to the host. -/
inductive Next (p : Program) (limits : Limits) : Moment → Moment → Prop
  | acts {H H' : Host} {a : HostAction} {reply : HostReply} :
      H.perform p limits a = .ok (H', reply) → (∀ s, ¬ H.Begins p a s) →
      Next p limits (idle H) (idle H')
  | begins {H : Host} {a : HostAction} {s : Running} : H.Begins p a s →
      Next p limits (idle H) (busy (H.parting a) s)
  | goes {H : Host} {s s' : Running} : s.step p limits.frames = .ok (.more s') →
      Next p limits (busy H s) (busy H s')
  | stops {H : Host} {s : Running} {m : Machine} {o : Outcome} :
      s.step p limits.frames = .ok (.stop m o) → Next p limits (busy H s) (idle (H.receiving m o))

end Moment

/-- **All that has happened** since the program was loaded, the latest first. -/
inductive Chronicle (p : Program) (limits : Limits) : List Moment → Prop
  | load {m : Machine} : Machine.load p = .ok m → Chronicle p limits [.idle ⟨m, #[], #[]⟩]
  | next {w w' : Moment} {past : List Moment} : Chronicle p limits (w :: past) →
      Moment.Next p limits w w' → Chronicle p limits (w' :: w :: past)

/-- The length of the longest chain there has been, zero where there have been no chains. -/
def longest (ws : List Moment) : Nat := (ws.flatMap Moment.lengths).foldr max 0

section
variable {p : Program} {limits : Limits} {H H' : Host} {w w' : Moment} {past : List Moment}
  {s s' : Running} {a : HostAction} {m : Machine} {o : Outcome} {n : Nat} {q : Progress}

theorem Host.mem_lengths : n ∈ H.lengths ↔ ∃ c, some c ∈ H.suspensions ∧ c.depth = n := by
  simp [lengths]

/-! ## One event -/

/-- **What a step does to the chain at work:** it is as long as it was, or grows by a frame below the
limit, or shrinks, or is handed to the host. Only a chain that grows is noted. -/
theorem Running.size_step (e : s.step p limits.frames = .ok q) :
    match q with
    | .more s' => (s'.callers.size ≤ s.callers.size ∧
          s'.machine.stats.deepest = s.machine.stats.deepest) ∨
        s.callers.size + 1 < limits.frames ∧ s'.callers.size = s.callers.size + 1 ∧
          s'.machine.stats.deepest = max s.machine.stats.deepest (s'.callers.size + 1)
    | .stop m o => m.stats.deepest = s.machine.stats.deepest ∧
        ∀ v c, o = .yielded v c → c.depth = s.callers.size + 1 := by
  obtain ⟨i, hi, hturn⟩ := turns_step e
  cases hturn with
  | enters =>
    obtain ⟨j, hj, e⟩ := bind_ok e
    obtain rfl := Except.ok.inj (hi.symm.trans hj)
    have hlt := size_lt_of_call (s := s.advance) e (Array.size_push _ ▸ Nat.lt_succ_self _)
    refine .inr ⟨hlt, Array.size_push _, ?_⟩
    rw [Array.size_push]
    rfl
  | returns => exact .inl ⟨Array.size_pop ▸ Nat.sub_le _ _, rfl⟩
  | leaves => exact ⟨rfl, nofun⟩
  | yields =>
    refine ⟨rfl, fun v c hc => ?_⟩
    obtain ⟨-, rfl⟩ := Outcome.yielded.inj hc
    exact Array.size_push _
  | _ => exact .inl ⟨Nat.le_refl _, rfl⟩

/-- A chain that is set to work is new and has one frame, or it is one of those that the host holds. -/
theorem Host.Begins.size (h : H.Begins p a s) :
    (s.callers.size = 0 ∧ s.machine.stats.deepest = max H.machine.stats.deepest 1) ∨
      s.callers.size + 1 ∈ H.lengths ∧ s.machine.stats.deepest = H.machine.stats.deepest := by
  cases a with
  | run =>
    obtain ⟨cur, -, rfl⟩ := h
    exact .inl ⟨rfl, rfl⟩
  | call f args =>
    obtain ⟨m₁, v, m₂, vs, unit, m₃, cur, h₁, h₂, -, h₃, -, rfl⟩ := h
    obtain ⟨h₁, rfl⟩ := machine_of_pass h₁
    obtain ⟨h₂, rfl⟩ := machine_of_passAll h₂
    obtain ⟨h₃, rfl⟩ := Machine.eq_of_overHeap h₃
    exact .inl ⟨rfl, rfl⟩
  | resume handle =>
    obtain ⟨c, cur, hc, hcur, rfl⟩ := h
    refine .inr ⟨mem_lengths.mpr ⟨c, Array.mem_of_getElem? hc, ?_⟩, rfl⟩
    have hpos : 0 < c.frames.size := Array.size_pos_of_mem (Array.mem_of_back? hcur)
    rw [Array.size_pop, Suspension.depth]
    omega
  | release handle => exact h.elim
  | inspect handle => exact h.elim

theorem Host.lengths_parting (hn : n ∈ (H.parting a).lengths) : n ∈ H.lengths := by
  obtain ⟨c, hc, rfl⟩ := mem_lengths.mp hn
  exact mem_lengths.mpr ⟨c, mem_parting hc, rfl⟩

/-- An action that does not set the machine to work changes no chain. -/
theorem Host.lengths_of_perform {reply : HostReply} (e : H.perform p limits a = .ok (H', reply))
    (hidle : ∀ s, ¬ H.Begins p a s) :
    H'.lengths = H.lengths ∧ H'.machine.stats = H.machine.stats := by
  obtain ⟨⟨h, hm, hchains⟩, -⟩ | ⟨s, m, o, hs, -⟩ := perform_cases e
  · exact ⟨by rw [lengths, lengths, hchains], by rw [hm]⟩
  · exact absurd hs (hidle s)

namespace Moment

/-- The chains have at least one frame and no more than the limit, or one, and none is longer than what
is noted. -/
def Within (frames : Nat) (w : Moment) : Prop :=
  ∀ n ∈ w.lengths, 1 ≤ n ∧ n ≤ max 1 frames ∧ n ≤ w.machine.stats.deepest

/-- **An event keeps the chains within the limit.** -/
theorem Next.within (h : Next p limits w w') (hw : w.Within limits.frames) :
    w'.Within limits.frames ∧ w.machine.stats.deepest ≤ w'.machine.stats.deepest := by
  cases h with
  | acts e hidle =>
    obtain ⟨hlengths, hstats⟩ := Host.lengths_of_perform e hidle
    refine ⟨fun n hn => ?_, hstats ▸ Nat.le_refl _⟩
    simp only [lengths, machine, hlengths, hstats] at hn ⊢
    exact hw n hn
  | @begins H a s hs =>
    have hle : H.machine.stats.deepest ≤ s.machine.stats.deepest := by
      obtain ⟨-, hd⟩ | ⟨-, hd⟩ := hs.size <;> rw [hd]
      exact Nat.le_max_left _ _
    refine ⟨fun n hn => ?_, hle⟩
    obtain rfl | hn := List.mem_cons.mp hn
    · obtain ⟨hsize, hd⟩ | ⟨hmem, hd⟩ := hs.size
      · rw [hsize]
        exact ⟨Nat.le_refl 1, Nat.le_max_left _ _, hd ▸ Nat.le_max_right _ _⟩
      · rw [machine, hd]
        exact hw _ hmem
    · obtain ⟨hpos, hlimit, hd⟩ := hw n (Host.lengths_parting hn)
      exact ⟨hpos, hlimit, hd.trans hle⟩
  | @goes H s s' e =>
    obtain ⟨-, hlimit, hd⟩ := hw _ List.mem_cons_self
    simp only [machine] at hd
    obtain ⟨hsize, hd'⟩ | ⟨hlt, hsize, hd'⟩ := Running.size_step e
    · refine ⟨fun n hn => ?_, hd'.ge⟩
      obtain rfl | hn := List.mem_cons.mp hn
      · simp only [machine, hd']
        omega
      · simp only [machine, hd']
        exact hw n (List.mem_cons_of_mem _ hn)
    · have hle : s.machine.stats.deepest ≤ s'.machine.stats.deepest := hd' ▸ Nat.le_max_left _ _
      refine ⟨fun n hn => ?_, hle⟩
      obtain rfl | hn := List.mem_cons.mp hn
      · exact ⟨by omega, by omega, hd' ▸ Nat.le_max_right _ _⟩
      · obtain ⟨hpos, hlimit, hd⟩ := hw n (List.mem_cons_of_mem _ hn)
        exact ⟨hpos, hlimit, hd.trans hle⟩
  | @stops H s m o e =>
    obtain ⟨hd, hyield⟩ := Running.size_step e
    refine ⟨fun n hn => ?_, by simp only [machine, Host.machine_receiving, hd, Nat.le_refl]⟩
    simp only [machine, Host.machine_receiving, hd]
    obtain ⟨c, hc, rfl⟩ := Host.mem_lengths.mp hn
    obtain hc | ⟨v, ho⟩ := Host.mem_receiving hc
    · exact hw _ (List.mem_cons_of_mem _ (Host.mem_lengths.mpr ⟨c, hc, rfl⟩))
    · rw [hyield v c ho]
      exact hw _ List.mem_cons_self

/-- **A chain longer than all before is noted**, and nothing else is. -/
theorem Next.noted (h : Next p limits w w') :
    w'.machine.stats.deepest = w.machine.stats.deepest ∨ w'.machine.stats.deepest ∈ w'.lengths := by
  cases h with
  | acts e hidle => exact .inl (congrArg CallCounts.deepest (Host.lengths_of_perform e hidle).2)
  | @begins H a s hs =>
    obtain ⟨hsize, hd⟩ | ⟨-, hd⟩ := hs.size
    · obtain hmax | hmax := max_choice H.machine.stats.deepest 1
      · exact .inl (hd.trans hmax)
      · exact .inr (List.mem_cons.mpr (.inl (by rw [hsize]; exact hd.trans hmax)))
    · exact .inl hd
  | @goes H s s' e =>
    obtain ⟨-, hd⟩ | ⟨-, -, hd⟩ := Running.size_step e
    · exact .inl hd
    · obtain hmax | hmax := max_choice s.machine.stats.deepest (s'.callers.size + 1)
      · exact .inl (hd.trans hmax)
      · exact .inr (List.mem_cons.mpr (.inl (hd.trans hmax)))
  | @stops H s m o e =>
    obtain ⟨hd, -⟩ := Running.size_step e
    exact .inl (by simp only [machine, Host.machine_receiving, hd])

end Moment

/-! ## Many events -/

theorem le_longest (hn : n ∈ w.lengths) : n ≤ longest [w] :=
  List.le_max_of_le (List.mem_flatMap.mpr ⟨w, List.mem_singleton_self w, hn⟩) (Nat.le_refl n)

theorem longest_le {k : Nat} (h : ∀ n ∈ w.lengths, n ≤ k) : longest [w] ≤ k := by
  refine List.max_le_of_forall_le _ _ fun n hn => h n ?_
  simpa using hn

theorem longest_cons (w : Moment) (ws : List Moment) :
    longest (w :: ws) = max (longest [w]) (longest ws) := by
  have happend : ∀ l l' : List Nat, (l ++ l').foldr max 0 = max (l.foldr max 0) (l'.foldr max 0) := by
    intro l l'
    induction l with
    | nil => simp
    | cons n l ih => simp [ih, max_assoc]
  simp [longest, happend]

/-- **Every chronicle stays within the limit**, and its longest chain is noted. -/
theorem Chronicle.within {ws : List Moment} (h : Chronicle p limits ws) :
    ∀ {w past}, ws = w :: past →
      w.Within limits.frames ∧ w.machine.stats.deepest = longest (w :: past) := by
  induction h with
  | load hm =>
    rintro w past ⟨⟩
    obtain ⟨q, -, hm⟩ := bind_ok hm
    cases hm
    exact ⟨nofun, rfl⟩
  | @next w w' past h hnext ih =>
    rintro _ _ ⟨⟩
    obtain ⟨hw, hd⟩ := ih rfl
    obtain ⟨hw', hle⟩ := hnext.within hw
    refine ⟨hw', ?_⟩
    rw [longest_cons, ← hd]
    refine Nat.le_antisymm ?_ (Nat.max_le.mpr ⟨longest_le fun n hn => (hw' n hn).2.2, hle⟩)
    obtain hsame | hmem := hnext.noted
    · exact hsame ▸ Nat.le_max_right _ _
    · exact (le_longest hmem).trans (Nat.le_max_left _ _)

theorem Chronicle.leads (h : s.Leads p limits.frames s') :
    (∃ past, Chronicle p limits (.busy H s :: past)) → ∃ past, Chronicle p limits (.busy H s' :: past) := by
  induction h with
  | refl => exact id
  | step e _ ih => exact fun ⟨past, hs⟩ => ih ⟨_, hs.next (.goes e)⟩

/-- What a host can reach is the end of a chronicle. -/
theorem Host.Reached.chronicle {allowed : HostAction → Prop} (h : Reached p limits allowed H) :
    ∃ past, Chronicle p limits (.idle H :: past) := by
  induction h with
  | load hm => exact ⟨[], .load hm⟩
  | act _ _ e ih =>
    obtain ⟨past, hpast⟩ := ih
    obtain ⟨-, hidle⟩ | ⟨s, m, o, hs, hrun, rfl⟩ := perform_cases e
    · exact ⟨_, hpast.next (.acts e hidle)⟩
    · obtain ⟨s', hlead, hstop⟩ := Running.leads_of_run hrun
      obtain ⟨past', hpast'⟩ := Chronicle.leads hlead ⟨_, hpast.next (.begins hs)⟩
      exact ⟨_, hpast'.next (.stops hstop)⟩

/-- A machine that is at work is so in a chronicle. -/
theorem Host.Visited.chronicle {allowed : HostAction → Prop} (h : Visited p limits allowed s) :
    ∃ H past, Chronicle p limits (.busy H s :: past) := by
  obtain ⟨H, a, s₀, hH, -, hs₀, hlead⟩ := h
  obtain ⟨past, hpast⟩ := hH.chronicle
  exact ⟨_, Chronicle.leads hlead ⟨_, hpast.next (.begins hs₀)⟩⟩

end

/-- **The limit on frames holds in every run**, whatever program is loaded and whatever the host does.
Chains have between one frame and the limit, or one, and the longest so far is noted. A tail call leaves
the length of the chain as it is. A call that is refused at the limit leaves the frames as they are, but
for the register of its result, and gives back one reference to each of its arguments. -/
theorem frame_limit (p : Program) (limits : Limits) :
    (∀ w past, Chronicle p limits (w :: past) →
      (∀ n ∈ w.lengths, 1 ≤ n ∧ n ≤ max 1 limits.frames) ∧
        w.machine.stats.deepest = longest (w :: past)) ∧
    (∀ H, Host.Reached p limits (fun _ => True) H → ∃ past, Chronicle p limits (.idle H :: past)) ∧
    (∀ s, Host.Visited p limits (fun _ => True) s →
      ∃ H past, Chronicle p limits (.busy H s :: past)) ∧
    (∀ (s : Running) (q : Progress) (func : Reg) (nargs : Nat) (f : Value) (unit : UnitId),
      s.fetch p = .ok (.tailCall func nargs) → s.cur.read func = .ok f →
      p.resolveCall s.machine.heap f nargs = .ok (.ok unit) → s.step p limits.frames = .ok q →
      ∃ s', q = .more s' ∧ s'.callers = s.callers) ∧
    ∀ (s : Running) (q : Progress) (dst func : Reg) (nargs : Nat) (checked : Bool) (f : Value)
        (unit : UnitId),
      s.fetch p = .ok (.call dst func nargs checked) → s.cur.read func = .ok f →
      p.resolveCall s.machine.heap f nargs = .ok (.ok unit) → limits.frames ≤ s.callers.size + 1 →
      s.step p limits.frames = .ok q →
      ∃ h, s.machine.heap.unrefAll (s.machine.stack.take nargs).reverse = .ok h ∧
        (∀ R, Heap.Sound s.machine.heap (refsOf (s.machine.stack.take nargs).reverse + R) [] →
          Heap.Sound h R []) ∧
        q = .more ⟨s.machine.fed (h.undefined "stack-overflow").1 nargs, s.callers,
          { s.parked with regs :=
            s.cur.regs.setIfInBounds dst.index (h.undefined "stack-overflow").2 }⟩ := by
  refine ⟨fun w past h => ?_, fun H hH => hH.chronicle, fun s hs => hs.chronicle, ?_, ?_⟩
  · obtain ⟨hw, hd⟩ := h.within rfl
    exact ⟨fun n hn => ⟨(hw n hn).1, (hw n hn).2.1⟩, hd⟩
  · intro s q func nargs f unit hi hf hunit e
    exact Running.tailCall_keeps hi hf hunit e
  · intro s q dst func nargs checked f unit hi hf hunit hfull e
    exact Running.call_beyond hi hf hunit hfull e

end CountedMachine
