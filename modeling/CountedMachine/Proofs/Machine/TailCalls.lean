import CountedMachine.Proofs.Machine.Arguments

/-! # Tail calls

In a module all of whose calls are tail calls of variables (`Expr.tailCalls`) there is nothing that
makes a chain of frames longer: no unit has another call in it, and a tail call replaces the frame. So
a run stays in one frame, through its yields and for as long as it goes on (`Host.one_frame`). -/

namespace CountedMachine

/-- No unit has a call in it, other than tail calls. -/
def Program.Flat (p : Program) : Prop :=
  ∀ u ∈ p.units, ∀ dst func nargs checked, .call dst func nargs checked ∉ u.code

theorem SourceModule.compile_flat {m : SourceModule} {settings : Settings} {p : Program}
    (hp : m.compile settings = .ok p) (htail : m.body.tailCalls true = true) : p.Flat := by
  obtain ⟨hunits, -⟩ := compile_ordered False True hp (Or.inr htail) (Or.inl trivial)
  intro u hu dst func nargs checked hcall
  exact ((hunits u hu).apt _ hcall).names

/-- **The chain is one frame**, and has never been longer. -/
structure Running.Alone (s : Running) : Prop where
  callers : s.callers = #[]
  calls : s.machine.stats.calls = 0
  deepest : s.machine.stats.deepest = 1

/-- The host has never seen more than one frame. -/
structure Host.Alone (H : Host) : Prop where
  calls : H.machine.stats.calls = 0
  deepest : H.machine.stats.deepest ≤ 1
  chains : ∀ c, some c ∈ H.suspensions → c.depth = 1 ∧ H.machine.stats.deepest = 1

namespace Running

variable {p : Program} {limit : Nat} {s : Running} {q : Progress}

theorem fetch_ne_call (hp : p.Flat) {i : Instr Nat} (hi : s.fetch p = .ok i) (dst func : Reg)
    (nargs : Nat) (checked : Bool) : i ≠ .call dst func nargs checked := by
  rintro rfl
  have hget := fetch_eq.mp hi
  unfold Program.codeOf at hget
  split at hget
  · next u hu => exact hp u (Array.mem_of_getElem? hu) _ _ _ _ (Array.mem_of_getElem? hget)
  · simp at hget

/-- **A step stays in one frame**, or comes back to the host with at most one. -/
theorem Alone.step (hp : p.Flat) (hs : s.Alone) (e : s.step p limit = .ok q) :
    q.machine.stats.calls = 0 ∧ q.machine.stats.deepest = 1 ∧ match q with
      | .more s' => s'.Alone
      | .stop _ o => ∀ v c, o = .yielded v c → c.depth = 1 := by
  obtain ⟨i, hi, hturn⟩ := turns_step e
  cases hturn with
  | stays => exact ⟨hs.calls, hs.deepest, hs.callers, hs.calls, hs.deepest⟩
  | adjusts => exact ⟨hs.calls, hs.deepest, hs.callers, hs.calls, hs.deepest⟩
  | pushes => exact ⟨hs.calls, hs.deepest, hs.callers, hs.calls, hs.deepest⟩
  | refuses => exact absurd rfl (fetch_ne_call hp hi _ _ _ _)
  | enters => exact absurd rfl (fetch_ne_call hp hi _ _ _ _)
  | replaces => exact ⟨hs.calls, hs.deepest, hs.callers, hs.calls, hs.deepest⟩
  | leaves => exact ⟨hs.calls, hs.deepest, nofun⟩
  | returns _ hback =>
    rw [hs.callers] at hback
    cases hback
  | yields =>
    refine ⟨hs.calls, hs.deepest, fun v c hc => ?_⟩
    obtain ⟨-, rfl⟩ := Outcome.yielded.inj hc
    rw [Suspension.depth, Array.size_push, hs.callers]
    rfl

end Running

namespace Host

variable {m : SourceModule} {settings : Settings} {p : Program}

/-- What a host does that calls no function: it runs, resumes, releases and looks at values. -/
def NoCall : HostAction → Prop
  | .call _ _ => False
  | _ => True

theorem alone (hp : p.Flat) (limits : Limits) :
    (∀ H, Reached p limits NoCall H → H.Alone) ∧ ∀ s, Visited p limits NoCall s → s.Alone := by
  refine invariant (fun m hm => ?_) (fun H H' hH hrest => ?_) (fun H a s hH ha hs => ?_)
    (fun s s' hs e => (hs.step hp e).2.2) fun H H' s m o hH hs e hreceive => ?_
  · obtain ⟨q, -, hm⟩ := bind_ok hm
    cases hm
    exact ⟨rfl, Nat.zero_le 1, by simp⟩
  · obtain ⟨h, hm, hchains⟩ := hrest
    have hstats : H'.machine.stats = H.machine.stats := by rw [hm]
    exact ⟨by rw [hstats, hH.calls], by rw [hstats]; exact hH.deepest,
      by rw [hstats, hchains]; exact hH.chains⟩
  · cases a with
    | run =>
      obtain ⟨cur, -, rfl⟩ := hs
      exact ⟨rfl, hH.calls, Nat.max_eq_right hH.deepest⟩
    | call f args => exact ha.elim
    | resume handle =>
      obtain ⟨c, cur, hget, -, rfl⟩ := hs
      obtain ⟨hdepth, hdeepest⟩ := hH.chains c (Array.mem_of_getElem? hget)
      refine ⟨Array.eq_empty_of_size_eq_zero ?_, hH.calls, hdeepest⟩
      rw [Array.size_pop]
      exact Nat.sub_eq_zero_of_le hdepth.le
    | release handle => exact hs.elim
    | inspect handle => exact hs.elim
  · obtain ⟨hcalls, hdeepest, hyield⟩ := hs.step hp e
    obtain ⟨rfl, hchains⟩ := hreceive
    refine ⟨hcalls, hdeepest.le, fun c hc => ?_⟩
    rcases hchains c hc with hc | ⟨v, hv⟩
    · exact ⟨(hH.chains c hc).1, hdeepest⟩
    · exact ⟨hyield v c hv, hdeepest⟩

/-- **Tail calls never make the chain longer.** When all calls of a module are tail calls of variables,
its units have no other calls in them; and whatever the limits are, while a program is run, resumed
and released, the chain is one frame, no call is counted and the longest chain is one frame. -/
theorem one_frame (hp : m.compile settings = .ok p) (htail : m.body.tailCalls true = true) :
    p.Flat ∧ ∀ limits, (∀ H, Reached p limits NoCall H → H.Alone) ∧
      ∀ s, Visited p limits NoCall s → s.Alone ∧ ∀ q, s.step p limits.frames = .ok q →
        q.machine.stats.calls = 0 ∧ q.machine.stats.deepest = 1 := by
  have hflat := SourceModule.compile_flat hp htail
  refine ⟨hflat, fun limits => ⟨(alone hflat limits).1, fun s hs => ?_⟩⟩
  have hs := (alone hflat limits).2 s hs
  exact ⟨hs, fun q hq => ⟨(hs.step hflat hq).1, (hs.step hflat hq).2.1⟩⟩

/-- There is one frame when the function is about to be called, and after its call. -/
theorem one_frame_echo : Echo.source.compile Echo.settings = .ok Echo.program ∧
    Echo.source.body.tailCalls true = true ∧ Echo.program.Flat ∧
      Visited Echo.program ⟨10, 10⟩ NoCall Echo.calling ∧ Echo.calling.Alone ∧
        ∃ s, Echo.calling.step Echo.program 10 = .ok (.more s) ∧ s.machine.stats.calls = 0 ∧
          s.machine.stats.deepest = 1 := by
  have htail : Echo.source.body.tailCalls true = true := by decide
  have hs := Echo.visited_calling NoCall trivial trivial
  obtain ⟨hflat, hlimits⟩ := one_frame Echo.compile_source htail
  obtain ⟨halone, hnext⟩ := (hlimits ⟨10, 10⟩).2 _ hs
  exact ⟨Echo.compile_source, htail, hflat, hs, halone, _, Echo.step_calling, hnext _ Echo.step_calling⟩

end Host

end CountedMachine
