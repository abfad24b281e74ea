import CountedMachine.Proofs.Machine.Control
import CountedMachine.Proofs.Machine.Soundness

/-! # Yields are transparent

A program is run through its yields by releasing every value that it yields and resuming the chain
(`Machine.drive`). The same program without yields (`Program.silence`) does the same steps: a yield
hands out a reference that is given back before the chain goes on, and as the register that is yielded
owns a reference the count never drops to zero in between. -/

namespace CountedMachine

open Heap

/-! ## Programs without yields -/

/-- The instruction, where it does not yield. -/
def Instr.silence {L : Type} : Instr L → Instr L
  | .yield _ => .nop
  | i => i

/-- The unit without yields. -/
def CodeUnit.silence (u : CodeUnit) : CodeUnit := { u with code := u.code.map Instr.silence }

/-- **The program without yields.** -/
def Program.silence (p : Program) : Program := { p with units := p.units.map CodeUnit.silence }

theorem Instr.silence_of_ne {L : Type} {i : Instr L} (h : ∀ src, i ≠ .yield src) : i.silence = i := by
  cases i with
  | yield src => exact absurd rfl (h src)
  | _ => rfl

namespace Program

variable (p : Program)

theorem unit_silence (id : UnitId) : p.silence.unit id = (p.unit id).map CodeUnit.silence := by
  simp only [unit, silence, Array.getElem?_map]
  cases p.units[id.index]? <;> rfl

theorem frame_silence (id : UnitId) (args : List Value) (closure : Option Value) (ret : Option Reg) :
    p.silence.frame id args closure ret = p.frame id args closure ret := by
  simp only [frame, unit_silence]
  cases p.unit id <;> rfl

theorem resolveCall_silence (h : Heap) (f : Value) (nargs : Nat) :
    p.silence.resolveCall h f nargs = p.resolveCall h f nargs := by
  simp only [resolveCall, unit_silence]
  congr 1
  funext c
  cases c with
  | none => rfl
  | some k =>
    dsimp only
    cases p.unit k.unit <;> rfl

end Program

namespace Running

variable {p : Program} {limit : Nat} {s : Running} {i : Instr Nat}

/-- Instructions do the same in both programs. -/
theorem exec_silence (p : Program) (limit : Nat) (i : Instr Nat) (s : Running) :
    s.exec p.silence limit i = s.exec p limit i := by
  cases i with
  | call dst func nargs checked =>
    simp only [exec, call, enter, Program.resolveCall_silence, Program.frame_silence]
  | tailCall func nargs =>
    simp only [exec, tailCall, replace, Program.resolveCall_silence, Program.frame_silence]
  | _ => rfl

theorem fetch_silence (p : Program) (s : Running) :
    s.fetch p.silence = (s.fetch p).map Instr.silence := by
  simp only [fetch, Program.unit_silence]
  cases p.unit s.cur.unit with
  | error f => rfl
  | ok u =>
    simp only [Except.map, bind, Except.bind, CodeUnit.silence, Array.getElem?_map]
    cases u.code[s.cur.pc]? <;> rfl

/-- The steps of both programs are the same where nothing is yielded. -/
theorem step_silence (hi : s.fetch p = .ok i) (h : ∀ src, i ≠ .yield src) :
    s.step p.silence limit = s.step p limit := by
  rw [step, step, fetch_silence, hi]
  simp only [Except.map, Instr.silence_of_ne h, bind, Except.bind, exec_silence]

/-- **Only a yield comes back to the host with a chain.** -/
theorem step_ne_yielded (hi : s.fetch p = .ok i) (h : ∀ src, i ≠ .yield src) (m : Machine) (v : Value)
    (c : Suspension) : s.step p limit ≠ .ok (.stop m (.yielded v c)) := by
  intro e
  obtain ⟨j, hj, hturn⟩ := turns_step e
  obtain rfl := Except.ok.inj (hi.symm.trans hj)
  cases hturn with
  | yields => exact h _ rfl

end Running

/-! ## A yield leaves no trace -/

/-- A reference that is taken and given back leaves the heap as it was, when there was one before. -/
theorem Heap.unref_inc {h : Heap} {v : Value} (hv : ∀ r, v = .obj r → ∃ c, h.slot? r = some c ∧ 0 < c.rc) :
    ∃ h₁, h.inc v = .ok h₁ ∧ h₁.unref v = .ok h := by
  cases v with
  | obj r =>
    obtain ⟨c, hr, hpos⟩ := hv r rfl
    refine ⟨_, incObj_eq hr, ?_⟩
    simp only [unref, decObj_incObj hr, bind, Except.bind, Nat.ne_of_gt hpos, if_false]
    rfl
  | _ => exact ⟨h, rfl, rfl⟩

namespace Working

variable {p : Program} [p.Origin] {B : Multiset ObjId} {s : Running} {w : World} {ρ : Env} {i : Instr Nat}
  {r : Reg} (hw : Working p B s w ρ) (hi : (code p s)[s.cur.pc]? = some i)
include hw hi

/-- A register that is read can be read. -/
theorem read_input (hr : r ∈ i.inputs) : s.cur.read r = .ok (s.cur.get r) := by
  obtain ⟨κ, hκ, -⟩ := hw.input hi hr
  have hlt : r.index < s.cur.regs.size := hw.rests.stocked.within (by simp [hκ])
  simp [Frame.read, Frame.get, hlt]

/-- **A register that is read owns what it holds.** -/
theorem input_owned (hr : r ∈ i.inputs) : refsOf [s.cur.get r] ≤ s.cur.refs p := by
  have hv := hw.rests.home.vetted
  by_cases hu : w.Uncounted r
  · rw [hw.rests.stocked.refsOf_uncounted (hw.safe hi).modest hu]
    exact Multiset.zero_le _
  · obtain ⟨κ, hκ, -⟩ := hw.input hi hr
    obtain ⟨st, hst⟩ := hv.walk_of_val hw.rests.reached hκ
    have hread : i.placed.reads r = true := by
      rw [Instr.reads_placed]
      simp [Instr.reads, hr]
    have hone : st = ⟨1, false⟩ := by
      rcases hv.walk_cases hu hst with rfl | rfl | ⟨-, hfloat⟩
      · rfl
      · rcases Holding.observe_cases (hv.walk_observe hu hst hi) with ⟨hn, -⟩ | ⟨hd, -⟩
        · rw [hread] at hn
          cases hn
        · cases hd
      · rcases hfloat.adjust hi with rfl | rfl <;> simp [Instr.inputs] at hr
    have hshare : s.cur.share (code p s) r = refsOf [s.cur.get r] := by
      rw [Frame.share, hv.owned_of_walk hu hst, hone, one_nsmul]
    rw [← hshare]
    exact (Frame.share_le_regRefs _ _ r).trans (Frame.regRefs_le_refs p s.cur)

/-- What a register holds that is read has a count. -/
theorem input_count (hr : r ∈ i.inputs) :
    ∀ x, s.cur.get r = .obj x → ∃ c, s.machine.heap.slot? x = some c ∧ 0 < c.rc := by
  intro x hx
  have hmem : x ∈ s.refs p + B := by
    have hle := (hw.input_owned hi hr).trans ((Multiset.le_add_right _ (framesRefs p s.callers.toList +
      (refsOf s.machine.stack + refsOf s.machine.consts.toList))).trans (Multiset.le_add_right _ B))
    exact Multiset.mem_of_le hle (by rw [hx]; simp [refsOf_obj])
  obtain ⟨c, hc⟩ := live_of_mem hw.good.sound hmem
  refine ⟨c, hc, ?_⟩
  rw [hw.good.sound.counted.exact hc]
  exact Multiset.count_pos.mpr (Multiset.mem_add.mpr (Or.inl hmem))

end Working

namespace Running

variable {p : Program} [p.Origin] {B : Multiset ObjId} {s : Running} {w : World} {ρ : Env} {limit : Nat}

/-- **The step of a yield** comes back to the host, and when the value is released and the chain
resumed the machine is where the program without yields is. -/
structure Bridged (p : Program) [p.Origin] (B : Multiset ObjId) (limit : Nat) (s : Running) : Prop where
  yields : ∃ m v c, s.step p limit = .ok (.stop m (.yielded v c)) ∧ m.release v = .ok s.machine ∧
    ∀ limits, s.machine.resume p limits c = run p limits.frames limits.steps s.advance
  silent : s.step p.silence limit = .ok (.more s.advance)
  working : ∃ w ρ, Working p B s.advance w ρ

/-- **One step of both programs.** -/
theorem bridge (hw : Working p B s w ρ) (limit : Nat) :
    (s.step p.silence limit = s.step p limit ∧ ∀ m v c, s.step p limit ≠ .ok (.stop m (.yielded v c))) ∨
      s.Bridged p B limit := by
  obtain ⟨i, hi, -⟩ := hw.rests.home.vetted.safe hw.rests.reached
  have hfetch := Running.fetch_eq.mpr hi
  by_cases hy : ∃ src, i = .yield src
  · obtain ⟨src, rfl⟩ := hy
    refine Or.inr ⟨?_, ?_, ?_⟩
    · obtain ⟨h₁, e₁, e₂⟩ := unref_inc (hw.input_count hi (r := src) (by simp [Instr.inputs]))
      have hread := hw.read_input hi (r := src) (by simp [Instr.inputs])
      obtain ⟨⟨h, consts, stack, stats⟩, callers, f⟩ := s
      have hread' : Frame.read { f with pc := f.pc + 1 } src = .ok (f.get src) := hread
      refine ⟨⟨h₁, consts, stack, stats⟩, f.get src, ⟨callers.push { f with pc := f.pc + 1 }⟩, ?_, ?_,
        fun limits => ?_⟩
      · rw [step, hfetch]
        show (exec p limit (.yield src) ⟨_, callers, { f with pc := f.pc + 1 }⟩) = _
        simp only [exec, hread', suspend, Machine.overHeap, show h.inc (f.get src) = .ok h₁ from e₁,
          bind, Except.bind]
        rfl
      · simp only [Machine.release, Machine.overHeap, show h₁.unref (f.get src) = .ok h from e₂, bind,
          Except.bind]
        rfl
      · simp only [Machine.resume, Array.back?_push, Array.pop_push]
        rfl
    · rw [step, fetch_silence, hfetch]
      rfl
    · exact (hw.quiet hi ⟨rfl, rfl⟩ rfl (by simp) hw.good (.refl _ _)).holds.1
  · simp only [not_exists] at hy
    exact Or.inl ⟨step_silence hfetch hy, step_ne_yielded hfetch hy⟩

end Running

/-! ## Whole runs -/

namespace Machine

/-- Go on until the return: release the value that was yielded and resume the chain, so many times at
most. -/
def follow (p : Program) (limits : Limits) : Nat → Machine × Outcome → Except Fault (Machine × Value)
  | _, (m, .returned v) => .ok (m, v)
  | 0, (_, .yielded _ _) => .error .exhausted
  | rounds + 1, (m, .yielded v c) => do
    let m ← m.release v
    follow p limits rounds (← m.resume p limits c)

/-- **Run a program through its yields**, so many of them at most. -/
def drive (p : Program) (limits : Limits) (rounds : Nat) (m : Machine) :
    Except Fault (Machine × Value) := do
  follow p limits rounds (← m.run p limits)

/-- The machine and the value of a run that returns. -/
def returned (q : Machine × Value) : Machine × Outcome := (q.1, .returned q.2)

end Machine

namespace Running

variable {p : Program} [p.Origin] {B : Multiset ObjId} {frames : Nat} {result : Except Fault (Machine × Value)}

open Machine (follow returned)

/-- What the program without yields comes to, the program comes to through its yields. -/
theorem follow_of_run_silence : ∀ (n : Nat) {s : Running} {fuel rounds steps : Nat} {w : World} {ρ : Env},
    Working p B s w ρ → n ≤ fuel → n ≤ rounds → n ≤ steps → result ≠ .error .exhausted →
    run p.silence frames n s = result.map returned →
    (run p frames fuel s >>= follow p ⟨frames, steps⟩ rounds) = result
  | 0, s, fuel, rounds, steps, w, ρ, _, _, _, _, hr, h => by
    cases result with
    | error f => exact absurd (congrArg Except.error (Except.error.inj h).symm) hr
    | ok q => cases h
  | n + 1, s, fuel, rounds, steps, w, ρ, hw, hfuel, hrounds, hsteps, hr, h => by
    obtain ⟨fuel, rfl⟩ := Nat.exists_eq_add_one_of_ne_zero (Nat.ne_of_gt (n.succ_pos.trans_le hfuel))
    obtain ⟨rounds, rfl⟩ := Nat.exists_eq_add_one_of_ne_zero (Nat.ne_of_gt (n.succ_pos.trans_le hrounds))
    rcases bridge hw frames with ⟨hsame, hquiet⟩ | ⟨⟨m, v, c, hstep, hrelease, hresume⟩, hsilent, w', ρ', hw'⟩
    · rw [run, hsame] at h
      rw [run]
      have hkeep : Ensures True (s.step p frames) (Progress.Holds p B s.machine.heap) :=
        hw.step fun _ => trivial
      rcases hstep : s.step p frames with f | (s' | ⟨m, o⟩)
      · rw [hstep] at h
        cases result with
        | error g => exact congrArg Except.error (Except.error.inj h)
        | ok q => cases h
      · rw [hstep] at h hkeep
        obtain ⟨⟨w', ρ', hw'⟩, -⟩ := hkeep
        exact follow_of_run_silence n hw' (by omega) (by omega) (by omega) hr h
      · rw [hstep] at h
        cases o with
        | returned v =>
          cases result with
          | error g => cases h
          | ok q =>
            obtain ⟨m', v'⟩ := q
            cases h
            exact rfl
        | yielded v c => exact absurd hstep (hquiet m v c)
    · rw [run, hsilent] at h
      have hnext : (run p frames steps s.advance >>= follow p ⟨frames, steps⟩ rounds) = result :=
        follow_of_run_silence n hw' (by omega) (by omega) (by omega) hr h
      rw [run, hstep]
      show follow p ⟨frames, steps⟩ (rounds + 1) (m, .yielded v c) = result
      simp only [follow, hrelease, bind, Except.bind]
      rw [hresume ⟨frames, steps⟩]
      exact hnext

/-- And the other way round. -/
theorem run_silence_of_follow (steps : Nat) : ∀ (rounds fuel : Nat) {s : Running} {w : World} {ρ : Env},
    Working p B s w ρ → result ≠ .error .exhausted →
    (run p frames fuel s >>= follow p ⟨frames, steps⟩ rounds) = result →
    ∃ n, run p.silence frames n s = result.map returned
  | rounds, 0, s, w, ρ, _, hr, h => absurd h.symm hr
  | rounds, fuel + 1, s, w, ρ, hw, hr, h => by
    rcases bridge hw frames with ⟨hsame, hquiet⟩ | ⟨⟨m, v, c, hstep, hrelease, hresume⟩, hsilent, w', ρ', hw'⟩
    · rw [run] at h
      have hkeep : Ensures True (s.step p frames) (Progress.Holds p B s.machine.heap) :=
        hw.step fun _ => trivial
      rcases hstep : s.step p frames with f | (s' | ⟨m, o⟩)
      · rw [hstep] at h
        exact ⟨1, by rw [run, hsame, hstep, ← h]; rfl⟩
      · rw [hstep] at h hkeep
        obtain ⟨⟨w', ρ', hw'⟩, -⟩ := hkeep
        obtain ⟨n, hn⟩ := run_silence_of_follow steps rounds fuel hw' hr h
        exact ⟨n + 1, by rw [run, hsame, hstep, ← hn]⟩
      · rw [hstep] at h
        cases o with
        | returned v =>
          refine ⟨1, ?_⟩
          rw [run, hsame, hstep, ← h]
          cases rounds <;> rfl
        | yielded v c => exact absurd hstep (hquiet m v c)
    · rw [run, hstep] at h
      cases rounds with
      | zero => exact absurd h.symm hr
      | succ rounds =>
        have h' : follow p ⟨frames, steps⟩ (rounds + 1) (m, .yielded v c) = result := h
        simp only [follow, hrelease, bind, Except.bind] at h'
        rw [hresume ⟨frames, steps⟩] at h'
        obtain ⟨n, hn⟩ := run_silence_of_follow steps rounds steps hw' hr h'
        exact ⟨n + 1, by rw [run, hsilent, ← hn]⟩
  termination_by rounds fuel => (rounds, fuel)

end Running

/-- The machine at its first instruction. -/
theorem Machine.run_start {m : SourceModule} {settings : Settings} {p : Program} {machine : Machine}
    (hp : m.compile settings = .ok p) (hload : Machine.load p = .ok machine) :
    ∃ s w ρ, @Working p ⟨settings⟩ 0 s w ρ ∧ ∀ limits,
      machine.run p limits = Running.run p limits.frames limits.steps s ∧
        machine.run p.silence limits = Running.run p.silence limits.frames limits.steps s := by
  let : p.Origin := ⟨settings⟩
  obtain ⟨hentry, hplain⟩ := SourceModule.compile_sound hp
  obtain ⟨-, u, -, hu, -⟩ := hentry.cert
  obtain ⟨machine', hload', hok⟩ := Session.ok_load hplain
  cases hload.symm.trans hload'
  have hframe : p.frame p.entry [] none none =
      .ok ⟨p.entry, 0, Array.replicate u.nregs .nil, [], none, none, []⟩ := by
    simp only [Program.frame, Program.unit, hu]
    rfl
  have hstart : Assures True (Session.act p {} (.fresh machine) .run) (Session.Ok p) :=
    Session.assures_run hentry hok
  simp only [Session.act, Session.fresh, hframe] at hstart
  obtain ⟨⟨w, ρ, hw⟩, -⟩ := hstart
  refine ⟨_, w, ρ, by simpa [Session.hostRefs, refsOf_nil] using hw, fun limits => ⟨?_, ?_⟩⟩
  · simp only [Machine.run, hframe, Machine.start]
    rfl
  · simp only [Machine.run, Program.frame_silence, Machine.start]
    rw [show p.silence.entry = p.entry from rfl, hframe]
    rfl

/-- **Yields are transparent**: driven through its yields, each value released and the chain resumed,
a program comes to what it comes to without yields: the same machine, with its heap, counts and
statistics, and the same value, or the same fault. Only bounds on steps and yields are left open. -/
theorem Machine.drive_eq_run_silence {m : SourceModule} {settings : Settings} {p : Program}
    {machine : Machine} (hp : m.compile settings = .ok p) (hload : Machine.load p = .ok machine)
    (frames : Nat) (result : Except Fault (Machine × Value)) (hr : result ≠ .error .exhausted) :
    Machine.load p.silence = .ok machine ∧
      ((∃ steps rounds, machine.drive p ⟨frames, steps⟩ rounds = result) ↔
        ∃ steps, machine.run p.silence ⟨frames, steps⟩ = result.map returned) := by
  refine ⟨hload, ?_⟩
  let : p.Origin := ⟨settings⟩
  obtain ⟨s, w, ρ, hw, hrun⟩ := Machine.run_start hp hload
  constructor
  · rintro ⟨steps, rounds, h⟩
    rw [drive, (hrun ⟨frames, steps⟩).1] at h
    obtain ⟨n, hn⟩ := Running.run_silence_of_follow steps rounds steps hw hr h
    exact ⟨n, (hrun ⟨frames, n⟩).2.trans hn⟩
  · rintro ⟨n, h⟩
    rw [(hrun ⟨frames, n⟩).2] at h
    refine ⟨n, n, ?_⟩
    rw [drive, (hrun ⟨frames, n⟩).1]
    exact Running.follow_of_run_silence n hw le_rfl le_rfl le_rfl hr h

/-- The machine when the program has returned. -/
def Echo.answered : Machine := ⟨heap 1 1 2, consts, [], { tailCalls := 1, deepest := 1 }⟩

/-- Without its yield, the program comes to the text that it returns when it is driven through it. -/
theorem Machine.drive_eq_run_silence_echo : Echo.source.compile Echo.settings = .ok Echo.program ∧
    Machine.load Echo.program = .ok Echo.machine ∧
      Echo.machine.drive Echo.program ⟨10, 20⟩ 2 = .ok (Echo.answered, .obj ⟨2⟩) ∧
        ∃ steps, Echo.machine.run Echo.program.silence ⟨10, steps⟩ =
          .ok (Echo.answered, .returned (.obj ⟨2⟩)) := by
  have hdrive : Echo.machine.drive Echo.program ⟨10, 20⟩ 2 = .ok (Echo.answered, .obj ⟨2⟩) := by
    cbv
  obtain ⟨-, hiff⟩ := drive_eq_run_silence Echo.compile_source Echo.load_program 10
    (.ok (Echo.answered, .obj ⟨2⟩)) (by simp)
  exact ⟨Echo.compile_source, Echo.load_program, hdrive, hiff.mp ⟨20, 2, hdrive⟩⟩

end CountedMachine
