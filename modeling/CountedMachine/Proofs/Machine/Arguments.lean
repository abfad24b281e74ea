import CountedMachine.Proofs.Generation.Closed
import CountedMachine.Proofs.Machine.Control
import CountedMachine.Proofs.Machine.Soundness

/-! # Passing arguments

One stack serves all frames and all chains. In compiled code the arguments of a call are pushed right
before it, so at each place the stack holds the values of the registers that have been pushed for the
call that comes next (`Running.Passing`), and nothing else: between two calls, in frames that wait and
in chains that have yielded nothing is on its way (`Host.arguments_exact`). -/

namespace CountedMachine

/-- The code of every unit pushes arguments for the call that follows, and branches and jumps lead to
labels. -/
structure Program.Feeding (p : Program) : Prop where
  fed : ∀ unit, ∃ rs, feeds (p.codeOf unit).toList = some rs
  aimed : ∀ unit, ∀ i ∈ p.codeOf unit, ∀ t, i.label? = some t →
    ∃ j, (p.codeOf unit)[t]? = some j ∧ j.isLabel = true

theorem SourceModule.compile_feeding {m : SourceModule} {settings : Settings} {p : Program}
    (hp : m.compile settings = .ok p) : p.Feeding := by
  obtain ⟨hunits, -⟩ := compile_ordered True True hp (Or.inl trivial) (Or.inl trivial)
  have hcode : ∀ unit, p.codeOf unit = #[] ∨ ∃ u ∈ p.units, p.codeOf unit = u.code := by
    intro unit
    unfold Program.codeOf
    split
    · next u hu => exact Or.inr ⟨u, Array.mem_of_getElem? hu, rfl⟩
    · exact Or.inl rfl
  constructor
  · intro unit
    rcases hcode unit with e | ⟨u, hu, e⟩
    · exact ⟨[], by rw [e]; rfl⟩
    · exact ⟨[], by rw [e]; exact (hunits u hu).fed⟩
  · intro unit i hi t ht
    rcases hcode unit with e | ⟨u, hu, e⟩
    · rw [e] at hi
      simp at hi
    · rw [e] at hi ⊢
      exact (hunits u hu).aimed i hi t ht

/-- The instruction is a push, or one that may stand between pushes. -/
def Instr.pushes {L : Type} : Instr L → Bool
  | .push _ => true
  | .adjust _ _ => true
  | _ => false

theorem Instr.pushes_of_isTerminal {L : Type} {i : Instr L} (h : i.isTerminal = true) :
    i.pushes = false := by
  cases i <;> first | rfl | cases h

/-- The registers that have been pushed for the next call of a frame. -/
def Frame.arguments (p : Program) (f : Frame) : List Reg := argumentsAt (p.codeOf f.unit) f.pc

/-- **The stack holds what has been pushed for the next call**, and no frame that waits has pushed
anything. -/
structure Running.Passing (p : Program) (s : Running) : Prop where
  stack : s.machine.stack.reverse = (s.cur.arguments p).map s.cur.get
  waiting : ∀ f ∈ s.callers, f.arguments p = []

/-- No frame of the chain has pushed anything. -/
def Suspension.Passing (p : Program) (c : Suspension) : Prop := ∀ f ∈ c.frames, f.arguments p = []

namespace Running

variable {p : Program} {s : Running} {i : Instr Nat} {q : Progress} {limit : Nat}

theorem Passing.length (hs : s.Passing p) :
    s.machine.stack.length = (s.cur.arguments p).length := by
  simpa using congrArg List.length hs.stack

/-- **What an instruction does to what waits**: a frame that goes on after it, or at its label. -/
theorem feed_arguments (hp : p.Feeding) (hi : s.fetch p = .ok i) :
    i.feed (s.cur.arguments p) = some (s.parked.arguments p) := by
  obtain ⟨rs, hrs⟩ := hp.fed s.cur.unit
  exact feed_argumentsAt hrs (fetch_eq.mp hi)

theorem arguments_of_label (hp : p.Feeding) (hi : s.fetch p = .ok i) {f : Frame}
    (hunit : f.unit = s.cur.unit) (ht : i.label? = some f.pc) : f.arguments p = [] := by
  obtain ⟨j, hj, hlabel⟩ := hp.aimed s.cur.unit i (Array.mem_of_getElem? (fetch_eq.mp hi)) f.pc ht
  obtain ⟨rs, hrs⟩ := hp.fed s.cur.unit
  unfold Frame.arguments
  rw [hunit]
  exact ((Instr.feed_of_stands (Instr.stands_of_isLabel hlabel)).mp (feed_argumentsAt hrs hj)).1

/-- An instruction that is neither a push nor an ownership instruction takes all arguments off the
stack, and nothing waits after it. -/
theorem Passing.drop (hp : p.Feeding) (hs : s.Passing p) (hi : s.fetch p = .ok i)
    (hpush : i.pushes = false) : (s.cur.arguments p).length = i.takes ∧
      s.machine.stack.drop i.takes = [] ∧ s.parked.arguments p = [] := by
  have hfeed := feed_arguments hp hi
  obtain ⟨htakes, hnext⟩ : (s.cur.arguments p).length = i.takes ∧ s.parked.arguments p = [] := by
    cases i with
    | push r => cases hpush
    | adjust op r => cases hpush
    | call dst func nargs checked =>
      simp only [Instr.feed] at hfeed
      split at hfeed
      · next hlen => exact ⟨hlen, (Option.some.inj hfeed).symm⟩
      · cases hfeed
    | tailCall func nargs =>
      simp only [Instr.feed] at hfeed
      split at hfeed
      · next hlen => exact ⟨hlen, (Option.some.inj hfeed).symm⟩
      · cases hfeed
    | _ =>
      obtain ⟨hnil, hnext⟩ := (Instr.feed_of_stands rfl).mp hfeed
      exact ⟨by rw [hnil]; rfl, hnext⟩
  exact ⟨htakes, List.drop_eq_nil_of_le (by rw [hs.length, htakes]), hnext⟩

/-- Nothing waits in a frame that has just been entered. -/
theorem arguments_of_fresh {f : Frame} (h : f.pc = 0) : f.arguments p = [] := by
  rw [Frame.arguments, h]
  rfl

theorem arguments_of_frame {unit : UnitId} {args : List Value} {closure : Option Value}
    {ret : Option Reg} {f : Frame} (h : p.frame unit args closure ret = .ok f) :
    f.arguments p = [] := by
  obtain ⟨u, -, h⟩ := bind_ok h
  cases h
  exact arguments_of_fresh rfl

theorem passing_of_nil (hstack : s.machine.stack = []) (hcur : s.cur.arguments p = [])
    (hwait : ∀ f ∈ s.callers, f.arguments p = []) : s.Passing p :=
  ⟨by rw [hstack, hcur]; rfl, hwait⟩

/-- The stack after an instruction. -/
theorem Turns.stack (h : s.Turns i q) (hpush : i.pushes = false) :
    q.machine.stack = s.machine.stack.drop i.takes := by
  cases h with
  | stays hstands =>
    have htakes : i.takes = 0 := by cases i <;> first | rfl | cases hstands
    rw [htakes]
    rfl
  | adjusts => cases hpush
  | pushes => cases hpush
  | _ => rfl

/-- **A frame is entered**: one more frame waits, or a tail call has replaced the frame. -/
def Enters (s : Running) (i : Instr Nat) (s' : Running) : Prop :=
  s'.callers.size = s.callers.size + 1 ∨
    (∃ func nargs, i = .tailCall func nargs) ∧ s'.callers.size = s.callers.size

/-- The frame that is entered has as its arguments what the instruction takes from the stack. -/
theorem Turns.args_of_enters {s' : Running} (h : s.Turns i (.more s')) (he : s.Enters i s') :
    ∃ m, s.machine.takeArgs i.takes = .ok (m, s'.cur.args) := by
  have hsame (hsize : s'.callers.size = s.callers.size) (hi : ∀ func nargs, i ≠ .tailCall func nargs) :
      ¬ s.Enters i s' := by
    rintro (hmore | ⟨⟨func, nargs, rfl⟩, -⟩)
    · omega
    · exact hi func nargs rfl
  cases h with
  | stays hstands =>
    refine absurd he (hsame rfl fun func nargs => ?_)
    rintro rfl
    cases hstands
  | adjusts => exact absurd he (hsame rfl nofun)
  | pushes => exact absurd he (hsame rfl nofun)
  | refuses => exact absurd he (hsame rfl nofun)
  | enters _ htake => exact htake
  | replaces _ htake => exact htake
  | returns _ hback =>
    -- One frame less waits.
    have hpos := Array.size_pos_of_mem (Array.mem_of_back? hback)
    have hpop : s.callers.pop.size = s.callers.size - 1 := Array.size_pop
    obtain hmore | ⟨-, hsize⟩ := he
    · dsimp only at hmore
      omega
    · dsimp only at hsize
      omega

/-- **A step passes arguments on in order**, and leaves none where it comes back to the host. -/
theorem Passing.step (hp : p.Feeding) (hs : s.Passing p) (e : s.step p limit = .ok q) :
    match q with
    | .more s' => s'.Passing p
    | .stop m o => m.stack = [] ∧ ∀ v c, o = .yielded v c → c.Passing p := by
  obtain ⟨i, hi, hturn⟩ := turns_step e
  have hpush : ∀ f ∈ s.callers.push s.parked, s.parked.arguments p = [] → f.arguments p = [] := by
    intro f hf hnext
    rcases Array.mem_push.mp hf with hf | rfl
    · exact hs.waiting f hf
    · exact hnext
  cases hturn with
  | @stays _ h cur hstands hunit hpc =>
    have hnil := (Instr.feed_of_stands hstands).mp (feed_arguments hp hi)
    have hstack : s.machine.stack = [] := by
      rw [← List.length_eq_zero_iff, hs.length, hnil.1]
      rfl
    refine passing_of_nil hstack ?_ hs.waiting
    rcases hpc with hpc | hlabel
    · rw [← hnil.2, Frame.arguments, hunit, hpc]
      rfl
    · exact arguments_of_label hp hi hunit hlabel
  | adjusts =>
    refine ⟨?_, hs.waiting⟩
    have hsame := Option.some.inj (feed_arguments hp hi)
    show s.machine.stack.reverse = (s.parked.arguments p).map s.cur.get
    rw [← hsame, hs.stack]
  | @pushes r h =>
    refine ⟨?_, hs.waiting⟩
    have hmore := Option.some.inj (feed_arguments hp hi)
    show (s.cur.get r :: s.machine.stack).reverse = (s.parked.arguments p).map s.cur.get
    rw [← hmore, List.reverse_cons, List.map_append, hs.stack]
    rfl
  | refuses hunit hpc =>
    obtain ⟨-, hdrop, hnext⟩ := hs.drop hp hi rfl
    refine passing_of_nil hdrop ?_ hs.waiting
    rw [← hnext, Frame.arguments, hunit, hpc]
    rfl
  | enters hpc =>
    obtain ⟨-, hdrop, hnext⟩ := hs.drop hp hi rfl
    exact passing_of_nil hdrop (arguments_of_fresh hpc) fun f hf => hpush f hf hnext
  | replaces hpc =>
    obtain ⟨-, hdrop, -⟩ := hs.drop hp hi rfl
    exact passing_of_nil hdrop (arguments_of_fresh hpc) hs.waiting
  | leaves hterm _ =>
    exact ⟨(hs.drop hp hi (Instr.pushes_of_isTerminal hterm)).2.1, nofun⟩
  | returns hterm hback hunit hpc =>
    refine passing_of_nil (hs.drop hp hi (Instr.pushes_of_isTerminal hterm)).2.1 ?_ fun f hf => ?_
    · rw [Frame.arguments, hunit, hpc]
      exact hs.waiting _ (Array.mem_of_back? hback)
    · exact hs.waiting f (mem_of_mem_pop hf)
  | yields =>
    obtain ⟨-, hdrop, hnext⟩ := hs.drop hp hi rfl
    refine ⟨hdrop, fun v c hc => ?_⟩
    obtain ⟨-, rfl⟩ := Outcome.yielded.inj hc
    exact fun f hf => hpush f hf hnext

end Running

/-! ## Compiled programs -/

namespace Host

variable {m : SourceModule} {settings : Settings} {p : Program}

/-- No arguments are on the stack, nor on their way in a chain that has yielded. -/
structure Passing (p : Program) (H : Host) : Prop where
  stack : H.machine.stack = []
  chains : ∀ c, some c ∈ H.suspensions → c.Passing p

theorem stack_of_begins {H : Host} {a : HostAction} {s : Running} (hm : H.machine.stack = [])
    (hs : H.Begins p a s) : s.machine.stack = [] := by
  cases a with
  | run =>
    obtain ⟨cur, -, rfl⟩ := hs
    exact hm
  | call f args =>
    obtain ⟨m₁, v, m₂, vs, unit, m₃, cur, h₁, h₂, -, h₃, -, rfl⟩ := hs
    obtain ⟨_, rfl⟩ := machine_of_pass h₁
    obtain ⟨_, rfl⟩ := machine_of_passAll h₂
    obtain ⟨_, rfl⟩ := Machine.eq_of_overHeap h₃
    exact hm
  | resume handle =>
    obtain ⟨c, cur, -, -, rfl⟩ := hs
    exact hm
  | release handle => exact hs.elim
  | inspect handle => exact hs.elim

/-- **Every host finds the stack in order.** -/
theorem passing (hp : p.Feeding) (limits : Limits) (allowed : HostAction → Prop) :
    (∀ H, Reached p limits allowed H → H.Passing p) ∧
      ∀ s, Visited p limits allowed s → s.Passing p := by
  refine invariant (fun m hm => ?_) (fun H H' hH hrest => ?_) (fun H a s hH _ hs => ?_)
    (fun s s' hs e => hs.step hp e) fun H H' s m o hH hs e hreceive => ?_
  · obtain ⟨q, -, hm⟩ := bind_ok hm
    cases hm
    exact ⟨rfl, by simp⟩
  · obtain ⟨h, hm, hchains⟩ := hrest
    exact ⟨by rw [hm]; exact hH.stack, by rw [hchains]; exact hH.chains⟩
  · have hstack := stack_of_begins hH.stack hs
    cases a with
    | run =>
      obtain ⟨cur, hcur, rfl⟩ := hs
      exact Running.passing_of_nil hstack (Running.arguments_of_frame hcur) (by simp)
    | call f args =>
      obtain ⟨m₁, v, m₂, vs, unit, m₃, cur, -, -, -, -, hcur, rfl⟩ := hs
      exact Running.passing_of_nil hstack (Running.arguments_of_frame hcur) (by simp)
    | resume handle =>
      obtain ⟨c, cur, hcget, hback, rfl⟩ := hs
      have hc := hH.chains c (Array.mem_of_getElem? hcget)
      exact Running.passing_of_nil hstack (hc cur (Array.mem_of_back? hback)) fun f hf =>
        hc f (Running.mem_of_mem_pop hf)
    | release handle => exact hs.elim
    | inspect handle => exact hs.elim
  · obtain ⟨hstack, hyield⟩ := hs.step hp e
    obtain ⟨rfl, hchains⟩ := hreceive
    refine ⟨hstack, fun c hc => ?_⟩
    rcases hchains c hc with hc | ⟨v, hv⟩
    · exact hH.chains c hc
    · exact hyield v c hv

/-- **Arguments are passed exactly**, whatever the host does. Between its actions and where an action
sets the machine to work the stack is empty, and so it is where a frame begins. While the machine is at
work, the stack holds the values of the registers that have been pushed for the next call. An
instruction other than a push or an ownership instruction finds on the stack what it takes, the
arguments of a call and else nothing: taking them succeeds, gives the values of the registers that were
pushed, in order, and leaves the stack empty. It is empty after the instruction, also where that enters,
leaves or suspends a frame, and a frame that is entered has the values that were taken as its arguments. -/
theorem arguments_exact (hp : m.compile settings = .ok p) (limits : Limits) :
    (∀ H, Reached p limits (fun _ => True) H → H.machine.stack = [] ∧
      ∀ a s, H.Begins p a s → s.machine.stack = []) ∧
    ∀ s, Visited p limits (fun _ => True) s → (s.cur.pc = 0 → s.machine.stack = []) ∧
      s.machine.stack.reverse = (s.cur.arguments p).map s.cur.get ∧
      ∀ i, s.fetch p = .ok i → i.pushes = false →
        (s.cur.arguments p).length = i.takes ∧
        (∃ fed, s.machine.takeArgs i.takes = .ok (fed, (s.cur.arguments p).map s.cur.get) ∧
          fed.stack = []) ∧
        ∀ q, s.step p limits.frames = .ok q → q.machine.stack = [] ∧ ∀ s', q = .more s' →
          s.Enters i s' → s'.cur.args = (s.cur.arguments p).map s.cur.get := by
  have hfeeding := SourceModule.compile_feeding hp
  obtain ⟨hreached, hvisited⟩ := passing hfeeding limits fun _ => True
  refine ⟨fun H hH => ⟨(hreached H hH).stack, fun a s => stack_of_begins (hreached H hH).stack⟩,
    fun s hs => ?_⟩
  have hpass := hvisited s hs
  refine ⟨fun hpc => ?_, hpass.stack, fun i hi hpush => ?_⟩
  · have hnil := hpass.stack
    rw [Running.arguments_of_fresh hpc] at hnil
    exact List.reverse_eq_nil_iff.mp hnil
  · obtain ⟨htakes, hdrop, -⟩ := hpass.drop hfeeding hi hpush
    have htake : s.machine.takeArgs i.takes =
        .ok ({ s.machine with stack := [] }, (s.cur.arguments p).map s.cur.get) := by
      rw [← hpass.stack]
      exact Working.takeArgs_eq (hpass.length.trans htakes)
    refine ⟨htakes, ⟨_, htake, rfl⟩, fun q hq => ?_⟩
    obtain ⟨j, hj, hturn⟩ := Running.turns_step hq
    obtain rfl := Except.ok.inj (hi.symm.trans hj)
    refine ⟨by rw [hturn.stack hpush, hdrop], fun s' hq' henters => ?_⟩
    subst hq'
    obtain ⟨m, hargs⟩ := hturn.args_of_enters henters
    exact congrArg Prod.snd (Except.ok.inj (hargs.symm.trans htake))

end Host

/-- The ticks of a session are the steps of the machine. -/
theorem Session.leads_of_acts {p : Program} {limits : Limits} {values : Array Value} {chains : Array Suspension}
    {S : Session} {s' : Running} (hS : S.scene = .busy s') : ∀ (n : Nat) {s : Running},
    acts p limits ⟨.busy s, values, chains⟩ (List.replicate n .tick) = .ok S → s.Leads p limits.frames s'
  | 0, s, e => by
    cases e
    cases hS
    exact .refl _
  | n + 1, s, e => by
    rw [List.replicate_succ, acts, List.foldlM_cons] at e
    obtain ⟨S₁, e₁, e⟩ := bind_ok e
    obtain ⟨q, hq, e₁⟩ := bind_ok e₁
    cases q with
    | more s₁ =>
      cases e₁
      exact .step (Host.faulting_ok hq) (leads_of_acts hS n e)
    | stop m o =>
      -- The machine rests then, and there are no more ticks.
      obtain ⟨w, cs, rfl⟩ : ∃ w cs, S₁ = ⟨.idle m, w, cs⟩ := by
        cases e₁
        cases o <;> exact ⟨_, _, rfl⟩
      cases n with
      | zero =>
        cases e
        cases hS
      | succ n => cases e

namespace Echo

/-- The chain that has handed the first text over. -/
def waiting : Frame := ⟨⟨0⟩, 6, #[.obj ⟨0⟩, .obj ⟨1⟩, .nil, .nil], [], none, none, []⟩

/-- The host then. -/
def host : Host := ⟨⟨heap 2 3 1, consts, [], { deepest := 1 }⟩, #[.obj ⟨1⟩], #[some ⟨#[waiting]⟩]⟩

theorem perform_run : (⟨machine, #[], #[]⟩ : Host).perform program ⟨10, 10⟩ .run =
    .ok (host, .yielded ⟨"\"a\"", some 3, none, true⟩ 1) := by
  rfl

theorem begins_resume : host.Begins program (.resume 0) ⟨host.machine, #[], waiting⟩ :=
  ⟨_, _, rfl, rfl, rfl⟩

theorem acts_calling : Session.acts program ⟨10, 10⟩ ⟨.busy ⟨host.machine, #[], waiting⟩, #[.obj ⟨1⟩], #[]⟩
    (List.replicate 5 .tick) = .ok ⟨.busy calling, #[.obj ⟨1⟩], #[]⟩ := by
  cbv
/-- The function has been called. -/
def entered : Running := ⟨⟨heap 2 2 2, consts, [], { tailCalls := 1, deepest := 1 }⟩, #[],
  ⟨⟨1⟩, 0, #[.nil], [.obj ⟨2⟩], some (.obj ⟨0⟩), none, []⟩⟩

theorem step_calling : calling.step program 10 = .ok (.more entered) := by
  cbv

/-- The function is about to be called in the chain that the host resumes. -/
theorem visited_calling (allowed : HostAction → Prop) (hrun : allowed .run) (hresume : allowed (.resume 0)) :
    Host.Visited program ⟨10, 10⟩ allowed calling :=
  ⟨host, .resume 0, _, .act (.load load_program) hrun perform_run, hresume, begins_resume,
    Session.leads_of_acts rfl 5 acts_calling⟩

end Echo

/-- The function is called with the text on the stack, which is its argument. -/
theorem Host.arguments_exact_echo : Echo.source.compile Echo.settings = .ok Echo.program ∧
    Visited Echo.program ⟨10, 10⟩ (fun _ => True) Echo.calling ∧
      Echo.calling.fetch Echo.program = .ok (.tailCall ⟨0⟩ 1) ∧ Echo.calling.machine.stack = [.obj ⟨2⟩] ∧
        (Echo.calling.cur.arguments Echo.program).map Echo.calling.cur.get = [.obj ⟨2⟩] ∧
          ∃ s, Echo.calling.step Echo.program 10 = .ok (.more s) ∧ s.machine.stack = [] ∧
            s.cur.args = [.obj ⟨2⟩] := by
  have hs := Echo.visited_calling (fun _ => True) trivial trivial
  obtain ⟨-, hstack, hpassed⟩ := (arguments_exact Echo.compile_source ⟨10, 10⟩).2 _ hs
  have hargs : (Echo.calling.cur.arguments Echo.program).map Echo.calling.cur.get = [.obj ⟨2⟩] := hstack.symm
  obtain ⟨-, -, hnext⟩ := hpassed _ rfl rfl
  obtain ⟨hnil, hentered⟩ := hnext (.more Echo.entered) Echo.step_calling
  exact ⟨Echo.compile_source, hs, rfl, rfl, hargs, _, Echo.step_calling, hnil,
    (hentered _ rfl (.inr ⟨⟨_, _, rfl⟩, rfl⟩)).trans hargs⟩

end CountedMachine
