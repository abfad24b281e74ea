import CountedMachine.Machine.Host
import CountedMachine.Proofs.Heap.Untraced
import CountedMachine.Proofs.Machine.Control

/-! # Programs with code laid out elsewhere

Two programs that differ in the code of their units only, with a map that says where each place of a
unit has gone. A state of one is then a state of the other in which all frames stand where their places
have gone (`Running.moved`), on the same heap, and an instruction does the same in both when its label is
moved along (`Running.exec_moved`). -/

namespace CountedMachine

section
variable (φ : UnitId → Nat → Nat)

/-- A frame that stands where its place has gone. -/
def Frame.moved (f : Frame) : Frame := { f with pc := φ f.unit f.pc }

/-- A suspended chain that stands where its places have gone. -/
def Suspension.moved (c : Suspension) : Suspension := ⟨c.frames.map (Frame.moved φ)⟩

/-- What running comes to, with the places that have gone elsewhere. -/
def Outcome.moved : Outcome → Outcome
  | .returned v => .returned v
  | .yielded v c => .yielded v (c.moved φ)

/-- **A machine at work** whose frames stand where their places have gone. -/
def Running.moved (s : Running) : Running :=
  ⟨s.machine, s.callers.map (Frame.moved φ), s.cur.moved φ⟩

/-- The state after a step, with the places that have gone elsewhere. -/
def Progress.moved : Progress → Progress
  | .more s => .more (s.moved φ)
  | .stop m o => .stop m (o.moved φ)

/-- **The programs differ in code only**, and a unit starts where it starts. -/
structure Program.Recodes (p p' : Program) : Prop where
  consts : p'.consts = p.consts
  types : p'.types = p.types
  unit : ∀ id, ∃ code, p'.unit id = tell (fun u => { u with code := code }) (p.unit id)
  start : ∀ id, φ id 0 = 0

end

variable {φ : UnitId → Nat → Nat} {p p' : Program}

theorem Frame.write_moved (f : Frame) (r : Reg) (v : Value) :
    (f.moved φ).write r v = tell (Frame.moved φ) (f.write r v) := by
  rw [Frame.write, Frame.write]
  by_cases h : r.index < f.regs.size
  · rw [if_pos h, if_pos (show r.index < (f.moved φ).regs.size from h)]
    rfl
  · rw [if_neg h, if_neg (show ¬ r.index < (f.moved φ).regs.size from h)]
    rfl

namespace Program.Recodes

variable (hp : p.Recodes φ p')
include hp

theorem frame_moved (id : UnitId) (args : List Value) (closure : Option Value) (ret : Option Reg) :
    p'.frame id args closure ret = tell (Frame.moved φ) (p.frame id args closure ret) := by
  obtain ⟨code, e⟩ := hp.unit id
  refine tell_bind e fun u => ?_
  simp [Frame.moved, hp.start, Except.map, pure, Except.pure]

theorem resolveCall_eq (h : Heap) (v : Value) (n : Nat) : p'.resolveCall h v n = p.resolveCall h v n := by
  rw [resolveCall, resolveCall]
  rcases h.closure? v with e | _ | c
  · rfl
  · rfl
  · obtain ⟨code, e⟩ := hp.unit c.unit
    simp only [bind, Except.bind, e]
    cases p.unit c.unit <;> rfl

end Program.Recodes

/-! ## What a step is made of -/

namespace Running

variable {s : Running}

theorem overHeap_moved (g : Heap → Except Fault Heap) :
    (s.moved φ).overHeap g = tell (Running.moved φ) (s.overHeap g) := by
  obtain ⟨m, callers, cur⟩ := s
  simp only [overHeap, moved]
  cases m.overHeap g <;> rfl

theorem store_moved (dst : Reg) (v : Value) :
    (s.moved φ).store dst v = tell (Progress.moved φ) (s.store dst v) := by
  obtain ⟨m, callers, cur⟩ := s
  refine tell_bind (f := Running.moved φ) ?_ fun _ => rfl
  exact tell_bind (cur.write_moved dst v) fun _ => rfl

theorem storeFrom_moved (g : Heap → Except Fault (Heap × Value)) (dst : Reg) :
    (s.moved φ).storeFrom g dst = tell (Progress.moved φ) (s.storeFrom g dst) := by
  obtain ⟨⟨heap, consts, stack, stats⟩, callers, cur⟩ := s
  exact tell_bind_same rfl fun x => tell_bind (cur.write_moved dst x.2) fun _ => rfl

theorem after_moved (g : Heap → Except Fault Heap) :
    (s.moved φ).after g = tell (Progress.moved φ) (s.after g) :=
  tell_bind (overHeap_moved g) fun _ => rfl

theorem goto_moved (pc : Nat) : (s.moved φ).goto (φ s.cur.unit pc) = (s.goto pc).moved φ := by
  obtain ⟨m, callers, cur⟩ := s
  rfl

theorem back?_moved (fs : Array Frame) : (fs.map (Frame.moved φ)).back? = fs.back?.map (Frame.moved φ) := by
  simp [Array.back?]

/-! ## Calls and returns -/

theorem returnWith_moved (v : Value) :
    (s.moved φ).returnWith v = tell (Progress.moved φ) (s.returnWith v) := by
  obtain ⟨m, callers, cur⟩ := s
  refine tell_bind_same rfl fun m => ?_
  refine tell_bind_same rfl fun m => ?_
  dsimp only
  rw [back?_moved]
  cases callers.back? with
  | none => rfl
  | some caller =>
    refine tell_bind_same rfl fun m => ?_
    obtain ⟨unit, pc, regs, args, closure, ret, scopes⟩ := cur
    cases ret with
    | none => rfl
    | some dst =>
      refine tell_bind (caller.write_moved dst v) fun _ => ?_
      simp [Progress.moved, Running.moved, Except.map, pure, Except.pure]

theorem refuse_moved (reason : CallRefusal) (args : List Value) (dst : Reg) :
    (s.moved φ).refuse reason args dst = tell (Progress.moved φ) (s.refuse reason args dst) :=
  tell_bind (overHeap_moved _) fun _ => storeFrom_moved _ dst

theorem finishClosure_moved (dst : Reg) (unit : UnitId) (caps : List Reg) :
    (s.moved φ).finishClosure dst unit caps = tell (Progress.moved φ) (s.finishClosure dst unit caps) := by
  refine tell_bind_same rfl fun values => ?_
  refine tell_bind (overHeap_moved _) fun s => ?_
  refine tell_bind_same rfl fun v => ?_
  cases v.asObj? with
  | none => rfl
  | some r =>
    refine tell_bind_same rfl fun obj => ?_
    cases obj with
    | closure c =>
      refine tell_bind (overHeap_moved _) fun s => ?_
      obtain ⟨m, callers, unit, pc, regs, args, closure, ret, scopes⟩ := s
      cases scopes with
      | nil => rfl
      | cons g _ => exact after_moved _
    | _ => rfl

theorem capture_moved (dst : Reg) (idx : Nat) :
    (s.moved φ).capture dst idx = tell (Progress.moved φ) (s.capture dst idx) := by
  obtain ⟨m, callers, unit, pc, regs, args, closure, ret, scopes⟩ := s
  cases closure with
  | none => rfl
  | some f =>
    refine tell_bind_same rfl fun closure => ?_
    cases closure with
    | none => rfl
    | some c =>
      dsimp only
      cases c.caps[idx]? with
      | none => rfl
      | some v => exact store_moved (s := ⟨m, callers, _⟩) dst v

theorem unbox_moved (dst cell : Reg) :
    (s.moved φ).unbox dst cell = tell (Progress.moved φ) (s.unbox dst cell) := by
  refine tell_bind_same rfl fun v => ?_
  cases v.asObj? with
  | none => rfl
  | some r =>
    refine tell_bind_same rfl fun obj => ?_
    cases obj with
    | cell v => exact store_moved dst v
    | _ => rfl

theorem assign_moved (cell src : Reg) :
    (s.moved φ).assign cell src = tell (Progress.moved φ) (s.assign cell src) := by
  refine tell_bind_same rfl fun v => ?_
  refine tell_bind (overHeap_moved _) fun s => ?_
  refine tell_bind_same rfl fun c => ?_
  cases c.asObj? with
  | none => rfl
  | some r =>
    refine tell_bind_same rfl fun obj => ?_
    cases obj with
    | cell old => exact tell_bind (overHeap_moved _) fun s => after_moved _
    | _ => rfl

theorem trace_moved (src : Reg) (loc : Location) :
    (s.moved φ).trace src loc = tell (Progress.moved φ) (s.trace src loc) := by
  refine tell_bind_same rfl fun v => ?_
  cases v.asObj? with
  | none => rfl
  | some r =>
    refine tell_bind_same rfl fun obj => ?_
    cases obj with
    | undefined tag places => exact after_moved _
    | _ => rfl

theorem param_moved (dst : Reg) (idx : Nat) :
    (match s.cur.args[idx]? with
      | some v => (s.moved φ).store dst v
      | none => throw .outOfBounds) = tell (Progress.moved φ) (match s.cur.args[idx]? with
      | some v => s.store dst v
      | none => throw .outOfBounds) := by
  cases s.cur.args[idx]? with
  | none => rfl
  | some v => exact store_moved dst v

theorem endScope_moved : (s.moved φ).endScope = tell (Progress.moved φ) s.endScope := by
  obtain ⟨m, callers, unit, pc, regs, args, closure, ret, scopes⟩ := s
  cases scopes with
  | nil => rfl
  | cons g scopes => exact after_moved (s := ⟨m, callers, ⟨unit, pc, regs, args, closure, ret, scopes⟩⟩) _

section
variable (hp : p.Recodes φ p')
include hp

theorem enter_moved (unit : UnitId) (f : Value) (args : List Value) (dst : Reg) :
    (s.moved φ).enter p' unit f args dst = tell (Progress.moved φ) (s.enter p unit f args dst) := by
  obtain ⟨m, callers, cur⟩ := s
  refine tell_bind_same rfl fun m => ?_
  refine tell_bind (hp.frame_moved unit args (some f) (some dst)) fun callee => ?_
  simp [Progress.moved, Running.moved, Except.map, pure, Except.pure]

theorem call_moved (limit : Nat) (dst func : Reg) (nargs : Nat) (checked : Bool) :
    (s.moved φ).call p' limit dst func nargs checked =
      tell (Progress.moved φ) (s.call p limit dst func nargs checked) := by
  obtain ⟨m, callers, cur⟩ := s
  refine tell_bind_same rfl fun ⟨m, args⟩ => ?_
  refine tell_bind_same rfl fun f => ?_
  refine tell_bind_same (hp.resolveCall_eq m.heap f nargs) fun target => ?_
  cases target with
  | ok unit =>
    simp only [Array.size_map]
    split_ifs
    · exact refuse_moved (s := ⟨m, callers, cur⟩) .stackOverflow args dst
    · exact enter_moved hp (s := ⟨m, callers, cur⟩) unit f args dst
  | error reason =>
    cases checked
    · rfl
    · exact refuse_moved (s := ⟨m, callers, cur⟩) reason args dst

theorem replace_moved (unit : UnitId) (f : Value) (args : List Value) :
    (s.moved φ).replace p' unit f args = tell (Progress.moved φ) (s.replace p unit f args) := by
  obtain ⟨m, callers, cur⟩ := s
  refine tell_bind_same rfl fun m => ?_
  refine tell_bind_same rfl fun m => ?_
  exact tell_bind (hp.frame_moved unit args (some f) cur.ret) fun _ => rfl

theorem tailCall_moved (func : Reg) (nargs : Nat) :
    (s.moved φ).tailCall p' func nargs = tell (Progress.moved φ) (s.tailCall p func nargs) := by
  obtain ⟨m, callers, cur⟩ := s
  refine tell_bind_same rfl fun ⟨m, args⟩ => ?_
  refine tell_bind_same rfl fun f => ?_
  refine tell_bind_same (hp.resolveCall_eq m.heap f nargs) fun target => ?_
  cases target with
  | ok unit => exact replace_moved hp (s := ⟨m, callers, cur⟩) unit f args
  | error reason =>
    refine tell_bind_same rfl fun m => ?_
    refine tell_bind_same rfl fun m => ?_
    refine tell_bind_same rfl fun m' => ?_
    exact returnWith_moved (s := ⟨m', callers, cur⟩) _

theorem loadConst_moved (dst : Reg) (k : ConstId) :
    (s.moved φ).loadConst p' dst k = tell (Progress.moved φ) (s.loadConst p dst k) := by
  unfold loadConst
  rw [hp.consts, show (s.moved φ).machine.consts = s.machine.consts from rfl]
  cases p.consts[k.index]? with
  | none => rfl
  | some c =>
    cases c with
    | undefined tag => exact storeFrom_moved _ dst
    | _ =>
      dsimp only
      cases s.machine.consts[k.index]? with
      | none => rfl
      | some v => exact store_moved dst v

theorem guard_moved (src : Reg) (ty : ObjType) :
    (s.moved φ).guard p' src ty = tell (Progress.moved φ) (s.guard p src ty) := by
  refine tell_bind_same rfl fun v => ?_
  refine tell_bind_same rfl fun fits => ?_
  cases fits with
  | true => rfl
  | false =>
    simp only [Bool.false_eq_true, if_false, hp.types]
    exact tell_bind_same rfl fun text => rfl

/-! ## Instructions -/

/-- **An instruction does the same** when its label is moved along. -/
theorem exec_moved (limit : Nat) (i : Instr Nat) :
    (s.moved φ).exec p' limit (i.relabel (φ s.cur.unit)) = tell (Progress.moved φ) (s.exec p limit i) := by
  cases i with
  | nop | merge dst => rfl
  | done => exact returnWith_moved .nil
  | const dst k => exact loadConst_moved hp dst k
  | param dst idx => exact param_moved (s := s) dst idx
  | capture dst idx => exact capture_moved dst idx
  | box dst src =>
    refine tell_bind_same rfl fun v => ?_
    exact tell_bind (overHeap_moved _) fun s => storeFrom_moved _ dst
  | unbox dst cell => exact unbox_moved dst cell
  | assign cell src => exact assign_moved cell src
  | operate op dst lhs rhs checked =>
    refine tell_bind_same rfl fun a => ?_
    exact tell_bind_same rfl fun b => storeFrom_moved _ dst
  | test dst src => exact tell_bind_same rfl fun v => store_moved dst _
  | testType dst src ty =>
    refine tell_bind_same rfl fun v => ?_
    exact tell_bind_same rfl fun fits => store_moved dst _
  | flag dst value => exact store_moved dst _
  | field dst src idx => exact tell_bind_same rfl fun v => storeFrom_moved _ dst
  | make dst ty fields =>
    refine tell_bind_same rfl fun values => ?_
    exact tell_bind (overHeap_moved _) fun s => storeFrom_moved _ dst
  | guard src ty => exact guard_moved hp src ty
  | branch cond no =>
    refine tell_bind_same rfl fun v => ?_
    split_ifs
    · rfl
    · exact congrArg Except.ok (goto_moved no)
  | jump target => exact congrArg Except.ok (goto_moved target)
  | move dst src =>
    refine tell_bind_same rfl fun v => ?_
    exact tell_bind (overHeap_moved _) fun s => store_moved dst v
  | push src =>
    refine tell_bind_same rfl fun v => ?_
    exact tell_bind (overHeap_moved _) fun _ => rfl
  | call dst func nargs checked => exact call_moved hp limit dst func nargs checked
  | tailCall func nargs => exact tailCall_moved hp func nargs
  | ret src => exact tell_bind_same rfl fun v => returnWith_moved v
  | yield src =>
    refine tell_bind_same rfl fun v => ?_
    obtain ⟨m, callers, cur⟩ := s
    refine tell_bind_same rfl fun m => ?_
    simp [Progress.moved, Outcome.moved, Suspension.moved, Except.map, pure, Except.pure]
  | trace src loc => exact trace_moved src loc
  | adjust op reg => exact tell_bind_same rfl fun v => after_moved _
  | allocClosure dst =>
    simp only [exec, Instr.relabel]
    exact storeFrom_moved _ dst
  | finishClosure dst unit caps => exact finishClosure_moved dst unit caps
  | beginScope n => rfl
  | endScope n => exact endScope_moved

/-- **A step** that finds the same instruction where its place has gone. -/
theorem step_moved {i : Instr Nat} (limit : Nat) (hi : s.fetch p = .ok i)
    (hi' : (s.moved φ).fetch p' = .ok (i.relabel (φ s.cur.unit)))
    (hnext : φ s.cur.unit (s.cur.pc + 1) = φ s.cur.unit s.cur.pc + 1) :
    (s.moved φ).step p' limit = tell (Progress.moved φ) (s.step p limit) := by
  have hadvance : (s.moved φ).advance = s.advance.moved φ := by
    obtain ⟨m, callers, cur⟩ := s
    simp [advance, moved, Frame.moved, hnext]
  simp only [step, hi, hi', hadvance, bind, Except.bind]
  exact exec_moved hp (s := s.advance) limit i

end

end Running

/-! ## Where frames stand -/

section
variable {P : UnitId → Nat → Prop}

/-- All frames stand where they should. -/
def Running.Stands (P : UnitId → Nat → Prop) (s : Running) : Prop :=
  P s.cur.unit s.cur.pc ∧ ∀ f ∈ s.callers, P f.unit f.pc

/-- The frames of a chain that is handed out stand where they should. -/
def Outcome.Stands (P : UnitId → Nat → Prop) : Outcome → Prop
  | .returned _ => True
  | .yielded _ c => ∀ f ∈ c.frames, P f.unit f.pc

/-- All frames stand where they should after a step. -/
def Progress.Stands (P : UnitId → Nat → Prop) : Progress → Prop
  | .more s => s.Stands P
  | .stop _ o => o.Stands P

/-- **After a step** a frame stands at the start of a unit, behind the instruction or at its label, or
where it stood. -/
theorem Running.Turns.stands {s : Running} {i : Instr Nat} {q : Progress} (h : s.Turns i q)
    (hs : s.Stands P) (hstart : ∀ id, P id 0) (hnext : P s.cur.unit (s.cur.pc + 1))
    (hlabel : ∀ pc, i.label? = some pc → P s.cur.unit pc) : q.Stands P := by
  have hpush : ∀ f ∈ s.callers.push s.parked, P f.unit f.pc := fun f hf => by
    obtain hf | rfl := Array.mem_push.mp hf
    · exact hs.2 f hf
    · exact hnext
  cases h with
  | stays _ hunit hpc =>
    refine ⟨?_, hs.2⟩
    rw [hunit]
    obtain hpc | hpc := hpc
    · rwa [hpc]
    · exact hlabel _ hpc
  | adjusts => exact ⟨hnext, hs.2⟩
  | pushes => exact ⟨hnext, hs.2⟩
  | refuses hunit hpc => exact ⟨by rw [hunit, hpc]; exact hnext, hs.2⟩
  | enters hpc => exact ⟨by rw [hpc]; exact hstart _, hpush⟩
  | replaces hpc => exact ⟨by rw [hpc]; exact hstart _, hs.2⟩
  | leaves => trivial
  | returns _ hback hunit hpc =>
    refine ⟨?_, fun f hf => hs.2 f (mem_of_mem_pop hf)⟩
    rw [hunit, hpc]
    exact hs.2 _ (Array.mem_of_back? hback)
  | yields => exact hpush

end

end CountedMachine
