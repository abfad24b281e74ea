import CountedMachine.Machine.Host
import CountedMachine.Proofs.Code.Untraced
import CountedMachine.Proofs.Heap.Untraced
import CountedMachine.Proofs.Machine.Calls

/-! # Machines without traces

A machine at work on a program, seen without traces: its heap forgets the places errors came through,
and its frames stand at the ranks of their program counters (`Running.untraced`). A step of the
program is then a step of the program without traces, with the same fault or the same outcome
(`Running.exec_untraced`), but for two instructions: a guard that fails shows the value it has
found, trace and all (`Running.guard_told`), and noting a place is no step at all
(`Running.untraced_trace`). -/

namespace CountedMachine

/-! ## The program -/

namespace Program

variable (p : Program) (id : UnitId)

/-- The rank of a place in a unit. -/
def rank : Nat → Nat := CountedMachine.rank (p.codeOf id).toList

@[simp] theorem rank_zero : p.rank id 0 = 0 := rfl

theorem codeOf_untraced : p.untraced.codeOf id = (untrace (p.codeOf id).toList).toArray := by
  have h : p.untraced.units[id.index]? = p.units[id.index]?.map CodeUnit.untraced := by
    simp [untraced]
  rw [codeOf, codeOf, h]
  cases p.units[id.index]? <;> rfl

theorem unit_untraced : p.untraced.unit id = tell CodeUnit.untraced (p.unit id) := by
  have h : p.untraced.units[id.index]? = p.units[id.index]?.map CodeUnit.untraced := by
    simp [untraced]
  rw [unit, unit, h]
  cases p.units[id.index]? <;> rfl

end Program

/-! ## The machine -/

/-- A frame that stands at the rank of its program counter. -/
def Frame.untraced (p : Program) (f : Frame) : Frame := { f with pc := p.rank f.unit f.pc }

/-- **A machine without traces.** -/
def Machine.untraced (m : Machine) : Machine := { m with heap := m.heap.untraced }

/-- A suspended chain without traces. -/
def Suspension.untraced (p : Program) (s : Suspension) : Suspension :=
  ⟨s.frames.map (Frame.untraced p)⟩

/-- What running comes to, without traces. -/
def Outcome.untraced (p : Program) : Outcome → Outcome
  | .returned v => .returned v
  | .yielded v s => .yielded v (s.untraced p)

/-- **A machine at work, without traces.** -/
def Running.untraced (p : Program) (s : Running) : Running :=
  ⟨s.machine.untraced, s.callers.map (Frame.untraced p), s.cur.untraced p⟩

/-- The state after a step, without traces. -/
def Progress.untraced (p : Program) : Progress → Progress
  | .more s => .more (s.untraced p)
  | .stop m o => .stop m.untraced (o.untraced p)

section
variable (p : Program) (f : Frame) (m : Machine)

theorem Frame.read_untraced (r : Reg) : (f.untraced p).read r = f.read r := rfl

theorem Frame.readAll_untraced (rs : List Reg) : (f.untraced p).readAll rs = f.readAll rs := rfl

theorem Frame.write_untraced (r : Reg) (v : Value) :
    (f.untraced p).write r v = tell (Frame.untraced p) (f.write r v) := by
  rw [Frame.write, Frame.write]
  by_cases h : r.index < f.regs.size
  · rw [if_pos h, if_pos (show r.index < (f.untraced p).regs.size from h)]
    rfl
  · rw [if_neg h, if_neg (show ¬ r.index < (f.untraced p).regs.size from h)]
    rfl

theorem Program.frame_untraced (id : UnitId) (args : List Value) (closure : Option Value)
    (ret : Option Reg) : p.untraced.frame id args closure ret =
      tell (Frame.untraced p) (p.frame id args closure ret) := by
  refine tell_bind (p.unit_untraced id) fun u => ?_
  simp [Frame.untraced, CodeUnit.untraced, Except.map, pure, Except.pure]

theorem Program.resolveCall_untraced (h : Heap) (v : Value) (n : Nat) :
    p.untraced.resolveCall h.untraced v n = p.resolveCall h v n := by
  rw [resolveCall, resolveCall, Heap.closure?_untraced]
  rcases h.closure? v with e | _ | c
  · rfl
  · rfl
  · simp only [bind, Except.bind, p.unit_untraced]
    cases p.unit c.unit <;> rfl

theorem Machine.overHeap_untraced {g : Heap → Except Fault Heap}
    (hg : ∀ h, g h.untraced = tell Heap.untraced (g h)) :
    m.untraced.overHeap g = tell Machine.untraced (m.overHeap g) := by
  obtain ⟨heap, consts, stack, stats⟩ := m
  exact tell_bind (hg heap) fun _ => rfl

theorem Machine.allocate_untraced (obj : Object) : m.untraced.allocate obj.untraced =
    ((m.allocate obj).1.untraced, (m.allocate obj).2) := by
  obtain ⟨heap, consts, stack, stats⟩ := m
  have h := Heap.allocate_untraced heap obj
  simp only [Machine.allocate, Machine.untraced, h]

theorem Machine.takeArgs_untraced (n : Nat) : m.untraced.takeArgs n =
    tell (fun x => (Machine.untraced x.1, x.2)) (m.takeArgs n) := by
  obtain ⟨heap, consts, stack, stats⟩ := m
  rw [Machine.takeArgs, Machine.untraced, Machine.takeArgs]
  by_cases hn : stack.length < n
  · rw [if_pos hn, if_pos hn]
    rfl
  · rw [if_neg hn, if_neg hn]
    rfl

end

/-! ## What a step is made of -/

namespace Running

variable (p : Program) (s : Running)

/-- A step that is told of the machine without traces. -/
abbrev Tells (x x' : Except Fault Progress) : Prop := x' = tell (Progress.untraced p) x

variable {p s}

theorem overHeap_untraced {g : Heap → Except Fault Heap}
    (hg : ∀ h, g h.untraced = tell Heap.untraced (g h)) :
    (s.untraced p).overHeap g = tell (Running.untraced p) (s.overHeap g) := by
  obtain ⟨m, callers, cur⟩ := s
  exact tell_bind (m.overHeap_untraced hg) fun _ => rfl

theorem store_untraced (dst : Reg) (v : Value) :
    Tells p (s.store dst v) ((s.untraced p).store dst v) := by
  obtain ⟨m, callers, cur⟩ := s
  refine tell_bind (f := Running.untraced p) ?_ fun _ => rfl
  exact tell_bind (cur.write_untraced p dst v) fun _ => rfl

theorem storeFrom_untraced {g : Heap → Except Fault (Heap × Value)}
    (hg : ∀ h, g h.untraced = tell Heap.untracedValue (g h)) (dst : Reg) :
    Tells p (s.storeFrom g dst) ((s.untraced p).storeFrom g dst) := by
  obtain ⟨⟨heap, consts, stack, stats⟩, callers, cur⟩ := s
  exact tell_bind (hg heap) fun x => tell_bind (cur.write_untraced p dst x.2) fun _ => rfl

theorem after_untraced {g : Heap → Except Fault Heap}
    (hg : ∀ h, g h.untraced = tell Heap.untraced (g h)) :
    Tells p (s.after g) ((s.untraced p).after g) :=
  tell_bind (overHeap_untraced hg) fun _ => rfl

theorem goto_untraced (pc : Nat) :
    (s.untraced p).goto (p.rank s.cur.unit pc) = (s.goto pc).untraced p := by
  obtain ⟨m, callers, cur⟩ := s
  rfl

/-! ## Calls and returns -/

theorem back?_map {α β : Type} (f : α → β) (xs : Array α) : (xs.map f).back? = xs.back?.map f := by
  simp [Array.back?]

theorem returnWith_untraced (v : Value) :
    Tells p (s.returnWith v) ((s.untraced p).returnWith v) := by
  obtain ⟨m, callers, cur⟩ := s
  refine tell_bind (m.overHeap_untraced fun h => h.unrefAll_untraced _) fun m => ?_
  refine tell_bind (m.overHeap_untraced fun h => h.unrefAll_untraced _) fun m => ?_
  dsimp only
  rw [back?_map]
  cases callers.back? with
  | none => rfl
  | some caller =>
    refine tell_bind (m.overHeap_untraced fun h => h.release_untraced v) fun m => ?_
    obtain ⟨unit, pc, regs, args, closure, ret, scopes⟩ := cur
    cases ret with
    | none => rfl
    | some dst =>
      refine tell_bind (caller.write_untraced p dst v) fun _ => ?_
      simp [Progress.untraced, Running.untraced, Except.map, pure, Except.pure]

theorem enter_untraced (unit : UnitId) (f : Value) (args : List Value) (dst : Reg) :
    Tells p (s.enter p unit f args dst) ((s.untraced p).enter p.untraced unit f args dst) := by
  obtain ⟨m, callers, cur⟩ := s
  refine tell_bind (m.overHeap_untraced fun h => h.inc_untraced f) fun m => ?_
  refine tell_bind (p.frame_untraced unit args (some f) (some dst)) fun callee => ?_
  simp [Progress.untraced, Running.untraced, Except.map, pure, Except.pure, Machine.untraced,
    Machine.noteCall, Machine.noteDepth]

theorem refuse_untraced (reason : CallRefusal) (args : List Value) (dst : Reg) :
    Tells p (s.refuse reason args dst) ((s.untraced p).refuse reason args dst) := by
  refine tell_bind (overHeap_untraced fun h => h.unrefAll_untraced args) fun s => ?_
  exact storeFrom_untraced (fun h => congrArg Except.ok (h.undefined_untraced _)) dst

theorem call_untraced (frameLimit : Nat) (dst func : Reg) (nargs : Nat) (checked : Bool) :
    Tells p (s.call p frameLimit dst func nargs checked)
      ((s.untraced p).call p.untraced frameLimit dst func nargs checked) := by
  obtain ⟨m, callers, cur⟩ := s
  refine tell_bind (m.takeArgs_untraced nargs) fun ⟨m, args⟩ => ?_
  refine tell_bind_same (cur.read_untraced p func) fun f => ?_
  refine tell_bind_same (p.resolveCall_untraced m.heap f nargs) fun target => ?_
  cases target with
  | ok unit =>
    simp only [Array.size_map]
    split_ifs
    · exact refuse_untraced (s := ⟨m, callers, cur⟩) .stackOverflow args dst
    · exact enter_untraced (s := ⟨m, callers, cur⟩) unit f args dst
  | error reason =>
    cases checked
    · rfl
    · exact refuse_untraced (s := ⟨m, callers, cur⟩) reason args dst

theorem replace_untraced (unit : UnitId) (f : Value) (args : List Value) :
    Tells p (s.replace p unit f args) ((s.untraced p).replace p.untraced unit f args) := by
  obtain ⟨m, callers, cur⟩ := s
  refine tell_bind (m.overHeap_untraced fun h => h.unrefAll_untraced _) fun m => ?_
  refine tell_bind (m.overHeap_untraced fun h => h.unrefAll_untraced _) fun m => ?_
  exact tell_bind (p.frame_untraced unit args (some f) cur.ret) fun _ => rfl

theorem tailCall_untraced (func : Reg) (nargs : Nat) :
    Tells p (s.tailCall p func nargs) ((s.untraced p).tailCall p.untraced func nargs) := by
  obtain ⟨m, callers, cur⟩ := s
  refine tell_bind (m.takeArgs_untraced nargs) fun ⟨m, args⟩ => ?_
  refine tell_bind_same (cur.read_untraced p func) fun f => ?_
  refine tell_bind_same (p.resolveCall_untraced m.heap f nargs) fun target => ?_
  cases target with
  | ok unit => exact replace_untraced (s := ⟨m, callers, cur⟩) unit f args
  | error reason =>
    refine tell_bind (m.overHeap_untraced fun h => h.unrefAll_untraced args) fun m => ?_
    refine tell_bind (m.overHeap_untraced fun h => h.unref_untraced f) fun m => ?_
    have halloc := m.allocate_untraced (.undefined reason.tag [])
    rw [show Object.untraced (.undefined reason.tag []) = .undefined reason.tag [] from rfl] at halloc
    rw [halloc]
    dsimp only
    refine tell_bind ((m.allocate _).1.overHeap_untraced fun h => h.inc_untraced _) fun m' => ?_
    exact returnWith_untraced (s := ⟨m', callers, cur⟩) _

/-! ## Closures and cells -/

theorem finishClosure_untraced (dst : Reg) (unit : UnitId) (caps : List Reg) :
    Tells p (s.finishClosure dst unit caps) ((s.untraced p).finishClosure dst unit caps) := by
  refine tell_bind_same (s.cur.readAll_untraced p caps) fun values => ?_
  refine tell_bind (overHeap_untraced fun h => h.incAll_untraced values) fun s => ?_
  refine tell_bind_same (s.cur.read_untraced p dst) fun v => ?_
  cases v.asObj? with
  | none => rfl
  | some r =>
    refine tell_bind (s.machine.heap.get_untraced r) fun obj => ?_
    cases obj with
    | closure c =>
      refine tell_bind (overHeap_untraced fun h => h.put_untraced r (.closure _)) fun s => ?_
      obtain ⟨m, callers, unit, pc, regs, args, closure, ret, scopes⟩ := s
      cases scopes with
      | nil => rfl
      | cons g _ => exact after_untraced fun h => h.enrol_untraced g r
    | _ => rfl

theorem capture_untraced (dst : Reg) (idx : Nat) :
    Tells p (s.capture dst idx) ((s.untraced p).capture dst idx) := by
  obtain ⟨m, callers, unit, pc, regs, args, closure, ret, scopes⟩ := s
  cases closure with
  | none => rfl
  | some f =>
    refine tell_bind_same (m.heap.closure?_untraced f) fun closure => ?_
    cases closure with
    | none => rfl
    | some c =>
      dsimp only
      cases c.caps[idx]? with
      | none => rfl
      | some v => exact store_untraced (s := ⟨m, callers, _⟩) dst v

theorem loadConst_untraced (dst : Reg) (k : ConstId) :
    Tells p (s.loadConst p dst k) ((s.untraced p).loadConst p.untraced dst k) := by
  have hconsts : (s.untraced p).machine.consts = s.machine.consts := rfl
  have hpool : p.untraced.consts = p.consts := rfl
  unfold loadConst
  rw [hconsts, hpool]
  cases p.consts[k.index]? with
  | none => rfl
  | some c =>
    cases c with
    | undefined tag => exact storeFrom_untraced (fun h => congrArg Except.ok (h.undefined_untraced tag)) dst
    | _ =>
      dsimp only
      cases s.machine.consts[k.index]? with
      | none => rfl
      | some v => exact store_untraced dst v

theorem unbox_untraced (dst cell : Reg) :
    Tells p (s.unbox dst cell) ((s.untraced p).unbox dst cell) := by
  refine tell_bind_same (s.cur.read_untraced p cell) fun v => ?_
  cases v.asObj? with
  | none => rfl
  | some r =>
    refine tell_bind (s.machine.heap.get_untraced r) fun obj => ?_
    cases obj with
    | cell v => exact store_untraced dst v
    | _ => rfl

theorem assign_untraced (cell src : Reg) :
    Tells p (s.assign cell src) ((s.untraced p).assign cell src) := by
  refine tell_bind_same (s.cur.read_untraced p src) fun v => ?_
  refine tell_bind (overHeap_untraced fun h => h.inc_untraced v) fun s => ?_
  refine tell_bind_same (s.cur.read_untraced p cell) fun c => ?_
  cases c.asObj? with
  | none => rfl
  | some r =>
    refine tell_bind (s.machine.heap.get_untraced r) fun obj => ?_
    cases obj with
    | cell old =>
      refine tell_bind (overHeap_untraced fun h => h.put_untraced r (.cell v)) fun s => ?_
      exact after_untraced fun h => h.unref_untraced old
    | _ => rfl

theorem adjust_untraced (op : CountOp) (h : Heap) (v : Value) :
    adjust op h.untraced v = tell Heap.untraced (adjust op h v) := by
  cases op with
  | inc => exact h.inc_untraced v
  | dec => exact h.release_untraced v
  | drop => exact h.drop_untraced v
  | unref => exact h.unref_untraced v

/-! ## Instructions -/

theorem param_untraced (dst : Reg) (idx : Nat) : Tells p
    (match s.cur.args[idx]? with
      | some v => s.store dst v
      | none => throw .outOfBounds)
    (match s.cur.args[idx]? with
      | some v => (s.untraced p).store dst v
      | none => throw .outOfBounds) := by
  cases s.cur.args[idx]? with
  | none => rfl
  | some v => exact store_untraced dst v

theorem endScope_untraced : Tells p s.endScope (s.untraced p).endScope := by
  obtain ⟨m, callers, unit, pc, regs, args, closure, ret, scopes⟩ := s
  cases scopes with
  | nil => rfl
  | cons g scopes =>
    exact after_untraced (s := ⟨m, callers, ⟨unit, pc, regs, args, closure, ret, scopes⟩⟩)
      fun h => h.sealScope_untraced g

/-- **An instruction is carried out the same without traces**, unless it is a guard or notes a
place. -/
theorem exec_untraced {i : Instr Nat} (frameLimit : Nat) (hi : i.isTrace = false)
    (hg : ∀ src ty, i ≠ .guard src ty) :
    Tells p (s.exec p frameLimit i)
      ((s.untraced p).exec p.untraced frameLimit (i.relabel (p.rank s.cur.unit))) := by
  cases i with
  | trace src loc => cases hi
  | guard src ty => exact absurd rfl (hg src ty)
  | nop | merge dst => rfl
  | done => exact returnWith_untraced .nil
  | const dst k => exact loadConst_untraced dst k
  | param dst idx => exact param_untraced dst idx
  | capture dst idx => exact capture_untraced dst idx
  | box dst src =>
    refine tell_bind_same (s.cur.read_untraced p src) fun v => ?_
    refine tell_bind (overHeap_untraced fun h => h.inc_untraced v) fun s => ?_
    exact storeFrom_untraced (fun h => congrArg Except.ok (h.allocate_untraced (.cell v))) dst
  | unbox dst cell => exact unbox_untraced dst cell
  | assign cell src => exact assign_untraced cell src
  | operate op dst lhs rhs checked =>
    refine tell_bind_same (s.cur.read_untraced p lhs) fun a => ?_
    refine tell_bind_same (s.cur.read_untraced p rhs) fun b => ?_
    exact storeFrom_untraced (fun h => op.eval_untraced h a b checked) dst
  | test dst src =>
    exact tell_bind_same (s.cur.read_untraced p src) fun v => store_untraced dst _
  | testType dst src ty =>
    refine tell_bind_same (s.cur.read_untraced p src) fun v => ?_
    exact tell_bind_same (s.machine.heap.isOfType_untraced v ty) fun fits => store_untraced dst _
  | flag dst value => exact store_untraced dst _
  | field dst src idx =>
    refine tell_bind_same (s.cur.read_untraced p src) fun v => ?_
    exact storeFrom_untraced (fun h => h.field_untraced v idx) dst
  | make dst ty fields =>
    refine tell_bind_same (s.cur.readAll_untraced p fields) fun values => ?_
    refine tell_bind (overHeap_untraced fun h => h.incAll_untraced values) fun s => ?_
    exact storeFrom_untraced (fun h => congrArg Except.ok (h.allocate_untraced (.struct ty values))) dst
  | branch cond no =>
    refine tell_bind_same (s.cur.read_untraced p cond) fun v => ?_
    split_ifs
    · rfl
    · exact congrArg Except.ok (goto_untraced no)
  | jump target => exact congrArg Except.ok (goto_untraced target)
  | move dst src =>
    refine tell_bind_same (s.cur.read_untraced p src) fun v => ?_
    exact tell_bind (overHeap_untraced fun h => h.inc_untraced v) fun s => store_untraced dst v
  | push src =>
    refine tell_bind_same (s.cur.read_untraced p src) fun v => ?_
    exact tell_bind (overHeap_untraced fun h => h.inc_untraced v) fun _ => rfl
  | call dst func nargs checked => exact call_untraced frameLimit dst func nargs checked
  | tailCall func nargs => exact tailCall_untraced func nargs
  | ret src => exact tell_bind_same (s.cur.read_untraced p src) fun v => returnWith_untraced v
  | yield src =>
    refine tell_bind_same (s.cur.read_untraced p src) fun v => ?_
    obtain ⟨m, callers, cur⟩ := s
    refine tell_bind (m.overHeap_untraced fun h => h.inc_untraced v) fun m => ?_
    simp [Progress.untraced, Outcome.untraced, Suspension.untraced, Except.map, pure, Except.pure]
  | adjust op reg =>
    exact tell_bind_same (s.cur.read_untraced p reg) fun v =>
      after_untraced fun h => adjust_untraced op h v
  | allocClosure dst =>
    simp only [exec, Instr.relabel]
    refine storeFrom_untraced (fun h => ?_) dst
    rw [show Object.closure .blank = Object.untraced (.closure .blank) from rfl, h.allocate_untraced]
    exact tell_bind ((h.allocate _).1.inc_untraced _) fun _ => rfl
  | finishClosure dst unit caps => exact finishClosure_untraced dst unit caps
  | beginScope n => rfl
  | endScope n => exact endScope_untraced

/-! ## Fetching -/

section
variable {i : Instr Nat}

theorem getElem?_codeOf {id : UnitId} {pc : Nat} :
    (p.codeOf id)[pc]? = (p.codeOf id).toList[pc]? := Array.getElem?_toList.symm

/-- What is fetched stands at its rank in the code without traces. -/
theorem fetch_untraced (h : s.fetch p = .ok i) (hi : i.isTrace = false) :
    (s.untraced p).fetch p.untraced = .ok (i.relabel (p.rank s.cur.unit)) := by
  rw [fetch_eq] at h ⊢
  change (p.untraced.codeOf s.cur.unit)[p.rank s.cur.unit s.cur.pc]? = _
  rw [p.codeOf_untraced, List.getElem?_toArray]
  exact getElem?_untrace (getElem?_codeOf ▸ h) hi

/-- Moving on past a place that is noted is no move in the code without traces. -/
theorem advance_untraced (h : s.fetch p = .ok i) : s.advance.untraced p =
    if i.isTrace then s.untraced p else (s.untraced p).advance := by
  rw [fetch_eq] at h
  obtain ⟨m, callers, cur⟩ := s
  have hrank : p.rank cur.unit (cur.pc + 1) =
      if i.isTrace then p.rank cur.unit cur.pc else p.rank cur.unit cur.pc + 1 :=
    rank_succ (getElem?_codeOf ▸ h)
  cases hi : i.isTrace <;> simp [hi, advance, untraced, Frame.untraced, hrank]

theorem fetch_error {f : Fault} (h : s.fetch p = .error f) : f = .outOfBounds ∧
    (p.codeOf s.cur.unit)[s.cur.pc]? = none := by
  constructor
  · rw [fetch, Program.unit] at h
    cases hu : p.units[s.cur.unit.index]? with
    | none =>
      rw [hu] at h
      exact (Except.error.inj h).symm
    | some u =>
      rw [hu] at h
      cases hi : u.code[s.cur.pc]? with
      | none =>
        simp only [bind, Except.bind, hi] at h
        exact (Except.error.inj h).symm
      | some i =>
        simp only [bind, Except.bind, hi] at h
        cases h
  · cases hget : (p.codeOf s.cur.unit)[s.cur.pc]? with
    | none => rfl
    | some i =>
      rw [fetch_eq.mpr hget] at h
      cases h

theorem fetch_untraced_error {f : Fault} (h : s.fetch p = .error f) :
    (s.untraced p).fetch p.untraced = .error f := by
  obtain ⟨rfl, hnone⟩ := fetch_error h
  cases hf : (s.untraced p).fetch p.untraced with
  | error f =>
    rw [(fetch_error hf).1]
  | ok i =>
    rw [fetch_eq] at hf
    change (p.untraced.codeOf s.cur.unit)[p.rank s.cur.unit s.cur.pc]? = _ at hf
    rw [p.codeOf_untraced, List.getElem?_toArray, Program.rank,
      getElem?_untrace_none (getElem?_codeOf ▸ hnone)] at hf
    cases hf

end

end Running

end CountedMachine
