import CountedMachine.Proofs.Generation.Layout
import CountedMachine.Proofs.Machine.Control

/-! # Control flow of assembled code

Assembling fails just when a label is no node of the listing. Otherwise the places of the code are
the nodes in order, and the machine goes from a place exactly where the listing lets control go from
the node (`Built.assemble_flows`). A place goes on with the frame that is current, waits for a call to
come back or is suspended (`Progress.GoesOn`); that every successor is really reached is shown by a
state for each instruction in which it can be carried out (`Instr.exists_exec`). -/

namespace CountedMachine

/-- **The frame that goes on in its unit after a step:** the current one, the one that waits for a
call, or the one that has yielded. -/
inductive Progress.GoesOn (callers : Array Frame) : Progress → Frame → Prop
  | stays {m : Machine} {f : Frame} : GoesOn callers (.more ⟨m, callers, f⟩) f
  | waits {m : Machine} {f callee : Frame} : GoesOn callers (.more ⟨m, callers.push f, callee⟩) f
  | yields {m : Machine} {v : Value} {f : Frame} :
      GoesOn callers (.stop m (.yielded v ⟨callers.push f⟩)) f

/-- The current frame is at a place of the code. -/
def Running.IsAt (s : Running) (p : Program) (code : Array (Instr Nat)) (pc : Nat) : Prop :=
  p.codeOf s.cur.unit = code ∧ s.cur.pc = pc

/-- **Control goes from a place of the code to the given ones**, and to no others: every step goes on
in the unit at one of them, and each is where some step goes on. -/
structure Flows (code : Array (Instr Nat)) (pc : Nat) (next : List Nat) : Prop where
  stays : ∀ {p : Program} {limit : Nat} {s : Running} {o : Progress}, s.IsAt p code pc →
    s.step p limit = .ok o →
      ∃ f, (∀ g, o.GoesOn s.callers g ↔ g = f) ∧ f.unit = s.cur.unit ∧ f.pc ∈ next
  reaches : ∀ pc' ∈ next, ∃ (p : Program) (limit : Nat) (s : Running) (o : Progress) (f : Frame),
    s.IsAt p code pc ∧ s.step p limit = .ok o ∧ o.GoesOn s.callers f ∧ f.unit = s.cur.unit ∧ f.pc = pc'

namespace Progress

variable {callers : Array Frame} {m : Machine} {f g callee : Frame} {v : Value}

theorem push_ne (callers : Array Frame) (f : Frame) : callers ≠ callers.push f := fun e => by
  have := congrArg Array.size e
  simp at this

theorem goesOn_stays : GoesOn callers (.more ⟨m, callers, f⟩) g ↔ g = f := by
  refine ⟨fun h => ?_, fun e => e ▸ .stays⟩
  generalize ho : Progress.more ⟨m, callers, f⟩ = o at h
  cases h with
  | stays => cases ho; rfl
  | waits => exact absurd (congrArg Running.callers (Progress.more.inj ho)) (push_ne _ _)
  | yields => cases ho

theorem goesOn_waits : GoesOn callers (.more ⟨m, callers.push f, callee⟩) g ↔ g = f := by
  refine ⟨fun h => ?_, fun e => e ▸ .waits⟩
  generalize ho : Progress.more ⟨m, callers.push f, callee⟩ = o at h
  cases h with
  | stays => exact absurd (congrArg Running.callers (Progress.more.inj ho)).symm (push_ne _ _)
  | waits => exact (Array.push_inj_right.mp (congrArg Running.callers (Progress.more.inj ho))).symm
  | yields => cases ho

theorem goesOn_yields : GoesOn callers (.stop m (.yielded v ⟨callers.push f⟩)) g ↔ g = f := by
  refine ⟨fun h => ?_, fun e => e ▸ .yields⟩
  generalize ho : Progress.stop m (.yielded v ⟨callers.push f⟩) = o at h
  cases h with
  | stays => cases ho
  | waits => cases ho
  | yields =>
    simp only [stop.injEq, Outcome.yielded.injEq, Suspension.mk.injEq] at ho
    exact (Array.push_inj_right.mp ho.2.2).symm

end Progress

/-! ## Where a step goes on -/

namespace Running

variable {p : Program} {limit : Nat} {s : Running} {o : Progress} {i : Instr Nat}

/-- **A branch** goes on behind it when its test is truthy, and at its label when it is not. -/
theorem step_branch {c : Reg} {no : Nat} {v : Value} (hi : s.fetch p = .ok (.branch c no))
    (hv : s.cur.read c = .ok v) :
    s.step p limit = .ok (s.goto (if v.truthy then s.cur.pc + 1 else no)) := by
  have hv' : s.advance.cur.read c = .ok v := hv
  simp only [step, hi, exec, hv', bind, Except.bind]
  cases v.truthy <;> rfl

theorem step_jump {target : Nat} (hi : s.fetch p = .ok (.jump target)) :
    s.step p limit = .ok (s.goto target) := by
  simp only [step, hi, bind, Except.bind]
  rfl

theorem goesOn_goto (s : Running) (pc : Nat) (g : Frame) :
    (s.goto pc).GoesOn s.callers g ↔ g = { s.cur with pc := pc } :=
  Progress.goesOn_stays

/-- **Every step of an instruction that is not terminal** goes on at one of its exits. -/
theorem exists_goesOn (hi : s.fetch p = .ok i) (hterm : i.isTerminal = false)
    (e : s.step p limit = .ok o) :
    ∃ f, (∀ g, o.GoesOn s.callers g ↔ g = f) ∧ f.unit = s.cur.unit ∧ f.pc ∈ i.exits s.cur.pc := by
  by_cases hlabel : i.label? = none
  · have hexits : i.exits s.cur.pc = [s.cur.pc + 1] := by
      cases i <;> simp_all [Instr.exits, Instr.isTerminal, Instr.label?]
    obtain ⟨i', hi', hturns⟩ := turns_step e
    rw [hi] at hi'
    obtain rfl := Except.ok.inj hi'
    rw [hexits]
    cases hturns with
    | @stays _ _ cur _ hunit hpc =>
      refine ⟨cur, fun g => Progress.goesOn_stays, hunit, ?_⟩
      rw [hlabel] at hpc
      simpa using hpc
    | adjusts => exact ⟨_, fun g => Progress.goesOn_stays, rfl, List.mem_singleton.mpr rfl⟩
    | pushes => exact ⟨_, fun g => Progress.goesOn_stays, rfl, List.mem_singleton.mpr rfl⟩
    | @refuses _ _ _ _ _ cur hunit hpc =>
      exact ⟨cur, fun g => Progress.goesOn_stays, hunit, by simp [hpc]⟩
    | enters => exact ⟨_, fun g => Progress.goesOn_waits, rfl, List.mem_singleton.mpr rfl⟩
    | replaces => cases hterm
    | leaves ht => rw [ht] at hterm; cases hterm
    | returns ht => rw [ht] at hterm; cases hterm
    | yields => exact ⟨_, fun g => Progress.goesOn_yields, rfl, List.mem_singleton.mpr rfl⟩
  · cases i
    case branch c no =>
      obtain ⟨v, hv⟩ : ∃ v, s.cur.read c = .ok v := by
        obtain ⟨j, hj, e⟩ := bind_ok e
        rw [hi] at hj
        obtain rfl := Except.ok.inj hj
        obtain ⟨v, hv, -⟩ := bind_ok e
        exact ⟨v, hv⟩
      rw [step_branch hi hv] at e
      obtain rfl := Except.ok.inj e
      refine ⟨_, s.goesOn_goto _, rfl, ?_⟩
      simp only [Instr.exits]
      split_ifs <;> simp
    case jump target =>
      rw [step_jump hi] at e
      obtain rfl := Except.ok.inj e
      exact ⟨_, s.goesOn_goto _, rfl, by simp [Instr.exits]⟩
    all_goals exact absurd rfl hlabel

end Running

/-! ## Each instruction can be carried out -/

/-- A program of one unit with the given code, arity and number of constants. -/
def bench (code : Array (Instr Nat)) (arity consts : Nat) : Program :=
  ⟨#[⟨"", arity, 0, 0, code⟩], Array.replicate consts .nil, #[], ⟨0⟩⟩

/-- A heap with one object. -/
def Heap.holding (obj : Object) : Heap := { slots := #[some ⟨1, obj⟩] }

theorem Heap.get_holding (obj : Object) : (Heap.holding obj).get ⟨0⟩ = .ok obj := rfl

/-- **A state at a place of the unit**, with the same value in all registers. -/
def Running.benched (h : Heap) (pc nregs : Nat) (v : Value) : Running :=
  ⟨⟨h, #[], [], {}⟩, #[], ⟨⟨0⟩, pc, Array.replicate nregs v, [], none, none, []⟩⟩

/-- More than the index of each of the registers. -/
def width (rs : List Reg) : Nat := (rs.map (·.index)).sum + 1

theorem lt_width {r : Reg} {rs : List Reg} (h : r ∈ rs) : r.index < width rs :=
  Nat.lt_succ_of_le (List.le_sum_of_mem (List.mem_map.mpr ⟨r, h, rfl⟩))

section
variable {s : Running} {r : Reg} {v w : Value} {n : Nat}

theorem Frame.read_replicate {f : Frame} (hf : f.regs = Array.replicate n v) (hr : r.index < n) :
    f.read r = .ok v := by
  simp [read, hf, hr]

theorem Frame.readAll_replicate {f : Frame} {rs : List Reg} (hf : f.regs = Array.replicate n v)
    (hrs : ∀ r ∈ rs, r.index < n) : f.readAll rs = .ok (rs.map fun _ => v) :=
  Listing.mapM_eq_ok fun r hr => read_replicate hf (hrs r hr)

theorem Running.exists_store (hs : s.cur.regs = Array.replicate n v) (hr : r.index < n) (w : Value) :
    ∃ o, s.store r w = .ok o := by
  simp [store, write, Frame.write, hs, hr, bind, Except.bind, pure, Except.pure]

theorem Running.exists_storeFrom {g : Heap → Except Fault (Heap × Value)} {x : Heap × Value}
    (hs : s.cur.regs = Array.replicate n v) (hr : r.index < n) (hg : g s.machine.heap = .ok x) :
    ∃ o, s.storeFrom g r = .ok o := by
  simp [storeFrom, hg, Frame.write, hs, hr, bind, Except.bind, pure, Except.pure]

end

/-- **The instruction can be carried out** at every place of every code. -/
def Instr.Runs (i : Instr Nat) : Prop :=
  ∀ code pc, ∃ (arity consts limit : Nat) (s : Running), s.cur.unit = ⟨0⟩ ∧ s.cur.pc = pc ∧
    ∃ o, s.advance.exec (bench code arity consts) limit i = .ok o

namespace Instr

open Running

/-- What can be carried out where all registers hold one value. -/
theorem runs_of_benched {i : Instr Nat} (h : Heap) (n : Nat) (v : Value)
    (hrun : ∀ p pc, ∃ o, (benched h pc n v).exec p 0 i = .ok o) : i.Runs :=
  fun _ pc => ⟨0, 0, 0, benched h pc n v, rfl, rfl, hrun _ (pc + 1)⟩

theorem read_benched {h : Heap} {pc n : Nat} {v : Value} {r : Reg} (hr : r.index < n) :
    (benched h pc n v).cur.read r = .ok v :=
  Frame.read_replicate rfl hr

theorem overHeap_benched {h h' : Heap} (pc n : Nat) (v : Value) {g : Heap → Except Fault Heap}
    (hg : g h = .ok h') : (benched h pc n v).overHeap g = .ok (benched h' pc n v) := by
  simp only [overHeap, Machine.overHeap, benched, hg, bind, Except.bind]
  rfl

theorem runs_const (dst : Reg) (k : ConstId) : (const dst k : Instr Nat).Runs := fun code pc => by
  refine ⟨0, k.index + 1, 0, ⟨⟨.empty, Array.replicate (k.index + 1) .nil, [], {}⟩, #[],
    (benched .empty pc (dst.index + 1) .nil).cur⟩, rfl, rfl, ?_⟩
  simp only [exec, loadConst, bench, advance, Array.getElem?_replicate, if_pos (Nat.lt_succ_self _)]
  exact exists_store rfl (Nat.lt_succ_self _) _

theorem runs_param (dst : Reg) (idx : Nat) : (param dst idx : Instr Nat).Runs := fun code pc => by
  refine ⟨0, 0, 0, ⟨⟨.empty, #[], [], {}⟩, #[], { (benched .empty pc (dst.index + 1) .nil).cur with
    args := List.replicate (idx + 1) .nil }⟩, rfl, rfl, ?_⟩
  simp only [exec, advance, List.getElem?_replicate, if_pos (Nat.lt_succ_self _)]
  exact exists_store rfl (Nat.lt_succ_self _) _

theorem runs_capture (dst : Reg) (idx : Nat) : (capture dst idx : Instr Nat).Runs := fun code pc => by
  refine ⟨0, 0, 0, ⟨⟨.holding (.closure ⟨⟨0⟩, List.replicate (idx + 1) .nil, [], none⟩), #[], [], {}⟩, #[],
    { (benched .empty pc (dst.index + 1) .nil).cur with closure := some (.obj ⟨0⟩) }⟩, rfl, rfl, ?_⟩
  simp only [exec, Running.capture, advance, Heap.closure?, Heap.get_holding, bind, Except.bind, pure,
    Except.pure, List.getElem?_replicate, if_pos (Nat.lt_succ_self _)]
  exact exists_store rfl (Nat.lt_succ_self _) _

theorem runs_operate (op : Operator) (dst lhs rhs : Reg) (checked : Bool) :
    (operate op dst lhs rhs checked : Instr Nat).Runs :=
  runs_of_benched .empty (dst.index + lhs.index + rhs.index + 1) (.num 0) fun p pc => by
    have heval : ∃ x, op.eval .empty (.num 0) (.num 0) checked = .ok x := by
      cases op <;> exact ⟨_, rfl⟩
    obtain ⟨x, hx⟩ := heval
    simp (disch := omega) only [exec, read_benched, bind, Except.bind]
    refine exists_storeFrom rfl ?_ hx
    omega

theorem runs_guard (src : Reg) (ty : ObjType) : (guard src ty : Instr Nat).Runs := by
  obtain ⟨obj, hobj⟩ : ∃ obj, (Heap.holding obj).isOfType (.obj ⟨0⟩) ty = .ok true := by
    cases ty with
    | cons => exact ⟨.cons .nil .nil, rfl⟩
    | undefined => exact ⟨.undefined "" [], rfl⟩
    | struct ty =>
      exact ⟨.struct ty [], by simp [Heap.isOfType, Heap.get_holding, bind, Except.bind, pure, Except.pure]⟩
  refine runs_of_benched (.holding obj) (src.index + 1) (.obj ⟨0⟩) fun p pc => ?_
  have hfits : (benched (.holding obj) pc (src.index + 1) (.obj ⟨0⟩)).machine.heap.isOfType
      (.obj ⟨0⟩) ty = .ok true := hobj
  simp only [exec, Running.guard, read_benched (Nat.lt_succ_self _), hfits, bind, Except.bind]
  exact ⟨_, rfl⟩

theorem runs_field (dst src : Reg) (idx : Nat) : (field dst src idx : Instr Nat).Runs := by
  refine runs_of_benched (.holding (.struct 0 (List.replicate (idx + 1) .nil)))
    (dst.index + src.index + 1) (.obj ⟨0⟩) fun p pc => ?_
  simp (disch := omega) only [exec, read_benched, bind, Except.bind]
  have hfield : (Heap.holding (.struct 0 (List.replicate (idx + 1) .nil))).field (.obj ⟨0⟩) idx =
      .ok (.holding (.struct 0 (List.replicate (idx + 1) .nil)), .nil) := by
    simp only [Heap.field, Heap.get_holding, bind, Except.bind, List.getElem?_replicate,
      if_pos (Nat.lt_succ_self _)]
    rfl
  refine exists_storeFrom rfl ?_ hfield
  omega

theorem incAll_nil (h : Heap) (rs : List Reg) : h.incAll (rs.map fun _ => .nil) = .ok h := by
  induction rs with
  | nil => rfl
  | cons r rs ih => exact ih

theorem runs_make (dst : Reg) (ty : Nat) (fields : List Reg) :
    (make dst ty fields : Instr Nat).Runs :=
  runs_of_benched .empty (dst.index + width fields) .nil fun p pc => by
    have hread : (benched .empty pc (dst.index + width fields) .nil).cur.readAll fields =
        .ok (fields.map fun _ => .nil) :=
      Frame.readAll_replicate rfl fun r hr => by have := lt_width hr; omega
    have hinc := overHeap_benched pc (dst.index + width fields) .nil
      (g := (·.incAll (fields.map fun _ => .nil))) (incAll_nil .empty fields)
    simp only [exec, hread, hinc, bind, Except.bind]
    refine exists_storeFrom rfl ?_ rfl
    unfold width
    omega

theorem unrefAll_nil (h : Heap) (n : Nat) : h.unrefAll (List.replicate n .nil) = .ok h := by
  induction n with
  | zero => rfl
  | succ n ih => exact ih

theorem resolveCall_bench (code : Array (Instr Nat)) (nargs : Nat) :
    (bench code nargs 0).resolveCall (.holding (.closure (.plain ⟨0⟩))) (.obj ⟨0⟩) nargs =
      .ok (.ok ⟨0⟩) := by
  simp [Program.resolveCall, Heap.closure?, Heap.get_holding, Closure.isFinished, Closure.plain,
    Closure.noUnit, Program.unit, bench, bind, Except.bind, pure, Except.pure]

/-- A call beyond the limit of frames is refused. -/
theorem runs_call (dst func : Reg) (nargs : Nat) (checked : Bool) :
    (call dst func nargs checked : Instr Nat).Runs := fun code pc => by
  refine ⟨nargs, 0, 0, ⟨⟨.holding (.closure (.plain ⟨0⟩)), #[], List.replicate nargs .nil, {}⟩, #[],
    (benched .empty pc (dst.index + func.index + 1) (.obj ⟨0⟩)).cur⟩, rfl, rfl, ?_⟩
  simp only [exec, advance]
  generalize hcur : ({ (benched .empty pc (dst.index + func.index + 1) (.obj ⟨0⟩)).cur with
      pc := (benched .empty pc (dst.index + func.index + 1) (.obj ⟨0⟩)).cur.pc + 1 } : Frame) = cur
  have hregs : cur.regs = Array.replicate (dst.index + func.index + 1) (.obj ⟨0⟩) := by
    rw [← hcur]
    rfl
  have hread : cur.read func = .ok (.obj ⟨0⟩) := Frame.read_replicate hregs (by omega)
  simp only [Running.call, Machine.takeArgs, List.length_replicate, Nat.lt_irrefl, if_false, bind,
    Except.bind, hread, resolveCall_bench, Nat.zero_le, if_true, refuse, overHeap, Machine.overHeap,
    List.take_replicate, Nat.min_self, List.reverse_replicate, unrefAll_nil]
  exact exists_storeFrom hregs (by omega) rfl

theorem closure_incAll (c : Closure) : ∀ (rs : List Reg) (n : Nat),
    ∃ m, ({ slots := #[some ⟨n, .closure c⟩] } : Heap).incAll (rs.map fun _ => .obj ⟨0⟩) =
      .ok { slots := #[some ⟨m, .closure c⟩] }
  | [], n => ⟨n, rfl⟩
  | _ :: rs, n => closure_incAll c rs (n + 1)

theorem runs_finishClosure (dst : Reg) (unit : UnitId) (caps : List Reg) :
    (finishClosure dst unit caps : Instr Nat).Runs :=
  runs_of_benched (.holding (.closure .blank)) (dst.index + width caps) (.obj ⟨0⟩) fun p pc => by
    have hread : (benched (.holding (.closure .blank)) pc (dst.index + width caps) (.obj ⟨0⟩)).cur.readAll
        caps = .ok (caps.map fun _ => .obj ⟨0⟩) :=
      Frame.readAll_replicate rfl fun r hr => by have := lt_width hr; omega
    obtain ⟨m, hinc⟩ := closure_incAll .blank caps 1
    have hstep := overHeap_benched (h := .holding (.closure .blank)) pc (dst.index + width caps)
      (.obj ⟨0⟩) (g := (·.incAll (caps.map fun _ => .obj ⟨0⟩))) hinc
    have hdst : dst.index < dst.index + width caps := by unfold width; omega
    simp only [exec, Running.finishClosure, hread, hstep, read_benched hdst, bind, Except.bind]
    exact ⟨_, rfl⟩

theorem runs_endScope (n : Nat) : (endScope n : Instr Nat).Runs := fun code pc => by
  refine ⟨0, 0, 0, ⟨⟨{ scopes := #[some (.new 0)] }, #[], [], {}⟩, #[],
    { (benched .empty pc 0 .nil).cur with scopes := [⟨0⟩] }⟩, rfl, rfl, ?_⟩
  exact ⟨_, rfl⟩

/-- **Every instruction but the terminal ones can be carried out.** -/
theorem runs_of_not_isTerminal : ∀ i : Instr Nat, i.isTerminal = false → i.Runs
  | .nop, _ => runs_of_benched .empty 0 .nil fun _ _ => ⟨_, rfl⟩
  | .merge _, _ => runs_of_benched .empty 0 .nil fun _ _ => ⟨_, rfl⟩
  | .jump _, _ => runs_of_benched .empty 0 .nil fun _ _ => ⟨_, rfl⟩
  | .beginScope _, _ => runs_of_benched .empty 0 .nil fun _ _ => ⟨_, rfl⟩
  | .const dst k, _ => runs_const dst k
  | .param dst idx, _ => runs_param dst idx
  | .capture dst idx, _ => runs_capture dst idx
  | .operate op dst lhs rhs checked, _ => runs_operate op dst lhs rhs checked
  | .field dst src idx, _ => runs_field dst src idx
  | .make dst ty fields, _ => runs_make dst ty fields
  | .guard src ty, _ => runs_guard src ty
  | .call dst func nargs checked, _ => runs_call dst func nargs checked
  | .finishClosure dst unit caps, _ => runs_finishClosure dst unit caps
  | .endScope n, _ => runs_endScope n
  | .box dst src, _ => runs_of_benched .empty (dst.index + src.index + 1) .nil fun p pc => by
    simp (disch := omega) only [exec, read_benched, bind, Except.bind]
    refine exists_storeFrom rfl ?_ rfl
    omega
  | .unbox dst cell, _ => runs_of_benched (.holding (.cell .nil)) (dst.index + cell.index + 1)
      (.obj ⟨0⟩) fun p pc => by
    simp (disch := omega) only [exec, Running.unbox, read_benched, bind, Except.bind]
    refine exists_store rfl ?_ _
    omega
  | .assign cell src, _ => runs_of_benched (.holding (.cell .nil)) (cell.index + src.index + 1)
      (.obj ⟨0⟩) fun p pc => by
    have hstep := overHeap_benched (h := .holding (.cell .nil)) pc (cell.index + src.index + 1)
      (.obj ⟨0⟩) (g := (·.inc (.obj ⟨0⟩))) rfl
    simp (disch := omega) only [exec, Running.assign, read_benched, hstep, bind, Except.bind]
    exact ⟨_, rfl⟩
  | .test dst src, _ => runs_of_benched .empty (dst.index + src.index + 1) .nil fun p pc => by
    simp (disch := omega) only [exec, read_benched, bind, Except.bind]
    refine exists_store rfl ?_ _
    omega
  | .testType dst src ty, _ => runs_of_benched .empty (dst.index + src.index + 1) .nil fun p pc => by
    simp (disch := omega) only [exec, read_benched, bind, Except.bind]
    refine exists_store rfl ?_ _
    omega
  | .flag dst b, _ => runs_of_benched .empty (dst.index + 1) .nil fun p pc =>
    exists_store rfl (Nat.lt_succ_self _) _
  | .branch cond no, _ => runs_of_benched .empty (cond.index + 1) .nil fun p pc => by
    simp (disch := omega) only [exec, read_benched, bind, Except.bind]
    exact ⟨_, rfl⟩
  | .move dst src, _ => runs_of_benched .empty (dst.index + src.index + 1) .nil fun p pc => by
    simp (disch := omega) only [exec, read_benched, bind, Except.bind]
    refine exists_store rfl ?_ _
    omega
  | .push src, _ => runs_of_benched .empty (src.index + 1) .nil fun p pc => by
    simp (disch := omega) only [exec, read_benched, bind, Except.bind]
    exact ⟨_, rfl⟩
  | .yield src, _ => runs_of_benched .empty (src.index + 1) .nil fun p pc => by
    simp (disch := omega) only [exec, read_benched, bind, Except.bind]
    exact ⟨_, rfl⟩
  | .trace src loc, _ => runs_of_benched .empty (src.index + 1) .nil fun p pc => by
    simp (disch := omega) only [exec, Running.trace, read_benched, bind, Except.bind]
    exact ⟨_, rfl⟩
  | .adjust op reg, _ => runs_of_benched .empty (reg.index + 1) .nil fun p pc => by
    simp (disch := omega) only [exec, read_benched, bind, Except.bind]
    cases op <;> exact ⟨_, rfl⟩
  | .allocClosure dst, _ => runs_of_benched .empty (dst.index + 1) .nil fun p pc => by
    simp only [exec]
    exact exists_storeFrom rfl (Nat.lt_succ_self _) rfl

end Instr

/-! ## Control in finished code -/

section
variable {code : Array (Instr Nat)} {pc pc' : Nat} {i : Instr Nat}

theorem Running.IsAt.fetch {s : Running} {p : Program} (h : s.IsAt p code pc)
    (hi : code[pc]? = some i) : s.fetch p = .ok i := by
  obtain ⟨rfl, rfl⟩ := h
  exact fetch_eq.mpr hi

/-- The only exit of an instruction is reached. -/
theorem reaches_of_exits (hi : code[pc]? = some i) (hterm : i.isTerminal = false)
    (hexit : i.exits pc = [pc']) : ∃ (p : Program) (limit : Nat) (s : Running) (o : Progress) (f : Frame),
      s.IsAt p code pc ∧ s.step p limit = .ok o ∧ o.GoesOn s.callers f ∧ f.unit = s.cur.unit ∧
        f.pc = pc' := by
  obtain ⟨arity, consts, limit, s, hunit, rfl, o, ho⟩ := i.runs_of_not_isTerminal hterm code pc
  have hat : s.IsAt (bench code arity consts) code s.cur.pc := ⟨by rw [hunit]; rfl, rfl⟩
  have hfetch := hat.fetch hi
  have hstep : s.step (bench code arity consts) limit = .ok o := by
    simp only [Running.step, hfetch, bind, Except.bind]
    exact ho
  obtain ⟨f, hf, hunit', hpc⟩ := Running.exists_goesOn hfetch hterm hstep
  rw [hexit, List.mem_singleton] at hpc
  exact ⟨_, _, s, o, f, hat, hstep, (hf f).mpr rfl, hunit', hpc⟩

/-- A branch is left either way, as its test comes out. -/
theorem reaches_of_branch {c : Reg} {no : Nat} (hi : code[pc]? = some (.branch c no)) (v : Value) :
    ∃ (p : Program) (limit : Nat) (s : Running) (o : Progress) (f : Frame), s.IsAt p code pc ∧
      s.step p limit = .ok o ∧ o.GoesOn s.callers f ∧ f.unit = s.cur.unit ∧
        f.pc = if v.truthy then pc + 1 else no := by
  have hat : (Running.benched .empty pc (c.index + 1) v).IsAt (bench code 0 0) code pc := ⟨rfl, rfl⟩
  have hread : (Running.benched .empty pc (c.index + 1) v).cur.read c = .ok v :=
    Instr.read_benched (Nat.lt_succ_self _)
  exact ⟨_, 0, _, _, _, hat, Running.step_branch (hat.fetch hi) hread, (Running.goesOn_goto _ _ _).mpr rfl, rfl, rfl⟩

/-- **Control goes to the exits of an instruction**, and nowhere else. -/
theorem flows_exits (hi : code[pc]? = some i) (hterm : i.isTerminal = false) :
    Flows code pc (i.exits pc) where
  stays hat hstep := by
    have h := Running.exists_goesOn (hat.fetch hi) hterm hstep
    rwa [hat.2] at h
  reaches pc' hpc := by
    cases i
    case branch c no =>
      simp only [Instr.exits, List.mem_cons, List.not_mem_nil, or_false] at hpc
      rcases hpc with rfl | rfl
      · exact reaches_of_branch hi (.bool true)
      · exact reaches_of_branch hi .nil
    all_goals
      refine reaches_of_exits hi hterm ?_
      simp_all [Instr.exits, Instr.isTerminal]

end

namespace Listing

variable {l : Listing} {code xs ys : Code} {a b : NodeId} {i : Instr NodeId}

/-- The node that control falls through to stands at the next place. -/
theorem idxOf_firstId (hnd : (ids code).Nodup) (e : code = xs ++ (a, i) :: ys)
    (hb : firstId ys none = some b) : (ids code).idxOf b = xs.length + 1 := by
  obtain ⟨j, hj⟩ := firstId_eq e hb
  obtain ⟨j', hj'⟩ := getElem?_idxOf (mem_ids (List.mem_of_getElem? hj))
  exact getElem?_unique hnd hj' hj

/-- The exits of an assembled instruction are the places of its targets. -/
theorem exits_relabel (hnd : (ids code).Nodup) (e : code = xs ++ (a, i) :: ys)
    (hb : firstId ys none = some b) (hterm : i.isTerminal = false) :
    (i.relabel (ids code).idxOf).exits xs.length =
      (targets i (firstId ys none)).map (ids code).idxOf := by
  have hpos := idxOf_firstId hnd e hb
  rw [hb]
  cases i
  case ret => cases hterm
  case tailCall => cases hterm
  case done => cases hterm
  all_goals simp [Instr.relabel, Instr.exits, targets, Instr.isTerminal, hpos]

theorem exists_of_mapM_ok {α β ε : Type} {f : α → Except ε β} : ∀ {xs : List α} {ys : List β},
    xs.mapM f = .ok ys → ∀ x ∈ xs, ∃ y, f x = .ok y
  | [], _, _, x, hx => by cases hx
  | z :: zs, ys, h, x, hx => by
    rw [List.mapM_cons] at h
    obtain ⟨y, hy, h⟩ := bind_ok h
    obtain ⟨ys', hys, -⟩ := bind_ok h
    rcases List.mem_cons.mp hx with rfl | hx
    · exact ⟨y, hy⟩
    · exact exists_of_mapM_ok hys x hx

/-- **Assembling succeeds** just when the labels are nodes of the listing. -/
theorem Linked.inner_of_assemble {cs : List (Instr Nat)} (hl : Linked l code)
    (h : l.assemble = .ok cs) : Inner code := by
  intro a i b ha hb
  rw [assemble, hl.entries_eq, hl.toList_eq] at h
  obtain ⟨j, hj⟩ := exists_of_mapM_ok h (a, i) ha
  by_contra hmem
  have hpos : ∃ e, l.position (ids code) b = .error e := by
    unfold position
    split_ifs
    · exact ⟨_, rfl⟩
    · rw [List.idxOf?_eq_none_iff.mpr hmem]
      exact ⟨_, rfl⟩
  obtain ⟨e, hpos⟩ := hpos
  simp [resolve, hb, hpos, Except.map] at hj

/-- **Assembling a listing preserves its control flow.** It fails just when a label is no node of the
listing. Otherwise the places are the nodes in order, and labels are the places of their targets. From
the place of an instruction that is not terminal the machine goes exactly to the places of the
successors of its node, which are places of the code; a branch goes to the first of them when its test
is truthy, and to the second when it is not. -/
theorem Built.assemble_flows (hb : Built l) (htail : l.get tail = .ok .done) :
    ((∃ e, l.assemble = .error e) ↔
      ∃ a i b, (a, i) ∈ l.entries ∧ i.label? = some b ∧ b ∉ l.toList) ∧
    ∀ code, l.assemble = .ok code → code.length = l.toList.length ∧
      ∀ pc a, l.toList[pc]? = some a → ∃ i next, l.get a = .ok i ∧ l.successors a = .ok next ∧
        code[pc]? = some (i.relabel l.toList.idxOf) ∧
        (∀ b ∈ next, l.toList[l.toList.idxOf b]? = some b) ∧
        (i.isTerminal = false → Flows code.toArray pc (next.map l.toList.idxOf)) ∧
        ∀ c no, i = .branch c no → ∃ yes, next = [yes, no] ∧
          ∀ (p : Program) (limit : Nat) (s : Running) (v : Value), s.IsAt p code.toArray pc →
            s.cur.read c = .ok v →
              s.step p limit = .ok (s.goto (l.toList.idxOf (if v.truthy then yes else no))) := by
  obtain ⟨nodes, hl⟩ := hb.linked
  have hends : Ends nodes := hl.ends htail
  rw [hl.entries_eq, hl.toList_eq]
  refine ⟨⟨?_, ?_⟩, fun code hcode => ?_⟩
  · rintro ⟨e, he⟩
    by_contra hnone
    have hin : Inner nodes := fun a i b ha hb => by
      by_contra hmem
      exact hnone ⟨a, i, b, ha, hb, hmem⟩
    rw [hl.assemble_eq hin] at he
    cases he
  · rintro ⟨a, i, b, ha, hb, hmem⟩
    cases h : l.assemble with
    | error e => exact ⟨e, rfl⟩
    | ok cs => exact absurd (hl.inner_of_assemble h a i b ha hb) hmem
  · have hin := hl.inner_of_assemble hcode
    rw [hl.assemble_eq hin] at hcode
    obtain rfl := Except.ok.inj hcode
    refine ⟨by simp [layout, ids], fun pc a ha => ?_⟩
    rw [ids, List.getElem?_map] at ha
    obtain ⟨⟨a, i⟩, hi, rfl⟩ := Option.map_eq_some_iff.mp ha
    obtain ⟨xs, ys, e, rfl⟩ := split_of_getElem? hi
    have hl' : Linked l (xs ++ (a, i) :: ys) := e ▸ hl
    have hplace : (layout nodes)[xs.length]? = some (i.relabel (ids nodes).idxOf) := by
      rw [getElem?_layout, hi]
      rfl
    refine ⟨i, targets i (firstId ys none), hl'.get_eq (by simp), hl'.successors_eq, ?_, fun b hb => ?_,
      fun hterm => ?_, ?_⟩
    · simpa using hplace
    · have hmem : b ∈ ids nodes := by
        rw [e] at hin ⊢
        exact targets_mem (fun c hc => hin a i c (by simp) hc) hb
      rw [List.getElem?_eq_getElem (List.idxOf_lt_length_of_mem hmem), List.getElem_idxOf]
    · obtain ⟨b, hb⟩ := hends.firstId e hterm
      rw [Array.toArray_toList, ← exits_relabel hl.nodup e hb hterm]
      exact flows_exits hplace ((Instr.isTerminal_relabel _ _).trans hterm)
    · rintro c no rfl
      obtain ⟨yes, hyes⟩ := hends.firstId e rfl
      refine ⟨yes, by rw [hyes]; rfl, fun p limit s v hat hv => ?_⟩
      rw [Array.toArray_toList] at hat
      rw [Running.step_branch (hat.fetch hplace) hv, hat.2, apply_ite (ids nodes).idxOf,
        idxOf_firstId hl.nodup e hyes]

/-- A unit that runs round and round until a register is not truthy. The branch has been put in front
of the jump that leads back to it. -/
def looping (no : NodeId) : Listing where
  nodes := #[some ⟨.nop, none, some ⟨3⟩⟩, some ⟨.done, some ⟨2⟩, none⟩,
    some ⟨.jump ⟨3⟩, some ⟨3⟩, some tail⟩, some ⟨.branch ⟨0⟩ no, some head, some ⟨2⟩⟩]
  free := []
  cursor := tail
  regs := #[]

theorem built_looping (no : NodeId) : Built (looping no) :=
  (Built.empty.append (i := .jump ⟨3⟩) rfl).prepend (i := .branch ⟨0⟩ no) rfl

/-- The branch goes on to the jump or to the end, and the jump back to the branch. Where the branch
leads nowhere, the unit cannot be assembled. -/
theorem assemble_looping : (looping tail).assemble = .ok [.nop, .branch ⟨0⟩ 3, .jump 1, .done] ∧
    Flows #[.nop, .branch ⟨0⟩ 3, .jump 1, .done] 1 [2, 3] ∧
    Flows #[.nop, .branch ⟨0⟩ 3, .jump 1, .done] 2 [1] ∧
    ∃ e, (looping ⟨4⟩).assemble = .error e := by
  have hcode : (looping tail).assemble = .ok [.nop, .branch ⟨0⟩ 3, .jump 1, .done] := rfl
  obtain ⟨-, hplaces⟩ := ((built_looping tail).assemble_flows rfl).2 _ hcode
  refine ⟨hcode, ?_, ?_, ((built_looping ⟨4⟩).assemble_flows rfl).1.mpr ?_⟩
  · obtain ⟨i, next, hi, hnext, -, -, hflows, -⟩ := hplaces 1 ⟨3⟩ rfl
    cases hi
    cases hnext
    exact hflows rfl
  · obtain ⟨i, next, hi, hnext, -, -, hflows, -⟩ := hplaces 2 ⟨2⟩ rfl
    cases hi
    cases hnext
    exact hflows rfl
  · exact ⟨⟨3⟩, .branch ⟨0⟩ ⟨4⟩, ⟨4⟩, by decide, rfl, by decide⟩

end Listing

end CountedMachine
