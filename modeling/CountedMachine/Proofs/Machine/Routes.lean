import CountedMachine.Proofs.Generation.Layout
import CountedMachine.Proofs.Matching.Reference

/-! # Routes through code

Code that has been drafted can be followed on the machine before ownership instructions are put in
place: laid out as it is, it makes the same tests and reads the same fields, and it frees nothing.
A `Stage` is a machine whose current unit has such code, and a `Route` lists the states that the
machine goes through. `Stage.Goes` says that control gets from one place of the code to another, with
the fields read on the way and a condition on the places that are passed.

Places are given by the code that is left: the machine is `S.spot xs m` where `xs`, the last part of
the code, begins. There is one rule for each instruction. -/

namespace CountedMachine

open Listing

namespace Running

/-- The field that the next step reads: of which value, and which one. -/
def load? (p : Program) (s : Running) : Option (Value × Nat) :=
  match s.fetch p with
  | .ok (.field _ src idx) => (s.cur.read src).toOption.map (·, idx)
  | _ => none

/-- **A route** from one state to another; the states from which the steps are made are listed. -/
inductive Route (p : Program) (limit : Nat) : Running → List Running → Running → Prop
  | done (s : Running) : Route p limit s [] s
  | step {s s₁ s₂ : Running} {ss : List Running} : s.step p limit = .ok (.more s₁) →
      Route p limit s₁ ss s₂ → Route p limit s (s :: ss) s₂

theorem Route.trans {p : Program} {limit : Nat} {s s₁ s₂ : Running} {ss ts : List Running}
    (h : Route p limit s ss s₁) (h' : Route p limit s₁ ts s₂) : Route p limit s (ss ++ ts) s₂ := by
  induction h with
  | done s => exact h'
  | step e _ ih => exact .step e (ih h')

end Running

/-- What code that calls nothing changes: the heap and the registers. -/
structure Memory where
  heap : Heap
  regs : Array Value

namespace Memory

/-- The value in a register. -/
def reg? (m : Memory) (r : Reg) : Option Value := m.regs[r.index]?

/-- The memory with another value in a register. -/
def set (m : Memory) (r : Reg) (v : Value) : Memory :=
  { m with regs := m.regs.setIfInBounds r.index v }

/-- The memory with another heap. -/
def withHeap (m : Memory) (h : Heap) : Memory := { m with heap := h }

variable {m : Memory} {q r : Reg} {v : Value}

@[simp] theorem heap_set (m : Memory) (r : Reg) (v : Value) : (m.set r v).heap = m.heap := rfl

@[simp] theorem size_set (m : Memory) (r : Reg) (v : Value) :
    (m.set r v).regs.size = m.regs.size := by
  simp [set]

@[simp] theorem heap_withHeap (m : Memory) (h : Heap) : (m.withHeap h).heap = h := rfl

@[simp] theorem regs_withHeap (m : Memory) (h : Heap) : (m.withHeap h).regs = m.regs := rfl

@[simp] theorem reg?_withHeap (m : Memory) (h : Heap) (r : Reg) :
    (m.withHeap h).reg? r = m.reg? r := rfl

theorem reg?_set_self (hr : r.index < m.regs.size) : (m.set r v).reg? r = some v := by
  simp [reg?, set, hr]

theorem reg?_set_ne (hq : q ≠ r) : (m.set r v).reg? q = m.reg? q := by
  obtain ⟨q⟩ := q
  obtain ⟨r⟩ := r
  have hne : r ≠ q := fun e => hq (by rw [e])
  simp [reg?, set, hne]

end Memory

/-- **A machine whose current unit has the code.** -/
structure Stage where
  program : Program
  limit : Nat
  code : Code
  start : Running
  nodup : (ids code).Nodup
  hosts : ∃ u, program.unit start.cur.unit = .ok u ∧ u.code = layout code

namespace Stage

variable (S : Stage)

/-- The place where the last part of the code begins. -/
def place (xs : Code) : Nat := S.code.length - xs.length

/-- The machine where the last part of the code begins. -/
def spot (xs : Code) (m : Memory) : Running :=
  ⟨⟨m.heap, S.start.machine.consts, S.start.machine.stack, S.start.machine.stats⟩, S.start.callers,
    { S.start.cur with pc := S.place xs, regs := m.regs }⟩

/-- **Control gets from where `xs` begins to where `ys` begins**, along places in `A`, and the fields
`ls` are read on the way. -/
def Goes (A : Nat → Prop) (xs : Code) (m : Memory) (ls : List (Value × Nat)) (ys : Code)
    (m' : Memory) : Prop :=
  ∃ ss, Running.Route S.program S.limit (S.spot xs m) ss (S.spot ys m') ∧
    ss.filterMap (Running.load? S.program) = ls ∧ ∀ s ∈ ss, A s.cur.pc

variable {S} {A B : Nat → Prop} {pre pre' xs ys zs : Code} {a n : NodeId} {i k : Instr NodeId}
  {m m' m₁ : Memory} {ls ls' : List (Value × Nat)} {dst src : Reg} {v : Value} {ty : ObjType}

theorem Goes.refl (S : Stage) (A : Nat → Prop) (xs : Code) (m : Memory) : S.Goes A xs m [] xs m :=
  ⟨[], .done _, rfl, by simp⟩

theorem Goes.trans (h : S.Goes A xs m ls ys m₁) (h' : S.Goes A ys m₁ ls' zs m') :
    S.Goes A xs m (ls ++ ls') zs m' := by
  obtain ⟨ss, hroute, hls, hA⟩ := h
  obtain ⟨ts, hroute', hls', hA'⟩ := h'
  refine ⟨ss ++ ts, hroute.trans hroute', by rw [List.filterMap_append, hls, hls'], fun s hs => ?_⟩
  exact (List.mem_append.mp hs).elim (hA s) (hA' s)

/-! ## Places -/

theorem place_eq (h : S.code = pre ++ xs) : S.place xs = pre.length := by
  rw [place, h]
  simp

theorem idxOf_eq (h : S.code = pre ++ (n, k) :: ys) :
    (ids S.code).idxOf n = S.place ((n, k) :: ys) := by
  rw [S.place_eq h]
  have hnd := S.nodup
  rw [h] at hnd ⊢
  rw [ids_append, ids_cons, List.idxOf_append_of_notMem, List.idxOf_cons_self, Nat.add_zero]
  · simp [ids]
  · intro hmem
    rw [ids_append, ids_cons, List.nodup_append] at hnd
    exact hnd.2.2 n hmem n (by simp) rfl

theorem fetch_eq (h : S.code = pre ++ (a, i) :: xs) :
    (S.spot ((a, i) :: xs) m).fetch S.program = .ok (i.relabel (ids S.code).idxOf) := by
  obtain ⟨u, hu, hcode⟩ := S.hosts
  have hget : (layout S.code)[S.place ((a, i) :: xs)]? = some (i.relabel (ids S.code).idxOf) := by
    rw [getElem?_layout, S.place_eq h, h]
    simp
  have hu' : S.program.unit (S.spot ((a, i) :: xs) m).cur.unit = .ok u := hu
  rw [Running.fetch, hu']
  simp only [bind, Except.bind, hcode]
  rw [show (S.spot ((a, i) :: xs) m).cur.pc = S.place ((a, i) :: xs) from rfl, hget]
  rfl

theorem advance_eq (h : S.code = pre ++ (a, i) :: xs) :
    (S.spot ((a, i) :: xs) m).advance = S.spot xs m := by
  have hpc : S.place ((a, i) :: xs) + 1 = S.place xs := by
    rw [S.place_eq h, S.place_eq (show S.code = (pre ++ [(a, i)]) ++ xs by rw [h]; simp)]
    simp
  simp only [Running.advance, Stage.spot, hpc]

theorem step_eq (h : S.code = pre ++ (a, i) :: xs) : (S.spot ((a, i) :: xs) m).step S.program S.limit =
    (S.spot xs m).exec S.program S.limit (i.relabel (ids S.code).idxOf) := by
  rw [Running.step, fetch_eq h]
  exact congrArg (Running.exec _ _ _) (advance_eq h)

theorem goto_eq (h : S.code = pre ++ (n, k) :: ys) (xs : Code) (m : Memory) :
    (S.spot xs m).goto ((ids S.code).idxOf n) = .more (S.spot ((n, k) :: ys) m) := by
  rw [idxOf_eq h]
  rfl

/-- One step that reads no field. -/
theorem goes_of_exec (h : S.code = pre ++ (a, i) :: xs) (hA : A pre.length)
    (hi : ∀ dst src idx, i ≠ .field dst src idx)
    (e : (S.spot xs m).exec S.program S.limit (i.relabel (ids S.code).idxOf) = .ok (.more (S.spot ys m'))) :
    S.Goes A ((a, i) :: xs) m [] ys m' := by
  refine ⟨[S.spot ((a, i) :: xs) m], .step ((step_eq h).trans e) (.done _), ?_, fun s hs => ?_⟩
  · have hload : (S.spot ((a, i) :: xs) m).load? S.program = none := by
      rw [Running.load?, fetch_eq h]
      cases i <;> first | rfl | exact absurd rfl (hi _ _ _)
    simp [hload]
  · obtain rfl := List.mem_singleton.mp hs
    rwa [show (S.spot ((a, i) :: xs) m).cur.pc = S.place _ from rfl, S.place_eq h]

/-! ## Registers -/

theorem read_eq (h : m.reg? src = some v) : (S.spot xs m).cur.read src = .ok v := by
  have h' : (S.spot xs m).cur.regs[src.index]? = some v := h
  rw [Frame.read, h']

theorem store_eq (h : dst.index < m.regs.size) (v : Value) :
    (S.spot xs m).store dst v = .ok (.more (S.spot xs (m.set dst v))) := by
  simp only [Running.store, Running.write, Stage.spot, Frame.write, h, if_true, bind, Except.bind]
  rfl

theorem storeFrom_eq {f : Heap → Except Fault (Heap × Value)} {h' : Heap}
    (h : dst.index < m.regs.size) (hf : f m.heap = .ok (h', v)) :
    (S.spot xs m).storeFrom f dst = .ok (.more (S.spot xs ((m.withHeap h').set dst v))) := by
  simp only [Running.storeFrom, Stage.spot, hf, Frame.write, h, if_true, bind, Except.bind]
  rfl

/-! ## One rule for each instruction -/

section
variable (hA : A pre.length)
include hA

theorem goes_nop (h : S.code = pre ++ (a, Instr.nop) :: xs) : S.Goes A ((a, Instr.nop) :: xs) m [] xs m :=
  goes_of_exec h hA (by simp) rfl

theorem goes_merge (h : S.code = pre ++ (a, Instr.merge dst) :: xs) :
    S.Goes A ((a, Instr.merge dst) :: xs) m [] xs m :=
  goes_of_exec h hA (by simp) rfl

theorem goes_jump (h : S.code = pre ++ (a, Instr.jump n) :: xs) (hn : S.code = pre' ++ (n, k) :: ys) :
    S.Goes A ((a, Instr.jump n) :: xs) m [] ((n, k) :: ys) m :=
  goes_of_exec h hA (by simp) (congrArg Except.ok (goto_eq hn xs m))

theorem goes_branch_yes (h : S.code = pre ++ (a, Instr.branch src n) :: xs)
    (hv : m.reg? src = some (.bool true)) : S.Goes A ((a, Instr.branch src n) :: xs) m [] xs m := by
  refine goes_of_exec h hA (by simp) ?_
  simp only [Running.exec, Instr.relabel, read_eq hv, bind, Except.bind]
  rfl

theorem goes_branch_no (h : S.code = pre ++ (a, Instr.branch src n) :: xs)
    (hv : m.reg? src = some (.bool false)) (hn : S.code = pre' ++ (n, k) :: ys) :
    S.Goes A ((a, Instr.branch src n) :: xs) m [] ((n, k) :: ys) m := by
  refine goes_of_exec h hA (by simp) ?_
  simp only [Running.exec, Instr.relabel, read_eq hv, bind, Except.bind]
  exact congrArg Except.ok (goto_eq hn xs m)

theorem goes_flag (h : S.code = pre ++ (a, Instr.flag dst b) :: xs) (hd : dst.index < m.regs.size) :
    S.Goes A ((a, Instr.flag dst b) :: xs) m [] xs (m.set dst (.bool b)) :=
  goes_of_exec h hA (by simp) (store_eq hd _)

theorem goes_testType (h : S.code = pre ++ (a, .testType dst src ty) :: xs)
    (hd : dst.index < m.regs.size) (hv : m.reg? src = some v) (hl : m.heap.Live v) :
    S.Goes A ((a, .testType dst src ty) :: xs) m [] xs
      (m.set dst (.bool (m.heap.typeOf v = some (.obj ty)))) := by
  refine goes_of_exec h hA (by simp) ?_
  simp only [Running.exec, Instr.relabel, read_eq hv, bind, Except.bind]
  rw [show (S.spot xs m).machine.heap = m.heap from rfl, Heap.isOfType_eq hl]
  exact store_eq hd _

theorem goes_guard (h : S.code = pre ++ (a, .guard src ty) :: xs) (hv : m.reg? src = some v)
    (hl : m.heap.Live v) (ht : m.heap.typeOf v = some (.obj ty)) :
    S.Goes A ((a, .guard src ty) :: xs) m [] xs m := by
  refine goes_of_exec h hA (by simp) ?_
  simp only [Running.exec, Instr.relabel, Running.guard, read_eq hv, bind, Except.bind]
  rw [show (S.spot xs m).machine.heap = m.heap from rfl, Heap.isOfType_eq hl]
  simp only [ht, decide_true, if_true]
  rfl

theorem goes_move {h' : Heap} (h : S.code = pre ++ (a, Instr.move dst src) :: xs)
    (hd : dst.index < m.regs.size) (hv : m.reg? src = some v) (hinc : m.heap.inc v = .ok h') :
    S.Goes A ((a, Instr.move dst src) :: xs) m [] xs ((m.withHeap h').set dst v) := by
  refine goes_of_exec h hA (by simp) ?_
  simp only [Running.exec, Instr.relabel, read_eq hv, bind, Except.bind]
  simp only [Running.overHeap, Machine.overHeap, Stage.spot, hinc, bind, Except.bind, pure, Except.pure]
  exact store_eq (m := m.withHeap h') hd v

theorem goes_field {h' : Heap} {w : Value} {idx : Nat} (h : S.code = pre ++ (a, .field dst src idx) :: xs)
    (hd : dst.index < m.regs.size) (hv : m.reg? src = some v) (hw : m.heap.field v idx = .ok (h', w)) :
    S.Goes A ((a, .field dst src idx) :: xs) m [(v, idx)] xs ((m.withHeap h').set dst w) := by
  have e : (S.spot xs m).exec S.program S.limit (.field dst src idx) =
      .ok (.more (S.spot xs ((m.withHeap h').set dst w))) := by
    simp only [Running.exec, read_eq hv, bind, Except.bind]
    exact storeFrom_eq hd hw
  refine ⟨[S.spot ((a, .field dst src idx) :: xs) m], .step ((step_eq h).trans e) (.done _), ?_,
    fun s hs => ?_⟩
  · have hload : (S.spot ((a, .field dst src idx) :: xs) m).load? S.program = some (v, idx) := by
      rw [Running.load?, fetch_eq h]
      simp only [Instr.relabel, read_eq hv, Except.toOption, Option.map_some]
    simp [hload]
  · obtain rfl := List.mem_singleton.mp hs
    rwa [show (S.spot ((a, .field dst src idx) :: xs) m).cur.pc = S.place _ from rfl, S.place_eq h]

/-! ### A test and a branch on its outcome -/

section
variable {b : NodeId} (hB : A (pre.length + 1)) (hd : dst.index < m.regs.size)
  (h : S.code = pre ++ (a, .testType dst src ty) :: (b, Instr.branch dst n) :: xs) (hv : m.reg? src = some v)
  (hl : m.heap.Live v)
include hB hd h hv hl

theorem goes_tested_yes (ht : m.heap.typeOf v = some (.obj ty)) :
    S.Goes A ((a, .testType dst src ty) :: (b, Instr.branch dst n) :: xs) m [] xs (m.set dst (.bool true)) := by
  have htest := goes_testType hA h hd hv hl
  simp only [ht, decide_true] at htest
  have hcode : S.code = (pre ++ [(a, .testType dst src ty)]) ++ (b, Instr.branch dst n) :: xs := by
    rw [h]
    simp
  exact htest.trans (goes_branch_yes (by simpa using hB) hcode (Memory.reg?_set_self hd))

theorem goes_tested_no (ht : m.heap.typeOf v ≠ some (.obj ty)) (hn : S.code = pre' ++ (n, k) :: ys) :
    S.Goes A ((a, .testType dst src ty) :: (b, Instr.branch dst n) :: xs) m [] ((n, k) :: ys)
      (m.set dst (.bool false)) := by
  have htest := goes_testType hA h hd hv hl
  simp only [ht, decide_false] at htest
  have hcode : S.code = (pre ++ [(a, .testType dst src ty)]) ++ (b, Instr.branch dst n) :: xs := by
    rw [h]
    simp
  exact htest.trans (goes_branch_no (by simpa using hB) hcode (Memory.reg?_set_self hd) hn)

end

end

/-- **A guard on a value of another type** ends the run, and says which value it was. -/
theorem guard_fails (h : S.code = pre ++ (a, .guard src ty) :: xs) (hv : m.reg? src = some v)
    (hl : m.heap.Live v) (ht : m.heap.typeOf v ≠ some (.obj ty)) :
    ∃ f, (S.spot ((a, .guard src ty) :: xs) m).step S.program S.limit = .error f ∧
      ∀ text, m.heap.display S.program.types v = .ok text →
        f = .guardFailed S.start.cur.unit ty text := by
  rw [step_eq h]
  simp only [Running.exec, Instr.relabel, Running.guard, read_eq hv, bind, Except.bind]
  rw [show (S.spot xs m).machine.heap = m.heap from rfl, Heap.isOfType_eq hl]
  simp only [ht, decide_false, Bool.false_eq_true, if_false]
  cases e : m.heap.display S.program.types v with
  | error f => exact ⟨f, rfl, fun text ht => by cases ht⟩
  | ok text => exact ⟨_, rfl, fun text' ht => by rw [Except.ok.inj ht]; rfl⟩

end Stage

end CountedMachine
