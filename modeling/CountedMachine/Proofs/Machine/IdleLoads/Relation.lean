import CountedMachine.Machine.Host
import CountedMachine.Proofs.Code.Tidied
import CountedMachine.Proofs.Heap.SameButEstimates
import CountedMachine.Proofs.Machine.Calls

/-! # Machines without idle loads

A machine at work on a program is compared with one at work on the tidied program (`Running.TidiedTo`): the frames stand
at places that belong together and agree on all registers but the idle ones, and the heaps differ in estimates only. An
instruction that both programs have, and that both carry out, leaves them so
(`Running.TidiedTo.exec`).

When a frame returns to its caller, the value it returns has yet to report in both heaps. -/

namespace CountedMachine

open Heap

/-! ## Computations side by side -/

/-- **What holds of the results when both computations go well.** -/
def Concur {α β : Type} (R : α → β → Prop) (x : Except Fault α) (y : Except Fault β) : Prop :=
  ∀ a b, x = .ok a → y = .ok b → R a b

namespace Concur

variable {α β γ δ : Type} {R : α → β → Prop} {S : γ → δ → Prop} {x : Except Fault α} {y : Except Fault β}
  {a : α} {b : β}

theorem ok (h : R a b) : Concur R (.ok a) (.ok b) := by
  intro a' b' ha hb
  obtain rfl := Except.ok.inj ha
  obtain rfl := Except.ok.inj hb
  exact h

theorem error (f : Fault) : Concur R (.error f : Except Fault α) y := fun _ _ h => nomatch h

theorem bind {f : α → Except Fault γ} {g : β → Except Fault δ} (hx : Concur R x y)
    (hf : ∀ {a b}, R a b → Concur S (f a) (g b)) : Concur S (x >>= f) (y >>= g) := by
  intro c d hc hd
  obtain ⟨a, ha, hc⟩ := bind_ok hc
  obtain ⟨b, hb, hd⟩ := bind_ok hd
  exact hf (hx a b ha hb) c d hc hd

/-- The results are those of the computations. -/
theorem knowing (hx : Concur R x y) : Concur (fun a b => R a b ∧ x = .ok a) x y :=
  fun a b ha hb => ⟨hx a b ha hb, ha⟩

/-- The first step is the same. -/
theorem bind_same {x y : Except Fault α} {f : α → Except Fault γ} {g : α → Except Fault δ} (hx : y = x)
    (hf : ∀ a, x = .ok a → Concur S (f a) (g a)) : Concur S (x >>= f) (y >>= g) := by
  subst hx
  intro c d hc hd
  obtain ⟨a, ha, hc⟩ := bind_ok hc
  obtain ⟨a', ha', hd⟩ := bind_ok hd
  obtain rfl := Except.ok.inj (ha.symm.trans ha')
  exact hf a ha c d hc hd

end Concur

/-! ## The program -/

namespace Program

variable (p : Program) (isNil : Nat → ConstId → Bool) (id : UnitId)

/-- The registers of a unit that are loaded without effect. -/
def idle : List Reg := idleRegs (isNil id.index) (p.codeOf id).toList

/-- Where a place of a unit has gone. -/
def place : Nat → Nat := placeIn (·.spares (p.idle isNil id)) (p.codeOf id).toList

theorem units_tidied : (p.tidied isNil).units[id.index]? =
    p.units[id.index]?.map (CodeUnit.tidied (isNil id.index)) := by
  simp [tidied]

theorem codeOf_tidied : (p.tidied isNil).codeOf id =
    (thin (·.spares (p.idle isNil id)) (p.codeOf id).toList).toArray := by
  unfold idle
  rw [codeOf, codeOf, units_tidied]
  cases p.units[id.index]? <;> rfl

theorem unit_tidied : (p.tidied isNil).unit id = tell (CodeUnit.tidied (isNil id.index)) (p.unit id) := by
  rw [unit, unit, units_tidied]
  cases p.units[id.index]? <;> rfl

variable {p isNil id}

theorem resolveCall_tidied {h k : Heap} (e : k.slots = h.slots) (v : Value) (n : Nat) :
    (p.tidied isNil).resolveCall k v n = p.resolveCall h v n := by
  have hclosure : k.closure? v = h.closure? v := by
    cases v with
    | obj r => rw [closure?, closure?, Heap.get, Heap.get, Heap.slot, Heap.slot, Heap.slot?, Heap.slot?, e]
    | _ => rfl
  rw [resolveCall, resolveCall, hclosure]
  rcases h.closure? v with e | _ | c
  · rfl
  · rfl
  · simp only [bind, Except.bind, p.unit_tidied]
    cases p.unit c.unit <;> rfl

end Program

/-! ## Machines and machines without idle loads -/

/-- **A frame and the one of the tidied program.** -/
structure Frame.TidiedTo (p : Program) (isNil : Nat → ConstId → Bool) (f f' : Frame) : Prop where
  same : f' = { f with pc := p.place isNil f.unit f.pc, regs := f'.regs }
  size : f'.regs.size = f.regs.size
  regs : ∀ {r : Reg}, r ∉ p.idle isNil f.unit → f'.regs[r.index]? = f.regs[r.index]?

/-- **Machines of both programs**; `due` are the objects that have yet to report. -/
structure Machine.TidiedTo (due : List ObjId) (m m' : Machine) : Prop where
  heap : SameButEstimates due m.heap m'.heap
  consts : m'.consts = m.consts
  stack : m'.stack = m.stack
  stats : m'.stats = m.stats

/-- Chains of frames of both programs. -/
structure FramesTidiedTo (p : Program) (isNil : Nat → ConstId → Bool) (fs fs' : Array Frame) : Prop where
  size : fs'.size = fs.size
  frame : ∀ {i : Nat} {f f' : Frame}, fs[i]? = some f → fs'[i]? = some f' → f.TidiedTo p isNil f'

/-- **A machine at work and one at work on the tidied program.** -/
structure Running.TidiedTo (p : Program) (isNil : Nat → ConstId → Bool) (due : List ObjId) (s s' : Running) :
    Prop where
  machine : s.machine.TidiedTo due s'.machine
  callers : FramesTidiedTo p isNil s.callers s'.callers
  cur : s.cur.TidiedTo p isNil s'.cur

/-- What running comes to, on both sides. -/
inductive Outcome.TidiedTo (p : Program) (isNil : Nat → ConstId → Bool) : Outcome → Outcome → Prop
  | returned (v : Value) : TidiedTo p isNil (.returned v) (.returned v)
  | yielded (v : Value) {s s' : Suspension} : FramesTidiedTo p isNil s.frames s'.frames →
    TidiedTo p isNil (.yielded v s) (.yielded v s')

/-- The value that a frame has just returned to its caller has yet to report. -/
def Running.Returned (s s₁ : Running) (due : List ObjId) : Prop :=
  ∃ caller dst x, s.callers.back? = some caller ∧ s.cur.ret = some dst ∧ s₁.cur.unit = caller.unit ∧
    s₁.cur.pc = caller.pc ∧ s₁.cur.read dst = .ok (.obj x) ∧ due = [x]

/-- **What a step from `s` leaves behind on both sides.** -/
inductive Progress.TidiedTo (p : Program) (isNil : Nat → ConstId → Bool) (s : Running) :
    Progress → Progress → Prop
  | more {s₁ s₁' : Running} {due : List ObjId} : s₁.TidiedTo p isNil due s₁' →
    (due = [] ∨ s.Returned s₁ due) → TidiedTo p isNil s (.more s₁) (.more s₁')
  | stop {m m' : Machine} {o o' : Outcome} : m.TidiedTo [] m' → o.TidiedTo p isNil o' →
    TidiedTo p isNil s (.stop m o) (.stop m' o')

section
variable {p : Program} {isNil : Nat → ConstId → Bool}

namespace Frame.TidiedTo

variable {f f' : Frame} {r : Reg} {v : Value}

theorem unit (hf : f.TidiedTo p isNil f') : f'.unit = f.unit := by rw [hf.same]

theorem args (hf : f.TidiedTo p isNil f') : f'.args = f.args := by rw [hf.same]

theorem closure (hf : f.TidiedTo p isNil f') : f'.closure = f.closure := by rw [hf.same]

theorem ret (hf : f.TidiedTo p isNil f') : f'.ret = f.ret := by rw [hf.same]

theorem scopes (hf : f.TidiedTo p isNil f') : f'.scopes = f.scopes := by rw [hf.same]

theorem pc (hf : f.TidiedTo p isNil f') : f'.pc = p.place isNil f.unit f.pc := by rw [hf.same]

theorem read (hf : f.TidiedTo p isNil f') (hr : r ∉ p.idle isNil f.unit) : f'.read r = f.read r := by
  rw [Frame.read, Frame.read, hf.regs hr]

theorem readAll (hf : f.TidiedTo p isNil f') : ∀ {rs : List Reg}, (∀ r ∈ rs, r ∉ p.idle isNil f.unit) →
    f'.readAll rs = f.readAll rs
  | [], _ => rfl
  | r :: rs, hrs => by
    have ih : f'.readAll rs = f.readAll rs := readAll hf fun q hq => hrs q (by simp [hq])
    simp only [Frame.readAll] at ih
    simp only [Frame.readAll, List.mapM_cons, hf.read (hrs r (by simp)), ih]

/-- Registers that are written in both frames agree afterwards. -/
theorem set (hf : f.TidiedTo p isNil f') (r : Reg) (v : Value) :
    Frame.TidiedTo p isNil { f with regs := f.regs.setIfInBounds r.index v }
      { f' with regs := f'.regs.setIfInBounds r.index v } := by
  refine ⟨?_, by simp [hf.size], fun {q} hq => ?_⟩
  · rw [hf.same]
  · have := hf.regs hq
    simp only [Array.getElem?_setIfInBounds, hf.size, this]

/-- Idle registers are written in one frame. -/
theorem set_idle (hf : f.TidiedTo p isNil f') (hr : r ∈ p.idle isNil f.unit) (v : Value) :
    Frame.TidiedTo p isNil { f with regs := f.regs.setIfInBounds r.index v } f' := by
  refine ⟨?_, by simp [hf.size], fun {q} hq => ?_⟩
  · rw [hf.same]
  · have hne : r.index ≠ q.index := fun e => by
      obtain ⟨r⟩ := r
      obtain ⟨q⟩ := q
      cases e
      exact hq hr
    rw [hf.regs hq, Array.getElem?_setIfInBounds_ne hne]

theorem write (hf : f.TidiedTo p isNil f') (r : Reg) (v : Value) :
    Concur (fun g g' => g.TidiedTo p isNil g' ∧ g = { f with regs := f.regs.setIfInBounds r.index v } ∧
      r.index < f.regs.size) (f.write r v) (f'.write r v) := by
  rw [Frame.write, Frame.write, hf.size]
  split_ifs with h
  · exact .ok ⟨hf.set r v, rfl, h⟩
  · exact .error _

theorem goto (hf : f.TidiedTo p isNil f') (pc : Nat) :
    Frame.TidiedTo p isNil { f with pc := pc } { f' with pc := p.place isNil f.unit pc } := by
  refine ⟨?_, hf.size, hf.regs⟩
  rw [hf.same]

theorem enclose (hf : f.TidiedTo p isNil f') (gs : List ScopeId) :
    Frame.TidiedTo p isNil { f with scopes := gs } { f' with scopes := gs } := by
  refine ⟨?_, hf.size, hf.regs⟩
  rw [hf.same]

end Frame.TidiedTo

namespace FramesTidiedTo

variable {fs fs' : Array Frame} {f f' : Frame}

theorem empty : FramesTidiedTo p isNil #[] #[] := ⟨rfl, fun h => by simp at h⟩

theorem push (h : FramesTidiedTo p isNil fs fs') (hf : f.TidiedTo p isNil f') :
    FramesTidiedTo p isNil (fs.push f) (fs'.push f') := by
  refine ⟨by simp [h.size], fun {i g g'} hg hg' => ?_⟩
  rw [Array.getElem?_push] at hg hg'
  rw [h.size] at hg'
  split_ifs at hg hg' with e
  · obtain rfl := Option.some.inj hg
    obtain rfl := Option.some.inj hg'
    exact hf
  · exact h.frame hg hg'

theorem pop (h : FramesTidiedTo p isNil fs fs') : FramesTidiedTo p isNil fs.pop fs'.pop := by
  refine ⟨by simp [h.size], fun {i g g'} hg hg' => ?_⟩
  rw [Array.getElem?_pop] at hg hg'
  split_ifs at hg hg'
  exact h.frame hg hg'

theorem back_none (h : FramesTidiedTo p isNil fs fs') (hb : fs.back? = none) : fs'.back? = none := by
  have h0 : fs.size = 0 := by simpa using hb
  simpa using h.size.trans h0

theorem back_some (h : FramesTidiedTo p isNil fs fs') (hb : fs.back? = some f) :
    ∃ f', fs'.back? = some f' ∧ f.TidiedTo p isNil f' := by
  rw [Array.back?] at hb
  have hlt : fs.size - 1 < fs'.size := h.size ▸ (Array.getElem?_eq_some_iff.mp hb).1
  refine ⟨fs'[fs.size - 1], ?_, h.frame hb (Array.getElem?_eq_getElem hlt)⟩
  rw [Array.back?, h.size, Array.getElem?_eq_getElem hlt]

end FramesTidiedTo

theorem Program.frame_tidiedTo (id : UnitId) (args : List Value) (closure : Option Value) (ret : Option Reg) :
    Concur (Frame.TidiedTo p isNil) (p.frame id args closure ret)
      ((p.tidied isNil).frame id args closure ret) := by
  rw [Program.frame, Program.frame, p.unit_tidied]
  cases p.unit id with
  | error f => exact .error f
  | ok u => exact .ok ⟨rfl, rfl, fun _ => rfl⟩

namespace Machine.TidiedTo

variable {m m' : Machine} {due due' : List ObjId} {op : Heap → Except Fault Heap}

theorem slots (hm : m.TidiedTo due m') : m'.heap.slots = m.heap.slots := hm.heap.slots

theorem overHeap (hm : m.TidiedTo due m') (hop : Concur (SameButEstimates due') (op m.heap) (op m'.heap)) :
    Concur (Machine.TidiedTo due') (m.overHeap op) (m'.overHeap op) :=
  hop.bind fun ht => .ok ⟨ht, hm.consts, hm.stack, hm.stats⟩

theorem inc (hm : m.TidiedTo [] m') (v : Value) :
    Concur (Machine.TidiedTo []) (m.overHeap (·.inc v)) (m'.overHeap (·.inc v)) :=
  hm.overHeap fun _ _ eh ek => hm.heap.inc (by simp) eh ek

theorem incAll (hm : m.TidiedTo [] m') (vs : List Value) :
    Concur (Machine.TidiedTo []) (m.overHeap (·.incAll vs)) (m'.overHeap (·.incAll vs)) :=
  hm.overHeap fun _ _ eh ek => hm.heap.incAll eh ek

theorem unref (hm : m.TidiedTo [] m') (v : Value) :
    Concur (Machine.TidiedTo []) (m.overHeap (·.unref v)) (m'.overHeap (·.unref v)) :=
  hm.overHeap fun _ _ eh ek => hm.heap.unref eh ek

theorem unrefAll (hm : m.TidiedTo [] m') (vs : List Value) :
    Concur (Machine.TidiedTo []) (m.overHeap (·.unrefAll vs)) (m'.overHeap (·.unrefAll vs)) :=
  hm.overHeap fun _ _ eh ek => hm.heap.unrefAll eh ek

theorem noteDepth (hm : m.TidiedTo due m') (n : Nat) : (m.noteDepth n).TidiedTo due (m'.noteDepth n) :=
  ⟨hm.heap, hm.consts, hm.stack, by simp only [Machine.noteDepth, hm.stats]⟩

theorem noteCall (hm : m.TidiedTo due m') : m.noteCall.TidiedTo due m'.noteCall :=
  ⟨hm.heap, hm.consts, hm.stack, by simp only [Machine.noteCall, hm.stats]⟩

theorem noteTailCall (hm : m.TidiedTo due m') : m.noteTailCall.TidiedTo due m'.noteTailCall :=
  ⟨hm.heap, hm.consts, hm.stack, by simp only [Machine.noteTailCall, hm.stats]⟩

theorem push (hm : m.TidiedTo due m') (v : Value) : (m.push v).TidiedTo due (m'.push v) :=
  ⟨hm.heap, hm.consts, congrArg (v :: ·) hm.stack, hm.stats⟩

theorem allocate {o : Object} (hm : m.TidiedTo due m') (ho : o.scope? = none) :
    (m.allocate o).1.TidiedTo due (m'.allocate o).1 ∧ (m'.allocate o).2 = (m.allocate o).2 := by
  obtain ⟨ht, hv⟩ := hm.heap.allocate ho
  exact ⟨⟨ht, hm.consts, hm.stack, hm.stats⟩, hv⟩

theorem takeArgs (hm : m.TidiedTo due m') (n : Nat) :
    Concur (fun x x' => x.1.TidiedTo due x'.1 ∧ x'.2 = x.2) (m.takeArgs n) (m'.takeArgs n) := by
  rw [Machine.takeArgs, Machine.takeArgs, hm.stack]
  split_ifs
  · exact .error _
  · exact .ok ⟨⟨hm.heap, hm.consts, rfl, hm.stats⟩, rfl⟩

end Machine.TidiedTo

namespace Running.TidiedTo

variable {s₀ s s' : Running} {due due' : List ObjId} {r dst : Reg} {limit : Nat}

/-! ## What a step is made of -/

theorem read (hb : s.TidiedTo p isNil due s') (hr : r ∉ p.idle isNil s.cur.unit) :
    s'.cur.read r = s.cur.read r := hb.cur.read hr

/-- The heaps change, and nothing else does. -/
theorem overHeap {op : Heap → Except Fault Heap} (hb : s.TidiedTo p isNil due s')
    (hop : Concur (SameButEstimates due') (op s.machine.heap) (op s'.machine.heap)) :
    Concur (fun t t' => t.TidiedTo p isNil due' t' ∧ t.cur = s.cur ∧ op s.machine.heap = .ok t.machine.heap)
      (s.overHeap op) (s'.overHeap op) := by
  refine Concur.bind (R := fun m m' => m.TidiedTo due' m' ∧ op s.machine.heap = .ok m.heap) ?_ fun hm =>
    .ok ⟨⟨hm.1, hb.callers, hb.cur⟩, rfl, hm.2⟩
  exact hop.knowing.bind fun ht =>
    .ok ⟨⟨ht.1, hb.machine.consts, hb.machine.stack, hb.machine.stats⟩, ht.2⟩

theorem inc (hb : s.TidiedTo p isNil [] s') (v : Value) :
    Concur (fun t t' => t.TidiedTo p isNil [] t' ∧ t.cur = s.cur) (s.overHeap (·.inc v))
      (s'.overHeap (·.inc v)) := by
  have hinc : Concur (SameButEstimates []) (s.machine.heap.inc v) (s'.machine.heap.inc v) :=
    fun _ _ eh ek => hb.machine.heap.inc (by simp) eh ek
  exact fun t t' ht ht' => (hb.overHeap hinc t t' ht ht').imp_right And.left

theorem more (hb : s.TidiedTo p isNil [] s') : Progress.TidiedTo p isNil s₀ (.more s) (.more s') :=
  .more hb (Or.inl rfl)

theorem store (hb : s.TidiedTo p isNil [] s') (dst : Reg) (v : Value) :
    Concur (Progress.TidiedTo p isNil s₀) (s.store dst v) (s'.store dst v) := by
  refine Concur.bind (R := Running.TidiedTo p isNil []) ?_ fun ht => .ok ht.more
  exact (hb.cur.write dst v).bind fun hf => .ok ⟨hb.machine, hb.callers, hf.1⟩

theorem storeFrom {op : Heap → Except Fault (Heap × Value)} (hb : s.TidiedTo p isNil [] s') (dst : Reg)
    (hop : Concur (fun x x' => SameButEstimates [] x.1 x'.1 ∧ x'.2 = x.2) (op s.machine.heap) (op s'.machine.heap)) :
    Concur (Progress.TidiedTo p isNil s₀) (s.storeFrom op dst) (s'.storeFrom op dst) := by
  refine hop.bind fun {x x'} hx => ?_
  obtain ⟨h, v⟩ := x
  obtain ⟨h', v'⟩ := x'
  obtain ⟨ht, rfl⟩ : SameButEstimates [] h h' ∧ v' = v := hx
  exact (hb.cur.write dst v').bind fun hf =>
    .ok (more ⟨⟨ht, hb.machine.consts, hb.machine.stack, hb.machine.stats⟩, hb.callers, hf.1⟩)

theorem allocate {o : Object} (hb : s.TidiedTo p isNil [] s') (dst : Reg) (ho : o.scope? = none) :
    Concur (Progress.TidiedTo p isNil s₀) (s.storeFrom (fun h => .ok (h.allocate o)) dst)
      (s'.storeFrom (fun h => .ok (h.allocate o)) dst) :=
  hb.storeFrom dst (.ok (hb.machine.heap.allocate ho))

theorem allocClosure (hb : s.TidiedTo p isNil [] s') (dst : Reg) :
    Concur (Progress.TidiedTo p isNil s₀)
      (s.storeFrom (fun h => do
        let (h, v) := h.allocate (.closure .blank)
        return (← h.inc v, v)) dst)
      (s'.storeFrom (fun h => do
        let (h, v) := h.allocate (.closure .blank)
        return (← h.inc v, v)) dst) := by
  obtain ⟨ht, hv⟩ := hb.machine.heap.allocate (o := .closure .blank) rfl
  refine hb.storeFrom dst ?_
  dsimp only
  rw [hv]
  exact Concur.bind (R := SameButEstimates []) (fun _ _ eh ek => ht.inc (by simp) eh ek) fun hu => .ok ⟨hu, rfl⟩

theorem after {op : Heap → Except Fault Heap} (hb : s.TidiedTo p isNil due s')
    (hop : Concur (SameButEstimates []) (op s.machine.heap) (op s'.machine.heap)) :
    Concur (Progress.TidiedTo p isNil s₀) (s.after op) (s'.after op) :=
  (hb.overHeap hop).bind fun ht => .ok ht.1.more

theorem goto (hb : s.TidiedTo p isNil [] s') (pc : Nat) :
    Progress.TidiedTo p isNil s₀ (s.goto pc) (s'.goto (p.place isNil s.cur.unit pc)) :=
  more ⟨hb.machine, hb.callers, hb.cur.goto pc⟩

theorem get (hb : s.TidiedTo p isNil due s') (x : ObjId) :
    s'.machine.heap.get x = s.machine.heap.get x := by
  rw [Heap.get, Heap.get, Heap.slot, Heap.slot, Heap.slot?, Heap.slot?, hb.machine.slots]

/-! ## Calls and returns -/

theorem returnWith (hb : s.TidiedTo p isNil [] s') (v : Value) (h₀ : s₀.callers = s.callers)
    (h₁ : s₀.cur.ret = s.cur.ret) :
    Concur (Progress.TidiedTo p isNil s₀) (s.returnWith v) (s'.returnWith v) := by
  change Concur _ (s.machine.overHeap (·.unrefAll s.cur.args) >>= _)
    (s'.machine.overHeap (·.unrefAll s'.cur.args) >>= _)
  rw [hb.cur.args, hb.cur.closure, hb.cur.ret]
  refine (hb.machine.unrefAll _).bind fun hm => (hm.unrefAll _).bind fun {m m'} hm => ?_
  cases hback : s.callers.back? with
  | none =>
    rw [hb.callers.back_none hback]
    exact .ok (.stop hm (.returned v))
  | some caller =>
    obtain ⟨caller', hback', hcaller⟩ := hb.callers.back_some hback
    rw [hback']
    refine (hm.overHeap fun _ _ eh ek => hm.heap.release eh ek).bind fun {m m'} hm => ?_
    cases hret : s.cur.ret with
    | none => exact .error _
    | some dst =>
      refine (hcaller.write dst v).bind fun {f f'} hf => ?_
      obtain ⟨hf, rfl, hlt⟩ := hf
      refine .ok (.more ⟨hm, hb.callers.pop, hf⟩ ?_)
      -- a value that is no object has nothing to report
      cases v with
      | obj x =>
        refine Or.inr ⟨caller, dst, x, h₀ ▸ hback, h₁.trans hret, rfl, rfl, ?_, rfl⟩
        simp [Frame.read, hlt]
      | _ => exact Or.inl rfl

theorem enter (hb : s.TidiedTo p isNil [] s') (unit : UnitId) (f : Value) (args : List Value) (dst : Reg) :
    Concur (Progress.TidiedTo p isNil s₀) (s.enter p unit f args dst)
      (s'.enter (p.tidied isNil) unit f args dst) := by
  refine (hb.machine.inc f).bind fun hm => ?_
  refine (Program.frame_tidiedTo unit args (some f) (some dst)).bind fun hf => ?_
  have hcallers := hb.callers.push hb.cur
  refine .ok (more ⟨?_, hcallers, hf⟩)
  rw [hcallers.size]
  exact hm.noteCall.noteDepth _

theorem refuse (hb : s.TidiedTo p isNil [] s') (reason : CallRefusal) (args : List Value) (dst : Reg) :
    Concur (Progress.TidiedTo p isNil s₀) (s.refuse reason args dst) (s'.refuse reason args dst) :=
  (hb.overHeap fun _ _ eh ek => hb.machine.heap.unrefAll eh ek).bind fun ht => ht.1.allocate dst rfl

theorem call (hb : s.TidiedTo p isNil [] s') {func : Reg} (hf : func ∉ p.idle isNil s.cur.unit)
    (dst : Reg) (nargs : Nat) (checked : Bool) :
    Concur (Progress.TidiedTo p isNil s₀) (s.call p limit dst func nargs checked)
      (s'.call (p.tidied isNil) limit dst func nargs checked) := by
  refine (hb.machine.takeArgs nargs).bind fun {x x'} hx => ?_
  obtain ⟨m, args⟩ := x
  obtain ⟨m', args'⟩ := x'
  obtain ⟨hm, rfl⟩ : m.TidiedTo [] m' ∧ args' = args := hx
  have hb' : Running.TidiedTo p isNil [] ⟨m, s.callers, s.cur⟩ ⟨m', s'.callers, s'.cur⟩ :=
    ⟨hm, hb.callers, hb.cur⟩
  refine Concur.bind_same (hb.read hf) fun f _ => ?_
  refine Concur.bind_same (Program.resolveCall_tidied hm.slots f nargs) fun target _ => ?_
  cases target with
  | ok unit =>
    dsimp only
    rw [hb.callers.size]
    split_ifs
    · exact hb'.refuse .stackOverflow args' dst
    · exact hb'.enter unit f args' dst
  | error reason =>
    cases checked
    · exact .error _
    · exact hb'.refuse reason args' dst

theorem replace (hb : s.TidiedTo p isNil [] s') (unit : UnitId) (f : Value) (args : List Value) :
    Concur (Progress.TidiedTo p isNil s₀) (s.replace p unit f args)
      (s'.replace (p.tidied isNil) unit f args) := by
  change Concur _ (s.machine.overHeap (·.unrefAll s.cur.args) >>= _)
    (s'.machine.overHeap (·.unrefAll s'.cur.args) >>= _)
  rw [hb.cur.args, hb.cur.closure, hb.cur.ret]
  refine (hb.machine.unrefAll _).bind fun hm => (hm.unrefAll _).bind fun hm => ?_
  exact (Program.frame_tidiedTo unit args (some f) s.cur.ret).bind fun hf =>
    .ok (more ⟨hm.noteTailCall, hb.callers, hf⟩)

theorem tailCall (hb : s.TidiedTo p isNil [] s') {func : Reg} (hf : func ∉ p.idle isNil s.cur.unit)
    (nargs : Nat) (h₀ : s₀.callers = s.callers) (h₁ : s₀.cur.ret = s.cur.ret) :
    Concur (Progress.TidiedTo p isNil s₀) (s.tailCall p func nargs)
      (s'.tailCall (p.tidied isNil) func nargs) := by
  refine (hb.machine.takeArgs nargs).bind fun {x x'} hx => ?_
  obtain ⟨m, args⟩ := x
  obtain ⟨m', args'⟩ := x'
  obtain ⟨hm, rfl⟩ : m.TidiedTo [] m' ∧ args' = args := hx
  refine Concur.bind_same (hb.read hf) fun f _ => ?_
  refine Concur.bind_same (Program.resolveCall_tidied hm.slots f nargs) fun target _ => ?_
  cases target with
  | ok unit =>
    have hb : Running.TidiedTo p isNil [] ⟨m, s.callers, s.cur⟩ ⟨m', s'.callers, s'.cur⟩ :=
      ⟨hm, hb.callers, hb.cur⟩
    exact hb.replace unit f args'
  | error reason =>
    refine (hm.unrefAll args').bind fun hm => (hm.unref f).bind fun {m m'} hm => ?_
    obtain ⟨hm', hv⟩ := hm.allocate (o := .undefined reason.tag []) rfl
    rcases ha : m.allocate (.undefined reason.tag []) with ⟨m₁, err⟩
    rcases ha' : m'.allocate (.undefined reason.tag []) with ⟨m₁', err'⟩
    rw [ha, ha'] at hm' hv
    obtain rfl : err' = err := hv
    refine (hm'.inc err').bind fun {m m'} hm => ?_
    have hb : Running.TidiedTo p isNil [] ⟨m, s.callers, s.cur⟩ ⟨m', s'.callers, s'.cur⟩ :=
      ⟨hm, hb.callers, hb.cur⟩
    exact hb.returnWith err' h₀ h₁

/-! ## Closures and cells -/

theorem finishClosure (hb : s.TidiedTo p isNil [] s') {caps : List Reg} (hdst : dst ∉ p.idle isNil s.cur.unit)
    (hcaps : ∀ r ∈ caps, r ∉ p.idle isNil s.cur.unit) (hfree : ∀ x c, s.cur.read dst = .ok (.obj x) →
      s.machine.heap.slot? x = some c → c.obj.scope? = none) (unit : UnitId) :
    Concur (Progress.TidiedTo p isNil s₀) (s.finishClosure dst unit caps) (s'.finishClosure dst unit caps) := by
  refine Concur.bind_same (hb.cur.readAll hcaps) fun values _ => ?_
  refine (hb.overHeap fun _ _ eh ek => hb.machine.heap.incAll eh ek).bind fun {t t'} ht => ?_
  obtain ⟨hb, hcur, hinc⟩ := ht
  have hk := keeps_incAll hinc
  refine Concur.bind_same (hb.read (hcur.symm ▸ hdst)) fun v hv => ?_
  cases hx : v.asObj? with
  | none => exact .error _
  | some r =>
    refine Concur.bind_same (hb.get r) fun o ho => ?_
    obtain ⟨c, hc, rfl⟩ := get_cases ho
    -- a closure that is finished here is in no scope yet
    have hscope : c.obj.scope? = none := by
      obtain ⟨c₀, hc₀, e⟩ := hk.symm.slot?_eq_some hc
      rw [← e]
      refine hfree r c₀ ?_ hc₀
      rw [← hcur, hv]
      cases v with
      | obj x => cases hx; rfl
      | _ => cases hx
    cases hobj : c.obj with
    | closure k =>
      rw [hobj] at hscope
      refine (hb.overHeap fun _ _ eh ek => hb.machine.heap.put hc (by rw [hobj]; rfl) eh ek).bind
        fun {u u'} hu => ?_
      obtain ⟨hb, -, hput⟩ := hu
      rw [put_eq hc] at hput
      have hr : u.machine.heap.slot? r = some ⟨c.rc, .closure { k with
          unit := unit, caps := values, weak := values.map fun _ => false }⟩ := by
        rw [← Except.ok.inj hput, slot?_setSlot_of hc, if_pos rfl]
      rw [hb.cur.scopes]
      cases u.cur.scopes with
      | nil => exact .ok hb.more
      | cons g gs => exact hb.after fun _ _ eh ek => hb.machine.heap.enrol hr hscope eh ek
    | _ => exact .error _

theorem capture (hb : s.TidiedTo p isNil [] s') (dst : Reg) (idx : Nat) :
    Concur (Progress.TidiedTo p isNil s₀) (s.capture dst idx) (s'.capture dst idx) := by
  unfold Running.capture
  rw [hb.cur.closure]
  cases s.cur.closure with
  | none => exact .error _
  | some f =>
    have hclosure : s'.machine.heap.closure? f = s.machine.heap.closure? f := by
      cases f with
      | obj r => rw [closure?, closure?, hb.get]
      | _ => rfl
    refine Concur.bind_same hclosure fun closure _ => ?_
    cases closure with
    | none => exact .error _
    | some c =>
      dsimp only
      cases c.caps[idx]? with
      | none => exact .error _
      | some v => exact hb.store dst v

theorem loadConst (hb : s.TidiedTo p isNil [] s') (dst : Reg) (k : ConstId) :
    Concur (Progress.TidiedTo p isNil s₀) (s.loadConst p dst k) (s'.loadConst (p.tidied isNil) dst k) := by
  have hpool : (p.tidied isNil).consts = p.consts := rfl
  unfold Running.loadConst
  rw [hb.machine.consts, hpool]
  cases p.consts[k.index]? with
  | none => exact .error _
  | some c =>
    cases c with
    | undefined tag => exact hb.allocate dst rfl
    | _ =>
      dsimp only
      cases s.machine.consts[k.index]? with
      | none => exact .error _
      | some v => exact hb.store dst v

theorem unbox (hb : s.TidiedTo p isNil [] s') {cell : Reg} (hcell : cell ∉ p.idle isNil s.cur.unit)
    (dst : Reg) : Concur (Progress.TidiedTo p isNil s₀) (s.unbox dst cell) (s'.unbox dst cell) := by
  refine Concur.bind_same (hb.read hcell) fun v _ => ?_
  cases v.asObj? with
  | none => exact .error _
  | some r =>
    refine Concur.bind_same (hb.get r) fun o _ => ?_
    cases o with
    | cell v => exact hb.store dst v
    | _ => exact .error _

theorem assign (hb : s.TidiedTo p isNil [] s') {cell src : Reg} (hcell : cell ∉ p.idle isNil s.cur.unit)
    (hsrc : src ∉ p.idle isNil s.cur.unit) :
    Concur (Progress.TidiedTo p isNil s₀) (s.assign cell src) (s'.assign cell src) := by
  refine Concur.bind_same (hb.read hsrc) fun v _ => ?_
  refine (hb.inc v).bind fun {t t'} ht => ?_
  obtain ⟨hb, hcur⟩ := ht
  refine Concur.bind_same (hb.read (hcur.symm ▸ hcell)) fun w _ => ?_
  cases w.asObj? with
  | none => exact .error _
  | some r =>
    refine Concur.bind_same (hb.get r) fun o ho => ?_
    obtain ⟨c, hc, rfl⟩ := get_cases ho
    cases hobj : c.obj with
    | cell old =>
      refine (hb.overHeap fun _ _ eh ek => hb.machine.heap.put hc (by rw [hobj]; rfl) eh ek).bind
        fun {u u'} hu => ?_
      exact hu.1.after fun _ _ eh ek => hu.1.machine.heap.unref eh ek
    | _ => exact .error _

theorem guard (hb : s.TidiedTo p isNil [] s') {src : Reg} (hsrc : src ∉ p.idle isNil s.cur.unit)
    (ty : ObjType) :
    Concur (Progress.TidiedTo p isNil s₀) (s.guard p src ty) (s'.guard (p.tidied isNil) src ty) := by
  refine Concur.bind_same (hb.read hsrc) fun v _ => ?_
  have hty : s'.machine.heap.isOfType v ty = s.machine.heap.isOfType v ty := by
    cases v with
    | obj r => rw [isOfType, isOfType, hb.get]
    | _ => rfl
  refine Concur.bind_same hty fun fits _ => ?_
  cases fits with
  | true => exact .ok hb.more
  | false =>
    intro a b ha
    obtain ⟨_, -, ha⟩ := bind_ok ha
    cases ha

theorem trace (hb : s.TidiedTo p isNil [] s') {src : Reg} (hsrc : src ∉ p.idle isNil s.cur.unit)
    (loc : Location) : Concur (Progress.TidiedTo p isNil s₀) (s.trace src loc) (s'.trace src loc) := by
  refine Concur.bind_same (hb.read hsrc) fun v _ => ?_
  cases v.asObj? with
  | none => exact .ok hb.more
  | some r =>
    refine Concur.bind_same (hb.get r) fun o ho => ?_
    obtain ⟨c, hc, rfl⟩ := get_cases ho
    cases hobj : c.obj with
    | undefined tag places =>
      exact hb.after fun _ _ eh ek => hb.machine.heap.put hc (by rw [hobj]; rfl) eh ek
    | _ => exact .ok hb.more

/-! ## Instructions -/

/-- The value is counted up in both heaps, or given up. -/
theorem adjust (hb : s.TidiedTo p isNil due s') {reg : Reg} {op : CountOp}
    (hreg : reg ∉ p.idle isNil s.cur.unit) (hop : op ≠ .dec)
    (hdue : ∀ x ∈ due, (op = .inc ∨ op = .drop) ∧ s.cur.read reg = .ok (.obj x)) :
    Concur (Progress.TidiedTo p isNil s₀) (s.exec p limit (.adjust op reg))
      (s'.exec (p.tidied isNil) limit (.adjust op reg)) := by
  refine Concur.bind_same (hb.read hreg) fun v hv => hb.after fun h k eh ek => ?_
  have hdue' : ∀ x ∈ due, v = .obj x := fun x hx => Except.ok.inj (hv.symm.trans (hdue x hx).2)
  cases op with
  | inc => exact hb.machine.heap.inc (fun x hx => Or.inl (hdue' x hx)) eh ek
  | dec => exact absurd rfl hop
  | drop => exact hb.machine.heap.drop hdue' eh ek
  | unref =>
    obtain rfl : due = [] := List.eq_nil_iff_forall_not_mem.mpr fun x hx => by
      rcases (hdue x hx).1 with e | e <;> cases e
    exact hb.machine.heap.unref eh ek

theorem param (hb : s.TidiedTo p isNil [] s') (dst : Reg) (idx : Nat) :
    Concur (Progress.TidiedTo p isNil s₀)
      (match s.cur.args[idx]? with
        | some v => s.store dst v
        | none => throw .outOfBounds)
      (match s'.cur.args[idx]? with
        | some v => s'.store dst v
        | none => throw .outOfBounds) := by
  rw [hb.cur.args]
  cases s.cur.args[idx]? with
  | none => exact .error _
  | some v => exact hb.store dst v

theorem endScope (hb : s.TidiedTo p isNil [] s') :
    Concur (Progress.TidiedTo p isNil s₀) s.endScope s'.endScope := by
  simp only [Running.endScope]
  rw [hb.cur.scopes]
  cases s.cur.scopes with
  | nil => exact .error _
  | cons g scopes =>
    have hb' : Running.TidiedTo p isNil [] ⟨s.machine, s.callers, { s.cur with scopes := scopes }⟩
        ⟨s'.machine, s'.callers, { s'.cur with scopes := scopes }⟩ :=
      ⟨hb.machine, hb.callers, hb.cur.enclose scopes⟩
    exact hb'.after fun _ _ eh ek => hb.machine.heap.sealScope eh ek

/-- **An instruction that both programs have**, ownership instructions apart. A closure that is finished
must be in no scope yet. -/
theorem exec (hb : s.TidiedTo p isNil [] s') {i : Instr Nat}
    (hin : ∀ r ∈ i.inputs, r ∉ p.idle isNil s.cur.unit) (hadj : ∀ op r, i ≠ .adjust op r)
    (hfree : ∀ dst unit caps x c, i = .finishClosure dst unit caps → s.cur.read dst = .ok (.obj x) →
      s.machine.heap.slot? x = some c → c.obj.scope? = none)
    (h₀ : s₀.callers = s.callers) (h₁ : s₀.cur.ret = s.cur.ret) :
    Concur (Progress.TidiedTo p isNil s₀) (s.exec p limit i)
      (s'.exec (p.tidied isNil) limit (i.relabel (p.place isNil s.cur.unit))) := by
  cases i with
  | nop | merge dst => exact .ok hb.more
  | done => exact hb.returnWith .nil h₀ h₁
  | const dst k => exact hb.loadConst dst k
  | param dst idx => exact hb.param dst idx
  | capture dst idx => exact hb.capture dst idx
  | box dst src =>
    refine Concur.bind_same (hb.read (hin src (by simp [Instr.inputs]))) fun v _ => ?_
    exact (hb.inc v).bind fun ht => ht.1.allocate dst rfl
  | unbox dst cell => exact hb.unbox (hin cell (by simp [Instr.inputs])) dst
  | assign cell src =>
    exact hb.assign (hin cell (by simp [Instr.inputs])) (hin src (by simp [Instr.inputs]))
  | operate op dst lhs rhs checked =>
    refine Concur.bind_same (hb.read (hin lhs (by simp [Instr.inputs]))) fun a _ => ?_
    refine Concur.bind_same (hb.read (hin rhs (by simp [Instr.inputs]))) fun b _ => ?_
    exact hb.storeFrom dst fun x y hx hy => hb.machine.heap.eval hx hy
  | test dst src =>
    exact Concur.bind_same (hb.read (hin src (by simp [Instr.inputs]))) fun v _ => hb.store dst _
  | testType dst src ty =>
    refine Concur.bind_same (hb.read (hin src (by simp [Instr.inputs]))) fun v _ => ?_
    have hty : s'.machine.heap.isOfType v ty = s.machine.heap.isOfType v ty := by
      cases v with
      | obj r => rw [isOfType, isOfType, hb.get]
      | _ => rfl
    exact Concur.bind_same hty fun fits _ => hb.store dst _
  | flag dst value => exact hb.store dst _
  | field dst src idx =>
    refine Concur.bind_same (hb.read (hin src (by simp [Instr.inputs]))) fun v _ => ?_
    exact hb.storeFrom dst fun x y hx hy => hb.machine.heap.field hx hy
  | make dst ty fields =>
    refine Concur.bind_same (hb.cur.readAll hin) fun values _ => ?_
    refine (hb.overHeap fun _ _ eh ek => hb.machine.heap.incAll eh ek).bind fun ht => ?_
    exact ht.1.allocate dst rfl
  | guard src ty => exact hb.guard (hin src (by simp [Instr.inputs])) ty
  | branch cond no =>
    refine Concur.bind_same (hb.read (hin cond (by simp [Instr.inputs]))) fun v _ => ?_
    split_ifs
    · exact .ok hb.more
    · exact .ok (hb.goto no)
  | jump target => exact .ok (hb.goto target)
  | move dst src =>
    refine Concur.bind_same (hb.read (hin src (by simp [Instr.inputs]))) fun v _ => ?_
    exact (hb.inc v).bind fun ht => ht.1.store dst v
  | push src =>
    refine Concur.bind_same (hb.read (hin src (by simp [Instr.inputs]))) fun v _ => ?_
    exact (hb.inc v).bind fun ht => .ok (more ⟨ht.1.machine.push v, ht.1.callers, ht.1.cur⟩)
  | call dst func nargs checked => exact hb.call (hin func (by simp [Instr.inputs])) dst nargs checked
  | tailCall func nargs => exact hb.tailCall (hin func (by simp [Instr.inputs])) nargs h₀ h₁
  | ret src =>
    exact Concur.bind_same (hb.read (hin src (by simp [Instr.inputs]))) fun v _ => hb.returnWith v h₀ h₁
  | yield src =>
    refine Concur.bind_same (hb.read (hin src (by simp [Instr.inputs]))) fun v _ => ?_
    exact (hb.machine.inc v).bind fun hm => .ok (.stop hm (.yielded v (hb.callers.push hb.cur)))
  | trace src loc => exact hb.trace (hin src (by simp [Instr.inputs])) loc
  | adjust op reg => exact absurd rfl (hadj op reg)
  | allocClosure dst => exact hb.allocClosure dst
  | finishClosure dst unit caps =>
    exact hb.finishClosure (hin dst (by simp [Instr.inputs])) (fun r hr => hin r (by simp [Instr.inputs, hr]))
      (fun x c => hfree dst unit caps x c rfl) unit
  | beginScope n =>
    obtain ⟨ht, hg⟩ := hb.machine.heap.openScope n
    refine .ok ?_
    change Progress.TidiedTo p isNil s₀ (.more ⟨⟨(s.machine.heap.openScope n).1, _, _, _⟩, _,
      { s.cur with scopes := (s.machine.heap.openScope n).2 :: s.cur.scopes }⟩)
      (.more ⟨⟨(s'.machine.heap.openScope n).1, _, _, _⟩, _,
      { s'.cur with scopes := (s'.machine.heap.openScope n).2 :: s'.cur.scopes }⟩)
    rw [hg, hb.cur.scopes]
    exact more ⟨⟨ht, hb.machine.consts, hb.machine.stack, hb.machine.stats⟩, hb.callers, hb.cur.enclose _⟩
  | endScope n => exact hb.endScope

end Running.TidiedTo

end

end CountedMachine
