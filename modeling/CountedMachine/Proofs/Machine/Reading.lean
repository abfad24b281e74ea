import CountedMachine.Machine.Run
import Mathlib.Tactic.SplitIfs

/-! # What a step reads and writes

What an instruction does is its effect (`Effect`): a new machine, and where control goes. An effect says
nothing about the registers of the frame, but for the one that is set, nor about the frames that wait;
`Effect.on` carries it out on a chain of frames.

Two frames that differ in their registers, but not in those that the instruction reads, are treated to the
same effect or the same fault (`SameEffect.exec`), whatever the callers are, as long as the last ones
take a result alike. -/

namespace CountedMachine

/-- The register that an instruction sets. -/
def Instr.sets {L : Type} : Instr L → Option Reg
  | .move dst _ => some dst
  | i => i.creates

@[simp] theorem Instr.sets_relabel {L M : Type} (f : L → M) (i : Instr L) :
    (i.relabel f).sets = i.sets := by
  cases i <;> rfl

namespace Frame

/-- The frame with other registers. -/
def fill (f : Frame) (regs : Array Value) : Frame := { f with regs := regs }

/-- The frame after a value has come into a register. -/
def receive (f : Frame) (r : Option Reg) (v : Value) : Frame :=
  match r with
  | some r => f.fill (f.regs.setIfInBounds r.index v)
  | none => f

end Frame

/-- **What a step does:** control goes on in the frame, perhaps elsewhere, or a register is set; a call is
entered or takes the place of the frame; the frame is left with a value, or the chain yields one. -/
inductive Effect
  | goes (m : Machine) (pc : Nat) (scopes : List ScopeId)
  | sets (m : Machine) (r : Reg) (v : Value)
  | enters (m : Machine) (callee : Frame)
  | replaces (m : Machine) (callee : Frame)
  | leaves (m : Machine) (v : Value)
  | yields (m : Machine) (v : Value)

namespace Effect

/-- The effect on a frame whose counter has moved on, and its callers. -/
def on (callers : Array Frame) (f : Frame) : Effect → Progress
  | .goes m pc scopes => .more ⟨m, callers, { f with pc := pc, scopes := scopes }⟩
  | .sets m r v => .more ⟨m, callers, f.receive (some r) v⟩
  | .enters m callee => .more ⟨m, callers.push f, callee⟩
  | .replaces m callee => .more ⟨m, callers, callee⟩
  | .leaves m v =>
    match callers.back? with
    | none => .stop m (.returned v)
    | some caller => .more ⟨m, callers.pop, caller.receive f.ret v⟩
  | .yields m v => .stop m (.yielded v ⟨callers.push f⟩)

/-- **The effects that an instruction can have** in a frame whose result goes into `ret`. A call that is
entered returns into the register that the instruction creates; one that takes the place of the frame
returns where the frame would have. -/
def Of (i : Instr Nat) (ret : Option Reg) : Effect → Prop
  | .goes _ _ _ => i.isTerminal = false
  | .sets _ r _ => i.isTerminal = false ∧ i.sets = some r
  | .enters _ callee => (∃ dst func nargs checked, i = .call dst func nargs checked) ∧
    callee.ret = i.creates
  | .replaces _ callee => (∃ func nargs, i = .tailCall func nargs) ∧ callee.ret = ret
  | .leaves _ _ => i.isTerminal = true
  | .yields _ _ => ∃ r, i = .yield r

end Effect

/-- **The same effect on two frames**, or the same fault. -/
inductive SameEffect (i : Instr Nat) (callers callers' : Array Frame) (f f' : Frame) :
    Except Fault Progress → Except Fault Progress → Prop
  | fault (x : Fault) : SameEffect i callers callers' f f' (.error x) (.error x)
  | effect {e : Effect} : e.Of i f.ret →
    SameEffect i callers callers' f f' (.ok (e.on callers f)) (.ok (e.on callers' f'))

/-- Chains of the same length, whose last frames have the same number of registers. -/
structure Peers (callers callers' : Array Frame) : Prop where
  size : callers'.size = callers.size
  top : callers'.back?.map (·.regs.size) = callers.back?.map (·.regs.size)

theorem Peers.refl (callers : Array Frame) : Peers callers callers := ⟨rfl, rfl⟩

theorem Program.ret_of_frame {p : Program} {id : UnitId} {args : List Value} {closure : Option Value}
    {ret : Option Reg} {f : Frame} (e : p.frame id args closure ret = .ok f) : f.ret = ret := by
  obtain ⟨u, -, e⟩ := bind_ok e
  cases e
  rfl

theorem Frame.readAll_eq {f f' : Frame} : ∀ {rs : List Reg}, (∀ r ∈ rs, f'.read r = f.read r) →
    f'.readAll rs = f.readAll rs
  | [], _ => rfl
  | r :: rs, hrs => by
    have ih : f'.readAll rs = f.readAll rs := readAll_eq fun q hq => hrs q (by simp [hq])
    simp only [Frame.readAll] at ih
    simp only [Frame.readAll, List.mapM_cons, hrs r (by simp), ih]

/-! ## What a step is made of -/

namespace SameEffect

section
variable {i : Instr Nat} {γ γ' : Array Frame} {f : Frame} {ρ : Array Value} {m : Machine} {α : Type}

theorem bind {c : Except Fault α} {k k' : α → Except Fault Progress}
    (h : ∀ a, c = .ok a → SameEffect i γ γ' f (f.fill ρ) (k a) (k' a)) :
    SameEffect i γ γ' f (f.fill ρ) (c >>= k) (c >>= k') := by
  cases c with
  | error x => exact .fault x
  | ok a => exact h a rfl

/-- A register that is the same in both frames. -/
theorem read {r : Reg} {k k' : Value → Except Fault Progress} (hr : (f.fill ρ).read r = f.read r)
    (h : ∀ v, SameEffect i γ γ' f (f.fill ρ) (k v) (k' v)) :
    SameEffect i γ γ' f (f.fill ρ) (f.read r >>= k) ((f.fill ρ).read r >>= k') := by
  rw [hr]
  exact bind fun v _ => h v

/-- Registers that are the same in both frames. -/
theorem readAll {rs : List Reg} {k k' : List Value → Except Fault Progress}
    (hr : ∀ r ∈ rs, (f.fill ρ).read r = f.read r)
    (h : ∀ vs, SameEffect i γ γ' f (f.fill ρ) (k vs) (k' vs)) :
    SameEffect i γ γ' f (f.fill ρ) (f.readAll rs >>= k) ((f.fill ρ).readAll rs >>= k') := by
  rw [Frame.readAll_eq hr]
  exact bind fun vs _ => h vs

theorem overHeap {g : Heap → Except Fault Heap} {k k' : Running → Except Fault Progress}
    (h : ∀ m, SameEffect i γ γ' f (f.fill ρ) (k ⟨m, γ, f⟩) (k' ⟨m, γ', f.fill ρ⟩)) :
    SameEffect i γ γ' f (f.fill ρ) (Running.overHeap g ⟨m, γ, f⟩ >>= k)
      (Running.overHeap g ⟨m, γ', f.fill ρ⟩ >>= k') := by
  simp only [Running.overHeap]
  cases m.overHeap g with
  | error x => exact .fault x
  | ok m => exact h m

/-- Control goes elsewhere in the frame. -/
theorem goto (hi : i.isTerminal = false) (pc : Nat) :
    SameEffect i γ γ' f (f.fill ρ) (.ok (Running.goto pc ⟨m, γ, f⟩))
      (.ok (Running.goto pc ⟨m, γ', f.fill ρ⟩)) :=
  .effect (e := .goes m pc f.scopes) hi

/-- Control goes on in the frame. -/
theorem more (hi : i.isTerminal = false) :
    SameEffect i γ γ' f (f.fill ρ) (.ok (.more ⟨m, γ, f⟩)) (.ok (.more ⟨m, γ', f.fill ρ⟩)) :=
  goto hi f.pc

theorem after (hi : i.isTerminal = false) {g : Heap → Except Fault Heap} :
    SameEffect i γ γ' f (f.fill ρ) (Running.after g ⟨m, γ, f⟩) (Running.after g ⟨m, γ', f.fill ρ⟩) :=
  overHeap fun _ => more hi

theorem store {r : Reg} {v : Value} (hρ : ρ.size = f.regs.size) (hi : i.isTerminal = false)
    (hr : i.sets = some r) : SameEffect i γ γ' f (f.fill ρ) (Running.store ⟨m, γ, f⟩ r v)
      (Running.store ⟨m, γ', f.fill ρ⟩ r v) := by
  simp only [Running.store, Running.write, Frame.write]
  rw [show (f.fill ρ).regs.size = f.regs.size from hρ]
  split_ifs
  · exact .effect (e := .sets m r v) ⟨hi, hr⟩
  · exact .fault _

theorem storeFrom {g : Heap → Except Fault (Heap × Value)} {r : Reg} (hρ : ρ.size = f.regs.size)
    (hi : i.isTerminal = false) (hr : i.sets = some r) :
    SameEffect i γ γ' f (f.fill ρ) (Running.storeFrom g r ⟨m, γ, f⟩)
      (Running.storeFrom g r ⟨m, γ', f.fill ρ⟩) := by
  obtain ⟨heap, consts, stack, stats⟩ := m
  refine bind fun ⟨heap, v⟩ _ => ?_
  simp only [Frame.write]
  rw [show (f.fill ρ).regs.size = f.regs.size from hρ]
  split_ifs
  · exact .effect (e := .sets ⟨heap, consts, stack, stats⟩ r v) ⟨hi, hr⟩
  · exact .fault _

/-! ## Calls and returns -/

theorem leaves {v : Value} (hγ : Peers γ γ') (hi : i.isTerminal = true) :
    SameEffect i γ γ' f (f.fill ρ) (Running.returnWith v ⟨m, γ, f⟩)
      (Running.returnWith v ⟨m, γ', f.fill ρ⟩) := by
  refine bind fun m₁ _ => bind fun m₂ _ => ?_
  have heffect : ∀ m, SameEffect i γ γ' f (f.fill ρ) (.ok ((Effect.leaves m v).on γ f))
    (.ok ((Effect.leaves m v).on γ' (f.fill ρ))) := fun m => .effect hi
  simp only [Effect.on] at heffect
  have htop := hγ.top
  revert htop heffect
  cases γ.back? with
  | none =>
    cases γ'.back? with
    | none => exact fun heffect _ => heffect m₂
    | some _ => exact fun _ htop => nomatch htop
  | some caller =>
    cases γ'.back? with
    | none => exact fun _ htop => nomatch htop
    | some caller' =>
      intro heffect htop
      refine bind fun m₃ _ => ?_
      have heffect := heffect m₃
      rw [show (f.fill ρ).ret = f.ret from rfl] at heffect ⊢
      revert heffect
      cases f.ret with
      | none => exact fun _ => .fault _
      | some r =>
        intro heffect
        simp only [Frame.write, show caller'.regs.size = caller.regs.size from Option.some.inj htop]
        split_ifs
        · exact heffect
        · exact .fault _

theorem refuse {reason : CallRefusal} {args : List Value} {r : Reg} (hρ : ρ.size = f.regs.size)
    (hi : i.isTerminal = false) (hr : i.sets = some r) :
    SameEffect i γ γ' f (f.fill ρ) (Running.refuse reason args r ⟨m, γ, f⟩)
      (Running.refuse reason args r ⟨m, γ', f.fill ρ⟩) :=
  overHeap fun _ => storeFrom hρ hi hr

section
variable {p : Program} {limit : Nat} {func : Reg} {nargs : Nat}

theorem call {dst : Reg} {checked : Bool} (hγ : Peers γ γ') (hρ : ρ.size = f.regs.size)
    (hfunc : (f.fill ρ).read func = f.read func) :
    SameEffect (.call dst func nargs checked) γ γ' f (f.fill ρ)
      (Running.call p limit dst func nargs checked ⟨m, γ, f⟩)
      (Running.call p limit dst func nargs checked ⟨m, γ', f.fill ρ⟩) := by
  refine bind fun ⟨m, args⟩ _ => read hfunc fun v => bind fun target _ => ?_
  cases target with
  | ok unit =>
    dsimp only
    rw [hγ.size]
    split_ifs
    · exact refuse hρ rfl rfl
    · refine bind fun m _ => bind fun callee hcallee => ?_
      simp only [Array.size_push, hγ.size]
      exact .effect (e := .enters _ callee) ⟨⟨dst, func, nargs, checked, rfl⟩, p.ret_of_frame hcallee⟩
  | error reason =>
    cases checked with
    | false => exact .fault _
    | true => exact refuse hρ rfl rfl

theorem tailCall (hγ : Peers γ γ') (hfunc : (f.fill ρ).read func = f.read func) :
    SameEffect (.tailCall func nargs) γ γ' f (f.fill ρ) (Running.tailCall p func nargs ⟨m, γ, f⟩)
      (Running.tailCall p func nargs ⟨m, γ', f.fill ρ⟩) := by
  refine bind fun ⟨m, args⟩ _ => read hfunc fun v => bind fun target _ => ?_
  cases target with
  | ok unit =>
    refine bind fun m _ => bind fun m _ => bind fun callee hcallee => ?_
    exact .effect (e := .replaces m.noteTailCall callee) ⟨⟨func, nargs, rfl⟩, p.ret_of_frame hcallee⟩
  | error reason =>
    refine bind fun m _ => bind fun m _ => bind fun m' _ => ?_
    exact leaves hγ rfl

end

/-! ## Closures, cells and constants -/

theorem finishClosure {dst : Reg} {unit : UnitId} {caps : List Reg}
    (hr : ∀ r ∈ dst :: caps, (f.fill ρ).read r = f.read r) :
    SameEffect (.finishClosure dst unit caps) γ γ' f (f.fill ρ)
      (Running.finishClosure dst unit caps ⟨m, γ, f⟩)
      (Running.finishClosure dst unit caps ⟨m, γ', f.fill ρ⟩) := by
  obtain ⟨hdst, hcaps⟩ := List.forall_mem_cons.mp hr
  refine readAll hcaps fun values => overHeap fun m => read hdst fun v => ?_
  cases v.asObj? with
  | none => exact .fault _
  | some r =>
    refine bind fun obj _ => ?_
    cases obj with
    | closure c =>
      refine overHeap fun m => ?_
      dsimp only
      rw [show (f.fill ρ).scopes = f.scopes from rfl]
      cases f.scopes with
      | nil => exact more rfl
      | cons g _ => exact after rfl
    | _ => exact .fault _

theorem capture {dst : Reg} {idx : Nat} (hρ : ρ.size = f.regs.size) :
    SameEffect (.capture dst idx) γ γ' f (f.fill ρ) (Running.capture dst idx ⟨m, γ, f⟩)
      (Running.capture dst idx ⟨m, γ', f.fill ρ⟩) := by
  simp only [Running.capture]
  rw [show (f.fill ρ).closure = f.closure from rfl]
  cases f.closure with
  | none => exact .fault _
  | some c =>
    refine bind fun closure _ => ?_
    cases closure with
    | none => exact .fault _
    | some c =>
      dsimp only
      cases c.caps[idx]? with
      | none => exact .fault _
      | some v => exact store hρ rfl rfl

theorem unbox {dst cell : Reg} (hρ : ρ.size = f.regs.size)
    (hcell : (f.fill ρ).read cell = f.read cell) :
    SameEffect (.unbox dst cell) γ γ' f (f.fill ρ) (Running.unbox dst cell ⟨m, γ, f⟩)
      (Running.unbox dst cell ⟨m, γ', f.fill ρ⟩) := by
  refine read hcell fun v => ?_
  cases v.asObj? with
  | none => exact .fault _
  | some r =>
    refine bind fun obj _ => ?_
    cases obj with
    | cell v => exact store hρ rfl rfl
    | _ => exact .fault _

theorem assign {cell src : Reg} (hcell : (f.fill ρ).read cell = f.read cell)
    (hsrc : (f.fill ρ).read src = f.read src) :
    SameEffect (.assign cell src) γ γ' f (f.fill ρ) (Running.assign cell src ⟨m, γ, f⟩)
      (Running.assign cell src ⟨m, γ', f.fill ρ⟩) := by
  refine read hsrc fun v => overHeap fun m => read hcell fun c => ?_
  cases c.asObj? with
  | none => exact .fault _
  | some r =>
    refine bind fun obj _ => ?_
    cases obj with
    | cell old => exact overHeap fun m => after rfl
    | _ => exact .fault _

theorem loadConst {p : Program} {dst : Reg} {k : ConstId} (hρ : ρ.size = f.regs.size) :
    SameEffect (.const dst k) γ γ' f (f.fill ρ) (Running.loadConst p dst k ⟨m, γ, f⟩)
      (Running.loadConst p dst k ⟨m, γ', f.fill ρ⟩) := by
  unfold Running.loadConst
  cases p.consts[k.index]? with
  | none => exact .fault _
  | some c =>
    cases c with
    | undefined tag => exact storeFrom hρ rfl rfl
    | _ =>
      dsimp only
      cases m.consts[k.index]? with
      | none => exact .fault _
      | some v => exact store hρ rfl rfl

theorem guard {p : Program} {src : Reg} {ty : ObjType} (hsrc : (f.fill ρ).read src = f.read src) :
    SameEffect (.guard src ty) γ γ' f (f.fill ρ) (Running.guard p src ty ⟨m, γ, f⟩)
      (Running.guard p src ty ⟨m, γ', f.fill ρ⟩) := by
  refine read hsrc fun v => bind fun fits _ => ?_
  cases fits with
  | true => exact more rfl
  | false => exact bind fun text _ => .fault _

theorem trace {src : Reg} {loc : Location} (hsrc : (f.fill ρ).read src = f.read src) :
    SameEffect (.trace src loc) γ γ' f (f.fill ρ) (Running.trace src loc ⟨m, γ, f⟩)
      (Running.trace src loc ⟨m, γ', f.fill ρ⟩) := by
  refine read hsrc fun v => ?_
  cases v.asObj? with
  | none => exact more rfl
  | some r =>
    refine bind fun obj _ => ?_
    cases obj with
    | undefined tag places => exact after rfl
    | _ => exact more rfl

theorem beginScope {n : Nat} : SameEffect (.beginScope n) γ γ' f (f.fill ρ)
    (.ok (Running.beginScope n ⟨m, γ, f⟩)) (.ok (Running.beginScope n ⟨m, γ', f.fill ρ⟩)) := by
  obtain ⟨heap, consts, stack, stats⟩ := m
  exact .effect (e := .goes ⟨(heap.openScope n).1, consts, stack, stats⟩ f.pc
    ((heap.openScope n).2 :: f.scopes)) rfl

theorem endScope {n : Nat} : SameEffect (.endScope n) γ γ' f (f.fill ρ)
    (Running.endScope ⟨m, γ, f⟩) (Running.endScope ⟨m, γ', f.fill ρ⟩) := by
  simp only [Running.endScope]
  rw [show (f.fill ρ).scopes = f.scopes from rfl]
  cases f.scopes with
  | nil => exact .fault _
  | cons g scopes =>
    simp only [Running.after, Running.overHeap]
    cases m.overHeap (·.sealScope g) with
    | error x => exact .fault x
    | ok m => exact .effect (e := .goes m f.pc scopes) rfl

/-! ## Instructions -/

/-- **An instruction has the same effect** on frames in which the registers that it reads, or whose
ownership it adjusts, are the same. -/
theorem exec {p : Program} {limit : Nat} (hγ : Peers γ γ') (hρ : ρ.size = f.regs.size)
    (hreads : ∀ r ∈ i.inputs, (f.fill ρ).read r = f.read r)
    (hadjusts : ∀ op r, i = .adjust op r → (f.fill ρ).read r = f.read r) :
    SameEffect i γ γ' f (f.fill ρ) (Running.exec p limit i ⟨m, γ, f⟩)
      (Running.exec p limit i ⟨m, γ', f.fill ρ⟩) := by
  cases i with
  | nop | merge dst => exact more rfl
  | done => exact leaves hγ rfl
  | const dst k => exact loadConst hρ
  | param dst idx =>
    simp only [Running.exec]
    rw [show (f.fill ρ).args = f.args from rfl]
    cases f.args[idx]? with
    | none => exact .fault _
    | some v => exact store hρ rfl rfl
  | capture dst idx => exact capture hρ
  | box dst src =>
    exact read (hreads src (by simp [Instr.inputs])) fun v => overHeap fun m => storeFrom hρ rfl rfl
  | unbox dst cell => exact unbox hρ (hreads cell (by simp [Instr.inputs]))
  | assign cell src =>
    exact assign (hreads cell (by simp [Instr.inputs])) (hreads src (by simp [Instr.inputs]))
  | operate op dst lhs rhs checked =>
    refine read (hreads lhs (by simp [Instr.inputs])) fun a => ?_
    exact read (hreads rhs (by simp [Instr.inputs])) fun b => storeFrom hρ rfl rfl
  | test dst src => exact read (hreads src (by simp [Instr.inputs])) fun v => store hρ rfl rfl
  | testType dst src ty =>
    exact read (hreads src (by simp [Instr.inputs])) fun v => bind fun fits _ => store hρ rfl rfl
  | flag dst value => exact store hρ rfl rfl
  | field dst src idx =>
    exact read (hreads src (by simp [Instr.inputs])) fun v => storeFrom hρ rfl rfl
  | make dst ty fields =>
    exact readAll hreads fun values => overHeap fun m => storeFrom hρ rfl rfl
  | guard src ty => exact guard (hreads src (by simp [Instr.inputs]))
  | branch cond no =>
    refine read (hreads cond (by simp [Instr.inputs])) fun v => ?_
    split_ifs
    · exact more rfl
    · exact goto rfl no
  | jump target => exact goto rfl target
  | move dst src =>
    exact read (hreads src (by simp [Instr.inputs])) fun v => overHeap fun m => store hρ rfl rfl
  | push src =>
    exact read (hreads src (by simp [Instr.inputs])) fun v => overHeap fun m => more rfl
  | call dst func nargs checked => exact call hγ hρ (hreads func (by simp [Instr.inputs]))
  | tailCall func nargs => exact tailCall hγ (hreads func (by simp [Instr.inputs]))
  | ret src => exact read (hreads src (by simp [Instr.inputs])) fun v => leaves hγ rfl
  | yield src =>
    refine read (hreads src (by simp [Instr.inputs])) fun v => bind fun m _ => ?_
    exact .effect (e := .yields m v) ⟨src, rfl⟩
  | trace src loc => exact trace (hreads src (by simp [Instr.inputs]))
  | adjust op reg => exact read (hadjusts op reg rfl) fun v => after rfl
  | allocClosure dst =>
    simp only [Running.exec]
    exact storeFrom hρ rfl rfl
  | finishClosure dst unit caps => exact finishClosure hreads
  | beginScope n => exact beginScope
  | endScope n => exact endScope

end

end SameEffect

end CountedMachine
