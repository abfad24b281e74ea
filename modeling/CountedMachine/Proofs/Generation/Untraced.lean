import CountedMachine.Proofs.Generation.Mirror
import CountedMachine.Proofs.Generation.Parallel
import CountedMachine.Proofs.Machine.Replies
import CountedMachine.Proofs.Machine.Sessions
import CountedMachine.Proofs.Ownership.Forward

/-! # Programs with traces and without

Two runs of the code generator are compared, one that notes the places errors come through and one that
does not. Their listings mirror each other, and their units are the same, untraced (`tracing`). So a
module is refused for the same reason with traces and without, and where it is compiled, the program
without traces is the program with traces, untraced; the host cannot tell the two apart
(`SourceModule.traces_unobserved`).

A host that gives a value back twice can: the error value may have been freed when its place is noted
(`Picking.traces_observed`). -/

namespace CountedMachine

open Listing

namespace Listing

instance : Preorder Names where
  le := Names.Le
  le_refl := .refl
  le_trans _ _ _ := .trans

/-- **Listings that mirror each other, and units of which the second is untraced.** -/
def tracing : Pairing Names where
  listings N l l' := ∃ code, Mirrors N l l' code
  units _ u u' := u' = u.untraced ∧ Returning u.code.toList
  named N a b := N a = some b
  start := .ends
  named_mono hle h := hle _ _ h
  regs := by
    rintro N l l' ⟨code, hm⟩
    exact hm.regs
  withRegs := by
    rintro N l l' regs ⟨code, hm⟩
    exact ⟨code, hm.withRegs⟩
  empty := ⟨_, mirrors_empty⟩
  blank pool name arity ncaps := ⟨rfl, fun hpc => by simp at hpc⟩
  units_mono _ h := h
  insert := by
    rintro N l l' l₁ l₁' i id id' ⟨code, hm⟩ hi hlabel e e'
    obtain ⟨l₂, a, l₂', b, e₂, e₂', -, hle, hm₂⟩ := hm.write hi fun hb =>
      ⟨head, by rw [hlabel hb]; exact hm.first⟩
    -- a label that is not known yet names the first node of both listings
    have hself : i.relabel N.get = i := by
      rw [relabel_congr (g := fun b => b) fun b hb => by
        rw [hlabel hb]
        exact Names.get_eq hm.first]
      cases i <;> rfl
    rw [hself] at e₂'
    obtain ⟨rfl, rfl⟩ := Prod.mk.inj (Except.ok.inj (e.symm.trans e₂))
    obtain ⟨rfl, rfl⟩ := Prod.mk.inj (Except.ok.inj (e'.symm.trans e₂'))
    exact ⟨_, hle, ⟨_, hm₂⟩, N.add_self _ _⟩
  retarget := by
    rintro N l l' l₁ l₁' a b c d i i' ⟨code, hm⟩ ha hc hget hput hget' hput'
    obtain ⟨j, l₂, l₂', code', hj, hl₂, hj', hl₂', -, hm₂⟩ := hm.retarget ha hc
    obtain rfl := Except.ok.inj (hget.symm.trans hj)
    obtain rfl := Except.ok.inj (hget'.symm.trans hj')
    obtain rfl := Except.ok.inj (hput.symm.trans hl₂)
    obtain rfl := Except.ok.inj (hput'.symm.trans hl₂')
    exact ⟨code', hm₂⟩

end Listing

namespace Gen

variable {σ : Site} {w : Ties Names}

/-- **A trace and the return after it** are written in one run, the return in the other. -/
theorem tracks_writeTrace (r : Reg) (loc : Location) :
    Tracks tracing σ w (write (.trace r loc) >>= fun _ => write (.ret r)) (write (.ret r)) Same := by
  refine ⟨fun {w₁ s s'} _ ht => ?_⟩
  obtain ⟨code, hm⟩ := ht.listing
  obtain ⟨l₁, t, l₂, id, l₁', id', e₁, e₂, e', -, hle, hm₂⟩ := hm.writeTrace r loc
  have hrun : (write (.trace r loc) >>= fun _ => write (.ret r)).run s = .ok ((), s.withListing l₂) := by
    unfold write
    rw [bind_assoc, run_bind_of_eq (writeNode_run e₁)]
    show (writeNode (.ret r) >>= fun _ => pure ()).run (s.withListing l₁) = _
    rw [run_bind_of_eq (writeNode_run (s := s.withListing l₁) e₂)]
    rfl
  have hrun' : (write (.ret r)).run s' = .ok ((), s'.withListing l₁') := by
    unfold write
    rw [run_bind_of_eq (writeNode_run e')]
    rfl
  rw [hrun, hrun']
  have hw : w₁.Le ⟨w₁.names.add id id', w₁.fit⟩ := ⟨hle, subset_rfl⟩
  exact .ends hw (ht.withListing (P := tracing) ⟨_, hm₂⟩) rfl

/-- **Code is generated alike** with traces and without. -/
theorem comparable_quiet (settings : Settings) (types : Array StructType) :
    Comparable tracing ⟨{ settings with traces := true }, types⟩
      ⟨{ settings with traces := false }, types⟩ where
  types := rfl
  inlining := rfl
  inlineSize := rfl
  inlineLevels := rfl
  returnErrors r loc := tracks_returnErrors r loc fun loc => tracks_writeTrace r loc
  finish := by
    rintro N l l' ys pool name c c' k k' arity ncaps ⟨code, hm⟩ hready - hout hout'
    have hcode : unitCode ys = code ++ [(tail, Instr.done)] := by
      rw [← hready.linked.entries_eq, hm.linked.entries_eq]
    obtain ⟨rfl, hc', hreturns⟩ := hm.finished (hcode ▸ hready) rfl hout hout'
    exact ⟨by rw [CodeUnit.untraced, ← hc'], hreturns⟩

end Gen

/-! ## Loading -/

namespace Machine

theorem loadConst_untraced (h : Heap) (c : Constant) :
    loadConst h.untraced c = ((loadConst h c).1.untraced, (loadConst h c).2) := by
  cases c with
  | str s => exact h.allocate_untraced (.str s)
  | closure u => exact h.allocate_untraced (.closure (.plain u))
  | _ => rfl

theorem loadStep_untraced (x : Heap × Array Value) (c : Constant) :
    loadStep (x.1.untraced, x.2) c = tell (fun x => (x.1.untraced, x.2)) (loadStep x c) := by
  obtain ⟨h, consts⟩ := x
  simp only [loadStep, loadConst_untraced]
  exact tell_bind (Heap.inc_untraced _ _) fun _ => rfl

theorem loadSteps_untraced : ∀ (cs : List Constant) (x : Heap × Array Value),
    cs.foldlM loadStep (x.1.untraced, x.2) = tell (fun x => (x.1.untraced, x.2)) (cs.foldlM loadStep x)
  | [], _ => rfl
  | c :: cs, x => by
    rw [List.foldlM_cons, List.foldlM_cons]
    exact tell_bind (loadStep_untraced x c) fun y => loadSteps_untraced cs y

/-- **Nothing has been noted in a machine that was just loaded.** -/
theorem untraced_of_load {p : Program} {m : Machine} (h : load p = .ok m) : m.untraced = m := by
  have hload : load p = tell untraced (load p) := by
    unfold load
    rw [← Array.foldlM_toList]
    have hempty : (Heap.empty.untraced, #[]) = (Heap.empty, (#[] : Array Value)) := by
      simp [Heap.untraced, Heap.empty]
    have hsteps := loadSteps_untraced p.consts.toList (Heap.empty, #[])
    rw [hempty] at hsteps
    exact tell_bind hsteps fun _ => rfl
  rw [h] at hload
  exact (Except.ok.inj hload).symm

end Machine

theorem Pairing.Programs.untraced {p p' : Program} (h : tracing.Programs p p') : p' = p.untraced := by
  obtain ⟨units, consts, types, entry⟩ := p
  obtain ⟨units', consts', types', entry'⟩ := p'
  obtain rfl : entry' = entry := h.entry
  obtain rfl : types' = types := h.types
  obtain rfl : consts' = consts := h.consts
  have hsize : units'.size = units.size := h.size
  suffices hunits : units' = units.map CodeUnit.untraced by
    rw [hunits]
    rfl
  refine Array.ext (by simp [hsize]) fun k hk hk' => ?_
  rw [Array.getElem_map]
  have hk₀ : k < units.size := hsize ▸ hk
  exact (h.units (Array.getElem?_eq_getElem hk₀) (Array.getElem?_eq_getElem hk)).1

theorem Pairing.Programs.returning {p p' : Program} (h : tracing.Programs p p') : p.Returning := by
  intro k u hu
  have hk : k < p'.units.size := h.size ▸ (Array.getElem?_eq_some_iff.mp hu).1
  obtain ⟨-, hreturns⟩ := h.units hu (Array.getElem?_eq_getElem hk)
  exact @hreturns

/-- **Traces are unobservable.** With traces and without, a module is refused for the same reason, or it is
compiled and can be loaded; then every script of the host is answered alike, action by action, up to
the same failure. The values and the heaps are the same but for the traces of error values. Only where the
script gives a value back twice may another fault be met first. -/
theorem SourceModule.traces_unobserved (m : SourceModule) (settings : Settings) :
    (∃ e, m.compile { settings with traces := true } = .error (.refused e) ∧
        m.compile { settings with traces := false } = .error (.refused e)) ∨
      ∃ p p' machine, m.compile { settings with traces := true } = .ok p ∧
        m.compile { settings with traces := false } = .ok p' ∧ Machine.load p = .ok machine ∧
        Machine.load p' = .ok machine ∧ ∀ (frames : Nat) (script : List HostAction), ∃ log log' e e',
          Host.Replies p frames ⟨machine, #[], #[]⟩ script log e ∧
            Host.Replies p' frames ⟨machine, #[], #[]⟩ script log' e' ∧
            List.Forall₂ (Host.Alike p.types) log log' ∧
            Option.Rel (HostFailure.Alike p.types (¬ (script.filterMap Host.givenBack?).Nodup)) e e' := by
  refine (m.compile_pairs (Gen.comparable_quiet settings _)).imp id ?_
  rintro ⟨p, p', hp, hp', hpair⟩
  let : p.Origin := ⟨{ settings with traces := true }⟩
  obtain ⟨hentry, hplain⟩ := SourceModule.compile_sound hp
  obtain ⟨machine, hload, hok⟩ := Session.ok_load hplain
  obtain rfl := hpair.untraced
  refine ⟨p, _, machine, hp, hp', hload, hload, fun frames script => ?_⟩
  have horderly : ¬ ¬ (script.filterMap Host.givenBack?).Nodup →
      Host.Orderly p script ⟨machine, #[], #[]⟩ := fun hd =>
    ⟨∅, .of_load hok, not_not.mp hd, by simp⟩
  have h := Host.replies_alike hpair.returning hentry frames script ⟨machine, #[], #[]⟩ horderly
  have hstart : Host.untraced p ⟨machine, #[], #[]⟩ = ⟨machine, #[], #[]⟩ := by
    simp [Host.untraced, Machine.untraced_of_load hload]
  rwa [hstart] at h

/-! ## Values given back twice -/

namespace Picking

open Gen

/-- A function that hands both its arguments to the host, calls what is no function and returns the error;
it would return its second argument, if there were none. -/
def pick : Lambda Expr where
  arity := 2
  captures := []
  body := .letIn [⟨.yield (.var 1 false), false⟩, ⟨.yield (.var 1 false), false⟩,
    ⟨.apply (.lit .nil) [] true (some ⟨"a", 1⟩), false⟩] (some (.var 3 false))
  name := some "pick"

def source : SourceModule := ⟨[], .fn pick⟩

def settings : Settings := { verify := false }

def context : Context := ⟨settings, #[]⟩

def pickListing : Listing where
  nodes := #[some ⟨.nop, none, some ⟨2⟩⟩, some ⟨.done, some ⟨17⟩, none⟩,
    some ⟨.param ⟨0⟩ 0, some ⟨0⟩, some ⟨3⟩⟩, some ⟨.param ⟨1⟩ 1, some ⟨2⟩, some ⟨4⟩⟩,
    some ⟨.yield ⟨0⟩, some ⟨3⟩, some ⟨5⟩⟩, some ⟨.const ⟨2⟩ ⟨0⟩, some ⟨4⟩, some ⟨6⟩⟩,
    some ⟨.yield ⟨1⟩, some ⟨5⟩, some ⟨7⟩⟩, some ⟨.const ⟨3⟩ ⟨0⟩, some ⟨6⟩, some ⟨8⟩⟩,
    some ⟨.const ⟨4⟩ ⟨0⟩, some ⟨7⟩, some ⟨9⟩⟩, some ⟨.call ⟨5⟩ ⟨4⟩ 0 true, some ⟨8⟩, some ⟨10⟩⟩,
    some ⟨.testType ⟨6⟩ ⟨5⟩ .undefined, some ⟨9⟩, some ⟨11⟩⟩, some ⟨.branch ⟨6⟩ ⟨15⟩, some ⟨10⟩, some ⟨12⟩⟩,
    some ⟨.trace ⟨5⟩ ⟨"a", 1⟩, some ⟨11⟩, some ⟨13⟩⟩, some ⟨.ret ⟨5⟩, some ⟨12⟩, some ⟨14⟩⟩,
    some ⟨.jump ⟨16⟩, some ⟨13⟩, some ⟨15⟩⟩, some ⟨.nop, some ⟨14⟩, some ⟨16⟩⟩,
    some ⟨.nop, some ⟨15⟩, some ⟨17⟩⟩, some ⟨.ret ⟨1⟩, some ⟨16⟩, some ⟨1⟩⟩]
  free := []
  cursor := ⟨1⟩
  regs := #[⟨.param, none⟩, ⟨.param, none⟩, ⟨.temp, some .nil⟩, ⟨.temp, some .nil⟩, ⟨.temp, some .nil⟩,
    ⟨.temp, none⟩, ⟨.flag, some .bool⟩]

def mainListing : Listing where
  nodes := #[some ⟨.nop, none, some ⟨2⟩⟩, some ⟨.done, some ⟨3⟩, none⟩,
    some ⟨.const ⟨0⟩ ⟨1⟩, some ⟨0⟩, some ⟨3⟩⟩, some ⟨.ret ⟨0⟩, some ⟨2⟩, some ⟨1⟩⟩]
  free := []
  cursor := ⟨1⟩
  regs := #[⟨.temp, some .fn⟩]

/-- The second argument is given up before the place of the call is noted. -/
def pickCode : List (Instr Nat) :=
  [.nop, .param ⟨0⟩ 0, .adjust .inc ⟨0⟩, .param ⟨1⟩ 1, .adjust .inc ⟨1⟩, .yield ⟨0⟩, .adjust .unref ⟨0⟩,
    .yield ⟨1⟩, .const ⟨4⟩ ⟨0⟩, .call ⟨5⟩ ⟨4⟩ 0 true, .adjust .inc ⟨5⟩, .testType ⟨6⟩ ⟨5⟩ .undefined,
    .branch ⟨6⟩ 17, .adjust .unref ⟨1⟩, .trace ⟨5⟩ ⟨"a", 1⟩, .ret ⟨5⟩, .jump 19, .nop, .adjust .unref ⟨5⟩,
    .nop, .ret ⟨1⟩, .done]

/-- The same without the place. -/
def quietCode : List (Instr Nat) :=
  [.nop, .param ⟨0⟩ 0, .adjust .inc ⟨0⟩, .param ⟨1⟩ 1, .adjust .inc ⟨1⟩, .yield ⟨0⟩, .adjust .unref ⟨0⟩,
    .yield ⟨1⟩, .const ⟨4⟩ ⟨0⟩, .call ⟨5⟩ ⟨4⟩ 0 true, .adjust .inc ⟨5⟩, .testType ⟨6⟩ ⟨5⟩ .undefined,
    .branch ⟨6⟩ 16, .adjust .unref ⟨1⟩, .ret ⟨5⟩, .jump 18, .nop, .adjust .unref ⟨5⟩, .nop, .ret ⟨1⟩, .done]

def mainCode : List (Instr Nat) := [.nop, .const ⟨0⟩ ⟨1⟩, .adjust .inc ⟨0⟩, .ret ⟨0⟩, .done]

/-- The program with the given code of the function. -/
def program (pick : List (Instr Nat)) : Program where
  units := #[⟨"main", 0, 0, 1, mainCode.toArray⟩, ⟨"pick", 2, 0, 7, pick.toArray⟩]
  consts := #[.nil, .closure ⟨1⟩]
  types := #[]
  entry := ⟨0⟩

theorem untraced_program : (program pickCode).untraced = program quietCode := by
  unfold program pickCode mainCode quietCode
  cbv

theorem finish_pick : finishListing settings #[.nil] "pick" pickListing = .ok (pickCode.toArray, 7) := by
  have hfull : Listing.Full pickListing pickListing.entries := by decide
  rw [finishListing, Listing.placeOwnership_forward hfull.linked (by decide)]
  simp only [tidied, Listing.tidy, Listing.eraseUnreadLoads, Std.HashSet.contains_ofList]
  decide +kernel

theorem finish_main :
    finishListing settings #[.nil, .closure ⟨1⟩] "main" mainListing = .ok (mainCode.toArray, 1) := by
  have hfull : Listing.Full mainListing mainListing.entries := by decide
  rw [finishListing, Listing.placeOwnership_forward hfull.linked (by decide)]
  simp only [tidied, Listing.tidy, Listing.eraseUnreadLoads, Std.HashSet.contains_ofList]
  decide +kernel

/-- The state in which the entry unit is begun. -/
def begun : GenState := starting {} "main" 0 []

theorem draftPick_run {k : Nat} : (drafting (.of (genExpr context (k + 5))) 2 [] pick.body).run
    (starting begun "pick" 2 []) = .ok ((), { starting begun "pick" 2 [] with
      pool := #[.nil]
      draft := { listing := pickListing, stack := [⟨⟨1⟩, false⟩, ⟨⟨0⟩, false⟩] } }) := by
  cbv

/-- The state in which the function has been generated. -/
def noted : GenState where
  units := #[⟨"main", 0, 0, 0, #[]⟩, ⟨"pick", 2, 0, 7, pickCode.toArray⟩]
  pool := #[.nil, .closure ⟨1⟩]
  functions := #[⟨2, pick.body⟩]
  draft := {
    listing := ⟨#[some ⟨.nop, none, some ⟨2⟩⟩, some ⟨.done, some ⟨2⟩, none⟩,
      some ⟨.const ⟨0⟩ ⟨1⟩, some ⟨0⟩, some ⟨1⟩⟩], [], ⟨1⟩, #[⟨.temp, some .fn⟩]⟩
    known := (∅ : Std.HashMap Reg Nat).insert ⟨0⟩ 0 }

theorem drafting_run {k : Nat} : (drafting (.of (genExpr context (k + 6))) 0 [] source.body).run begun =
    .ok ((), { noted with draft := { noted.draft with listing := mainListing } }) := by
  have hname : (unitName pick).run begun = .ok ("pick", begun) := rfl
  have hbuild : (buildUnit context (.of (genExpr context (k + 5))) "pick" pick.arity [] pick.body).run begun =
      .ok (⟨1⟩, _) := buildUnit_of_finish draftPick_run finish_pick
  have hfn : (genExpr context (k + 6) source.body true).run begun = .ok (some ⟨0⟩, noted) := by
    have hnode : genExpr context (k + 6) source.body true =
        some <$> genFn context (.of (genExpr context (k + 5))) pick := rfl
    rw [hnode, genFn, if_pos (by decide), StateT.run_map, run_bind_of_eq hname, run_bind_of_eq hbuild]
    cbv
  have htail : ∀ sub : Sub, drafting sub 0 [] source.body = sub.tail source.body := fun _ => rfl
  rw [htail, Sub.of]
  dsimp only
  rw [run_bind_of_eq hfn]
  cbv

theorem compile_source : source.compile settings = .ok (program pickCode) := by
  rw [source.compile_of_finish settings 6 (by decide) (fun _ => drafting_run) finish_main]
  rfl

/-- The host calls the function with two texts, which are handed to it, and gives both back until they
are freed. Then it resumes the chain. -/
def script : List HostAction :=
  [.run, .call (.held 0) [.fresh "y", .fresh "x"], .resume 0, .release 1, .release 1, .release 2, .release 2,
    .release 2, .resume 1]

def machine : Machine := ⟨⟨#[some ⟨1, .closure (.plain ⟨1⟩)⟩], [], #[], ⟨1, 0, 1, 0⟩⟩, #[.nil, .obj ⟨0⟩], [], {}⟩

theorem replies_traced : ∃ log, Host.Replies (program pickCode) 100 ⟨machine, #[], #[]⟩ script log
    (some (.fault (.freedObject 2))) ∧ log.length = 8 :=
  Host.exists_log (n := 20) rfl nofun

theorem replies_untraced : ∃ log, Host.Replies (program quietCode) 100 ⟨machine, #[], #[]⟩ script log
    (some (.fault (.freedObject 1))) ∧ log.length = 8 :=
  Host.exists_log (n := 20) rfl nofun

/-- **When a value is given back twice, traces can make a difference**: the error value is freed before its
place is noted, since it took the place of an argument that the function still holds. When its place is
not noted, it is returned, and then another argument is found to be freed. -/
theorem traces_observed : ¬ ∀ (m : SourceModule) (settings : Settings) (p p' : Program)
    (machine : Machine) (frames : Nat) (script : List HostAction) (log log' : List (Host × HostReply))
    (e e' : Option HostFailure), m.compile { settings with traces := true } = .ok p →
      m.compile { settings with traces := false } = .ok p' → Machine.load p = .ok machine →
      Machine.load p' = .ok machine → Host.Replies p frames ⟨machine, #[], #[]⟩ script log e →
      Host.Replies p' frames ⟨machine, #[], #[]⟩ script log' e' →
      List.Forall₂ (Host.Alike p.types) log log' ∧ Option.Rel (HostFailure.Alike p.types False) e e' := by
  intro h
  obtain ⟨e, he, -⟩ | ⟨p, p', hp, hp', hpair⟩ := source.compile_pairs (comparable_quiet settings _)
  · cases compile_source.symm.trans he
  obtain rfl := Except.ok.inj (compile_source.symm.trans hp)
  obtain rfl := hpair.untraced
  rw [untraced_program] at hp'
  obtain ⟨log, hr, -⟩ := replies_traced
  obtain ⟨log', hr', -⟩ := replies_untraced
  have hend := (h source settings _ _ machine 100 script log log' _ _ hp hp' rfl rfl hr hr').2
  cases hend with
  | some he =>
    cases he with
    | fault hf =>
      cases hf with
      | freed _ _ hd => exact hd

end Picking

end CountedMachine
