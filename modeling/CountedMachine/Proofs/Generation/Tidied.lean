import CountedMachine.Proofs.Code.Tidied
import CountedMachine.Proofs.Generation.Erasing
import CountedMachine.Proofs.Generation.Parallel

/-! # Programs with idle loads and without

Two runs of the code generator are compared, one that leaves the finished listings as they are and one
that tidies them. The listings in the making are the same, so they are finished alike but for the last
step, and that step leaves the idle loads out (`finishListing_tidied`). Hence a module is refused for the
same reason in both runs, and where it is compiled, the second program is the first one, tidied
(`SourceModule.compile_tidied`). -/

namespace CountedMachine

open Listing

namespace Listing

variable {l : Listing} {code V : Code} {block : NodeId → Code} {isNil : ConstId → Bool} {r : Reg}
  {op : CountOp} {x : NodeId}

theorem about?_relabel (i : Instr NodeId) (g : NodeId → Nat) :
    (i.relabel g).about? = loadOrAdjust? i := by
  cases i <;> rfl

theorem idle?_relabel (i : Instr NodeId) (g : NodeId → Nat) :
    (i.relabel g).idle? isNil = idleLoad? isNil i := by
  cases i <;> rfl

/-- The idle registers of laid out code are the dead ones. -/
theorem mem_idleRegs_layout : r ∈ idleRegs isNil (layout V).toList ↔ Dead isNil V r := by
  have hmem : ∀ k : Instr Nat, k ∈ (layout V).toList ↔
      ∃ a i, (a, i) ∈ V ∧ i.relabel (ids V).idxOf = k := by
    intro k
    simp [layout]
  rw [mem_idleRegs, Dead]
  refine and_congr ⟨?_, ?_⟩ ⟨fun h a i hi => ?_, fun h k hk => ?_⟩
  · rintro ⟨k, hk, hidle⟩
    obtain ⟨a, i, hi, rfl⟩ := (hmem k).mp hk
    exact ⟨a, i, hi, idle?_relabel i _ ▸ hidle⟩
  · rintro ⟨a, i, hi, hidle⟩
    exact ⟨_, (hmem _).mpr ⟨a, i, hi, rfl⟩, (idle?_relabel i _).trans hidle⟩
  · rw [← Instr.reads_relabel (ids V).idxOf]
    exact h _ ((hmem _).mpr ⟨a, i, hi, rfl⟩)
  · obtain ⟨a, i, hi, rfl⟩ := (hmem k).mp hk
    rw [Instr.reads_relabel]
    exact h a i hi

theorem not_live_of_unread (h : ∀ a i, (a, i) ∈ code → i.reads r = false) {a : NodeId} :
    ¬ Live code r a := by
  intro hl
  induction hl with
  | read ha hr => exact Bool.false_ne_true ((h _ _ ha).symm.trans hr)
  | step _ _ ih => exact ih

/-- **A dead register that is counted is dropped** where it is loaded, and nothing else is done to it. -/
theorem Placed.drop_of_dead (hr : Ready l code) (hp : Placed l code block)
    (hx : (x, .adjust op r) ∈ weave code block) (hdead : Dead isNil code r) : op = .drop := by
  obtain ⟨a, -, hx⟩ := (mem_weave.mp hx).resolve_left hr.unadjusted
  obtain ⟨_, _, f, e, hf, hcounted, -⟩ := hp.adjusts hx
  cases e
  obtain ⟨⟨c, i, hc, hidle⟩, hunread⟩ := hdead
  have hcr := creates_of_idleLoad hidle
  obtain ⟨first, hnext, -⟩ := hr.orderly.exists_next hc (by rintro rfl; cases hcr)
  have hplaced := hp.placedFor hf hcounted hc hcr hnext
  have hlive : ¬ Live code r first := not_live_of_unread hunread
  have hborn : f.bornOwned = false := by
    cases hown : f.bornOwned with
    | false => rfl
    | true => rcases hr.merged hf hown hc hcr with rfl | rfl <;> cases hidle
  have hops := (hp.op_cases hr hx).1
  by_cases ha : a = c
  · rw [ha, hplaced.discard hlive, hborn] at hops
    exact (List.cons.inj hops).1.symm
  · rw [hplaced.none ha fun h => hlive h.1] at hops
    cases hops

theorem relabel_self (i : Instr NodeId) : i.relabel (fun b => b) = i := by
  cases i <;> rfl

/-- **Finishing a listing**, tidied or not: the code of the tidied one is the other code without its idle
loads. -/
theorem finishListing_tidied {settings : Settings} {pool : Array Constant} {name : String}
    {c c' : Array (Instr Nat)} {n n' : Nat} (hr : Ready l code) (hcur : l.cursor = tail)
    (hhead : (head, .nop) ∈ code)
    (e : Gen.finishListing { settings with tidy := false } pool name l = .ok (c, n))
    (e' : Gen.finishListing { settings with tidy := true } pool name l = .ok (c', n')) :
    let isNil : ConstId → Bool := fun k => pool[k.index]?.any Constant.isNil
    n' = n ∧ c'.toList = thin (·.spares (idleRegs isNil c.toList)) c.toList ∧
      DropsIdle isNil c.toList := by
  intro isNil
  obtain ⟨l₁, _, block, hplace, hl, hp, rfl, rfl⟩ := finishListing_eq hr hcur hhead e
  obtain ⟨l₁', _, block', hplace', hl', hp', rfl, rfl⟩ := finishListing_eq hr hcur hhead e'
  obtain ⟨rfl, -⟩ := Prod.mk.inj (Except.ok.inj (hplace.symm.trans hplace'))
  have hweave : weave code block' = weave code block := hl'.entries_eq.symm.trans hl.entries_eq
  have hall : (weave code block).filter (stays false isNil code) = weave code block :=
    List.filter_eq_self.mpr fun x _ => by simp [stays]
  rw [hweave, hall]
  set V := weave code block with hV
  have hidle : ∀ {r}, r ∈ idleRegs isNil (layout V).toList ↔ Dead isNil code r :=
    mem_idleRegs_layout.trans hp.dead_weave
  have hleft : ∀ (i : Instr NodeId) (g : NodeId → Nat),
      (i.relabel g).spares (idleRegs isNil (layout V).toList) = stays true isNil code (head, i) := by
    intro i g
    rw [Bool.eq_iff_iff, ← not_iff_not, Bool.not_eq_true, Bool.not_eq_true, Instr.spares_eq_false,
      stays_eq_false, about?_relabel]
    simp only [hidle, true_and, and_comm]
  have hpairs : List.Forall₂ (Pairs (fun b => b) V) (V.filter (stays true isNil code))
      (V.filter (stays true isNil code)) :=
    List.forall₂_same.mpr fun x _ => ⟨(relabel_self x.2).symm, fun _ => rfl⟩
  refine ⟨rfl, layout_eq_thin hleft hl.nodup (hl.nodup.sublist (List.filter_sublist.map _)) hpairs
    fun {a i b} ha hb => ?_, fun {op r} hadj hr' => ?_⟩
  · have ha := hp.mem_code ha (by rintro op q rfl; cases hb)
    obtain ⟨j, hj, hjl⟩ := hr.orderly.labels ha hb
    have hjw : (b, j) ∈ V := mem_weave.mpr (Or.inl hj)
    exact ⟨mem_ids hjw, j, hjw, stays_of_none _ (loadOrAdjust_of_label hjl)⟩
  · obtain ⟨pc, hpc⟩ := List.mem_iff_getElem?.mp hadj
    rw [Array.getElem?_toList] at hpc
    obtain ⟨x, i, hi, ei⟩ := exists_of_layout hpc
    obtain rfl := Instr.eq_adjust_of_relabel ei.symm
    exact hp.drop_of_dead hr (List.mem_of_getElem? hi) (hidle.mp hr')

end Listing

namespace Gen

/-- **The same listing, and units of which the second is tidied.** The constants that were known to be nil
are nil. -/
def tidying : Pairing Unit where
  listings _ l l' := l' = l
  units pool u u' := ∃ isNil : ConstId → Bool, (∀ k, isNil k = true → pool[k.index]? = some .nil) ∧
    u' = u.tidied isNil ∧ DropsIdle isNil u.code.toList
  named _ a b := b = a
  start := ()
  named_mono _ h := h
  regs h := congrArg Listing.regs h
  withRegs _ h := by rw [h]
  empty := rfl
  blank pool name arity ncaps := ⟨fun _ => false, nofun, rfl, nofun⟩
  units_mono hpool := fun ⟨isNil, hnil, h⟩ => ⟨isNil, fun k hk => hpool (hnil k hk), h⟩
  insert := by
    rintro _ l _ l₁ l₁' i id id' rfl - - e e'
    obtain ⟨rfl, rfl⟩ := Prod.mk.inj (Except.ok.inj (e.symm.trans e'))
    exact ⟨(), le_rfl, rfl, rfl⟩
  retarget := by
    rintro _ l _ l₁ l₁' a _ c _ i i' rfl rfl rfl hget hput hget' hput'
    obtain rfl := Except.ok.inj (hget.symm.trans hget')
    exact Except.ok.inj (hput'.symm.trans hput)

variable {σ : Site} {w : Ties Unit}

/-- A trace is written in both runs. -/
theorem tracks_trace (r : Reg) (loc : Location) :
    Tracks tidying σ w (write (.trace r loc)) (write (.trace r loc)) Same := by
  refine ⟨fun {w₁ s s'} _ ht => ?_⟩
  have hlisting : s'.draft.listing = s.draft.listing := ht.listing
  unfold write
  cases e : s.draft.listing.insert (.trace r loc) with
  | error f =>
    rw [StateT.run_bind, writeNode_fault e]
    exact .fault f _
  | ok out =>
    rw [run_bind_of_eq (writeNode_run e), run_bind_of_eq (writeNode_run (hlisting ▸ e))]
    exact .ends (.refl _) (ht.withListing (P := tidying) rfl) rfl

/-- **Code is generated alike** whether listings are tidied or not. -/
theorem comparable_tidied (settings : Settings) (types : Array StructType) :
    Comparable tidying ⟨{ settings with tidy := false }, types⟩ ⟨{ settings with tidy := true }, types⟩
    where
  types := rfl
  inlining := rfl
  inlineSize := rfl
  inlineLevels := rfl
  returnErrors r loc := tracks_returnErrors r loc fun loc => by
    dsimp only
    split
    · exact (tracks_trace r loc).then fun _ => tracks_write rfl rfl
    · exact tracks_write rfl rfl
  finish := by
    rintro _ l _ ys pool name c c' k k' arity ncaps rfl hready hcur hout hout'
    obtain ⟨rfl, hc', hdrops⟩ := finishListing_tidied hready hcur (by simp [unitCode]) hout hout'
    refine ⟨_, fun k hk => ?_, ?_, hdrops⟩
    · cases hpool : pool[k.index]? with
      | none => simp [hpool] at hk
      | some c => cases c <;> simp_all [Constant.isNil]
    · rw [CodeUnit.tidied, ← hc']

end Gen

/-- **A module is compiled alike with idle loads and without**: it is refused for the same reason, or the
second program is the first one, tidied. The loads left out load nil, parameters and captures, and the
ownership instructions left out are drops. -/
theorem SourceModule.compile_tidied (m : SourceModule) (settings : Settings) :
    (∃ e, m.compile { settings with tidy := false } = .error (.refused e) ∧
        m.compile { settings with tidy := true } = .error (.refused e)) ∨
      ∃ p isNil, m.compile { settings with tidy := false } = .ok p ∧
        m.compile { settings with tidy := true } = .ok (p.tidied isNil) ∧
        (∀ k j, isNil k j = true → p.consts[j.index]? = some .nil) ∧
        ∀ k u, p.units[k]? = some u → DropsIdle (isNil k) u.code.toList := by
  refine (m.compile_pairs (Gen.comparable_tidied settings _)).imp id ?_
  rintro ⟨p, p', hp, hp', hpair⟩
  have hunits : ∀ k : Nat, ∃ isNil : ConstId → Bool,
      (∀ j, isNil j = true → p.consts[j.index]? = some .nil) ∧ ∀ u, p.units[k]? = some u →
        p'.units[k]? = some (u.tidied isNil) ∧ DropsIdle isNil u.code.toList := by
    intro k
    cases hu : p.units[k]? with
    | none => exact ⟨fun _ => false, nofun, nofun⟩
    | some u =>
      have hk : k < p'.units.size := hpair.size ▸ (Array.getElem?_eq_some_iff.mp hu).1
      obtain ⟨isNil, hnil, htidied, hdrops⟩ := hpair.units hu (Array.getElem?_eq_getElem hk)
      refine ⟨isNil, hnil, fun u' hu' => ?_⟩
      obtain rfl := Option.some.inj hu'
      exact ⟨by rw [Array.getElem?_eq_getElem hk, htidied], hdrops⟩
  choose isNil hnil htidied using hunits
  refine ⟨p, isNil, hp, ?_, hnil, fun k u hu => (htidied k u hu).2⟩
  rw [hp']
  congr 1
  obtain ⟨units, consts, types, entry⟩ := p
  obtain ⟨units', consts', types', entry'⟩ := p'
  obtain rfl : entry' = entry := hpair.entry
  obtain rfl : types' = types := hpair.types
  obtain rfl : consts' = consts := hpair.consts
  suffices hmap : units' = units.mapIdx fun k u => u.tidied (isNil k) by
    rw [hmap]
    rfl
  refine Array.ext (by simp [show units'.size = units.size from hpair.size]) fun k hk hk' => ?_
  have hk₀ : k < units.size := by simpa using hk'
  have := (htidied k units[k] (Array.getElem?_eq_getElem hk₀)).1
  rw [Array.getElem?_eq_getElem hk] at this
  simpa using Option.some.inj this

end CountedMachine
