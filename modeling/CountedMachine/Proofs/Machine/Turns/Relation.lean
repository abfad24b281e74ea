import CountedMachine.Proofs.Heap.Paired
import CountedMachine.Proofs.Machine.Upkeep

/-! # Machines with paired objects

Two machines work on the same frames, over heaps that are paired (`Running.PairedBy`). Their registers correspond
as far as they matter: a register that is alive, or owns a reference, holds corresponding values, and all
others hold objects on both sides or the same immediate on both. What matters at a place mattered before
(`Frame.Stocked.matters_back`), and is live (`Frame.Rests.wants_live`), so frames stay paired when objects are
freed that neither of them wants (`Frame.PairedBy.follow`). -/

namespace CountedMachine

open Heap

/-- The register is alive, or owns a reference. -/
def Matters (code : Array (Instr Nat)) (pc : Nat) (r : Reg) : Prop := Alive code pc r ∨ owned code pc r ≠ 0

section
variable {β γ : ObjId → ObjId → Prop} {p : Program} {h k : Heap} {w w' : World} {ρ ρ' : Env} {f f' g g' : Frame}
  {i : Instr Nat} {code : Array (Instr Nat)} {pc pc' : Nat} {r : Reg} {x y : ObjId} {st st' : Holding}

/-! ## What matters -/

namespace World.Vetted

theorem alive_of_matters (hv : w.Vetted code) (hu : ¬ w.Uncounted r) (hst : Walk code r pc st)
    (hm : Matters code pc r) : st.dead = false := by
  rcases hm with ⟨st', hst', hd⟩ | hm
  · exact hv.walk_unique hu hst' hst ▸ hd
  · rw [hv.owned_of_walk hu hst] at hm
    rcases hv.walk_cases hu hst with rfl | rfl | ⟨rfl, -⟩
    · rfl
    · exact absurd rfl hm
    · rfl

end World.Vetted

namespace Frame

theorem Stocked.counted (hf : f.Stocked w h code ρ) (hm : w.Modest ρ) (hx : f.get r = .obj x) :
    ¬ w.Uncounted r := fun hu => by
  have h0 := hf.refsOf_uncounted hm hu
  rw [hx] at h0
  simp [refsOf_obj] at h0

/-- **What matters behind an instruction mattered before it**, and was owned unless the instruction adjusts it. -/
theorem Stocked.matters_back (hv : w.Vetted code) (hf : f.Stocked w h code ρ) (hreach : w.Reached code f.pc ρ)
    (hi : code[f.pc]? = some i) (hexit : pc' ∈ i.exits f.pc) (hx : f.get r = .obj x) (hm : Matters code pc' r) :
    Matters code f.pc r ∧ ((∀ op, i ≠ .adjust op r) → owned code f.pc r = 1) := by
  obtain ⟨i', hi', hs⟩ := hv.safe hreach
  have hu := hf.counted hs.modest hx
  cases hr : ρ.regs r with
  | void => cases (hf.void hr).symm.trans hx
  | held κ =>
    have hone := hv.owned_of_held hu hreach hr
    exact ⟨Or.inr (by rw [hone]; decide), fun _ => hone⟩
  | val κ =>
    obtain ⟨st, hst⟩ := hv.walk_of_val hreach hr
    have hst' := hst.step hi hexit
    have hd' := hv.alive_of_matters hu hst' hm
    refine ⟨Or.inl ⟨st, hst, hv.alive_of_step hu hst hi hexit hst' hd'⟩, fun hadj => ?_⟩
    obtain ⟨rfl, -⟩ := hv.walk_alive hu hst hi hexit hadj hst' hd'
    exact hv.owned_of_walk hu hst

theorem mem_refs_of_owned (p : Program) (h1 : owned (p.codeOf f.unit) f.pc r = 1) (hx : f.get r = .obj x) :
    x ∈ f.refs p := by
  refine Multiset.mem_of_le ((share_le_regRefs _ f r).trans (regRefs_le_refs p f)) ?_
  rw [share, h1, one_nsmul, hx]
  simp [refsOf_obj]

theorem mem_refs_of_arg (p : Program) (hx : .obj x ∈ f.args) : x ∈ f.refs p :=
  Multiset.mem_add.mpr (Or.inr (Multiset.mem_add.mpr (Or.inl (mem_refsOf.mpr hx))))

theorem mem_refs_of_closure (p : Program) (hx : .obj x ∈ f.closure.toList) : x ∈ f.refs p :=
  Multiset.mem_add.mpr (Or.inr (Multiset.mem_add.mpr (Or.inr (mem_refsOf.mpr hx))))

/-- **What the frame wants** when control comes to a place, apart from the register that an instruction fills. -/
def Wants (p : Program) (i : Instr Nat) (pc' : Nat) (f : Frame) (x : ObjId) : Prop :=
  .obj x ∈ f.args ∨ .obj x ∈ f.closure.toList ∨
    ∃ r, i.fills ≠ some r ∧ Matters (p.codeOf f.unit) pc' r ∧ f.get r = .obj x

/-- What is wanted behind an instruction that adjusts nothing is owned. -/
theorem Rests.wants_owned [p.Origin] {j : Instr Nat} (hf : f.Rests p h w ρ) (hi : (p.codeOf f.unit)[f.pc]? = some i)
    (hexit : pc' ∈ i.exits f.pc) (hadj : ∀ op r, i ≠ .adjust op r) (hx : f.Wants p j pc' x) : x ∈ f.refs p := by
  rcases hx with hx | hx | ⟨r, -, hm, hx⟩
  · exact mem_refs_of_arg p hx
  · exact mem_refs_of_closure p hx
  · have hback := hf.stocked.matters_back hf.home.vetted hf.reached hi hexit hx hm
    exact mem_refs_of_owned p (hback.2 fun op => hadj op r) hx

/-- What a parked frame wants is owned. -/
theorem Parked.wants_owned [p.Origin] {j : Instr Nat} (hf : f.Parked p h i w pc ρ) (hx : f.Wants p j f.pc x) :
    x ∈ f.refs p := by
  rcases hx with hx | hx | ⟨r, -, hm, hx⟩
  · exact mem_refs_of_arg p hx
  · exact mem_refs_of_closure p hx
  · have hv := hf.home.vetted
    obtain ⟨i', -, hs⟩ := hv.safe hf.reached
    have hu := hf.stocked.counted hs.modest hx
    rcases hf.calm.regs r with e | ⟨κ, e, -⟩
    · cases (hf.stocked.void e).symm.trans hx
    · obtain ⟨st, hst⟩ := hv.walk_of_val hf.reached e
      have hst' := hst.step hf.instr (Instr.exits_of_parks hf.parks)
      have hd' := hv.alive_of_matters hu hst' (hf.place ▸ hm)
      obtain ⟨-, hone⟩ := hv.walk_alive hu hst hf.instr (Instr.exits_of_parks hf.parks)
        (Instr.ne_adjust_of_parks hf.parks · r) hst' hd'
      refine mem_refs_of_owned p ?_ hx
      rw [hf.place, hv.owned_of_walk hu hst', hone]

/-! ## Paired frames -/

/-- **Frames with paired objects:** at the same place, with corresponding arguments and captures, and registers that
correspond as far as they matter. -/
structure PairedBy (p : Program) (β : ObjId → ObjId → Prop) (f g : Frame) : Prop where
  unit : g.unit = f.unit
  pc : g.pc = f.pc
  ret : g.ret = f.ret
  args : Values.PairedBy β f.args g.args
  closure : Values.PairedBy β f.closure.toList g.closure.toList
  regs : ∀ r, (f.get r).PairedBy (fun x y => Matters (p.codeOf f.unit) f.pc r → β x y) (g.get r)
  scopes : g.scopes.length = f.scopes.length

/-- **Frames stay paired** on the way to the same place. -/
theorem PairedBy.follow {S T : Set ObjId} (hl : f.PairedBy p β g) (hf : Follows i pc' f f') (hg : Follows i pc' g g')
    (hscopes : g'.scopes.length = f'.scopes.length)
    (hback : ∀ {r x}, i.fills ≠ some r → Matters (p.codeOf f.unit) pc' r → f.get r = .obj x →
      Matters (p.codeOf f.unit) f.pc r)
    (hfill : ∀ r, i.fills = some r → (f'.get r).PairedBy γ (g'.get r))
    (hkept : ∀ {x y}, β x y → x ∈ S → y ∈ T → γ x y) (hS : ∀ x, f.Wants p i pc' x → x ∈ S)
    (hT : ∀ y, g.Wants p i pc' y → y ∈ T) : f'.PairedBy p γ g' where
  unit := by rw [hf.unit, hg.unit, hl.unit]
  pc := by rw [hf.place, hg.place]
  ret := by rw [hf.ret, hg.ret, hl.ret]
  args := by
    rw [hf.args, hg.args]
    exact Values.PairedBy.imp hl.args fun x y hx hy hβ => hkept hβ (hS x (Or.inl hx)) (hT y (Or.inl hy))
  closure := by
    rw [hf.closure, hg.closure]
    exact Values.PairedBy.imp hl.closure fun x y hx hy hβ =>
      hkept hβ (hS x (Or.inr (Or.inl hx))) (hT y (Or.inr (Or.inl hy)))
  regs r := by
    by_cases hr : i.fills = some r
    · exact (hfill r hr).imp fun _ _ _ _ hγ _ => hγ
    · rw [hf.get r hr, hg.get r hr, hf.unit, hf.place]
      refine (hl.regs r).imp fun x y hx hy hβ hm => ?_
      refine hkept (hβ (hback hr hm hx)) (hS x (Or.inr (Or.inr ⟨r, hr, hm, hx⟩))) (hT y ?_)
      exact Or.inr (Or.inr ⟨r, hr, by rwa [hl.unit], hy⟩)
  scopes := hscopes

/-- A frame in which nothing happens. -/
theorem PairedBy.keep {S T : Set ObjId} (hl : f.PairedBy p β g) (hkept : ∀ {x y}, β x y → x ∈ S → y ∈ T → γ x y)
    (hS : ∀ x, f.Wants p .nop f.pc x → x ∈ S) (hT : ∀ y, g.Wants p .nop g.pc y → y ∈ T) : f.PairedBy p γ g :=
  hl.follow (i := .nop) (follows_of_regs .nop f.pc f f.scopes) (hl.pc ▸ follows_of_regs .nop g.pc g g.scopes)
    hl.scopes (fun _ hm _ => hm) nofun hkept hS (fun y hy => hT y (by rwa [hl.pc]))

theorem PairedBy.symm (hl : f.PairedBy p β g) : g.PairedBy p (flip β) f where
  unit := hl.unit.symm
  pc := hl.pc.symm
  ret := hl.ret.symm
  args := Values.PairedBy.symm hl.args
  closure := Values.PairedBy.symm hl.closure
  regs r := (hl.regs r).symm.imp fun x y _ _ hβ hm => hβ (by rwa [← hl.unit, ← hl.pc])
  scopes := hl.scopes.symm

/-- A frame is like itself. -/
theorem pairedBy_self (hf : ∀ x, f.Wants p .nop f.pc x → β x x) : f.PairedBy p β f where
  unit := rfl
  pc := rfl
  ret := rfl
  args := Values.PairedBy.imp (Values.pairedBy_eq.mpr rfl) fun x _ hx _ e => e ▸ hf x (Or.inl hx)
  closure := Values.PairedBy.imp (Values.pairedBy_eq.mpr rfl) fun x _ hx _ e => e ▸ hf x (Or.inr (Or.inl hx))
  regs r := (Value.pairedBy_eq.mpr rfl).imp fun x _ hx _ e hm => e ▸ hf x (Or.inr (Or.inr ⟨r, nofun, hm, hx⟩))
  scopes := rfl

/-- Fresh frames. -/
theorem New.like {unit : UnitId} {args args' : List Value} {closure closure' : Option Value} {ret : Option Reg}
    (hf : f.New unit args closure ret) (hg : g.New unit args' closure' ret) (hargs : Values.PairedBy β args args')
    (hclosure : Values.PairedBy β closure.toList closure'.toList) : f.PairedBy p β g where
  unit := by rw [hf.unit, hg.unit]
  pc := by rw [hf.pc, hg.pc]
  ret := by rw [hf.ret, hg.ret]
  args := by rwa [hf.args, hg.args]
  closure := by rwa [hf.closure, hg.closure]
  regs r := by
    rw [hf.regs, hg.regs]
    exact .nil
  scopes := by rw [hf.scopes, hg.scopes]

end Frame

/-! ## Frames that wait -/

/-- Chains of paired frames, the innermost first. -/
abbrev Frames.PairedBy (p : Program) (β : ObjId → ObjId → Prop) : List Frame → List Frame → Prop :=
  List.Forall₂ (Frame.PairedBy p β)

variable {fs gs : List Frame} {ret ret' : Option Reg} {S T : Set ObjId}

theorem Frames.PairedBy.symm (hl : Frames.PairedBy p β fs gs) : Frames.PairedBy p (flip β) gs fs := by
  induction hl with
  | nil => exact .nil
  | cons hf _ ih => exact .cons hf.symm ih

end

/-! ## Paired machines -/

/-- The heaps are paired, and the constants correspond. -/
structure Machine.PairedBy (β : ObjId → ObjId → Prop) (m m' : Machine) : Prop where
  heaps : Paired β m.heap m'.heap
  consts : Values.PairedBy β m.consts.toList m'.consts.toList

/-- **Machines at work with paired objects.** -/
structure Running.PairedBy (p : Program) (β : ObjId → ObjId → Prop) (s t : Running) : Prop where
  machine : s.machine.PairedBy β t.machine
  stack : Values.PairedBy β s.machine.stack t.machine.stack
  callers : Frames.PairedBy p β s.callers.toList.reverse t.callers.toList.reverse
  cur : s.cur.PairedBy p β t.cur

/-- **Outcomes that correspond.** -/
inductive Outcome.PairedBy (p : Program) (β : ObjId → ObjId → Prop) : Outcome → Outcome → Prop
  | returned {v v' : Value} : v.PairedBy β v' → PairedBy p β (.returned v) (.returned v')
  | yielded {v v' : Value} {c c' : Suspension} : v.PairedBy β v' →
    Frames.PairedBy p β c.frames.toList.reverse c'.frames.toList.reverse → PairedBy p β (.yielded v c) (.yielded v' c')

/-- What two steps come to. -/
inductive Progress.PairedBy (p : Program) (β : ObjId → ObjId → Prop) : Progress → Progress → Prop
  | more {s t : Running} : s.PairedBy p β t → PairedBy p β (.more s) (.more t)
  | stop {m m' : Machine} {o o' : Outcome} : m.PairedBy β m' → o.PairedBy p β o' →
      PairedBy p β (.stop m o) (.stop m' o')

section
variable {β γ : ObjId → ObjId → Prop} {p : Program} [p.Origin] {B B' : Multiset ObjId} {s t : Running} {w : World}
  {ρ : Env} {f f' g' : Frame} {i : Instr Nat} {n : Nat} {r : Reg} {x : ObjId}

namespace Working

variable (hw : Working p B s w ρ)
include hw

omit hw in
omit [p.Origin] in
/-- What is held outside is among the references of the machine at work. -/
theorem owned_of_outside {E : Set ObjId} (hE : ∀ x ∈ E, x ∈ refsOf s.machine.consts.toList + B) :
    ∀ x ∈ E, x ∈ s.refs p + B := fun x hx => by
  refine Multiset.mem_of_le ?_ (hE x hx)
  rw [Running.refs]
  exact add_le_add_left ((Multiset.le_add_left _ _).trans ((Multiset.le_add_left _ _).trans
    (Multiset.le_add_left _ _))) B

/-- What is held outside is live, and what live objects hold is, too. -/
theorem closed {E : Set ObjId} (hE : ∀ x ∈ E, x ∈ refsOf s.machine.consts.toList + B) :
    Closed E s.machine.heap :=
  hw.good.sound.closed (owned_of_outside hE)

end Working

end

end CountedMachine
