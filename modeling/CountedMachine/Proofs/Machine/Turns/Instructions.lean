import CountedMachine.Proofs.Machine.Turns.Relation
import CountedMachine.Proofs.Machine.Control
import CountedMachine.Proofs.Machine.Leaks

/-! # Two machines, step by step

Machines with paired objects carry out the same instruction, and are paired afterwards (`Working.PairsStep`); meanwhile
what can be reached from the references that are held outside lasts. What the one machine frees drops out of
the pairing, new objects join it.

Two instructions would break this: an assignment could change what is held outside, and so could noting a place
on an error value. Programs in which neither occurs are called steadfast (`Program.Steadfast`). -/

namespace CountedMachine

open Heap

namespace Heap

variable {β : ObjId → ObjId → Prop} {E : Set ObjId} {R T : Multiset ObjId} {h h' k k' : Heap}
  {v w v' w' : Value} {vs ws : List Value} {o o' : Object} {q q' : Heap × Value}

/-- The heaps go on being paired, and the results correspond. -/
def Makes (β : ObjId → ObjId → Prop) (E : Set ObjId) (h k : Heap) (q q' : Heap × Value) : Prop :=
  ∃ γ, Advance β γ Set.univ Set.univ E h q.1 k q'.1 ∧ q.2.PairedBy γ q'.2

theorem recounts_inc (e : h.inc v = .ok h') : Recounts h h' := by
  cases v with
  | obj r =>
    obtain ⟨c, hr⟩ := live_of_incObj e
    rw [Heap.inc, incObj_eq hr] at e
    obtain rfl := Except.ok.inj e
    exact recounts_setSlot hr _
  | _ =>
    obtain rfl := Except.ok.inj e
    exact ⟨fun _ => rfl, rfl⟩

theorem recounts_incAll : ∀ {vs : List Value} {h : Heap}, h.incAll vs = .ok h' → Recounts h h'
  | [], h, e => by
    obtain rfl : h = h' := Except.ok.inj e
    exact ⟨fun _ => rfl, rfl⟩
  | v :: vs, h, e => by
    rw [Heap.incAll, List.foldlM_cons] at e
    obtain ⟨h₁, e₁, e⟩ := bind_ok e
    exact (recounts_inc e₁).trans (recounts_incAll e)

/-- References are taken on both sides. -/
theorem Paired.incAll {S U : Set ObjId} (hp : Paired β h k) (e : h.incAll vs = .ok h') (e' : k.incAll ws = .ok k')
    (hc : Closed E h) : Advance β β S U E h h' k k' :=
  hp.same (recounts_incAll e).objs (recounts_incAll e').objs hc

theorem Paired.inc {S U : Set ObjId} (hp : Paired β h k) (e : h.inc v = .ok h') (e' : k.inc w = .ok k')
    (hc : Closed E h) : Advance β β S U E h h' k k' :=
  hp.same (recounts_inc e).objs (recounts_inc e').objs hc

theorem Makes.after (ha : Advance β β Set.univ Set.univ E h h' k k') (hm : Makes β E h' k' q q') :
    Makes β E h k q q' := by
  obtain ⟨γ, hadv, hv⟩ := hm
  exact ⟨γ, ha.trans hadv, hv⟩

section
variable (hp : Paired β h k) (ha : Arena h) (ha' : Arena k) (hc : Closed E h)

include hp in
/-- **Looking at values that correspond** tells the same, when it does so of objects that are alike and
the heap makes no difference otherwise. -/
theorem Paired.inspect_eq {γ : Type} (inspect : Heap → Value → Except Fault γ) {next : Object → Except Fault γ}
    {a b : γ} (hobj : ∀ h x, inspect h (.obj x) = h.get x >>= next)
    (hrest : ∀ v, v.asObj? = none → inspect k v = inspect h v)
    (hnext : ∀ {o o'}, o.PairedBy β o' → next o' = next o) (hl : v.PairedBy β w) (e : inspect h v = .ok a)
    (e' : inspect k w = .ok b) : b = a := by
  cases hl with
  | obj hβ =>
    rw [hobj] at e e'
    obtain ⟨o, ho, e⟩ := bind_ok e
    obtain ⟨o', ho', e'⟩ := bind_ok e'
    rw [hnext (hp.get_pairedBy hβ ho ho')] at e'
    exact Except.ok.inj (e'.symm.trans e)
  | _ =>
    rw [hrest _ rfl] at e'
    exact Except.ok.inj (e'.symm.trans e)

include hp in
theorem Paired.isOfType_eq {ty : ObjType} {a b : Bool} (hl : v.PairedBy β w) (e : h.isOfType v ty = .ok a)
    (e' : k.isOfType w ty = .ok b) : b = a := by
  refine hp.inspect_eq (fun h v => h.isOfType v ty) (fun _ _ => rfl) (fun v hv => ?_)
    (fun ho => ?_) hl e e'
  · cases v <;> first | rfl | cases hv
  · cases ho <;> rfl

include hp ha ha' hc

end

end Heap

/-! ## Everyday instructions -/

namespace Working

variable {β γ : ObjId → ObjId → Prop} {p : Program} [p.Origin] {B B' : Multiset ObjId} {E : Set ObjId} {s t : Running}
  {w w' : World} {ρ ρ' : Env} {i : Instr Nat} {q q' : Progress} {limit : Nat} {dst src : Reg} {v v' : Value}

variable (hw : Working p B s w ρ) (hw' : Working p B' t w' ρ') (hl : s.PairedBy p β t)
  (hE : ∀ x ∈ E, x ∈ refsOf s.machine.consts.toList + B)
include hw hw' hl hE

end Working

end CountedMachine
