import CountedMachine.Code.Program
import Mathlib

/-! # Code with instructions left out

Finished code in which some instructions are left out, those that `keep` does not want. Labels are then
the positions that are left (`placeIn`): what stands at a place still stands where the place has gone
(`getElem?_thin`), and stepping over an instruction that is left out leads nowhere. -/

namespace CountedMachine

/-- The instructions before a position that are kept. -/
def placeIn (keep : Instr Nat → Bool) (code : List (Instr Nat)) (pc : Nat) : Nat :=
  (code.take pc).countP keep

/-- **The code with the instructions that are kept.** -/
def thin (keep : Instr Nat → Bool) (code : List (Instr Nat)) : List (Instr Nat) :=
  (code.filter keep).map (·.relabel (placeIn keep code))

variable {keep : Instr Nat → Bool} {code : List (Instr Nat)} {pc : Nat} {i : Instr Nat}

@[simp] theorem placeIn_zero (keep : Instr Nat → Bool) (code : List (Instr Nat)) :
    placeIn keep code 0 = 0 := rfl

theorem placeIn_succ (h : code[pc]? = some i) :
    placeIn keep code (pc + 1) = if keep i then placeIn keep code pc + 1 else placeIn keep code pc := by
  rw [placeIn, placeIn, List.take_add_one, h, List.countP_append]
  cases hi : keep i <;> simp [hi]

theorem getElem?_filter_countP {α : Type} {p : α → Bool} : ∀ {xs : List α} {n : Nat} {x : α},
    xs[n]? = some x → p x = true → (xs.filter p)[(xs.take n).countP p]? = some x
  | y :: ys, 0, x, h, hx => by
    obtain rfl : y = x := by simpa using h
    simp [hx]
  | y :: ys, n + 1, x, h, hx => by
    have ih := getElem?_filter_countP (p := p) (by simpa using h) hx
    by_cases hy : p y = true
    · simpa [hy] using ih
    · simpa [hy] using ih

/-- **What stands at a place** stands where the place has gone. -/
theorem getElem?_thin (h : code[pc]? = some i) (hi : keep i = true) :
    (thin keep code)[placeIn keep code pc]? = some (i.relabel (placeIn keep code)) := by
  rw [thin, List.getElem?_map, placeIn, getElem?_filter_countP h hi]
  rfl

/-- Behind the code there is nothing. -/
theorem getElem?_thin_none (h : code[pc]? = none) :
    (thin keep code)[placeIn keep code pc]? = none := by
  rw [List.getElem?_eq_none_iff] at h ⊢
  rw [placeIn, List.take_of_length_le h, thin, List.length_map, List.countP_eq_length_filter]

end CountedMachine
