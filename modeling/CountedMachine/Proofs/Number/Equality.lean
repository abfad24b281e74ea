import CountedMachine.Number.Remainder
import Mathlib

/-! # Numbers that compare equal

Numbers compare equal when they are the same, with two exceptions: what is no number differs from
itself, and the two zeros compare equal (`float_beq_iff`). So the comparison is symmetric and
transitive, and reflexive on numbers (`float_beq_comm`, `float_beq_trans`, `float_beq_self`). -/

namespace CountedMachine

section
open Float.Model

variable {x y z : Float}

theorem unpack_inj : x.toModel.unpack = y.toModel.unpack ↔ x = y := by
  refine ⟨fun h => ?_, fun e => e ▸ rfl⟩
  obtain ⟨⟨xbits, hx⟩⟩ := x
  obtain ⟨⟨ybits, hy⟩⟩ := y
  have hbits : xbits.toBitVec = ybits.toBitVec :=
    (UnpackedFloat.unpack_inj_of_valid hx hy (by decide)).mp h
  obtain rfl : xbits = ybits := UInt64.toBitVec_inj.mp hbits
  rfl

theorem unpack_eq_zero_iff : x.toModel.unpack = .zero .positive ↔ x = 0 := by
  rw [← unpack_inj]
  rfl

theorem unpack_eq_neg_zero_iff : x.toModel.unpack = .zero .negative ↔ x = -0 := by
  rw [← unpack_inj]
  rfl

theorem unpack_ne_nan_iff : x.toModel.unpack ≠ .notANumber ↔ x.isNaN = false := by
  rw [← Bool.not_eq_true, not_iff_not]
  exact UnpackedFloat.isNaN_iff.symm

end

/-- One of the numbers is zero, and the other is zero with a sign. -/
def OppositeZeros (x y : Float) : Prop := (x = 0 ∧ y = -0) ∨ (x = -0 ∧ y = 0)

section
variable {x y z : Float}

/-- **Numbers that compare equal** are the same, or they are the two zeros. -/
theorem float_beq_iff : (x == y) = true ↔
    x.isNaN = false ∧ y.isNaN = false ∧ (x = y ∨ OppositeZeros x y) := by
  have h := Float.Model.UnpackedFloat.beq_iff_ne_notANumber_and_eq x.toModel.unpack y.toModel.unpack
  rw [unpack_ne_nan_iff, unpack_ne_nan_iff, unpack_inj, unpack_eq_zero_iff, unpack_eq_zero_iff,
    unpack_eq_neg_zero_iff, unpack_eq_neg_zero_iff] at h
  exact h

theorem float_beq_self : (x == x) = !x.isNaN := by
  rw [Bool.eq_iff_iff, float_beq_iff]
  simp

theorem float_beq_comm : (x == y) = (y == x) := by
  have hzero : OppositeZeros x y ↔ OppositeZeros y x := by
    unfold OppositeZeros
    tauto
  rw [Bool.eq_iff_iff, float_beq_iff, float_beq_iff, hzero, eq_comm]
  tauto

theorem float_beq_trans (h : (x == y) = true) (h' : (y == z) = true) : (x == z) = true := by
  rw [float_beq_iff] at h h' ⊢
  obtain ⟨hx, -, rfl | hxy⟩ := h
  · exact h'
  · obtain ⟨-, hz, rfl | hyz⟩ := h'
    · exact ⟨hx, hz, Or.inr hxy⟩
    · refine ⟨hx, hz, Or.inl ?_⟩
      rcases hxy with ⟨rfl, rfl⟩ | ⟨rfl, rfl⟩ <;> rcases hyz with ⟨hy, rfl⟩ | ⟨hy, rfl⟩ <;>
        first | rfl | exact hy.symm

end

end CountedMachine
