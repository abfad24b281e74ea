/-! # Sets of characters as ranges

A set of characters is kept as closed ranges of code points in ascending order. `covers` looks a
character up from the low end and stops at the first range that lies above it; in ascending ranges
this finds exactly the members (`covers_iff`). -/

namespace CountedMachine.Text

/-- Closed ranges of code points. -/
abbrev Ranges := List (Nat × Nat)

namespace Ranges

/-- Each range ends at or after its start, and before the start of the next. -/
def Ascending : Ranges → Prop
  | [] => True
  | [(lo, hi)] => lo ≤ hi
  | (lo, hi) :: (lo', hi') :: rest => lo ≤ hi ∧ hi < lo' ∧ Ascending ((lo', hi') :: rest)

/-- The ascending order is checked pair by pair. -/
def decideAscending : (rs : Ranges) → Decidable rs.Ascending
  | [] => .isTrue trivial
  | [(lo, hi)] => Nat.decLe lo hi
  | (lo, hi) :: (lo', hi') :: rest =>
    have := decideAscending ((lo', hi') :: rest)
    inferInstanceAs (Decidable (lo ≤ hi ∧ hi < lo' ∧ Ascending ((lo', hi') :: rest)))

instance (rs : Ranges) : Decidable rs.Ascending := decideAscending rs

/-- The code point lies in one of the ranges, looked up from the low end. -/
def coversNat : Ranges → Nat → Bool
  | [], _ => false
  | (lo, hi) :: rest, n => lo ≤ n && (n ≤ hi || coversNat rest n)

/-- The character lies in one of the ranges. -/
def covers (rs : Ranges) (c : Char) : Bool := rs.coversNat c.toNat

/-- A range that starts after the end of another lies above it throughout. -/
theorem Ascending.lt_of_mem {lo hi : Nat} {rs : Ranges} (h : Ascending ((lo, hi) :: rs)) :
    ∀ r ∈ rs, lo < r.1 := by
  induction rs generalizing lo hi with
  | nil => simp
  | cons r rest ih =>
    obtain ⟨lo', hi'⟩ := r
    obtain ⟨h₁, h₂, h₃⟩ := h
    intro r hr
    rcases List.mem_cons.mp hr with rfl | hr
    · show lo < lo'
      omega
    · have := ih h₃ r hr
      omega

/-- The rest of ascending ranges is ascending. -/
theorem Ascending.tail {r : Nat × Nat} {rs : Ranges} (h : Ascending (r :: rs)) : rs.Ascending := by
  cases rs with
  | nil => trivial
  | cons => exact h.2.2

/-- In ascending ranges the search from the low end finds exactly the members. -/
theorem covers_iff {rs : Ranges} (h : rs.Ascending) {c : Char} :
    rs.covers c = true ↔ ∃ r ∈ rs, r.1 ≤ c.toNat ∧ c.toNat ≤ r.2 := by
  unfold covers
  induction rs with
  | nil => simp [coversNat]
  | cons r rest ih =>
    obtain ⟨lo, hi⟩ := r
    have above := h.lt_of_mem
    simp only [coversNat, Bool.and_eq_true, Bool.or_eq_true, decide_eq_true_eq, ih h.tail]
    constructor
    · rintro ⟨h₁, h₂ | ⟨r, hr, h₂⟩⟩
      · exact ⟨(lo, hi), List.mem_cons_self, h₁, h₂⟩
      · exact ⟨r, List.mem_cons_of_mem _ hr, h₂⟩
    · rintro ⟨r, hr, h₁, h₂⟩
      rcases List.mem_cons.mp hr with rfl | hr
      · exact ⟨h₁, .inl h₂⟩
      · exact ⟨by have := above r hr; omega, .inr ⟨r, hr, h₁, h₂⟩⟩

end Ranges

end CountedMachine.Text
