import CountedMachine.Proofs.Kinds.Blocks

/-! # How control leaves a block

Wherever a block stands, control leaves it by its end alone (`Proper.step`). A block that stops control
is not left at all: no path leads out of it, neither to what follows nor elsewhere
(`Stops.not_left`). -/

namespace CountedMachine

open Listing

namespace Block

variable {t u : Block} {xs pre post : Code} {a b : NodeId} {i : Instr NodeId} {C : Set NodeId}

theorem step_cases (e : xs = pre ++ (a, i) :: post) (hnd : (ids xs).Nodup) (h : Step xs a b) :
    (Falls i ∧ firstId post none = some b) ∨ i.label? = some b := by
  obtain ⟨us, j, vs, hsplit, hb⟩ := h
  obtain ⟨-, rfl, rfl⟩ := split_unique hnd e hsplit
  exact mem_targets_iff.mp hb

/-- **Control leaves a block by its end alone.** -/
theorem Proper.step (ht : t.Proper) (e : xs = pre ++ (t.code ++ post)) (hnd : (ids xs).Nodup)
    (ha : a ∈ ids t.code) (h : Step xs a b) : b ∈ ids t.code ∨ firstId post none = some b := by
  obtain ⟨i, hi⟩ := exists_instr ha
  obtain ⟨us, vs, hcode⟩ := List.append_of_mem hi
  obtain ⟨-, hnext⟩ | hlabel := step_cases
    (show xs = (pre ++ us) ++ (a, i) :: (vs ++ post) by rw [e, hcode]; simp) hnd h
  · cases vs with
    | nil => exact .inr hnext
    | cons x vs =>
      left
      rw [hcode, ← Option.some.inj hnext]
      simp
  · exact .inl (ht.shaped.inner a i b hi hlabel)

theorem Stops.exists_first (ht : t.Stops) : ∃ a, ∀ q, firstId t.code q = some a := by
  cases t with
  | nil => exact ht.elim
  | plain a i t => exact ⟨a, fun _ => rfl⟩
  | arms a flag n yes j m no k t => exact ⟨a, fun _ => rfl⟩

/-- **Some nodes of a stretch of code**, the first one among them, that control does not leave. -/
structure Trap (xs ys : Code) (C : Set NodeId) : Prop where
  first : ∀ a, firstId ys none = some a → a ∈ C
  mem : ∀ a ∈ C, a ∈ ids ys
  closed : ∀ a ∈ C, ∀ b, Step xs a b → b ∈ C

/-- A block before a trap. -/
theorem Trap.append (h : Trap xs t.code C) (ht : t.Stops) (hu : u.Proper) (hne : u.code ≠ [])
    (e : xs = pre ++ (u.code ++ (t.code ++ post))) (hnd : (ids xs).Nodup) :
    Trap xs (u.code ++ t.code) ({a | a ∈ ids u.code} ∪ C) where
  first a ha := by
    cases hcode : u.code with
    | nil => exact absurd hcode hne
    | cons x us =>
      rw [hcode] at ha
      simp [← Option.some.inj ha]
  mem a ha := by
    rw [ids_append, List.mem_append]
    exact ha.imp id (h.mem a)
  closed a ha b hb := by
    obtain ha | ha := ha
    · obtain hmem | hnext := hu.step e hnd ha hb
      · exact .inl hmem
      · obtain ⟨c, hc⟩ := ht.exists_first
        rw [firstId_append, hc] at hnext
        exact .inr (h.first b ((hc none).trans hnext))
    · exact .inr (h.closed a ha b hb)

/-- A branch before two traps. -/
theorem Trap.arms {x j m n : NodeId} {flag : Reg} {yes no ys : Code} {Y N : Set NodeId}
    (hy : Trap xs yes Y) (hn : Trap xs no N) (hyes : ∃ a, ∀ q, firstId yes q = some a)
    (hno : ∃ a, ∀ q, firstId no q = some a)
    (e : xs = pre ++ ((x, Instr.branch flag n) :: (yes ++ (j, Instr.jump m) :: (n, Instr.nop) :: (no ++ ys)) ++ post))
    (hnd : (ids xs).Nodup) :
    Trap xs ((x, Instr.branch flag n) :: (yes ++ (j, Instr.jump m) :: (n, Instr.nop) :: (no ++ ys)))
      ({x, n} ∪ (Y ∪ N)) where
  first a ha := by simp [← Option.some.inj ha]
  mem a ha := by
    have hya := hy.mem a
    have hna := hn.mem a
    simp only [Set.mem_union, Set.mem_insert_iff, Set.mem_singleton_iff] at ha
    simp only [ids_cons, ids_append, List.mem_cons, List.mem_append]
    tauto
  closed a ha b hb := by
    obtain (rfl | rfl) | ha | ha := ha
    · obtain ⟨c, hc⟩ := hyes
      obtain ⟨-, hnext⟩ | hlabel := step_cases (show xs = pre ++ (a, Instr.branch flag n) ::
        (yes ++ (j, Instr.jump m) :: (n, Instr.nop) :: (no ++ (ys ++ post))) by rw [e]; simp) hnd hb
      · rw [firstId_append, hc] at hnext
        exact .inr (.inl (hy.first b ((hc none).trans hnext)))
      · simp [← Option.some.inj hlabel]
    · obtain ⟨c, hc⟩ := hno
      obtain ⟨-, hnext⟩ | hlabel := step_cases (show xs = (pre ++ (x, Instr.branch flag a) ::
        (yes ++ [(j, Instr.jump m)])) ++ (a, Instr.nop) :: (no ++ (ys ++ post)) by rw [e]; simp) hnd hb
      · rw [firstId_append, hc] at hnext
        exact .inr (.inr (hn.first b ((hc none).trans hnext)))
      · cases hlabel
    · exact .inr (.inl (hy.closed a ha b hb))
    · exact .inr (.inr (hn.closed a ha b hb))

/-- From the start of a block that stops control, control gets to some of its nodes, and no further. -/
theorem Stops.exists_trap (hp : t.Proper) (ht : t.Stops) : ∀ {pre post : Code},
    xs = pre ++ (t.code ++ post) → (ids xs).Nodup → ∃ C, Trap xs t.code C := by
  induction t with
  | nil => exact ht.elim
  | plain x i t ih =>
    intro pre post e hnd
    obtain hi | ht := ht
    · refine ⟨{x}, fun a h => (Option.some.inj h).symm, fun a h => ?_, fun a h b hb => ?_⟩
      · obtain rfl : a = x := h
        simp [code]
      · obtain rfl : a = x := h
        obtain ⟨hfalls, -⟩ | hlabel := step_cases (i := i) e hnd hb
        · cases hfalls.1.symm.trans hi
        · cases hp.1.symm.trans hlabel
    · obtain ⟨C, hC⟩ := ih hp.2.2 ht (show xs = (pre ++ [(x, i)]) ++ (t.code ++ post) by
        simpa [code] using e) hnd
      exact ⟨_, hC.append (u := .single x i) ht ⟨hp.1, hp.2.1, trivial⟩ (by simp)
        (show xs = pre ++ ((Block.single x i).code ++ (t.code ++ post)) by simpa [code] using e) hnd⟩
  | arms x flag n yes j m no k t ihy ihn ih =>
    intro pre post e hnd
    obtain ⟨hy, hn⟩ | ht := ht
    · obtain ⟨Y, hY⟩ := ihy hp.1 hy (show xs = (pre ++ [(x, Instr.branch flag n)]) ++ (yes.code ++
        (j, Instr.jump m) :: (n, Instr.nop) :: (no.code ++ (m, k) :: (t.code ++ post))) by simpa [code] using e) hnd
      obtain ⟨N, hN⟩ := ihn hp.2.1 hn (show xs = (pre ++ (x, Instr.branch flag n) :: (yes.code ++
        [(j, Instr.jump m), (n, Instr.nop)])) ++ (no.code ++ (m, k) :: (t.code ++ post)) by simpa [code] using e) hnd
      exact ⟨_, hY.arms hN hy.exists_first hn.exists_first e hnd⟩
    · set u : Block := .arms x flag n yes j m no k .nil with hu
      have hcode : (arms x flag n yes j m no k t).code = u.code ++ t.code := by simp [hu, code]
      rw [hcode] at e ⊢
      obtain ⟨C, hC⟩ := ih hp.2.2.2 ht (show xs = (pre ++ u.code) ++ (t.code ++ post) by simpa using e) hnd
      exact ⟨_, hC.append ht ⟨hp.1, hp.2.1, hp.2.2.1, trivial⟩ (by simp [hu, code])
        (show xs = pre ++ (u.code ++ (t.code ++ post)) by simpa using e) hnd⟩

/-- **A block that stops control is not left.** -/
theorem Stops.not_left (ht : t.Stops) (hp : t.Proper) (e : xs = pre ++ (t.code ++ post))
    (hnd : (ids xs).Nodup) (ha : firstId t.code none = some a) (h : Reach xs a b) : b ∈ ids t.code := by
  obtain ⟨C, hC⟩ := ht.exists_trap hp e hnd
  refine hC.mem b ?_
  induction h with
  | refl => exact hC.first a ha
  | tail _ h ih => exact hC.closed _ ih _ h

end Block

/-- **No path of control leads out of the code** from its start, wherever the code stands. -/
def Listing.NotLeft (ys : Code) : Prop :=
  ∃ a, firstId ys none = some a ∧ ∀ {xs pre post : Code} {b : NodeId}, xs = pre ++ (ys ++ post) →
    (ids xs).Nodup → Reach xs a b → b ∈ ids ys

theorem Block.Stops.code_notLeft {t : Block} (ht : t.Stops) (hp : t.Proper) : NotLeft t.code := by
  obtain ⟨a, ha⟩ := ht.exists_first
  exact ⟨a, ha none, fun e hnd h => ht.not_left hp e hnd (ha none) h⟩

end CountedMachine
