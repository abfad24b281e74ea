import CountedMachine.Proofs.Machine.Routes

/-! # Code that tries a pattern

Code for a pattern tests a value and loads its fields, level by level. What comes of it is a `Trial`:
whether the value fits, the parts that are bound and the fields that are read. Trials follow each
other (`Trial.andThen`), and the second one takes place just when the first one fits.

`Outcome` says that code on a stage carries out a trial. Where the value fits, control gets to the
end of the code with the parts in registers of their own. Where it does not fit, a guard ends the run
if the pattern must match; otherwise control gets to where the levels of the pattern are closed. -/

namespace CountedMachine

open Listing Heap

/-- **What comes of trying a pattern** on a part of a value. -/
structure Trial where
  fits : Bool
  bound : List Part
  reads : List Read

namespace Trial

/-- The second trial takes place when the first one fits. -/
def andThen (t u : Trial) : Trial :=
  ⟨t.fits && u.fits, t.bound ++ u.bound, t.reads ++ if t.fits then u.reads else []⟩

/-- A trial that reads a field first. -/
def reading (r : Read) (t : Trial) : Trial := ⟨t.fits, t.bound, r :: t.reads⟩

/-- The fields that are loaded: of which values, and which ones. -/
def loads (t : Trial) : List (Value × Nat) := t.reads.map fun r => (r.object, r.idx)

end Trial

namespace Pattern

variable {h : Heap} {x y : Part} {v : Value} {ty : ObjType} {fields rest : List (Nat × Pattern)}
  {p : Pattern} {idx : Nat}

/-- A pattern tried on a part. -/
def trial (h : Heap) (x : Part) (p : Pattern) : Trial := ⟨p.fits h x, p.bound h x, p.reads h x⟩

/-- The fields of a pattern tried on a value of its type. -/
def trialFields (h : Heap) (v : Value) (ty : ObjType) (fields : List (Nat × Pattern)) : Trial :=
  ⟨fitsFields h v fields, boundFields h v fields, readsFields h v ty fields⟩

theorem trial_unpack (hv : h.typeOf v = some (.obj ty)) :
    (unpack ty fields).trial h (.value v) = trialFields h v ty fields := by
  simp [trial, trialFields, fits, bound, reads, hv]

theorem trial_unpack_of_ne (fields : List (Nat × Pattern)) (hx : x.type h ≠ some (.obj ty)) :
    ((unpack ty fields).trial h x).fits = false ∧ ((unpack ty fields).trial h x).reads = [] := by
  cases x with
  | value v =>
    have hv : h.typeOf v ≠ some (.obj ty) := hx
    simp [trial, fits, reads, hv]
  | text s => simp [trial, fits, reads]

theorem trial_no_fields (hx : x.type h = some (.obj ty)) :
    (unpack ty []).trial h x = ⟨true, [], []⟩ := by
  cases x with
  | value v =>
    have hv : h.typeOf v = some (.obj ty) := hx
    simp [trial, fits, fitsFields, bound, boundFields, reads, readsFields, hv]
  | text s => cases hx

theorem eq_ignore (hp : p.isIgnore = true) : p = .ignore := by
  cases p <;> first | rfl | cases hp

theorem trialFields_ignore (hy : h.part? idx v = some y) :
    trialFields h v ty ((idx, .ignore) :: rest) = trialFields h v ty rest := by
  simp [trialFields, fitsFields, boundFields, readsFields, hy, fits, bound, isIgnore]

theorem trialFields_cons (hy : h.part? idx v = some y) (hp : p.isIgnore = false) :
    trialFields h v ty ((idx, p) :: rest) =
      ((p.trial h y).reading ⟨v, ty, idx⟩).andThen (trialFields h v ty rest) := by
  simp [trialFields, fitsFields, boundFields, readsFields, hy, hp, trial, Trial.reading, Trial.andThen]
  rfl

end Pattern

/-! ## What is kept -/

namespace Memory

/-- A register holds a part. -/
def Holds (m : Memory) (r : Reg) (x : Part) : Prop := ∃ v, m.reg? r = some v ∧ x.Is m.heap v

/-- **The first registers are as they were**, and the heap has all its objects. -/
structure Grows (n : Nat) (m m' : Memory) : Prop where
  heap : m.heap.Extends m'.heap
  arena : m'.heap.Arena
  size : m'.regs.size = m.regs.size
  same : ∀ r : Reg, r.index < n → m'.reg? r = m.reg? r

variable {n n' : Nat} {m m₁ m' : Memory} {r : Reg} {x : Part} {v : Value} {h' : Heap}

theorem Grows.refl (n : Nat) (ha : m.heap.Arena) : Grows n m m :=
  ⟨Extends.refl _, ha, rfl, fun _ _ => rfl⟩

theorem Grows.trans (a : Grows n m m₁) (b : Grows n' m₁ m') (hn : n ≤ n') : Grows n m m' where
  heap := a.heap.trans b.heap
  arena := b.arena
  size := b.size.trans a.size
  same r hr := (b.same r (hr.trans_le hn)).trans (a.same r hr)

theorem Holds.grows (hx : m.Holds r x) (hg : Grows n m m') (hr : r.index < n) : m'.Holds r x := by
  obtain ⟨v, hv, his⟩ := hx
  exact ⟨v, (hg.same r hr).trans hv, his.keeps hg.heap⟩

theorem Holds.set {q : Reg} (hx : m.Holds r x) (hr : r ≠ q) : (m.set q v).Holds r x := by
  obtain ⟨u, hu, his⟩ := hx
  exact ⟨u, (reg?_set_ne hr).trans hu, his⟩

theorem holds_of_forall {rs : List Reg} {xs : List Part} {Q : Reg → Prop} (h : List.Forall₂ m.Holds rs xs)
    (hrs : ∀ r ∈ rs, Q r) (hQ : ∀ r x, Q r → m.Holds r x → m'.Holds r x) : List.Forall₂ m'.Holds rs xs :=
  ((List.forall₂_and_left _ _).mpr ⟨hrs, h⟩).imp fun r x hrx => hQ r x hrx.1 hrx.2

theorem Grows.holds {rs : List Reg} {xs : List Part} (hg : Grows n m m')
    (h : List.Forall₂ m.Holds rs xs) (hrs : ∀ r ∈ rs, r.index < n) : List.Forall₂ m'.Holds rs xs :=
  holds_of_forall h hrs fun _ _ hr hx => hx.grows hg hr

/-- Filling a register that is not among the first ones. -/
theorem grows_set (hk : m.heap.Extends h') (ha : h'.Arena) (hr : n ≤ r.index) :
    Grows n m ((m.withHeap h').set r v) where
  heap := hk
  arena := ha
  size := by simp
  same q hq := by
    rw [reg?_set_ne (by rintro rfl; omega)]
    rfl

end Memory

/-! ## Outcomes -/

namespace Stage

variable {S : Stage} {A : Nat → Prop} {xs ys zs after : Code} {m m₁ m' : Memory} {n n₁ n' : Nat}
  {ls ls' : List (Value × Nat)} {hard : Bool} {t u : Trial} {rs rs' : List Reg}

/-- **A guard fails**: control gets to it along places in `A`, and it ends the run. -/
def Fails (S : Stage) (A : Nat → Prop) (xs : Code) (m : Memory) (ls : List (Value × Nat)) : Prop :=
  ∃ ys m' f v ty, S.Goes A xs m ls ys m' ∧ m'.heap.typeOf v ≠ some (.obj ty) ∧
    (S.spot ys m').step S.program S.limit = .error f ∧
    ∀ text, m'.heap.display S.program.types v = .ok text → f = .guardFailed S.start.cur.unit ty text

theorem Goes.fails (h : S.Goes A xs m ls ys m₁) (h' : S.Fails A ys m₁ ls') :
    S.Fails A xs m (ls ++ ls') := by
  obtain ⟨zs, m', f, v, ty, hgo, hrest⟩ := h'
  exact ⟨zs, m', f, v, ty, h.trans hgo, hrest⟩

/-- What comes of a value that does not fit. -/
def Misses (S : Stage) (A : Nat → Prop) (hard : Bool) (n : Nat) (zs : Code) (xs : Code) (m : Memory)
    (ls : List (Value × Nat)) : Prop :=
  if hard then S.Fails A xs m ls else ∃ m', S.Goes A xs m ls zs m' ∧ m.Grows n m'

theorem Goes.misses (h : S.Goes A xs m ls ys m₁) (hg : m.Grows n m₁)
    (h' : S.Misses A hard n₁ zs ys m₁ ls') (hn : n ≤ n₁) : S.Misses A hard n zs xs m (ls ++ ls') := by
  cases hard with
  | true => exact h.fails h'
  | false =>
    obtain ⟨m', hgo, hg'⟩ := h'
    exact ⟨m', h.trans hgo, hg.trans hg' hn⟩

/-- **Code carries out a trial**: it begins at `xs` and ends at `after`. -/
structure Outcome (S : Stage) (A : Nat → Prop) (hard : Bool) (n : Nat) (zs xs : Code) (m : Memory)
    (t : Trial) (rs : List Reg) (after : Code) : Prop where
  fits : t.fits = true → ∃ m', S.Goes A xs m t.loads after m' ∧ m.Grows n m' ∧
    List.Forall₂ m'.Holds rs t.bound
  misses : t.fits = false → S.Misses A hard n zs xs m t.loads

/-- Code in front of code that carries out a trial. -/
theorem Goes.outcome (h : S.Goes A xs m [] ys m₁) (hg : m.Grows n m₁)
    (h' : S.Outcome A hard n₁ zs ys m₁ t rs after) (hn : n ≤ n₁) :
    S.Outcome A hard n zs xs m t rs after where
  fits ht := by
    obtain ⟨m', hgo, hg', hbound⟩ := h'.fits ht
    exact ⟨m', h.trans hgo, hg.trans hg' hn, hbound⟩
  misses ht := h.misses hg (h'.misses ht) hn

/-- Loading a field in front of code that carries out a trial. -/
theorem Goes.reading {r : Read} (h : S.Goes A xs m [(r.object, r.idx)] ys m₁) (hg : m.Grows n m₁)
    (h' : S.Outcome A hard n₁ zs ys m₁ t rs after) (hn : n ≤ n₁) :
    S.Outcome A hard n zs xs m (t.reading r) rs after where
  fits ht := by
    obtain ⟨m', hgo, hg', hbound⟩ := h'.fits ht
    exact ⟨m', h.trans hgo, hg.trans hg' hn, hbound⟩
  misses ht := h.misses hg (h'.misses ht) hn

/-- **One trial after the other.** -/
theorem Outcome.andThen (h : S.Outcome A hard n zs xs m t rs ys) (hn : n ≤ n₁)
    (hrs : ∀ r ∈ rs, r.index < n₁)
    (h' : ∀ m₁, m.Grows n m₁ → S.Outcome A hard n₁ zs ys m₁ u rs' after) :
    S.Outcome A hard n zs xs m (t.andThen u) (rs ++ rs') after where
  fits htu := by
    obtain ⟨ht, hu⟩ := Bool.and_eq_true_iff.mp htu
    obtain ⟨m₁, hgo, hg, hbound⟩ := h.fits ht
    obtain ⟨m', hgo', hg', hbound'⟩ := (h' m₁ hg).fits hu
    refine ⟨m', ?_, hg.trans hg' hn, ?_⟩
    · rw [Trial.loads, Trial.andThen, ht, if_pos rfl, List.map_append]
      exact hgo.trans hgo'
    · exact List.rel_append (hg'.holds hbound hrs) hbound'
  misses htu := by
    cases ht : t.fits with
    | false =>
      have hloads : (t.andThen u).loads = t.loads := by simp [Trial.loads, Trial.andThen, ht]
      rw [hloads]
      exact h.misses ht
    | true =>
      have hu : u.fits = false := by simpa [Trial.andThen, ht] using htu
      obtain ⟨m₁, hgo, hg, -⟩ := h.fits ht
      rw [Trial.loads, Trial.andThen, ht, if_pos rfl, List.map_append]
      exact hgo.misses hg ((h' m₁ hg).misses hu) hn

end Stage

end CountedMachine
