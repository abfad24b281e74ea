import CountedMachine.Ownership.Tidy
import CountedMachine.Proofs.Listing.Sequences

/-! # Folding adjacent pairs

`fusePairs` goes through a listing once. What it makes of the sequence of nodes is a relation on
sequences (`Folds`): `INC r; DEC r` goes away, of `INC r; UNREF r` a `DROP r` is left, and all else
stays. It fails in one case only, when the last node itself is the `DEC r` of a pair, which cannot be
taken out (`Tailed`). The induction is on the number of nodes from the cursor of the pass on
(`fusePairsFrom_folds`). -/

namespace CountedMachine.Listing

variable {l l' : Listing} {xs ys zs ws code code' : Code} {a b cursor : NodeId} {i j : Instr NodeId}
  {r : Reg} {n : Nat} {x : NodeId × Instr NodeId}

/-- **The second code is the first with some adjacent pairs folded**, and so many instructions are
gone. -/
inductive Folds : Code → Code → Nat → Prop
  | nil : Folds [] [] 0
  | keep {x : NodeId × Instr NodeId} {xs ys : Code} {n : Nat} : Folds xs ys n →
      Folds (x :: xs) (x :: ys) n
  | cancel {a b : NodeId} {r : Reg} {xs ys : Code} {n : Nat} : Folds xs ys n →
      Folds ((a, Instr.adjust .inc r) :: (b, Instr.adjust .dec r) :: xs) ys (n + 2)
  | fuse {a b : NodeId} {r : Reg} {xs ys : Code} {n : Nat} : Folds xs ys n →
      Folds ((a, Instr.adjust .inc r) :: (b, Instr.adjust .unref r) :: xs) ((b, Instr.adjust .drop r) :: ys) (n + 1)

/-- The code ends with a pair that would go away together with the last node. -/
def Tailed (cursor : NodeId) (code : Code) : Prop :=
  ∃ pre a r, code = pre ++ [(a, Instr.adjust .inc r), (tail, Instr.adjust .dec r)] ∧ cursor ≠ a ∧ cursor ≠ tail

/-! ## One pair -/

/-- The two nodes go away together. -/
def Cancels (cursor : NodeId) (x y : NodeId × Instr NodeId) : Prop :=
  ∃ r, x.2 = .adjust .inc r ∧ y.2 = .adjust .dec r ∧ x.1 ≠ cursor ∧ y.1 ≠ cursor

/-- One of the two nodes goes away. -/
def Fuses (cursor : NodeId) (x y : NodeId × Instr NodeId) : Prop :=
  ∃ r, x.2 = .adjust .inc r ∧ y.2 = .adjust .unref r ∧ x.1 ≠ cursor

/-- A pair that is not folded. -/
theorem fusePair_stays (hc : ¬ Cancels l.cursor (a, i) (b, j)) (hf : ¬ Fuses l.cursor (a, i) (b, j)) :
    l.fusePair a b i j = .ok (l, some b, 0) := by
  unfold fusePair
  split
  · rw [if_neg]
    · rfl
    · intro h
      simp only [Bool.and_eq_true, decide_eq_true_eq] at h
      exact hc ⟨_, rfl, by rw [h.1.1], h.1.2, h.2⟩
  · rw [if_neg]
    · rfl
    · intro h
      simp only [Bool.and_eq_true, decide_eq_true_eq] at h
      exact hf ⟨_, rfl, by rw [h.1], h.2⟩
  · rfl

theorem fusePair_cancel (ha : a ≠ l.cursor) (hb : b ≠ l.cursor) :
    l.fusePair a b (.adjust .inc r) (.adjust .dec r) = (do
      let after ← l.next b
      let l ← l.erase a
      return (← l.erase b, after, 2)) := by
  simp only [fusePair, decide_true, ne_eq, ha, hb, not_false_eq_true, Bool.and_self, if_true]

theorem fusePair_fuse (ha : a ≠ l.cursor) :
    l.fusePair a b (.adjust .inc r) (.adjust .unref r) = (do
      let l ← l.put b (.adjust .drop r)
      return (← l.erase a, some b, 1)) := by
  simp only [fusePair, decide_true, ne_eq, ha, not_false_eq_true, Bool.and_self, if_true]

/-! ## Where the last pair is -/

theorem tailed_cons_cons {y : NodeId × Instr NodeId} (h : ¬ (Cancels cursor x y ∧ y.1 = tail ∧ zs = [])) :
    Tailed cursor (x :: y :: zs) ↔ Tailed cursor (y :: zs) := by
  constructor
  · rintro ⟨_ | ⟨w, pre⟩, a, r, e, ha, ht⟩
    · simp only [List.nil_append, List.cons.injEq] at e
      obtain ⟨rfl, rfl, rfl⟩ := e
      exact absurd ⟨⟨r, rfl, rfl, ha.symm, ht.symm⟩, rfl, rfl⟩ h
    · exact ⟨pre, a, r, (List.cons.inj e).2, ha, ht⟩
  · rintro ⟨pre, a, r, e, ha, ht⟩
    exact ⟨x :: pre, a, r, by rw [e, List.cons_append], ha, ht⟩

theorem not_tailed_singleton : ¬ Tailed cursor [x] := by
  rintro ⟨pre, a, r, e, -⟩
  have := congrArg List.length e
  simp at this

/-- Only an instruction that acquires is taken for the first of a pair. -/
theorem tailed_cons (hi : ∀ r, x.2 ≠ .adjust .inc r) : Tailed cursor (x :: zs) ↔ Tailed cursor zs := by
  rcases zs with _ | ⟨y, zs⟩
  · refine ⟨fun h => absurd h not_tailed_singleton, ?_⟩
    rintro ⟨pre, a, r, e, -⟩
    exact absurd e (by simp)
  · exact tailed_cons_cons fun ⟨⟨r, hx, _⟩, _⟩ => hi r hx

theorem Folds.of_cons (h : Folds (x :: xs) ys n) (hi : ∀ r, x.2 ≠ .adjust .inc r) :
    ∃ ys', ys = x :: ys' ∧ Folds xs ys' n := by
  cases h with
  | keep h => exact ⟨_, rfl, h⟩
  | cancel => exact absurd rfl (hi _)
  | fuse => exact absurd rfl (hi _)

/-! ## The pass -/

/-- The pass from a node on has a result after so many rounds, and further ones do not change it. -/
def Sweeps (l : Listing) (o : Option NodeId) (k rounds : Nat) (res : Except Fault (Listing × Nat)) : Prop :=
  ∀ fuel, rounds ≤ fuel → fusePairsFrom fuel l o k = res

theorem Sweeps.round {o o' : Option NodeId} {k k' m m' : Nat} {res : Except Fault (Listing × Nat)}
    (hs : Sweeps l' o' k' m' res) (hm : m' + 1 ≤ m)
    (e : ∀ fuel, fusePairsFrom (fuel + 1) l o k = fusePairsFrom fuel l' o' k') : Sweeps l o k m res := by
  intro fuel hfuel
  obtain ⟨fuel, rfl⟩ : ∃ n, fuel = n + 1 := ⟨fuel - 1, by omega⟩
  exact (e fuel).trans (hs fuel (by omega))

/-- One round of the pass. -/
theorem fusePairsFrom_round (hl : Linked l (xs ++ (a, i) :: (b, j) :: zs)) (fuel k : Nat) :
    fusePairsFrom (fuel + 1) l (some a) k =
      (l.fusePair a b i j).bind fun o => fusePairsFrom fuel o.1 o.2.1 (k + o.2.2) := by
  have hb : l.get b = .ok j := hl.get_eq (by simp)
  simp only [fusePairsFrom, node, hl.node?_eq, firstId, hb, bind, Except.bind]

/-- **The pass from a node on** folds what stands there, unless the last node would go away. -/
theorem sweeps_folds : ∀ (m : Nat) {l : Listing} {xs zs : Code} (k : Nat), zs.length ≤ m →
    Linked l (xs ++ zs) → xs ≠ [] → zs ≠ [] →
    (Tailed l.cursor zs → Sweeps l (firstId zs none) k zs.length (.error .sentinelRemoved)) ∧
    (¬ Tailed l.cursor zs → ∃ l' zs' n, Sweeps l (firstId zs none) k zs.length (.ok (l', k + n)) ∧
      Linked l' (xs ++ zs') ∧ Folds zs zs' n)
  | _, l, xs, [], k, _, _, _, hzs => absurd rfl hzs
  | m, l, xs, [(a, i)], k, _, hl, _, _ => by
    refine ⟨fun h => absurd h not_tailed_singleton, fun _ => ⟨l, [(a, i)], 0, ?_, hl, .keep .nil⟩⟩
    rintro (_ | fuel) hfuel
    · cases hfuel
    · simp [fusePairsFrom, node, hl.node?_eq, firstId, bind, Except.bind, pure, Except.pure]
  | m + 1, l, xs, (a, i) :: (b, j) :: zs, k, hm, hl, hxs, _ => by
    simp only [List.length_cons, Nat.add_le_add_iff_right] at hm
    have hhead : a ≠ head := fun e => hxs (hl.eq_head_iff.mp e)
    have htail : a ≠ tail := fun e => by simpa using hl.eq_tail_iff.mp e
    have hround := fun fuel => fusePairsFrom_round hl fuel k
    by_cases hc : Cancels l.cursor (a, i) (b, j)
    · obtain ⟨r, rfl, rfl, ha, hb⟩ : ∃ r, i = .adjust .inc r ∧ j = .adjust .dec r ∧ a ≠ l.cursor ∧
        b ≠ l.cursor := hc
      obtain ⟨l₁, e₁, hl₁, hcur₁, -⟩ := hl.erase hhead htail ha
      have hnext : l.next b = .ok (firstId zs none) :=
        (show Linked l ((xs ++ [(a, Instr.adjust .inc r)]) ++ (b, Instr.adjust .dec r) :: zs) by simpa).next_eq
      simp only [fusePair_cancel ha hb, hnext, bind, Except.bind, e₁] at hround
      rcases zs with _ | ⟨z, zs⟩
      · -- the last node stays
        obtain rfl : b = tail := hl₁.eq_tail_iff.mpr rfl
        refine ⟨fun _ => ?_, fun h => absurd ⟨[], a, r, rfl, ha.symm, hb.symm⟩ h⟩
        rintro (_ | fuel) hfuel
        · cases hfuel
        · exact hround fuel
      · have hhead' : b ≠ head := fun e => hxs (hl₁.eq_head_iff.mp e)
        have htail' : b ≠ tail := fun e => by simpa using hl₁.eq_tail_iff.mp e
        obtain ⟨l₂, e₂, hl₂, hcur₂, -⟩ := hl₁.erase hhead' htail' (hcur₁ ▸ hb)
        simp only [e₂, pure, Except.pure] at hround
        rw [tailed_cons_cons fun h => by simpa using h.2.2, tailed_cons (by simp), ← hcur₁, ← hcur₂]
        obtain ⟨herr, hok⟩ := sweeps_folds m (k + 2) (by rw [List.length_cons] at hm ⊢; omega) hl₂ hxs
          (List.cons_ne_nil z zs)
        refine ⟨fun h => (herr h).round (by simp) hround, fun h => ?_⟩
        obtain ⟨l', zs', n, e, hl', hfold⟩ := hok h
        refine ⟨l', zs', n + 2, ?_, hl', hfold.cancel⟩
        rw [Nat.add_comm n 2, ← Nat.add_assoc]
        exact e.round (by simp) hround
    · rw [tailed_cons_cons fun h => hc h.1]
      by_cases hf : Fuses l.cursor (a, i) (b, j)
      · obtain ⟨r, rfl, rfl, ha⟩ : ∃ r, i = .adjust .inc r ∧ j = .adjust .unref r ∧ a ≠ l.cursor := hf
        obtain ⟨l₁, e₁, hl₁, hcur₁, -⟩ :=
          (show Linked l ((xs ++ [(a, Instr.adjust .inc r)]) ++ (b, Instr.adjust .unref r) :: zs) by simpa).put
            (.adjust .drop r)
        obtain ⟨l₂, e₂, hl₂, hcur₂, -⟩ :=
          (show Linked l₁ (xs ++ (a, Instr.adjust .inc r) :: (b, Instr.adjust .drop r) :: zs) by simpa using hl₁).erase
            hhead htail (hcur₁ ▸ ha)
        simp only [fusePair_fuse ha, bind, Except.bind, e₁, e₂, pure, Except.pure] at hround
        obtain ⟨herr, hok⟩ := sweeps_folds m (k + 1) (by rwa [List.length_cons]) hl₂ hxs (List.cons_ne_nil _ zs)
        rw [tailed_cons (by simp), hcur₂, hcur₁] at herr hok
        rw [tailed_cons (by simp)]
        refine ⟨fun h => (herr h).round (by simp) hround, fun h => ?_⟩
        obtain ⟨l', zs', n, e, hl', hdrop⟩ := hok h
        obtain ⟨ys, rfl, hfold⟩ := hdrop.of_cons (by simp)
        refine ⟨l', _, n + 1, ?_, hl', hfold.fuse⟩
        rw [Nat.add_comm n 1, ← Nat.add_assoc]
        exact e.round (by simp) hround
      · rw [fusePair_stays hc hf] at hround
        have hl' : Linked l ((xs ++ [(a, i)]) ++ (b, j) :: zs) := by simpa using hl
        obtain ⟨herr, hok⟩ := sweeps_folds m (k + 0) (by rwa [List.length_cons]) hl' (by simp) (List.cons_ne_nil _ zs)
        refine ⟨fun h => (herr h).round (by simp) hround, fun h => ?_⟩
        obtain ⟨l', zs', n, e, hl', hfold⟩ := hok h
        exact ⟨l', (a, i) :: zs', n, e.round (by simp) hround, by simpa using hl', hfold.keep⟩

/-- **Folding the pairs of a listing.** Further rounds change nothing, and it fails just when the last
node would go away. -/
theorem fusePairs_folds (hl : Linked l (x :: xs)) (hxs : xs ≠ []) :
    Sweeps l (firstId xs none) 0 l.nodes.size l.fusePairs ∧
    (Tailed l.cursor xs → l.fusePairs = .error .sentinelRemoved) ∧
    (¬ Tailed l.cursor xs →
      ∃ l' ys n, l.fusePairs = .ok (l', n) ∧ Linked l' (x :: ys) ∧ Folds xs ys n) := by
  obtain ⟨a, i⟩ := x
  obtain rfl : a = head := Option.some.inj hl.first
  have hlen : xs.length ≤ l.nodes.size := by
    have := hl.length_le
    rw [List.length_cons] at this
    omega
  have hnext : l.next head = .ok (firstId xs none) := (show Linked l ([] ++ (head, i) :: xs) from hl).next_eq
  have hfuse : l.fusePairs = fusePairsFrom (l.nodes.size + 1) l (firstId xs none) 0 := by
    rw [fusePairs, hnext]
    rfl
  have hl' : Linked l ([(head, i)] ++ xs) := hl
  obtain ⟨herr, hok⟩ := sweeps_folds xs.length 0 (Nat.le_refl _) hl' (List.cons_ne_nil _ _) hxs
  by_cases ht : Tailed l.cursor xs
  · have hsweep := herr ht
    have e := hfuse.trans (hsweep _ (by omega))
    exact ⟨fun fuel hfuel => (hsweep fuel (by omega)).trans e.symm, fun _ => e, fun h => absurd ht h⟩
  · obtain ⟨l', ys, n, hsweep, hl', hfold⟩ := hok ht
    have e := hfuse.trans (hsweep _ (by omega))
    rw [Nat.zero_add] at e
    refine ⟨fun fuel hfuel => ?_, fun h => absurd h ht, fun _ => ⟨l', ys, n, e, hl', hfold⟩⟩
    rw [hsweep fuel (by omega), e, Nat.zero_add]

/-! ## Places -/

/-- The number of nodes before a place that are left. -/
def placeAmong (left : List NodeId) (code : Code) (pc : Nat) : Nat :=
  (code.take pc).countP fun x => decide (x.1 ∈ left)

/-- The place is between the two instructions of a pair that was folded. -/
def Between (left : List NodeId) (code : Code) (pc : Nat) : Prop :=
  ∃ xs a r ys, code = xs ++ (a, Instr.adjust .inc r) :: ys ∧ a ∉ left ∧ pc = xs.length + 1

/-- **Corresponding places**, before and after: what comes before them is folded into what comes before,
and what comes after into what comes after. -/
def FoldedPlace (code code' : Code) (pc pc' : Nat) : Prop :=
  ∃ xs xs' ys ys' n m, code = xs ++ ys ∧ code' = xs' ++ ys' ∧ Folds xs xs' n ∧ Folds ys ys' m ∧
    xs.length = pc ∧ xs'.length = pc'

section
variable {pc pc' m : Nat} {left : List NodeId}

theorem Folds.append {xs' ys' : Code} (h : Folds xs xs' n) (h' : Folds ys ys' m) :
    ∃ k, Folds (xs ++ ys) (xs' ++ ys') k := by
  induction h with
  | nil => exact ⟨m, h'⟩
  | keep _ ih =>
    obtain ⟨k, h⟩ := ih
    exact ⟨k, h.keep⟩
  | cancel _ ih =>
    obtain ⟨k, h⟩ := ih
    exact ⟨k + 2, h.cancel⟩
  | fuse _ ih =>
    obtain ⟨k, h⟩ := ih
    exact ⟨k + 1, h.fuse⟩

theorem Folds.sublist (h : Folds xs ys n) : (ids ys).Sublist (ids xs) := by
  induction h with
  | nil => exact List.Sublist.refl _
  | keep _ ih => exact ih.cons_cons _
  | cancel _ ih => exact (ih.cons _).cons _
  | fuse _ ih => exact (ih.cons_cons _).cons _

/-- **Wherever the code is cut,** it is folded on both sides, or a pair is cut apart. -/
theorem Folds.cut (h : Folds (xs ++ ys) code' n) (hnd : (ids (xs ++ ys)).Nodup) :
    (∃ xs' ys' k m, code' = xs' ++ ys' ∧ Folds xs xs' k ∧ Folds ys ys' m) ∨
    ∃ ws a b r op zs, xs = ws ++ [(a, Instr.adjust .inc r)] ∧ ys = (b, Instr.adjust op r) :: zs ∧ op ≠ .inc ∧
      a ∉ ids code' := by
  generalize hzs : xs ++ ys = zs at h hnd
  induction h generalizing xs with
  | nil =>
    obtain ⟨rfl, rfl⟩ := List.append_eq_nil_iff.mp hzs
    exact .inl ⟨[], [], 0, 0, rfl, .nil, .nil⟩
  | @keep x us vs n h ih =>
    rcases xs with _ | ⟨x', xs⟩
    · obtain rfl : ys = x :: us := hzs
      exact .inl ⟨[], _, 0, n, rfl, .nil, h.keep⟩
    · obtain ⟨rfl, hxs⟩ := List.cons.inj hzs
      obtain ⟨hx, hnd⟩ := List.nodup_cons.mp hnd
      obtain ⟨xs', ys', k, m, rfl, hk, hm⟩ | ⟨ws, a, b, r, op, zs, rfl, hys, hop, ha⟩ := ih hxs hnd
      · exact .inl ⟨x' :: xs', ys', k, m, rfl, hk.keep, hm⟩
      · refine .inr ⟨x' :: ws, a, b, r, op, zs, rfl, hys, hop, fun hmem => ?_⟩
        obtain rfl | hmem := List.mem_cons.mp hmem
        · exact hx (hxs ▸ by simp)
        · exact ha hmem
  | @cancel a b r us vs n h ih =>
    obtain ⟨ha, hnd'⟩ := List.nodup_cons.mp hnd
    rcases xs with _ | ⟨x', _ | ⟨y', xs⟩⟩
    · obtain rfl : ys = _ := hzs
      exact .inl ⟨[], vs, 0, _, rfl, .nil, h.cancel⟩
    · obtain ⟨rfl, rfl⟩ := List.cons.inj hzs
      exact .inr ⟨[], a, b, r, .dec, us, rfl, rfl, nofun, fun hmem =>
        ha (List.mem_cons_of_mem _ (h.sublist.subset hmem))⟩
    · obtain ⟨hx, hys⟩ := List.cons.inj hzs
      obtain ⟨hy, hxs⟩ := List.cons.inj hys
      subst hx hy
      obtain ⟨xs', ys', k, m, rfl, hk, hm⟩ | ⟨ws, a', b', r', op, zs, rfl, hys, hop, ha'⟩ :=
        ih hxs (List.nodup_cons.mp hnd').2
      · exact .inl ⟨xs', ys', k + 2, m, rfl, hk.cancel, hm⟩
      · exact .inr ⟨_ :: _ :: ws, a', b', r', op, zs, rfl, hys, hop, ha'⟩
  | @fuse a b r us vs n h ih =>
    obtain ⟨ha, hnd'⟩ := List.nodup_cons.mp hnd
    rcases xs with _ | ⟨x', _ | ⟨y', xs⟩⟩
    · obtain rfl : ys = _ := hzs
      exact .inl ⟨[], _, 0, _, rfl, .nil, h.fuse⟩
    · obtain ⟨rfl, rfl⟩ := List.cons.inj hzs
      refine .inr ⟨[], a, b, r, .unref, us, rfl, rfl, nofun, fun hmem => ha ?_⟩
      exact (h.sublist.cons_cons b).subset hmem
    · obtain ⟨hx, hys⟩ := List.cons.inj hzs
      obtain ⟨hy, hxs⟩ := List.cons.inj hys
      subst hx hy
      obtain ⟨hb, hnd'⟩ := List.nodup_cons.mp hnd'
      obtain ⟨xs', ys', k, m, rfl, hk, hm⟩ | ⟨ws, a', b', r', op, zs, rfl, hys, hop, ha'⟩ :=
        ih hxs hnd'
      · exact .inl ⟨_ :: xs', ys', k + 1, m, rfl, hk.fuse, hm⟩
      · refine .inr ⟨_ :: _ :: ws, a', b', r', op, zs, rfl, hys, hop, fun hmem => ?_⟩
        obtain rfl | hmem := List.mem_cons.mp hmem
        · exact hb (hxs ▸ by simp)
        · exact ha' hmem

/-- So many nodes are left. -/
theorem Folds.countP_left (h : Folds xs ys n) (hnd : (ids xs).Nodup)
    (hleft : ∀ c ∈ ids xs, c ∈ left ↔ c ∈ ids ys) :
    xs.countP (fun x => decide (x.1 ∈ left)) = ys.length := by
  induction h with
  | nil => rfl
  | @keep x us vs n h ih =>
    obtain ⟨hx, hnd⟩ := List.nodup_cons.mp hnd
    have hin : x.1 ∈ left := (hleft x.1 (by simp)).mpr (by simp)
    rw [List.countP_cons_of_pos (by simpa using hin), List.length_cons, ih hnd]
    intro c hc
    rw [hleft c (by simp [hc]), ids_cons, List.mem_cons]
    exact or_iff_right (by rintro rfl; exact hx hc)
  | @cancel a b r us vs n h ih =>
    obtain ⟨ha, hnd⟩ := List.nodup_cons.mp hnd
    obtain ⟨hb, hnd⟩ := List.nodup_cons.mp hnd
    have hout : a ∉ left ∧ b ∉ left := by
      rw [hleft a (by simp), hleft b (by simp)]
      exact ⟨fun h' => ha (List.mem_cons_of_mem _ (h.sublist.subset h')), fun h' => hb (h.sublist.subset h')⟩
    rw [List.countP_cons_of_neg (by simpa using hout.1), List.countP_cons_of_neg (by simpa using hout.2)]
    exact ih hnd fun c hc => hleft c (by simp [hc])
  | @fuse a b r us vs n h ih =>
    obtain ⟨ha, hnd⟩ := List.nodup_cons.mp hnd
    obtain ⟨hb, hnd⟩ := List.nodup_cons.mp hnd
    have hout : a ∉ left := by
      rw [hleft a (by simp)]
      exact fun h' => ha ((h.sublist.cons_cons b).subset h')
    have hin : b ∈ left := (hleft b (by simp)).mpr (by simp)
    rw [List.countP_cons_of_neg (by simpa using hout), List.countP_cons_of_pos (by simpa using hin),
      List.length_cons, ih hnd]
    intro c hc
    rw [hleft c (by simp [hc]), ids_cons, List.mem_cons]
    exact or_iff_right (by rintro rfl; exact hb hc)

theorem FoldedPlace.place_eq (h : FoldedPlace code code' pc pc') (hnd : (ids code).Nodup) :
    placeAmong (ids code') code pc = pc' := by
  obtain ⟨xs, xs', ys, ys', n, m, rfl, rfl, hx, hy, rfl, rfl⟩ := h
  rw [ids_append, List.nodup_append] at hnd
  rw [placeAmong, List.take_left]
  refine hx.countP_left hnd.1 fun c hc => ?_
  rw [ids_append, List.mem_append]
  exact or_iff_left fun hmem => hnd.2.2 c hc c (hy.sublist.subset hmem) rfl

theorem FoldedPlace.not_between (h : FoldedPlace code code' pc pc') (hnd : (ids code).Nodup) :
    ¬ Between (ids code') code pc := by
  obtain ⟨xs, xs', ys, ys', n, m, rfl, rfl, hx, hy, rfl, rfl⟩ := h
  rintro ⟨ws, a, r, zs, e, ha, hlen⟩
  obtain ⟨rfl, -⟩ : xs = ws ++ [(a, Instr.adjust .inc r)] ∧ ys = zs :=
    List.append_inj (by simpa using e) (by simpa using hlen)
  rw [ids_append, List.nodup_append] at hnd
  obtain ⟨us, vs, k, m, rfl, -, hv⟩ | ⟨_, _, _, _, op, _, -, e, hop, -⟩ := hx.cut hnd.1
  · cases hv with
    | keep => exact ha (by simp)
  · simp only [List.cons.injEq, Prod.mk.injEq, Instr.adjust.injEq] at e
    exact hop e.1.2.1.symm

/-- **A place outside of all pairs** has a corresponding one. -/
theorem Folds.foldedPlace (h : Folds code code' n) (hnd : (ids code).Nodup) (hpc : pc ≤ code.length)
    (hb : ¬ Between (ids code') code pc) : ∃ pc', FoldedPlace code code' pc pc' := by
  have hlen : (code.take pc).length = pc := by simpa using hpc
  have h' := h
  rw [← List.take_append_drop pc code] at h hnd
  obtain ⟨xs', ys', k, m, rfl, hk, hm⟩ | ⟨ws, a, b, r, op, zs, hws, -, -, ha⟩ := h.cut hnd
  · exact ⟨_, code.take pc, xs', code.drop pc, ys', k, m, by simp, rfl, hk, hm, hlen, rfl⟩
  · refine absurd ⟨ws, a, r, code.drop pc, ?_, ha, ?_⟩ hb
    · conv_lhs => rw [← List.take_append_drop pc code, hws]
      simp
    · rw [← hlen, hws]
      simp

/-- A node that is taken out is not left elsewhere. -/
theorem Folds.notMem_left {zs' : Code} (h : Folds xs ys n) (hnd : (ids (xs ++ (a, i) :: zs)).Nodup)
    (hsub : (ids zs').Sublist (ids zs)) : a ∉ ids (ys ++ zs') := fun hmem => by
  rw [ids_append, ids_cons, List.nodup_append, List.nodup_cons] at hnd
  obtain ⟨-, ⟨ha, -⟩, hdisj⟩ := hnd
  rw [ids_append, List.mem_append] at hmem
  obtain hmem | hmem := hmem
  · exact hdisj a (h.sublist.subset hmem) a (by simp) rfl
  · exact ha (hsub.subset hmem)

/-- **What stands at corresponding places:** the same, or a pair that is gone, or what is left of one. -/
theorem FoldedPlace.cases (h : FoldedPlace code code' pc pc') (hnd : (ids code).Nodup) :
    (code[pc]? = none ∧ code'[pc']? = none) ∨
    (∃ x, code[pc]? = some x ∧ code'[pc']? = some x ∧ FoldedPlace code code' (pc + 1) (pc' + 1)) ∨
    (∃ a b r op, code[pc]? = some (a, .adjust .inc r) ∧ code[pc + 1]? = some (b, .adjust op r) ∧
      Between (ids code') code (pc + 1) ∧
      ((op = .dec ∧ FoldedPlace code code' (pc + 2) pc') ∨
        op = .unref ∧ code'[pc']? = some (b, .adjust .drop r) ∧ FoldedPlace code code' (pc + 2) (pc' + 1))) := by
  obtain ⟨xs, xs', ys, ys', n, m, rfl, rfl, hx, hy, rfl, rfl⟩ := h
  cases hy with
  | nil => exact .inl (by simp)
  | @keep x us vs n h =>
    obtain ⟨k, hk⟩ := hx.append (Folds.keep (x := x) .nil)
    exact .inr (.inl ⟨x, by simp, by simp, _, _, us, vs, k, _, by simp, by simp, hk, h, by simp, by simp⟩)
  | @cancel a b r us vs n h =>
    have hout := hx.notMem_left hnd (h.sublist.cons b)
    obtain ⟨k, hk⟩ := hx.append (Folds.cancel (a := a) (b := b) (r := r) .nil)
    refine .inr (.inr ⟨a, b, r, .dec, by simp, by simp, ⟨xs, a, r, _, rfl, hout, rfl⟩, .inl ⟨rfl, ?_⟩⟩)
    exact ⟨_, _, us, ys', k, _, by simp, by simp, hk, h, by simp, by simp⟩
  | @fuse a b r us vs n h =>
    have hout : a ∉ ids (xs' ++ (b, Instr.adjust .drop r) :: vs) :=
      hx.notMem_left hnd (h.sublist.cons_cons b)
    obtain ⟨k, hk⟩ := hx.append (Folds.fuse (a := a) (b := b) (r := r) .nil)
    refine .inr (.inr ⟨a, b, r, .unref, by simp, by simp, ⟨xs, a, r, _, rfl, hout, rfl⟩,
      .inr ⟨rfl, by simp, ?_⟩⟩)
    exact ⟨_, _, us, vs, k, _, by simp, by simp, hk, h, by simp, by simp⟩

/-- A node that is no ownership instruction corresponds to itself. -/
theorem Folds.foldedPlace_label (h : Folds code code' n) (hnd : (ids code).Nodup) (hb : (b, j) ∈ code)
    (hj : ∀ op r, j ≠ .adjust op r) :
    FoldedPlace code code' ((ids code).idxOf b) ((ids code').idxOf b) := by
  have hplace : ∀ {us vs : Code} {k : Instr NodeId}, (ids (us ++ (b, k) :: vs)).Nodup →
      (ids (us ++ (b, k) :: vs)).idxOf b = us.length := fun hnd => by
    rw [ids_append, ids_cons, List.nodup_append] at hnd
    rw [ids_append, List.idxOf_append_of_notMem fun hmem => hnd.2.2 b hmem b (by simp) rfl]
    simp [ids]
  obtain ⟨xs, ys, rfl⟩ := List.append_of_mem hb
  have hnd' := hnd.sublist h.sublist
  obtain ⟨us, vs, k, m, rfl, hk, hm⟩ | ⟨_, _, _, r, op, _, -, e, -⟩ := h.cut hnd
  · obtain ⟨vs', rfl, -⟩ := hm.of_cons fun r => hj .inc r
    rw [hplace hnd, hplace hnd']
    exact ⟨xs, us, _, _, k, m, rfl, rfl, hk, hm, rfl, rfl⟩
  · simp only [List.cons.injEq, Prod.mk.injEq] at e
    exact absurd e.1.2 (hj op r)

end

end CountedMachine.Listing
