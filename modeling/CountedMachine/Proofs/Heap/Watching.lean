import CountedMachine.Proofs.Heap.Overtaking

/-! # The life of a sealed scope

A scope does not see its members' counts change. It is told when a count reaches zero, it may be told
again about a member that has been at zero for a while, and it is not told when a member is acquired
again. `Watched` is a scope beside the counts of its members, and `Watched.handle` is what one event
does to the two.

The scope's own count is loosely tied to the counts of the members, but it stays `InStep`: at least one
and at most the number of members with a reference. That is enough for the scope to be discarded at
the first moment when no member has a reference, and at no other (`discarded_exactly`). -/

namespace CountedMachine.Scope

/-- What happens to a sealed scope: the count of a member rises or drops by one, or a member at zero
is reported once more. -/
inductive Event
  | gained (m : ObjId)
  | lost (m : ObjId)
  | reported (m : ObjId)

/-- A scope and the counts of all objects. -/
structure Watched where
  scope : Scope
  counts : ObjId → Nat

namespace Watched

/-- The scope is told that a member is at zero. -/
def report (w : Watched) : Watched × Decision :=
  let (s, d) := w.scope.noteZero w.counts
  (⟨s, w.counts⟩, d)

/-- The event can happen: it is about a member, only a positive count drops, and only a member at zero
is reported. -/
def Allows (w : Watched) : Event → Prop
  | .gained m => m ∈ w.scope.members
  | .lost m => m ∈ w.scope.members ∧ 0 < w.counts m
  | .reported m => m ∈ w.scope.members ∧ w.counts m = 0

/-- **One event**, and what the scope decides. A count that drops to zero is reported at once. -/
def handle (w : Watched) : Event → Watched × Decision
  | .gained m => (⟨w.scope, Function.update w.counts m (w.counts m + 1)⟩, .keep)
  | .lost m =>
    let w : Watched := ⟨w.scope, Function.update w.counts m (w.counts m - 1)⟩
    if w.counts m = 0 then w.report else (w, .keep)
  | .reported _ => w.report

/-- **The later states of a scope that has not been discarded**, event by event. -/
inductive Reaches (w : Watched) : Watched → Prop
  | refl : Reaches w w
  | next {w₁ w₂ : Watched} {e : Event} : Reaches w w₁ → w₁.Allows e → w₁.handle e = (w₂, .keep) →
    Reaches w w₂

/-- No member has a reference. -/
def Unreferenced (w : Watched) : Prop := ∀ m ∈ w.scope.members, w.counts m = 0

/-- **The scope's count is in step with the counts of its members:** it is positive, and no more than
the number of members with a reference. -/
structure InStep (w : Watched) : Prop where
  isSealed : w.scope.isSealed = true
  nodup : w.scope.members.Nodup
  pos : 1 ≤ w.scope.rc
  le : w.scope.rc ≤ w.scope.referenced w.counts

/-! ## Counting references -/

variable {w w' : Watched} {m : ObjId} {s : Scope} {f : ObjId → Nat}

theorem referenced_eq_countP (s : Scope) (f : ObjId → Nat) :
    s.referenced f = s.members.countP fun m => 0 < f m := by
  rw [referenced, List.countP_eq_length_filter]

/-- An acquired member adds to the members with a reference, if it had none. -/
theorem referenced_le_gained (s : Scope) (f : ObjId → Nat) (m : ObjId) :
    s.referenced f ≤ s.referenced (Function.update f m (f m + 1)) := by
  rw [referenced_eq_countP, referenced_eq_countP]
  refine List.countP_mono_left fun x _ hx => ?_
  rcases eq_or_ne x m with rfl | hne
  · simp
  · simpa [Function.update_of_ne hne] using hx

/-- A count that drops and stays positive changes nothing. -/
theorem referenced_lost_of_pos (s : Scope) {n : Nat} (hn : 0 < n) (hm : 0 < f m) :
    s.referenced (Function.update f m n) = s.referenced f := by
  rw [referenced_eq_countP, referenced_eq_countP]
  congr 1
  funext x
  rcases eq_or_ne x m with rfl | hne
  · simp [hn, hm]
  · simp [Function.update_of_ne hne]

/-- A member that drops to zero is one member with a reference less. -/
theorem referenced_lost (hnd : s.members.Nodup) (hmem : m ∈ s.members) (hm : 0 < f m) :
    s.referenced f = s.referenced (Function.update f m 0) + 1 := by
  rw [referenced_eq_countP, referenced_eq_countP]
  have := Heap.countP_insert (p := fun x => decide (0 < Function.update f m 0 x))
    (q := fun x => decide (0 < f x)) (a := m) (fun x => ?_) (by simp) hnd
  · rwa [if_pos hmem] at this
  · rcases eq_or_ne x m with rfl | hne
    · simp [hm]
    · simp [hne]

theorem referenced_pos_iff (s : Scope) (f : ObjId → Nat) :
    0 < s.referenced f ↔ ¬ ∀ m ∈ s.members, f m = 0 := by
  rw [← Heap.referenced_eq_zero_iff, Nat.pos_iff_ne_zero]

/-! ## One event -/

/-- **The decision is the right one:** the scope is discarded exactly when no member has a reference,
and otherwise the counts are in step. -/
structure Settled (out : Watched × Decision) : Prop where
  discard_iff : out.2 = .discard ↔ out.1.Unreferenced
  inStep : out.2 = .keep → out.1.InStep

theorem InStep.settled (hw : w.InStep) : Settled (w, .keep) := by
  have hpos := hw.pos
  have hle := hw.le
  have hsome : ¬ w.Unreferenced := (referenced_pos_iff w.scope w.counts).mp (by omega)
  exact ⟨by simp [hsome], fun _ => hw⟩

/-- A report is answered rightly as long as the scope's count is at most one ahead of the members. -/
theorem report_settled (hsealed : w.scope.isSealed = true) (hnd : w.scope.members.Nodup)
    (hpos : 1 ≤ w.scope.rc) (hle : w.scope.rc ≤ w.scope.referenced w.counts + 1) :
    Settled w.report := by
  have hzero := Heap.referenced_eq_zero_iff w.scope w.counts
  show Settled (⟨(w.scope.noteZero w.counts).1, w.counts⟩, (w.scope.noteZero w.counts).2)
  unfold Scope.noteZero
  split_ifs with h₁ h₂ h₃
  · simp [hsealed] at h₁
  · refine InStep.settled ⟨hsealed, hnd, ?_, ?_⟩
    · show 1 ≤ w.scope.rc - 1
      omega
    · show w.scope.rc - 1 ≤ w.scope.referenced w.counts
      omega
  · exact ⟨by simpa [Unreferenced] using hzero.mp h₃, fun h => by cases h⟩
  · refine InStep.settled ⟨hsealed, hnd, ?_, le_rfl⟩
    show 1 ≤ w.scope.referenced w.counts
    omega

/-- **Every event is decided rightly** while the counts are in step. -/
theorem InStep.handle (hw : w.InStep) {e : Event} (he : w.Allows e) : Settled (w.handle e) := by
  obtain ⟨hsealed, hnd, hpos, hle⟩ := hw
  cases e with
  | gained m =>
    exact InStep.settled ⟨hsealed, hnd, hpos, hle.trans (referenced_le_gained w.scope w.counts m)⟩
  | lost m =>
    obtain ⟨hmem, hm⟩ := he
    simp only [Watched.handle, Function.update_self]
    split_ifs with h0
    · refine report_settled hsealed hnd hpos ?_
      show w.scope.rc ≤ w.scope.referenced (Function.update w.counts m (w.counts m - 1)) + 1
      rw [h0, ← referenced_lost hnd hmem hm]
      exact hle
    · refine InStep.settled ⟨hsealed, hnd, hpos, ?_⟩
      show w.scope.rc ≤ w.scope.referenced (Function.update w.counts m (w.counts m - 1))
      rw [referenced_lost_of_pos w.scope (by omega) hm]
      exact hle
  | reported m => exact report_settled hsealed hnd hpos (by omega)

theorem members_handle (w : Watched) (e : Event) :
    (w.handle e).1.scope.members = w.scope.members := by
  have hreport : ∀ w' : Watched, w'.report.1.scope.members = w'.scope.members :=
    fun w' => Heap.noteZero_members w'.scope w'.counts
  cases e with
  | gained m => rfl
  | lost m =>
    simp only [handle]
    split_ifs
    · exact hreport _
    · rfl
  | reported m => exact hreport w

/-- **Along a history** the counts stay in step, and the members stay the same. -/
theorem InStep.reaches (hw : w.InStep) (hr : Reaches w w') :
    w'.InStep ∧ w'.scope.members = w.scope.members := by
  induction hr with
  | refl => exact ⟨hw, rfl⟩
  | @next w₁ w₂ e _ hallows hstep ih =>
    have hmembers := members_handle w₁ e
    have hsettled := ih.1.handle hallows
    rw [hstep] at hmembers hsettled
    exact ⟨hsettled.inStep rfl, hmembers.trans ih.2⟩

end Watched

/-! ## Filling and sealing -/

theorem enrolAll : ∀ {s : Scope} (ms : List ObjId), s.isSealed = false →
    s.members.length + ms.length ≤ s.size →
      ms.foldlM enrol s = .ok { s with members := s.members ++ ms }
  | s, [], _, _ => by simp [pure, Except.pure]
  | s, m :: ms, hopen, hsize => by
    have hstep : s.enrol m = .ok { s with members := s.members ++ [m] } := by
      simp only [List.length_cons] at hsize
      rw [enrol, if_neg (by simp [hopen]), if_neg (by omega)]
    have hrest := enrolAll (s := { s with members := s.members ++ [m] }) ms hopen (by
      simp only [List.length_append, List.length_cons, List.length_nil] at hsize ⊢
      omega)
    rw [List.foldlM_cons, hstep]
    simpa [bind, Except.bind] using hrest

/-- Reports that a scope survives lower its count by their number. -/
theorem noteZeros_of_lt {f : ObjId → Nat} : ∀ {n : Nat} {s : Scope}, s.isSealed = true → n < s.rc →
    noteZeros f n s = ({ s with rc := s.rc - n }, .keep)
  | 0, s, _, _ => rfl
  | n + 1, s, hsealed, hn => by
    have hstep : s.noteZero f = ({ s with rc := s.rc - 1 }, .keep) := by
      rw [noteZero, if_neg (by simp [hsealed]), if_pos (by omega)]
    rw [noteZeros, hstep]
    refine (noteZeros_of_lt (s := { s with rc := s.rc - 1 }) hsealed (by
      show n < s.rc - 1
      omega)).trans ?_
    simp only [Prod.mk.injEq, mk.injEq, and_true, true_and]
    omega

/-- As many reports as the scope counts members discard it, when no member has a reference. -/
theorem noteZeros_eq_rc {f : ObjId → Nat} : ∀ {n : Nat} {s : Scope}, s.isSealed = true → s.rc = n + 1 →
    s.referenced f = 0 → (noteZeros f (n + 1) s).2 = .discard
  | 0, s, hsealed, hrc, h0 => by
    have hstep := (Heap.noteZero_discard_iff s f).mpr ⟨hsealed, by omega, h0⟩
    rw [noteZeros]
    rcases hd : s.noteZero f with ⟨s', d⟩
    rw [hd] at hstep
    obtain rfl : d = .discard := hstep
    rfl
  | n + 1, s, hsealed, hrc, h0 => by
    have hstep : s.noteZero f = ({ s with rc := s.rc - 1 }, .keep) := by
      rw [noteZero, if_neg (by simp [hsealed]), if_pos (by omega)]
    rw [noteZeros, hstep]
    exact noteZeros_eq_rc (s := { s with rc := s.rc - 1 }) hsealed (by
      show s.rc - 1 = n + 1
      omega) h0

/-- The members without a reference and those with one are all members. -/
theorem zeros_add_referenced (s : Scope) (f : ObjId → Nat) :
    (s.members.filter fun m => f m = 0).length + s.referenced f = s.members.length := by
  have hflip : (fun m => decide (0 < f m)) = fun m => !decide (f m = 0) := by
    funext m
    simp [Nat.pos_iff_ne_zero]
  rw [referenced, hflip]
  exact (List.length_eq_length_filter_add fun m => decide (f m = 0)).symm

/-- **Sealing a full scope** discards it exactly when no member has a reference; otherwise the counts
are in step from then on. -/
theorem close_spec {s : Scope} (hopen : s.isSealed = false) (hfull : s.members.length = s.size)
    (hne : s.members ≠ []) (hnd : s.members.Nodup) (f : ObjId → Nat) :
    ∃ s' d, s.close f = .ok (s', d) ∧ (d = .discard ↔ ∀ m ∈ s.members, f m = 0) ∧
      (d = .keep → s'.members = s.members ∧ Watched.InStep ⟨s', f⟩) := by
  have hclose : s.close f = .ok (noteZeros f (s.members.filter fun m => f m = 0).length
      { s with isSealed := true, rc := s.size }) := by
    rw [close, if_neg (by simp [hopen]), if_neg (by simp [hfull])]
  have hsplit := zeros_add_referenced s f
  have hlen : 0 < s.members.length := List.length_pos_iff.mpr hne
  refine ⟨_, _, hclose, ?_⟩
  rw [← Heap.referenced_eq_zero_iff]
  generalize (s.members.filter fun m => f m = 0).length = zeros at hsplit ⊢
  rcases Nat.eq_zero_or_pos (s.referenced f) with h0 | hpos
  · obtain ⟨n, rfl⟩ : ∃ n, zeros = n + 1 := ⟨zeros - 1, by omega⟩
    have hdiscard := noteZeros_eq_rc (f := f) (n := n)
      (s := { s with isSealed := true, rc := s.size }) rfl (by show s.size = n + 1; omega) h0
    rw [hdiscard]
    exact ⟨by simp [h0], fun h => by cases h⟩
  · rw [noteZeros_of_lt rfl (by show zeros < s.size; omega)]
    refine ⟨by simp; omega, fun _ => ⟨rfl, rfl, hnd, ?_, ?_⟩⟩
    · show 1 ≤ s.size - zeros
      omega
    · show s.size - zeros ≤ s.referenced f
      omega

/-- **A scope is discarded exactly when its last outside reference goes.** A scope for one or more
different members is filled and sealed while the members have any counts: it is discarded at once if and
only if no member has a reference. Otherwise, after every history of events in which it has not
been discarded, its own count is at least one and at most the number of members with a reference, and
the next event discards it if and only if no member has a reference then. -/
theorem discarded_exactly (ms : List ObjId) (hne : ms ≠ []) (hnd : ms.Nodup) (f : ObjId → Nat) :
    ∃ s s' d, ms.foldlM enrol (.new ms.length) = .ok s ∧ s.close f = .ok (s', d) ∧
      (d = .discard ↔ ∀ m ∈ ms, f m = 0) ∧
      (d = .keep → ∀ w, Watched.Reaches ⟨s', f⟩ w →
        w.scope.members = ms ∧ 1 ≤ w.scope.rc ∧
        w.scope.rc ≤ (ms.filter fun m => 0 < w.counts m).length ∧
        ∀ e, w.Allows e →
          ((w.handle e).2 = .discard ↔ ∀ m ∈ ms, (w.handle e).1.counts m = 0)) := by
  have hfill := enrolAll (s := .new ms.length) ms rfl (by simp [new])
  obtain ⟨s', d, hclose, hdec, hkeep⟩ := close_spec
    (s := { Scope.new ms.length with members := ms }) rfl rfl hne hnd f
  refine ⟨_, s', d, by simpa [new] using hfill, hclose, hdec, fun hd w hw => ?_⟩
  obtain ⟨hmembers, hstep⟩ := hkeep hd
  obtain ⟨hin, hsame⟩ := hstep.reaches hw
  have hms : w.scope.members = ms := hsame.trans hmembers
  refine ⟨hms, hin.pos, ?_, fun e he => ?_⟩
  · have := hin.le
    rwa [referenced, hms] at this
  · rw [(hin.handle he).discard_iff, Watched.Unreferenced, Watched.members_handle, hms]

/-- Two closures, the second with a reference: the scope outlives its sealing, and goes with the
reference. -/
theorem discarded_exactly_pair :
    ∃ s s', [⟨0⟩, ⟨1⟩].foldlM enrol (.new 2) = .ok s ∧
      s.close (fun m => m.index) = .ok (s', .keep) ∧
      (Watched.handle ⟨s', fun m => m.index⟩ (.lost ⟨1⟩)).2 = .discard := by
  obtain ⟨s, s', d, hs, hclose, hdec, hlater⟩ :=
    discarded_exactly [⟨0⟩, ⟨1⟩] (by decide) (by decide) fun m => m.index
  cases hs
  cases hclose
  obtain ⟨-, -, -, hnext⟩ := hlater rfl _ .refl
  exact ⟨_, _, rfl, rfl, (hnext (.lost ⟨1⟩) ⟨by decide, by decide⟩).mpr (by decide)⟩

end CountedMachine.Scope
