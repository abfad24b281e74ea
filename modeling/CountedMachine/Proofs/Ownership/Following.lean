import CountedMachine.Ownership.Balance
import CountedMachine.Proofs.Listing.Paths

/-! # Following the paths

`follow` carries a state along all control paths. Where the states that reach a node are among those
of a relation `G` that no instruction leads out of, it comes to an end, with nothing or with a finding
at one of these states (`follow_cases`); the fuel covers two edges for each of finitely many states of
each node. So it finds nothing when no instruction objects to a state of `G` (`follow_quiet`).
Conversely, when it finds nothing, the states it has seen are such a relation (`follow_none`). -/

namespace CountedMachine.Listing

variable {σ : Type} {l : Listing} {code : Code}
  {observe : NodeId → Instr NodeId → List NodeId → σ → Except Imbalance σ}

/-- **Nothing is found** from the states of `G` on. -/
def Quiet (code : Code) (observe : NodeId → Instr NodeId → List NodeId → σ → Except Imbalance σ)
    (G : NodeId → σ → Prop) : Prop :=
  ∀ {a st}, G a st → ∃ xs i ys, code = xs ++ (a, i) :: ys ∧
    ∃ st', observe a i (targets i (firstId ys none)) st = .ok st' ∧
      ∀ b ∈ targets i (firstId ys none), G b st'

/-- **Nothing leads out of `G`**, wherever no instruction objects. -/
def Stable (code : Code) (observe : NodeId → Instr NodeId → List NodeId → σ → Except Imbalance σ)
    (G : NodeId → σ → Prop) : Prop :=
  ∀ {a st}, G a st → ∃ xs i ys, code = xs ++ (a, i) :: ys ∧
    ∀ st', observe a i (targets i (firstId ys none)) st = .ok st' →
      ∀ b ∈ targets i (firstId ys none), G b st'

theorem Quiet.stable {G : NodeId → σ → Prop} (hq : Quiet code observe G) :
    Stable code observe G := by
  intro a st hG
  obtain ⟨xs, i, ys, hcode, st', hobs, hnext⟩ := hq hG
  refine ⟨xs, i, ys, hcode, fun st'' hobs' => ?_⟩
  rw [hobs] at hobs'
  exact Except.ok.inj hobs' ▸ hnext

theorem countP_lt {α : Type} {p q : α → Bool} (hpq : ∀ x, p x = true → q x = true) {y : α}
    (hy : p y = false) (hy' : q y = true) : ∀ {xs : List α}, y ∈ xs → xs.countP p < xs.countP q
  | x :: xs, h => by
    have hle : xs.countP p ≤ xs.countP q := List.countP_mono_left fun x _ => hpq x
    rw [List.countP_cons, List.countP_cons]
    rcases List.mem_cons.mp h with rfl | h
    · simp [hy, hy']
      omega
    · have ih := countP_lt hpq hy hy' h
      have := hpq x
      split_ifs <;> grind

section
variable [BEq σ] [Hashable σ]

/-- The states, among the given ones, in which the nodes have not been seen. -/
def unseen (nodes : List NodeId) (states : List σ) (seen : Std.HashSet (NodeId × σ)) : Nat :=
  (nodes ×ˢ states).countP fun p => !seen.contains p

theorem unseen_le (nodes : List NodeId) (states : List σ) (seen : Std.HashSet (NodeId × σ)) :
    unseen nodes states seen ≤ nodes.length * states.length := by
  refine List.countP_le_length.trans ?_
  rw [List.length_product]

variable [LawfulBEq σ]

theorem unseen_insert {nodes : List NodeId} {states : List σ} {seen : Std.HashSet (NodeId × σ)}
    {a : NodeId} {st : σ} (ha : a ∈ nodes) (hst : st ∈ states) (hnew : seen.contains (a, st) = false) :
    unseen nodes states (seen.insert (a, st)) < unseen nodes states seen := by
  refine countP_lt (y := (a, st)) (fun p hp => ?_) ?_ ?_ (List.mem_product.mpr ⟨ha, hst⟩)
  · rw [Std.HashSet.contains_insert, Bool.not_or, Bool.and_eq_true] at hp
    exact hp.2
  · rw [Std.HashSet.contains_insert]
    simp
  · rw [hnew]
    rfl

/-- **The check comes to an end**: it finds nothing, or an instruction that objects to one of the
states of `G`. -/
theorem follow_cases (hl : Linked l code) {G : NodeId → σ → Prop} (hs : Stable code observe G)
    {states : List σ} (hstates : ∀ {a st}, G a st → st ∈ states) : ∀ (fuel : Nat)
    (seen : Std.HashSet (NodeId × σ)) (work : List (NodeId × σ)), (∀ p ∈ work, G p.1 p.2) →
    work.length + 2 * unseen (ids code) states seen ≤ fuel →
      l.follow observe fuel seen work = .ok none ∨
      ∃ xs a i ys st finding, code = xs ++ (a, i) :: ys ∧ G a st ∧
        observe a i (targets i (firstId ys none)) st = .error finding ∧
        l.follow observe fuel seen work = .ok (some finding)
  | fuel, seen, [], _, _ => Or.inl (by cases fuel <;> rfl)
  | 0, seen, p :: work, _, hf => by simp at hf
  | fuel + 1, seen, (a, st) :: work, hw, hf => by
    have hG := hw (a, st) (by simp)
    by_cases hseen : seen.contains (a, st) = true
    · rw [follow, if_pos hseen]
      refine follow_cases hl hs hstates fuel seen work (fun p hp => hw p (by simp [hp])) ?_
      simp only [List.length_cons] at hf
      omega
    · obtain ⟨xs, i, ys, hcode, hnext⟩ := hs hG
      have hl' : Linked l (xs ++ (a, i) :: ys) := hcode ▸ hl
      have ha : a ∈ ids code := by simp [hcode]
      rw [follow, if_neg hseen, hl'.get_eq (a := a) (i := i) (by simp), hl'.successors_eq]
      simp only [bind, Except.bind]
      cases hobs : observe a i (targets i (firstId ys none)) st with
      | error finding => exact Or.inr ⟨xs, a, i, ys, st, finding, hcode, hG, hobs, rfl⟩
      | ok st' =>
        refine follow_cases hl hs hstates fuel _ _ (fun p hp => ?_) ?_
        · rcases List.mem_append.mp hp with hp | hp
          · obtain ⟨b, hb, rfl⟩ := List.mem_map.mp hp
            exact hnext st' hobs b (List.mem_reverse.mp hb)
          · exact hw p (by simp [hp])
        · have hst : st ∈ states := hstates hG
          have hlt := unseen_insert ha hst (by simpa using hseen)
          have hlen := length_targets_le i (firstId ys none)
          simp only [List.length_append, List.length_map, List.length_reverse,
            List.length_cons] at hf ⊢
          omega

/-- **A check that nothing disturbs finds nothing.** -/
theorem follow_quiet (hl : Linked l code) {G : NodeId → σ → Prop}
    (hq : Quiet code observe G) {states : List σ} (hstates : ∀ {a st}, G a st → st ∈ states)
    (fuel : Nat) (seen : Std.HashSet (NodeId × σ)) (work : List (NodeId × σ))
    (hw : ∀ p ∈ work, G p.1 p.2) (hf : work.length + 2 * unseen (ids code) states seen ≤ fuel) :
    l.follow observe fuel seen work = .ok none := by
  refine (follow_cases hl hq.stable hstates fuel seen work hw hf).resolve_right ?_
  rintro ⟨xs, a, i, ys, st, finding, hcode, hG, hobs, -⟩
  obtain ⟨xs', i', ys', hcode', st', hobs', -⟩ := hq hG
  obtain ⟨rfl, rfl, rfl⟩ := split_unique hl.nodup hcode hcode'
  rw [hobs] at hobs'
  cases hobs'

/-- What has been seen is quiet, up to the states that are still to be looked at. -/
def QuietUpTo (l : Listing)
    (observe : NodeId → Instr NodeId → List NodeId → σ → Except Imbalance σ)
    (seen : Std.HashSet (NodeId × σ)) (work : List (NodeId × σ)) : Prop :=
  ∀ {a st}, seen.contains (a, st) = true → ∃ i next after, l.get a = .ok i ∧
    l.successors a = .ok next ∧ observe a i next st = .ok after ∧
    ∀ b ∈ next, seen.contains (b, after) = true ∨ (b, after) ∈ work

/-- **A check that finds nothing** has seen everything that can be reached. -/
theorem follow_none : ∀ (fuel : Nat) (seen : Std.HashSet (NodeId × σ)) (work : List (NodeId × σ)),
    l.follow observe fuel seen work = .ok none → QuietUpTo l observe seen work →
      ∃ seen' : Std.HashSet (NodeId × σ), (∀ p, seen.contains p = true → seen'.contains p = true) ∧
        (∀ p ∈ work, seen'.contains p = true) ∧ QuietUpTo l observe seen' []
  | fuel, seen, [], _, hq => ⟨seen, fun _ h => h, fun p hp => by simp at hp, hq⟩
  | 0, seen, p :: work, h, _ => by simp [follow] at h
  | fuel + 1, seen, (a, st) :: work, h, hq => by
    rw [follow] at h
    by_cases hseen : seen.contains (a, st) = true
    · rw [if_pos hseen] at h
      obtain ⟨seen', h₁, h₂, h₃⟩ := follow_none fuel seen work h fun {b st'} hb => by
        obtain ⟨i, next, after, hi, hn, ho, hnext⟩ := hq hb
        refine ⟨i, next, after, hi, hn, ho, fun c hc => ?_⟩
        rcases hnext c hc with hc | hc
        · exact Or.inl hc
        · rcases List.mem_cons.mp hc with hc | hc
          · rw [hc]
            exact Or.inl hseen
          · exact Or.inr hc
      refine ⟨seen', h₁, fun p hp => ?_, h₃⟩
      rcases List.mem_cons.mp hp with rfl | hp
      · exact h₁ _ hseen
      · exact h₂ p hp
    · rw [if_neg hseen] at h
      cases hi : l.get a with
      | error e => simp [hi, bind, Except.bind] at h
      | ok i =>
        cases hn : l.successors a with
        | error e => simp [hi, hn, bind, Except.bind] at h
        | ok next =>
          cases ho : observe a i next st with
          | error e => simp [hi, hn, ho, bind, Except.bind, pure, Except.pure] at h
          | ok after =>
            simp only [hi, hn, ho, bind, Except.bind] at h
            have hin : ∀ p, (seen.insert (a, st)).contains p = true ↔
                p = (a, st) ∨ seen.contains p = true := fun p => by
              rw [Std.HashSet.contains_insert, Bool.or_eq_true, beq_iff_eq, eq_comm]
            obtain ⟨seen', h₁, h₂, h₃⟩ := follow_none fuel _ _ h fun {b st'} hb => by
              rcases (hin _).mp hb with e | hb
              · cases e
                refine ⟨i, next, after, hi, hn, ho, fun c hc => Or.inr (List.mem_append_left _ ?_)⟩
                exact List.mem_map.mpr ⟨c, List.mem_reverse.mpr hc, rfl⟩
              · obtain ⟨i', next', after', hi', hn', ho', hnext⟩ := hq hb
                refine ⟨i', next', after', hi', hn', ho', fun c hc => ?_⟩
                rcases hnext c hc with hc | hc
                · exact Or.inl ((hin _).mpr (Or.inr hc))
                · rcases List.mem_cons.mp hc with hc | hc
                  · exact Or.inl ((hin _).mpr (Or.inl hc))
                  · exact Or.inr (List.mem_append_right _ hc)
            refine ⟨seen', fun p hp => h₁ p ((hin p).mpr (Or.inr hp)), fun p hp => ?_, h₃⟩
            rcases List.mem_cons.mp hp with rfl | hp
            · exact h₁ _ ((hin _).mpr (Or.inl rfl))
            · exact h₂ p (List.mem_append_right _ hp)

end

end CountedMachine.Listing
