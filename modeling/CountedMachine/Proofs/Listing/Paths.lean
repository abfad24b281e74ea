import CountedMachine.Proofs.Listing.Linked

/-! # Control paths of a listing

`Step` is the control graph of a sequence of nodes, and for a linked listing it is what `successors`
says (`Linked.successors_eq`). The sequences that the ownership analysis works on are `Orderly`: they
end, they have no loops, labels are nodes of the sequence that nothing but control passes through,
and the else arm of a branch is entered from that branch only. Without loops there is a `rank` that
falls along every step, and what is proved about a node may use what is proved about those after
it. -/

namespace CountedMachine.Listing

/-- Where control may go after an instruction, given the node that follows it. -/
def targets (i : Instr NodeId) (next : Option NodeId) : List NodeId :=
  match i with
  | .branch _ no => next.toList ++ [no]
  | .jump target => [target]
  | i => if i.isTerminal then [] else next.toList

/-- **Control may go from one node to the other.** -/
def Step (code : Code) (a b : NodeId) : Prop :=
  ∃ xs i ys, code = xs ++ (a, i) :: ys ∧ b ∈ targets i (firstId ys none)

/-- A control path leads from one node to the other. -/
abbrev Reach (code : Code) : NodeId → NodeId → Prop := Relation.ReflTransGen (Step code)

variable {l : Listing} {code xs ys xs' ys' : Code} {a b : NodeId} {i j : Instr NodeId}

/-- A node occurs once. -/
theorem split_unique (hnd : (ids code).Nodup) (h : code = xs ++ (a, i) :: ys)
    (h' : code = xs' ++ (a, j) :: ys') : xs = xs' ∧ i = j ∧ ys = ys' := by
  subst h
  induction xs generalizing xs' with
  | nil =>
    rcases xs' with _ | ⟨x, xs'⟩
    · simp only [List.nil_append, List.cons.injEq, Prod.mk.injEq, true_and] at h'
      exact ⟨rfl, h'⟩
    · simp only [List.nil_append, List.cons_append, List.cons.injEq] at h'
      obtain ⟨rfl, rfl⟩ := h'
      simp at hnd
  | cons x xs ih =>
    rw [List.cons_append, ids_cons, List.nodup_cons] at hnd
    rcases xs' with _ | ⟨x', xs'⟩
    · simp only [List.nil_append, List.cons_append, List.cons.injEq] at h'
      rw [h'.1] at hnd
      exact absurd (by simp) hnd.1
    · simp only [List.cons_append, List.cons.injEq] at h'
      obtain ⟨rfl, h'⟩ := h'
      obtain ⟨rfl, rfl, rfl⟩ := ih hnd.2 h'
      exact ⟨rfl, rfl, rfl⟩

theorem instr_unique (hnd : (ids code).Nodup) (h : (a, i) ∈ code) (h' : (a, j) ∈ code) : i = j := by
  obtain ⟨xs, ys, e⟩ := List.append_of_mem h
  obtain ⟨xs', ys', e'⟩ := List.append_of_mem h'
  exact (split_unique hnd e e').2.1

theorem step_iff (hnd : (ids (xs ++ (a, i) :: ys)).Nodup) :
    Step (xs ++ (a, i) :: ys) a b ↔ b ∈ targets i (firstId ys none) := by
  refine ⟨fun ⟨xs', i', ys', e, hb⟩ => ?_, fun hb => ⟨xs, i, ys, rfl, hb⟩⟩
  obtain ⟨rfl, rfl, rfl⟩ := split_unique hnd rfl e
  exact hb

theorem mem_ids (h : (a, i) ∈ code) : a ∈ ids code := List.mem_map.mpr ⟨_, h, rfl⟩

theorem exists_instr (h : a ∈ ids code) : ∃ i, (a, i) ∈ code := by
  obtain ⟨xs, i, ys, rfl⟩ := exists_split h
  exact ⟨i, by simp⟩

theorem length_targets_le (i : Instr NodeId) (next : Option NodeId) :
    (targets i next).length ≤ 2 := by
  unfold targets
  split
  · cases next <;> simp
  · simp
  · split_ifs
    · simp
    · cases next <;> simp

/-- **The successors of a node** in a linked listing. -/
theorem Linked.successors_eq (hl : Linked l (xs ++ (a, i) :: ys)) :
    l.successors a = .ok (targets i (firstId ys none)) := by
  simp only [successors, node, hl.node?_eq, bind, Except.bind]
  cases i <;> rfl

/-! ## Orderly code -/

/-- Code that ends, without loops, whose labels are places where control joins and whose else arms
are entered from their branch only. -/
structure Orderly (code : Code) : Prop where
  nodup : (ids code).Nodup
  ends : ∃ xs, code = xs ++ [(tail, Instr.done)]
  acyclic : ∀ a, ¬ Relation.TransGen (Step code) a a
  labels : ∀ {a i b}, (a, i) ∈ code → i.label? = some b → ∃ j, (b, j) ∈ code ∧ j.isLabel = true
  only : ∀ {a c no p}, (a, .branch c no) ∈ code → Step code p no → p = a

theorem mem_targets {next : Option NodeId} (hb : b ∈ targets i next) :
    next = some b ∨ i.label? = some b := by
  cases i
  case branch c no =>
    simp only [targets, List.mem_append, Option.mem_toList, List.mem_singleton] at hb
    exact hb.imp id fun e => by rw [e]; rfl
  case jump t =>
    simp only [targets, List.mem_singleton] at hb
    exact Or.inr (by rw [hb]; rfl)
  all_goals simp [targets, Instr.isTerminal] at hb
  all_goals exact Or.inl hb

theorem firstId_mem {q : Option NodeId} : ∀ {code : Code}, firstId code q = some b → q = none →
    b ∈ ids code
  | [], h, hq => by rw [firstId, hq] at h; cases h
  | (a, i) :: rest, h, _ => by simp [Option.some.inj h]

/-- Control stays in code that holds its labels. -/
theorem targets_mem (hlabel : ∀ c, i.label? = some c → c ∈ ids (xs ++ (a, i) :: ys))
    (hb : b ∈ targets i (firstId ys none)) : b ∈ ids (xs ++ (a, i) :: ys) := by
  rcases mem_targets hb with h | h
  · have := firstId_mem h rfl
    simp [this]
  · exact hlabel b h

/-- **A rank falls along every step** where the steps stay among the nodes and form no loop. -/
theorem exists_rank (hmem : ∀ {a b}, Step code a b → a ∈ ids code ∧ b ∈ ids code)
    (hac : ∀ a, ¬ Relation.TransGen (Step code) a a) : ∃ rank : NodeId → Nat,
      (∀ a b, Step code a b → rank b < rank a) ∧ ∀ a, rank a ≤ code.length := by
  classical
  refine ⟨fun a => ((ids code).toFinset.filter (Reach code a)).card, fun a b hs => ?_, fun a => ?_⟩
  · obtain ⟨ha, hb⟩ := hmem hs
    refine Finset.card_lt_card ⟨fun c hc => ?_, fun hsub => ?_⟩
    · rw [Finset.mem_filter] at hc ⊢
      exact ⟨hc.1, hc.2.head hs⟩
    · have : a ∈ (ids code).toFinset.filter (Reach code b) :=
        hsub (Finset.mem_filter.mpr ⟨List.mem_toFinset.mpr ha, .refl⟩)
      exact hac a (.head' hs (Finset.mem_filter.mp this).2)
  · calc ((ids code).toFinset.filter (Reach code a)).card ≤ (ids code).toFinset.card :=
          Finset.card_filter_le _ _
      _ ≤ (ids code).length := List.toFinset_card_le _
      _ = code.length := List.length_map _

variable (ho : Orderly code)
include ho

theorem Orderly.step_mem (hs : Step code a b) : a ∈ ids code ∧ b ∈ ids code := by
  obtain ⟨xs, i, ys, rfl, hb⟩ := hs
  refine ⟨by simp, targets_mem (fun c hc => ?_) hb⟩
  obtain ⟨j, hj, -⟩ := ho.labels (a := a) (i := i) (by simp) hc
  exact mem_ids hj

theorem Orderly.reach_mem (hr : Reach code a b) (ha : a ∈ ids code) : b ∈ ids code := by
  rcases Relation.ReflTransGen.cases_tail hr with rfl | ⟨c, -, hc⟩
  · exact ha
  · exact (ho.step_mem hc).2

/-- A rank falls along every step of orderly code. -/
theorem Orderly.exists_rank : ∃ rank : NodeId → Nat, ∀ a b, Step code a b → rank b < rank a :=
  (Listing.exists_rank ho.step_mem ho.acyclic).imp fun _ h => h.1

/-- What holds of a node when it holds of those after it holds everywhere. -/
theorem Orderly.induction {P : NodeId → Prop} (hstep : ∀ a, (∀ b, Step code a b → P b) → P a)
    (a : NodeId) : P a := by
  obtain ⟨rank, hrank⟩ := ho.exists_rank
  induction hn : rank a using Nat.strong_induction_on generalizing a with
  | _ n ih =>
    subst hn
    exact hstep a fun b hb => ih (rank b) (hrank a b hb) b rfl

end CountedMachine.Listing
