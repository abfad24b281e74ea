import CountedMachine.Ownership.Placement
import CountedMachine.Proofs.Ownership.Liveness

/-! # Liveness where jumps go forward

Where every label stands behind the instructions that name it, one pass over the sequence from its end
finds the nodes at which a register is live (`liveIds`), and one from its beginning those that control
reaches (`reachIds`). These are what the search finds (`liveness_forward`), so the edits for a register can
be had without a search (`editsIfCounted_forward`). Sorted by insertion, they give the whole ownership pass in
a form that is evaluated by recursion on lists (`placeOwnership_forward`). -/

namespace CountedMachine

namespace Listing

variable {l : Listing} {code rest : Code} {r : Reg} {a b c start : NodeId} {i : Instr NodeId}
  {known : List NodeId}

/-- Control goes only to nodes that stand behind. -/
def Forward : Code → Prop
  | [] => True
  | (_, i) :: rest => (∀ b ∈ targets i (firstId rest none), b ∈ ids rest) ∧ Forward rest

instance decidableForward : ∀ code : Code, Decidable (Forward code)
  | [] => .isTrue trivial
  | (_, _) :: rest => @instDecidableAnd _ _ (List.decidableBAll _ _) (decidableForward rest)

/-- The nodes at which the register is live, one more instruction coming before them. -/
def addLive (r : Reg) (a : NodeId) (i : Instr NodeId) (next : List NodeId) (live : List NodeId) : List NodeId :=
  if i.reads r || next.any live.contains then a :: live else live

/-- The nodes at which the register is live, found from the end of the sequence. -/
def liveIds (r : Reg) : Code → List NodeId
  | [] => []
  | (a, i) :: rest => addLive r a i (targets i (firstId rest none)) (liveIds r rest)

/-- The nodes that control reaches from known ones, found from the beginning of the sequence. -/
def reachIds (known : List NodeId) : Code → List NodeId
  | [] => []
  | (a, i) :: rest =>
    if a ∈ known then a :: reachIds (targets i (firstId rest none) ++ known) rest else reachIds known rest

/-! ## The control graph -/

theorem step_cons : Step ((a, i) :: rest) b c ↔
    b = a ∧ c ∈ targets i (firstId rest none) ∨ Step rest b c := by
  constructor
  · rintro ⟨xs, j, ys, e, hc⟩
    cases xs with
    | nil =>
      obtain ⟨⟨rfl, rfl⟩, rfl⟩ := List.cons.inj e |>.imp_left Prod.mk.inj
      exact Or.inl ⟨rfl, hc⟩
    | cons x xs => exact Or.inr ⟨xs, j, ys, (List.cons.inj e).2, hc⟩
  · rintro (⟨rfl, hc⟩ | ⟨xs, j, ys, rfl, hc⟩)
    · exact ⟨[], i, rest, rfl, hc⟩
    · exact ⟨(a, i) :: xs, j, ys, rfl, hc⟩

theorem Forward.step_mem (hf : Forward ((a, i) :: rest)) (hs : Step ((a, i) :: rest) b c) :
    c ∈ ids rest := by
  induction rest generalizing a i with
  | nil =>
    rcases step_cons.mp hs with ⟨-, hc⟩ | ⟨xs, j, ys, e, -⟩
    · exact hf.1 c hc
    · simp at e
  | cons x rest ih =>
    rcases step_cons.mp hs with ⟨-, hc⟩ | hs
    · exact hf.1 c hc
    · exact List.mem_cons_of_mem _ (ih hf.2 hs)

/-- Control never comes back. -/
theorem Forward.acyclic (hf : Forward code) (hnd : (ids code).Nodup) (b : NodeId) :
    ¬ Relation.TransGen (Step code) b b := by
  induction code with
  | nil =>
    intro h
    obtain ⟨c, ⟨xs, j, ys, e, -⟩, -⟩ := Relation.TransGen.head'_iff.mp h
    simp at e
  | cons x rest ih =>
    obtain ⟨a, i⟩ := x
    obtain ⟨ha, hnd⟩ := List.nodup_cons.mp hnd
    have hrest : ∀ {c d}, c ∈ ids rest → Relation.TransGen (Step ((a, i) :: rest)) c d →
        Relation.TransGen (Step rest) c d := by
      intro c d hc h
      induction h using Relation.TransGen.head_induction_on with
      | single hs =>
        rcases step_cons.mp hs with ⟨rfl, -⟩ | hs
        · exact absurd hc ha
        · exact .single hs
      | head hs _ ih =>
        have hd := hf.step_mem hs
        rcases step_cons.mp hs with ⟨rfl, -⟩ | hs
        · exact absurd hc ha
        · exact .head hs (ih hd)
    intro h
    obtain ⟨c, -, hs⟩ := Relation.TransGen.tail'_iff.mp h
    exact ih hf.2 hnd (hrest (hf.step_mem hs) h)

theorem Forward.reach_mem (hf : Forward code) (h : Reach code a b) (ha : a ∈ ids code) : b ∈ ids code := by
  rcases Relation.ReflTransGen.cases_tail h with rfl | ⟨c, -, hs⟩
  · exact ha
  · cases code with
    | nil => cases ha
    | cons x rest => exact List.mem_cons_of_mem _ (hf.step_mem hs)

theorem Forward.reach_cons (hf : Forward ((a, i) :: rest)) (hnd : (ids ((a, i) :: rest)).Nodup)
    (hb : b ∈ ids rest) : Reach ((a, i) :: rest) b c ↔ Reach rest b c := by
  constructor
  · intro h
    induction h with
    | refl => exact .refl
    | tail h hs ih =>
      rcases step_cons.mp hs with ⟨rfl, -⟩ | hs
      · exact absurd (hf.2.reach_mem ih hb) (List.nodup_cons.mp hnd).1
      · exact .tail ih hs
  · intro h
    induction h with
    | refl => exact .refl
    | tail _ hs ih => exact .tail ih (step_cons.mpr (Or.inr hs))

/-- **The nodes that control reaches** from those that are known. -/
theorem mem_reachIds (hf : Forward code) (hnd : (ids code).Nodup) :
    b ∈ reachIds known code ↔ ∃ c ∈ known, c ∈ ids code ∧ Reach code c b := by
  induction code generalizing known with
  | nil => simp [reachIds]
  | cons x rest ih =>
    obtain ⟨a, i⟩ := x
    have ha : a ∉ ids rest := (List.nodup_cons.mp hnd).1
    have hsame : ∀ {c}, c ∈ ids rest → (Reach ((a, i) :: rest) c b ↔ Reach rest c b) := fun hc =>
      hf.reach_cons hnd hc
    have hrest : (∃ c ∈ known, c ∈ ids rest ∧ Reach rest c b) →
        ∃ c ∈ known, c ∈ ids ((a, i) :: rest) ∧ Reach ((a, i) :: rest) c b := by
      rintro ⟨c, hk, hc, hr⟩
      exact ⟨c, hk, List.mem_cons_of_mem _ hc, (hsame hc).mpr hr⟩
    have hfirst : Reach ((a, i) :: rest) a b ↔
        b = a ∨ ∃ c ∈ targets i (firstId rest none), Reach rest c b := by
      rw [show Reach ((a, i) :: rest) a b ↔ _ from Relation.ReflTransGen.cases_head_iff, eq_comm]
      refine or_congr Iff.rfl (exists_congr fun c => ?_)
      constructor
      · rintro ⟨hs, hr⟩
        rcases step_cons.mp hs with ⟨-, hc⟩ | ⟨xs, j, ys, rfl, -⟩
        · exact ⟨hc, (hsame (hf.1 c hc)).mp hr⟩
        · simp at ha
      · rintro ⟨hc, hr⟩
        exact ⟨step_cons.mpr (Or.inl ⟨rfl, hc⟩), (hsame (hf.1 c hc)).mpr hr⟩
    rw [reachIds]
    split_ifs with hk
    · rw [List.mem_cons, ih hf.2 (List.nodup_cons.mp hnd).2]
      constructor
      · rintro (rfl | ⟨c, hc, hmem, hr⟩)
        · exact ⟨b, hk, by simp, .refl⟩
        · rcases List.mem_append.mp hc with hc | hc
          · exact ⟨a, hk, by simp, hfirst.mpr (Or.inr ⟨c, hc, hr⟩)⟩
          · exact hrest ⟨c, hc, hmem, hr⟩
      · rintro ⟨c, hc, hmem, hr⟩
        rcases List.mem_cons.mp hmem with rfl | hmem
        · exact (hfirst.mp hr).imp id fun ⟨d, hd, hr⟩ => ⟨d, by simp [hd], hf.1 d hd, hr⟩
        · exact Or.inr ⟨c, by simp [hc], hmem, (hsame hmem).mp hr⟩
    · rw [ih hf.2 (List.nodup_cons.mp hnd).2]
      refine ⟨hrest, fun ⟨c, hc, hmem, hr⟩ => ?_⟩
      rcases List.mem_cons.mp hmem with rfl | hmem
      · exact absurd hc hk
      · exact ⟨c, hc, hmem, (hsame hmem).mp hr⟩

theorem nodup_reachIds (hnd : (ids code).Nodup) : (reachIds known code).Nodup := by
  have hsub : ∀ {code : Code} {known : List NodeId}, (reachIds known code).Sublist (ids code) := by
    intro code
    induction code with
    | nil => exact fun {_} => .slnil
    | cons x rest ih =>
      intro known
      rw [reachIds]
      split_ifs
      · exact ih.cons_cons _
      · exact ih.cons _
  exact hnd.sublist hsub

theorem mem_of_mem_liveIds (h : b ∈ liveIds r code) : b ∈ ids code := by
  induction code with
  | nil => cases h
  | cons x rest ih =>
    rw [liveIds, addLive] at h
    split_ifs at h
    · rcases List.mem_cons.mp h with rfl | h
      · exact List.mem_cons_self
      · exact List.mem_cons_of_mem _ (ih h)
    · exact List.mem_cons_of_mem _ (ih h)

/-- **The nodes at which the register is live.** -/
theorem mem_liveIds (hf : Forward code) (hnd : (ids code).Nodup) :
    b ∈ liveIds r code ↔ Live code r b := by
  induction code generalizing b with
  | nil =>
    refine ⟨fun h => (List.not_mem_nil h).elim, fun h => ?_⟩
    obtain ⟨h, -⟩ | ⟨⟨xs, j, ys, e, -⟩, -⟩ := h
    · cases h
    · simp at e
  | cons x rest ih =>
    obtain ⟨a, i⟩ := x
    obtain ⟨ha, hnd'⟩ := List.nodup_cons.mp hnd
    have ih : ∀ {b}, b ∈ liveIds r rest ↔ Live rest r b := ih hf.2 hnd'
    have hrest : ∀ {b}, b ∈ ids rest → (Live ((a, i) :: rest) r b ↔ Live rest r b) := by
      intro b hb
      constructor
      · intro h
        induction h with
        | read hmem hr =>
          rcases List.mem_cons.mp hmem with e | hmem
          · exact absurd ((Prod.mk.inj e).1 ▸ hb) ha
          · exact .read hmem hr
        | step hs _ ih =>
          have hc := hf.step_mem hs
          rcases step_cons.mp hs with ⟨rfl, -⟩ | hs
          · exact absurd hb ha
          · exact .step hs (ih hc)
      · intro h
        induction h with
        | read hmem hr => exact .read (List.mem_cons_of_mem _ hmem) hr
        | step hs _ ih =>
          refine .step (step_cons.mpr (Or.inr hs)) (ih ?_)
          exact hf.step_mem (step_cons.mpr (Or.inr hs))
    have hfirst : Live ((a, i) :: rest) r a ↔
        (i.reads r || (targets i (firstId rest none)).any (liveIds r rest).contains) = true := by
      rw [live_iff hnd List.mem_cons_self, Bool.or_eq_true, List.any_eq_true]
      refine or_congr Iff.rfl (exists_congr fun c => ?_)
      have hnd₀ : (ids ([] ++ (a, i) :: rest)).Nodup := hnd
      have hstep : Step ((a, i) :: rest) a c ↔ c ∈ targets i (firstId rest none) := step_iff hnd₀
      rw [hstep, List.contains_iff_mem, ih]
      exact and_congr_right fun hc => hrest (hf.1 c hc)
    by_cases hba : b = a
    · subst hba
      rw [hfirst, liveIds, addLive]
      split_ifs with h
      · simp [h]
      · exact ⟨fun hb => absurd (mem_of_mem_liveIds hb) ha, fun h' => absurd h' h⟩
    · have hmem : b ∈ liveIds r ((a, i) :: rest) ↔ b ∈ liveIds r rest := by
        rw [liveIds, addLive]
        split_ifs <;> simp [hba]
      rw [hmem]
      by_cases hb : b ∈ ids rest
      · rw [ih, hrest hb]
      · refine ⟨fun h => absurd (mem_of_mem_liveIds h) hb, fun h => absurd ?_ hb⟩
        obtain ⟨hmem, -⟩ | ⟨⟨xs, j, ys, e, -⟩, -⟩ := h
        · exact mem_ids ((List.mem_cons.mp hmem).resolve_left fun e => hba (Prod.mk.inj e).1)
        · cases xs with
          | nil => exact absurd (Prod.mk.inj (List.cons.inj e).1).1.symm hba
          | cons x xs => rw [(List.cons.inj e).2]; simp

/-! ## The search -/

/-- **What the search returns** on code whose jumps go forward. -/
theorem liveness_forward (hl : Linked l code) (hf : Forward code) (hstart : start ∈ ids code) (r : Reg) :
    ∃ live, l.liveness r start = .ok live ∧ (∀ a, a ∈ live ↔ a ∈ reachIds [start] code) ∧
      ∀ a, live.getD a false = ((reachIds [start] code).contains a && (liveIds r code).contains a) := by
  have hreach : ∀ b, b ∈ reachIds [start] code ↔ Reach code start b := fun b => by
    rw [mem_reachIds hf hl.nodup]
    simp [hstart]
  rcases liveness_cases hl (fun b hb => hf.reach_mem hb hstart) r with ⟨b, -, -, hloop⟩ | ⟨live, e, hfound⟩
  · exact absurd hloop (hf.acyclic hl.nodup b)
  · refine ⟨live, e, fun a => ?_, fun a => ?_⟩
    · rw [Std.HashMap.mem_iff_contains, hfound.iff_reach, hreach]
    · have hmem : (reachIds [start] code).contains a = live.contains a := by
        rw [Bool.eq_iff_iff, List.contains_iff_mem, hreach, hfound.iff_reach]
      rw [hmem]
      cases hc : live.contains a with
      | false => exact Std.HashMap.getD_eq_fallback_of_contains_eq_false hc
      | true =>
        rw [Bool.true_and, Bool.eq_iff_iff, hfound.getD_iff hc, List.contains_iff_mem,
          mem_liveIds hf hl.nodup]

/-! ## Sorting by insertion -/

section
variable {α : Type} {le : α → α → Bool}

theorem orderedInsert_append {a : α} {ys : List α} (ha : ∀ b ∈ ys.head?, le a b = true) : ∀ {xs : List α},
    (∀ b ∈ xs, le a b = false) → (xs ++ ys).orderedInsert (fun a b => le a b = true) a = xs ++ a :: ys
  | [], _ => by
    cases ys with
    | nil => rfl
    | cons b ys => simp [ha b rfl]
  | x :: xs, h => by
    rw [List.cons_append, List.orderedInsert, if_neg (by simp [h x List.mem_cons_self]),
      orderedInsert_append ha fun b hb => h b (List.mem_cons_of_mem _ hb), List.cons_append]

/-- Sorting by merging and sorting by insertion are both stable, so they are the same. -/
theorem mergeSort_eq_insertionSort (htrans : ∀ a b c, le a b = true → le b c = true → le a c = true)
    (htotal : ∀ a b, (le a b || le b a) = true) (xs : List α) :
    xs.mergeSort le = xs.insertionSort fun a b => le a b = true := by
  induction xs with
  | nil => simp
  | cons a xs ih =>
    obtain ⟨ys, zs, hcons, hsort, hlt⟩ := List.mergeSort_cons htrans htotal a xs
    have hsorted := List.pairwise_mergeSort htrans htotal (a :: xs)
    rw [hcons] at hsorted
    rw [List.insertionSort_cons, ← ih, hsort, hcons, orderedInsert_append]
    · intro b hb
      exact List.rel_of_pairwise_cons (List.pairwise_append.mp hsorted).2.1 (List.mem_of_mem_head? hb)
    · intro b hb
      simpa using hlt b hb

theorem mergeSort_by_index (f : α → Nat) (xs : List α) :
    (xs.mergeSort fun a b => decide (f a ≤ f b)) = xs.insertionSort fun a b => decide (f a ≤ f b) = true :=
  mergeSort_eq_insertionSort (fun a b c h h' => by simp at *; omega) (fun a b => by simp; omega) xs

end

theorem mergeSort_before (edits : List Edit) :
    edits.mergeSort Edit.before = edits.insertionSort fun a b => a.before b = true := by
  refine mergeSort_eq_insertionSort (fun a b c h h' => ?_) (fun a b => ?_) edits
  · simp only [Edit.before] at *
    split_ifs at * <;> simp_all <;> omega
  · simp only [Edit.before]
    split_ifs <;> simp_all
    omega

/-- Two orders of the same nodes are sorted alike. -/
theorem mergeSort_eq_of_perm {xs ys : List NodeId} (h : xs.Perm ys) :
    (xs.mergeSort fun a b => decide (a.index ≤ b.index)) =
      ys.mergeSort fun a b => decide (a.index ≤ b.index) := by
  have hsorted : ∀ zs : List NodeId, (zs.mergeSort fun a b => decide (a.index ≤ b.index)).Pairwise
      fun a b => a.index ≤ b.index := by
    intro zs
    have hzs : (zs.mergeSort fun a b => decide (a.index ≤ b.index)).Pairwise
        (fun a b => decide (a.index ≤ b.index)) :=
      List.pairwise_mergeSort (fun a b c h h' => by simp at *; omega) (fun a b => by simp; omega) _
    simpa using hzs
  refine (((List.mergeSort_perm _ _).trans h).trans (List.mergeSort_perm _ _).symm).eq_of_pairwise
    (fun a b _ _ hab hba => ?_) (hsorted xs) (hsorted ys)
  obtain ⟨a⟩ := a
  obtain ⟨b⟩ := b
  exact congrArg NodeId.mk (le_antisymm hab hba)

/-! ## Listings without free slots -/

instance decidableChain (l : Listing) : ∀ (p : Option NodeId) (code : Code) (q : Option NodeId),
    Decidable (Chain l p code q)
  | _, [], _ => .isTrue trivial
  | _, (_, _) :: rest, q => @instDecidableAnd _ _ _ (decidableChain l _ rest q)

/-- The listing holds the given nodes, and nothing has been taken out of it. -/
def Full (l : Listing) (code : Code) : Prop :=
  Chain l none code none ∧ (ids code).Nodup ∧ l.nodes.size ≤ code.length ∧ l.free = [] ∧
    firstId code none = some head ∧ lastId none code = some tail ∧ l.cursor ∈ ids code

instance (l : Listing) (code : Code) : Decidable (Full l code) := by
  unfold Full
  infer_instance

theorem Chain.lt_size : ∀ {p q : Option NodeId} {code : Code}, Chain l p code q → ∀ a ∈ ids code,
    a.index < l.nodes.size
  | _, _, (_, _) :: _, hc, a, ha => by
    rcases List.mem_cons.mp ha with rfl | ha
    · exact lt_size_of_node? hc.1
    · exact hc.2.lt_size a ha

theorem Full.linked (h : Full l code) : Linked l code := by
  obtain ⟨hchain, hnd, hsize, hfree, hfirst, hlast, hcursor⟩ := h
  refine ⟨hchain, hnd, fun {a n} hn => ?_, hfirst, hlast, by simp [hfree], by simp [hfree], hcursor⟩
  -- the slots are as many as the nodes, so a node outside would be one too many
  by_contra ha
  have hlt : ∀ b ∈ a :: ids code, b.index < l.nodes.size := by
    intro b hb
    rcases List.mem_cons.mp hb with rfl | hb
    · exact lt_size_of_node? hn
    · exact hchain.lt_size b hb
  have := length_le_of_index_lt (List.nodup_cons.mpr ⟨ha, hnd⟩) hlt
  simp only [List.length_cons, ids, List.length_map] at this
  omega

/-! ## The edits without a search -/

/-- The release of `r` at one node, given where it is live. -/
def releaseAt (l : Listing) (r : Reg) (live : NodeId → Bool) (id : NodeId) : Except Fault (List Edit) := do
  match ← l.get id with
  | .branch _ no =>
    let yesLive := (← l.next id).any live
    if yesLive && !live no then
      if (← l.get no).isLabel then return [⟨no, .unref, r⟩]
      else throw (.elseNotLabel no)
    else if live no && !yesLive then return [⟨id, .unref, r⟩]
    else return []
  | i =>
    let liveAfter := (← l.successors id).any live
    if i.reads r && !i.consumes r && !liveAfter then
      if i.isTerminal then throw (.readAtPathEnd r id)
      else return [⟨id, .unref, r⟩]
    else return []

/-- The edits for a register, given the nodes behind its creation and those where it is live. -/
def editsWithin (l : Listing) (r : Reg) (created first : NodeId) (owned : Bool) (reached live : List NodeId) :
    Except Fault (List Edit) := do
  if reached.contains first && live.contains first then
    let releases ← (reached.insertionSort fun a b => decide (a.index ≤ b.index) = true).mapM
      (l.releaseAt r fun a => reached.contains a && live.contains a)
    return (if owned then [] else [⟨created, .inc, r⟩]) ++ releases.flatten
  else
    return [⟨created, if owned then .unref else .drop, r⟩]

/-- The edits for a register, the nodes where it is live being found by two passes over the sequence. -/
def editsForward (l : Listing) (code : Code) (r : Reg) (created : NodeId) (owned : Bool) :
    Except Fault (List Edit) := do
  match ← l.next created with
  | none => throw (.createdAtEnd r)
  | some first => l.editsWithin r created first owned (reachIds [first] code) (liveIds r code)

/-- The edits for a register, `none` where it is not counted. -/
def planForward (l : Listing) (code : Code) (r : Reg) : Except Fault (Option (List Edit)) := do
  let facts ← l.factsOf r
  if facts.counted then
    match l.creatorsOf r with
    | [created] => return some (← l.editsForward code r created facts.bornOwned)
    | sites => throw (.severalDefinitions r sites.length)
  else return none

theorem Linked.mem_of_next {b : NodeId} (hl : Linked l code) (h : l.next a = .ok (some b)) : b ∈ ids code := by
  obtain ⟨n, hn, h⟩ := bind_ok h
  have hn : l.node? a = some n := by
    rw [node] at hn
    cases hnode : l.node? a with
    | none => rw [hnode] at hn; cases hn
    | some n' => rw [hnode] at hn; exact congrArg some (Except.ok.inj hn)
  obtain ⟨xs, i, ys, rfl⟩ := exists_split (hl.complete hn)
  have hnext : n.next = some b := Except.ok.inj h
  rw [hl.node?_eq] at hn
  obtain rfl := Option.some.inj hn
  rw [ids_append, ids_cons]
  exact List.mem_append_right _ (List.mem_cons_of_mem _ (firstId_mem hnext rfl))

/-- **The edits for a register, without a search.** -/
theorem editsFor_forward (hl : Linked l code) (hf : Forward code) (r : Reg) (created : NodeId) (owned : Bool) :
    l.editsFor r created owned = l.editsForward code r created owned := by
  unfold editsFor editsForward
  cases hnext : l.next created with
  | error f => rfl
  | ok next =>
    cases next with
    | none => rfl
    | some first =>
      obtain ⟨live, e, hmem, hget⟩ := liveness_forward hl hf (hl.mem_of_next hnext) r
      have hkeys : live.keys.Perm (reachIds [first] code) := by
        refine (List.perm_ext_iff_of_nodup Std.HashMap.nodup_keys (nodup_reachIds hl.nodup)).mpr fun a => ?_
        rw [Std.HashMap.mem_keys, hmem]
      have hat : l.editsAt r live = l.releaseAt r fun a =>
          (reachIds [first] code).contains a && (liveIds r code).contains a := by
        funext id
        rw [← funext hget]
        rfl
      simp only [editsWithin, bind, Except.bind, e, hget, hat, mergeSort_eq_of_perm hkeys, mergeSort_by_index]

theorem editsIfCounted_forward (hl : Linked l code) (hf : Forward code) :
    l.editsIfCounted = l.planForward code := by
  funext r
  simp only [editsIfCounted, editsFor_forward hl hf]
  rfl

/-- Insert the ownership instructions, without a search. -/
def placeForward (l : Listing) (code : Code) : Except Fault (Listing × PlacementCounts) := do
  let created := (l.entries.filterMap fun p => p.2.creates).insertionSort fun a b => decide (a.index ≤ b.index) = true
  let plans ← created.eraseReps.mapM (l.planForward code)
  let plans := plans.filterMap id
  let edits := plans.flatten.insertionSort fun a b => a.before b = true
  let l ← (edits.splitBy fun a b => a.anchor == b.anchor).foldlM insertEdits l
  return (l, edits.foldl PlacementCounts.count { counted := plans.length })

/-- **The ownership pass, without a search.** -/
theorem placeOwnership_forward (hl : Linked l code) (hf : Forward code) :
    l.placeOwnership = l.placeForward code := by
  rw [placeOwnership, editsIfCounted_forward hl hf]
  simp only [createdRegs, mergeSort_by_index, mergeSort_before]
  rfl

end Listing

end CountedMachine
