import CountedMachine.Proofs.Listing.Linked

/-! # Listings as sequences

A listing is a plain sequence of nodes. Its links form a list without repetition that runs from the
first node to the last, `prev` undoes `next`, the slots that hold no node are the free ones, each
listed once, and the cursor is on a node (`Sequential`). The operations are those on sequences
(`Operation.Acts`): a fresh node is put in right before or right after another, a node is taken out,
or all nodes from one on up to the last; nothing else is changed. They fail just where the sequence
has no such place (`Operation.Allowed`).

`Built.refines` says so for every listing that the operations build. -/

namespace CountedMachine.Listing

variable {l l' : Listing} {code xs ys : Code} {a b id : NodeId} {i k t : Instr NodeId}

/-! ## The free slots -/

/-- **The empty slots are listed as free.** -/
def Stocked (l : Listing) : Prop := ∀ a : NodeId, l.nodes[a.index]? = some none → a ∈ l.free

theorem stocked_empty : Stocked .empty := by
  rintro ⟨_ | _ | a⟩ ha
  all_goals simp [empty] at ha

theorem Stocked.of_nodes (h : Stocked l) (hn : l'.nodes = l.nodes) (hf : l'.free = l.free) :
    Stocked l' := fun a ha => hf ▸ h a (hn ▸ ha)

theorem Stocked.modify (h : Stocked l) (a : NodeId) (f : Node → Node) : Stocked (l.modify a f) := by
  intro b hb
  refine h b ?_
  simp only [Listing.modify, Array.getElem?_modify] at hb
  split_ifs at hb
  · rcases hn : l.nodes[b.index]? with _ | _ | n
    · simp [hn] at hb
    · rfl
    · simp [hn] at hb
  · exact hb

theorem Stocked.relink (h : Stocked l) (o : Option NodeId) (f : Node → Node) :
    Stocked (l.relink o f) := by
  cases o with
  | none => exact h
  | some a => exact h.modify a f

/-- A slot that is filled is taken off the list of free ones. -/
theorem Stocked.allot (h : Stocked l) (n : Node) : Stocked (l.allot n).1 := by
  intro b hb
  rcases hf : l.free with _ | ⟨id, free⟩
  · simp only [Listing.allot, hf, Array.getElem?_push] at hb ⊢
    split_ifs at hb
    · cases hb
    · exact hf ▸ h b hb
  · simp only [Listing.allot, hf, Array.getElem?_setIfInBounds] at hb ⊢
    split_ifs at hb with he
    · cases hb
    · have := h b hb
      rw [hf] at this
      exact (List.mem_cons.mp this).resolve_left fun e => he (by rw [e])

theorem Stocked.linkBefore (h : Stocked l) (e : l.linkBefore a i = .ok (l', id)) : Stocked l' := by
  cases hn : l.node a with
  | error f => simp [Listing.linkBefore, hn, bind, Except.bind] at e
  | ok n =>
    simp only [Listing.linkBefore, hn, bind, Except.bind] at e
    split at e
    · cases e
    · cases e
      exact ((h.allot _).modify _ _).modify _ _

theorem Stocked.linkAfter (h : Stocked l) (e : l.linkAfter a i = .ok (l', id)) : Stocked l' := by
  cases hn : l.node a with
  | error f => simp [Listing.linkAfter, hn, bind, Except.bind] at e
  | ok n =>
    simp only [Listing.linkAfter, hn, bind, Except.bind] at e
    split at e
    · cases e
    · exact h.linkBefore e

/-- The slot of a node that is taken out is free. -/
theorem Stocked.erase (h : Stocked l) (e : l.erase a = .ok l') : Stocked l' := by
  simp only [Listing.erase, bind, Except.bind, pure, Except.pure] at e
  split_ifs at e
  cases hn : l.node a with
  | error f => simp [hn] at e
  | ok n =>
    simp only [hn] at e
    cases e
    intro b hb
    simp only [Array.getElem?_setIfInBounds] at hb
    split_ifs at hb with he hlt
    · obtain ⟨a⟩ := a
      obtain ⟨b⟩ := b
      simp [show a = b from he]
    · exact List.mem_cons_of_mem _ (((h.relink _ _).relink _ _) b hb)

theorem Stocked.eraseLoop : ∀ (fuel : Nat) {l l' : Listing} {o : Option NodeId}, Stocked l →
    eraseLoop fuel l o = .ok l' → Stocked l'
  | 0, _, _, _, h, e => by cases e; exact h
  | fuel + 1, _, _, none, h, e => by cases e; exact h
  | fuel + 1, l, l', some a, h, e => by
    rw [Listing.eraseLoop] at e
    split_ifs at e with htail hcursor
    · cases e
      exact h
    all_goals
      cases hn : l.next a with
      | error f => simp [hn, bind, Except.bind] at e
      | ok after =>
        simp only [hn, bind, Except.bind] at e
        split at e
        · cases e
        · next l₁ he =>
          refine Stocked.eraseLoop fuel (Stocked.erase ?_ he) e
          exact h.of_nodes rfl rfl

theorem Built.stocked (hb : Built l) : Stocked l := by
  induction hb with
  | empty => exact stocked_empty
  | freshReg role _ ih => exact ih.of_nodes rfl rfl
  | @recordType l l' r t _ e ih =>
    cases hf : l.factsOf r with
    | error f => simp [Listing.recordType, hf, bind, Except.bind] at e
    | ok facts =>
      simp only [Listing.recordType, hf, bind, Except.bind] at e
      cases e
      exact ih.of_nodes rfl rfl
  | @put l l' a i _ e ih =>
    cases hn : l.node a with
    | error f => simp [Listing.put, hn, bind, Except.bind] at e
    | ok n =>
      simp only [Listing.put, hn, bind, Except.bind] at e
      cases e
      exact ih.modify _ _
  | @moveCursor l l' a _ e ih =>
    cases hn : l.node a with
    | error f => simp [Listing.moveCursor, hn, bind, Except.bind] at e
    | ok n =>
      simp only [Listing.moveCursor, hn, bind, Except.bind] at e
      cases e
      exact ih.of_nodes rfl rfl
  | linkBefore _ e ih => exact ih.linkBefore e
  | linkAfter _ e ih => exact ih.linkAfter e
  | insert _ e ih => exact ih.linkBefore e
  | append _ e ih => exact ih.linkBefore e
  | prepend _ e ih => exact ih.linkAfter e
  | erase _ e ih => exact ih.erase e
  | eraseFrom _ e ih => exact ih.eraseLoop _ e

/-! ## The sequence -/

/-- **The links of a listing form a sequence**, and its slots are accounted for. -/
structure Sequential (l : Listing) : Prop where
  mem_iff : ∀ a, a ∈ l.toList ↔ ∃ i, l.get a = .ok i
  nodup : l.toList.Nodup
  first : l.toList.head? = some head
  links : l.toList.IsChain fun a b => l.next a = .ok (some b)
  last : l.toList.getLast? = some tail
  ends : l.next tail = .ok none
  begins : l.prev head = .ok none
  inverse : ∀ a b, l.next a = .ok (some b) ↔ l.prev b = .ok (some a)
  free_nodup : l.free.Nodup
  free_iff : ∀ a, a ∈ l.free ↔ a.index < l.nodes.size ∧ a ∉ l.toList
  cursor : l.cursor ∈ l.toList

theorem Linked.prev_eq (hl : Linked l (xs ++ (a, i) :: ys)) : l.prev a = .ok (lastId none xs) := by
  simp [prev, node, hl.node?_eq, Except.map]

theorem lastId_concat (p : Option NodeId) (xs : Code) (x : NodeId × Instr NodeId) :
    lastId p (xs ++ [x]) = some x.1 := by
  rw [lastId_append]
  rfl

theorem getLast?_ids : ∀ (code : Code), (ids code).getLast? = lastId none code := by
  intro code
  rcases List.eq_nil_or_concat code with rfl | ⟨xs, x, rfl⟩
  · rfl
  · rw [List.concat_eq_append, lastId_concat, ids_append, ids_cons, ids_nil,
      List.getLast?_append, List.getLast?_singleton]
    rfl

/-- A node that has one before it is not the first. -/
theorem Linked.eq_head_iff (hl : Linked l (xs ++ (a, i) :: ys)) : a = head ↔ xs = [] := by
  constructor
  · rintro rfl
    rcases xs with _ | ⟨⟨b, j⟩, xs⟩
    · rfl
    · obtain rfl : b = head := Option.some.inj hl.first
      have hnd := hl.nodup
      simp at hnd
  · rintro rfl
    exact Option.some.inj hl.first

/-- A node that has one after it is not the last. -/
theorem Linked.eq_tail_iff (hl : Linked l (xs ++ (a, i) :: ys)) : a = tail ↔ ys = [] := by
  have hlast := hl.last
  rcases List.eq_nil_or_concat ys with rfl | ⟨ys, ⟨b, j⟩, rfl⟩
  · rw [lastId_concat] at hlast
    exact ⟨fun _ => rfl, fun _ => Option.some.inj hlast⟩
  · rw [List.concat_eq_append, show xs ++ (a, i) :: (ys ++ [(b, j)]) =
      (xs ++ (a, i) :: ys) ++ [(b, j)] by simp, lastId_concat] at hlast
    obtain rfl : b = tail := Option.some.inj hlast
    have hnd := hl.nodup
    simp only [List.concat_eq_append, ids_append, ids_cons, List.nodup_append, List.nodup_cons,
      List.mem_append, List.mem_cons, not_or] at hnd
    simp [hnd.2.1.1.2.1]

/-- Neighbours in the sequence are neighbours by `next`, -/
theorem Linked.next_iff (hl : Linked l code) :
    l.next a = .ok (some b) ↔ ∃ xs i j ys, code = xs ++ (a, i) :: (b, j) :: ys := by
  constructor
  · intro h
    cases hn : l.node a with
    | error f => simp [Listing.next, hn, Except.map] at h
    | ok n =>
      obtain ⟨xs, i, ys, rfl⟩ := hl.mem_of_node hn
      rw [hl.next_eq] at h
      rcases ys with _ | ⟨⟨c, j⟩, ys⟩
      · cases h
      · cases h
        exact ⟨xs, i, j, ys, rfl⟩
  · rintro ⟨xs, i, j, ys, rfl⟩
    exact hl.next_eq

/-- and by `prev`. -/
theorem Linked.prev_iff (hl : Linked l code) :
    l.prev b = .ok (some a) ↔ ∃ xs i j ys, code = xs ++ (a, i) :: (b, j) :: ys := by
  constructor
  · intro h
    cases hn : l.node b with
    | error f => simp [Listing.prev, hn, Except.map] at h
    | ok n =>
      obtain ⟨xs, j, ys, rfl⟩ := hl.mem_of_node hn
      rw [hl.prev_eq] at h
      rcases List.eq_nil_or_concat xs with rfl | ⟨xs, ⟨c, i⟩, rfl⟩
      · cases h
      · rw [List.concat_eq_append, lastId_concat] at h
        cases h
        exact ⟨xs, i, j, ys, by simp⟩
  · rintro ⟨xs, i, j, ys, rfl⟩
    rw [show xs ++ (a, i) :: (b, j) :: ys = (xs ++ [(a, i)]) ++ (b, j) :: ys by simp] at hl
    rw [hl.prev_eq, lastId_concat]

theorem Chain.isChain : ∀ {p q : Option NodeId} {code : Code}, Chain l p code q →
    (ids code).IsChain fun a b => l.next a = .ok (some b)
  | _, _, [], _ => .nil
  | _, _, [_], _ => .singleton _
  | _, _, (a, i) :: (b, j) :: rest, h =>
    .cons_cons (by simp [next, node, h.1, firstId, Except.map]) (Chain.isChain h.2)

theorem Linked.free_iff (hl : Linked l code) (hs : Stocked l) (a : NodeId) :
    a ∈ l.free ↔ a.index < l.nodes.size ∧ a ∉ ids code := by
  constructor
  · intro ha
    have hnone := hl.free_empty a ha
    refine ⟨(Array.getElem?_eq_some_iff.mp hnone).1, fun hmem => ?_⟩
    obtain ⟨xs, i, ys, rfl⟩ := exists_split hmem
    have := hl.node?_eq
    rw [node?, hnone] at this
    cases this
  · rintro ⟨hlt, hmem⟩
    refine hs a ?_
    have hnone := hl.node?_none hmem
    rw [node?, Array.getElem?_eq_getElem hlt] at hnone
    rw [Array.getElem?_eq_getElem hlt]
    exact congrArg some hnone

theorem Linked.sequential (hl : Linked l code) (hs : Stocked l) : Sequential l := by
  have htoList := hl.toList_eq
  refine ⟨fun a => ?_, htoList ▸ hl.nodup, ?_, htoList ▸ hl.chain.isChain, ?_, ?_, ?_, fun a b => ?_,
    hl.free_nodup, htoList ▸ hl.free_iff hs, htoList ▸ hl.cursor⟩
  · rw [htoList]
    refine ⟨fun ha => ?_, fun ⟨i, hi⟩ =>
      List.mem_map.mpr ⟨(a, i), hl.mem_of_get hi, rfl⟩⟩
    obtain ⟨xs, i, ys, rfl⟩ := exists_split ha
    exact ⟨i, hl.get_eq (by simp)⟩
  · rw [htoList]
    rcases code with _ | ⟨⟨a, i⟩, rest⟩
    · cases hl.first
    · exact hl.first
  · rw [htoList, getLast?_ids]
    exact hl.last
  · obtain ⟨xs, i, ys, rfl⟩ := exists_split hl.tail_mem
    rw [hl.next_eq, hl.eq_tail_iff.mp rfl]
    rfl
  · obtain ⟨xs, i, ys, rfl⟩ := exists_split hl.head_mem
    rw [hl.prev_eq, hl.eq_head_iff.mp rfl]
    rfl
  · rw [hl.next_iff, hl.prev_iff]

/-! ## The operations -/

/-- **An operation on a listing.** -/
inductive Operation
  | insert (i : Instr NodeId)
  | append (i : Instr NodeId)
  | prepend (i : Instr NodeId)
  | linkBefore (a : NodeId) (i : Instr NodeId)
  | linkAfter (a : NodeId) (i : Instr NodeId)
  | erase (a : NodeId)
  | eraseFrom (a : NodeId)
  | moveCursor (a : NodeId)
  | put (a : NodeId) (i : Instr NodeId)

/-- A fresh node has been put in right before `a`. -/
def PutBefore (a : NodeId) (i : Instr NodeId) (id : NodeId) (code code' : Code) : Prop :=
  id ∉ ids code ∧ ∃ xs k ys, code = xs ++ (a, k) :: ys ∧ code' = xs ++ (id, i) :: (a, k) :: ys

/-- A fresh node has been put in right after `a`. -/
def PutAfter (a : NodeId) (i : Instr NodeId) (id : NodeId) (code code' : Code) : Prop :=
  id ∉ ids code ∧ ∃ xs k ys, code = xs ++ (a, k) :: ys ∧ code' = xs ++ (a, k) :: (id, i) :: ys

namespace Operation

/-- The listing after an operation, and the node that was put in, if one was. -/
def run (l : Listing) : Operation → Except Fault (Listing × Option NodeId)
  | .insert i => (l.insert i).map fun p => (p.1, some p.2)
  | .append i => (l.append i).map fun p => (p.1, some p.2)
  | .prepend i => (l.prepend i).map fun p => (p.1, some p.2)
  | .linkBefore a i => (l.linkBefore a i).map fun p => (p.1, some p.2)
  | .linkAfter a i => (l.linkAfter a i).map fun p => (p.1, some p.2)
  | .erase a => (l.erase a).map (·, none)
  | .eraseFrom a => (l.eraseFrom a).map (·, none)
  | .moveCursor a => (l.moveCursor a).map (·, none)
  | .put a i => (l.put a i).map (·, none)

/-- **Where an operation is possible.** The two fixed nodes and the node under the cursor stay. -/
def Allowed (l : Listing) : Operation → Prop
  | .insert _ => l.cursor ≠ head
  | .append _ => True
  | .prepend _ => True
  | .linkBefore a _ => a ∈ l.toList ∧ a ≠ head
  | .linkAfter a _ => a ∈ l.toList ∧ a ≠ tail
  | .erase a => a ∈ l.toList ∧ a ≠ head ∧ a ≠ tail ∧ a ≠ l.cursor
  | .eraseFrom a => a ∈ l.toList ∧ a ≠ head
  | .moveCursor a => a ∈ l.toList
  | .put a _ => a ∈ l.toList

/-- **What an operation does to the sequence.** Where the cursor is taken out it goes to the last
node. -/
def Acts (l : Listing) (new : Option NodeId) (l' : Listing) : Operation → Prop
  | .insert i => ∃ id, new = some id ∧ PutBefore l.cursor i id l.entries l'.entries ∧
    l'.cursor = l.cursor
  | .append i => ∃ id, new = some id ∧ PutBefore tail i id l.entries l'.entries ∧
    l'.cursor = l.cursor
  | .prepend i => ∃ id, new = some id ∧ PutAfter head i id l.entries l'.entries ∧
    l'.cursor = l.cursor
  | .linkBefore a i => ∃ id, new = some id ∧ PutBefore a i id l.entries l'.entries ∧
    l'.cursor = l.cursor
  | .linkAfter a i => ∃ id, new = some id ∧ PutAfter a i id l.entries l'.entries ∧
    l'.cursor = l.cursor
  | .erase a => new = none ∧ ∃ xs k ys, l.entries = xs ++ (a, k) :: ys ∧ l'.entries = xs ++ ys ∧
    l'.cursor = l.cursor
  | .eraseFrom a => new = none ∧ ∃ xs ys t, l.entries = xs ++ ys ++ [(tail, t)] ∧
    firstId ys (some tail) = some a ∧ l'.entries = xs ++ [(tail, t)] ∧
    l'.cursor = if l.cursor ∈ ids ys then tail else l.cursor
  | .moveCursor a => new = none ∧ l'.entries = l.entries ∧ l'.cursor = a
  | .put a i => new = none ∧ ∃ xs k ys, l.entries = xs ++ (a, k) :: ys ∧
    l'.entries = xs ++ (a, i) :: ys ∧ l'.cursor = l.cursor

end Operation

theorem Linked.error_of_not_mem (hl : Linked l code) (ha : a ∉ ids code) :
    l.node a = .error (.notInUnit a) := by
  simp [node, hl.node?_none ha]

/-- **Linking in before a node** is possible unless the node is the first one. -/
theorem Linked.linkBefore_cases (hl : Linked l code) (a : NodeId) (i : Instr NodeId) :
    (a ∈ ids code ∧ a ≠ head ∧ ∃ l' id code', l.linkBefore a i = .ok (l', id) ∧ Linked l' code' ∧
      PutBefore a i id code code' ∧ l'.cursor = l.cursor) ∨
    (¬ (a ∈ ids code ∧ a ≠ head) ∧ ∃ f, l.linkBefore a i = .error f) := by
  by_cases ha : a ∈ ids code
  · obtain ⟨xs, k, ys, rfl⟩ := exists_split ha
    rcases List.eq_nil_or_concat xs with rfl | ⟨xs, ⟨b, j⟩, rfl⟩
    · refine Or.inr ⟨fun h => h.2 (hl.eq_head_iff.mpr rfl), .beforeHead, ?_⟩
      simp [Listing.linkBefore, node, hl.node?_eq, lastId, bind, Except.bind]
      rfl
    · have hhead : a ≠ head := fun e => by simpa using hl.eq_head_iff.mp e
      rw [List.concat_eq_append, List.append_assoc, List.singleton_append] at hl
      obtain ⟨l', id, e, hl', hcur, -⟩ := hl.linkBefore i
      refine Or.inl ⟨ha, hhead, l', id, _, e, hl', ⟨?_, xs ++ [(b, j)], k, ys, by simp, by simp⟩, hcur⟩
      have hnd := hl'.nodup
      simp only [ids_append, ids_cons, List.nodup_append, List.nodup_cons, List.mem_cons,
        not_or] at hnd
      simp only [List.concat_eq_append, ids_append, ids_cons, ids_nil, List.mem_append,
        List.mem_cons, List.not_mem_nil, or_false, not_or]
      exact ⟨⟨fun h => hnd.2.2 id h id (by simp) rfl, Ne.symm hnd.2.1.1.1⟩, hnd.2.1.2.1.1,
        hnd.2.1.2.1.2⟩
  · refine Or.inr ⟨fun h => ha h.1, .notInUnit a, ?_⟩
    simp [Listing.linkBefore, hl.error_of_not_mem ha, bind, Except.bind]

/-- **Linking in after a node** is possible unless the node is the last one. -/
theorem Linked.linkAfter_cases (hl : Linked l code) (a : NodeId) (i : Instr NodeId) :
    (a ∈ ids code ∧ a ≠ tail ∧ ∃ l' id code', l.linkAfter a i = .ok (l', id) ∧ Linked l' code' ∧
      PutAfter a i id code code' ∧ l'.cursor = l.cursor) ∨
    (¬ (a ∈ ids code ∧ a ≠ tail) ∧ ∃ f, l.linkAfter a i = .error f) := by
  by_cases ha : a ∈ ids code
  · obtain ⟨xs, k, ys, rfl⟩ := exists_split ha
    by_cases htail : a = tail
    · refine Or.inr ⟨fun h => h.2 htail, .afterEnd, ?_⟩
      simp [Listing.linkAfter, node, hl.node?_eq, hl.eq_tail_iff.mp htail, firstId, bind,
        Except.bind]
      rfl
    · obtain ⟨l', id, e, hl', hcur, -⟩ := hl.linkAfter htail i
      refine Or.inl ⟨ha, htail, l', id, _, e, hl', ⟨?_, xs, k, ys, rfl, rfl⟩, hcur⟩
      have hnd := hl'.nodup
      simp only [ids_append, ids_cons, List.nodup_append, List.nodup_cons, List.mem_cons,
        not_or] at hnd
      simp only [ids_append, ids_cons, List.mem_append, List.mem_cons, not_or]
      exact ⟨fun h => hnd.2.2 id h id (by simp) rfl, Ne.symm hnd.2.1.1.1, hnd.2.1.2.1⟩
  · refine Or.inr ⟨fun h => ha h.1, .notInUnit a, ?_⟩
    simp [Listing.linkAfter, hl.error_of_not_mem ha, bind, Except.bind]

/-- **Taking out a node** is possible unless it is one of the two fixed ones or under the cursor. -/
theorem Linked.erase_cases (hl : Linked l code) (a : NodeId) :
    (a ∈ ids code ∧ (a ≠ head ∧ a ≠ tail ∧ a ≠ l.cursor) ∧ ∃ l' xs k ys, l.erase a = .ok l' ∧
      code = xs ++ (a, k) :: ys ∧ Linked l' (xs ++ ys) ∧ l'.cursor = l.cursor) ∨
    (¬ (a ∈ ids code ∧ a ≠ head ∧ a ≠ tail ∧ a ≠ l.cursor) ∧ ∃ f, l.erase a = .error f) := by
  by_cases hfixed : a = head ∨ a = tail
  · refine Or.inr ⟨by tauto, .sentinelRemoved, ?_⟩
    simp only [Listing.erase, Bool.or_eq_true, decide_eq_true_eq, hfixed, if_true, bind, Except.bind]
    rfl
  · obtain ⟨hhead, htail⟩ := not_or.mp hfixed
    by_cases hcursor : a = l.cursor
    · refine Or.inr ⟨by tauto, .cursorRemoved, ?_⟩
      simp only [Listing.erase, Bool.or_eq_true, decide_eq_true_eq, hfixed, if_false, if_pos hcursor,
        bind, Except.bind]
      rfl
    · by_cases ha : a ∈ ids code
      · obtain ⟨xs, k, ys, rfl⟩ := exists_split ha
        obtain ⟨l', e, hl', hcur, -⟩ := hl.erase hhead htail hcursor
        exact Or.inl ⟨ha, ⟨hhead, htail, hcursor⟩, l', xs, k, ys, e, rfl, hl', hcur⟩
      · refine Or.inr ⟨fun h => ha h.1, .notInUnit a, ?_⟩
        simp [Listing.erase, hhead, htail, hcursor, hl.error_of_not_mem ha, bind, Except.bind]

/-- **Taking out one node after the other**, up to the last one. -/
theorem Linked.eraseLoop_eq : ∀ {ys xs : Code} {l : Listing} {t : Instr NodeId} (fuel : Nat),
    Linked l (xs ++ ys ++ [(tail, t)]) → xs ≠ [] → ys.length < fuel →
      ∃ l', Listing.eraseLoop fuel l (firstId ys (some tail)) = .ok l' ∧
        Linked l' (xs ++ [(tail, t)]) ∧
        l'.cursor = if l.cursor ∈ ids ys then tail else l.cursor
  | [], xs, l, t, fuel + 1, hl, _, _ => by
    refine ⟨l, by simp [Listing.eraseLoop, firstId], by simpa using hl, by simp⟩
  | (a, i) :: ys, xs, l, t, fuel + 1, hl, hxs, hlt => by
    have hl₀ : Linked l (xs ++ (a, i) :: (ys ++ [(tail, t)])) := by simpa using hl
    have hhead : a ≠ head := fun e => hxs (hl₀.eq_head_iff.mp e)
    have htail : a ≠ tail := fun e => by simpa using hl₀.eq_tail_iff.mp e
    -- the cursor gets out of the way
    set l₁ : Listing := if l.cursor = a then { l with cursor := tail } else l with hl₁
    have hcursor : l₁.cursor = if l.cursor = a then tail else l.cursor := by
      rw [hl₁]
      split_ifs <;> rfl
    have hlinked : Linked l₁ (xs ++ (a, i) :: (ys ++ [(tail, t)])) := by
      rw [hl₁]
      split_ifs
      · exact hl₀.of_nodes rfl rfl hl₀.tail_mem
      · exact hl₀
    have hne : a ≠ l₁.cursor := by
      rw [hcursor]
      split_ifs with h
      · exact htail
      · exact Ne.symm h
    obtain ⟨l₂, he, hl₂, hcur, -⟩ := hlinked.erase hhead htail hne
    have hl₃ : Linked l₂ (xs ++ ys ++ [(tail, t)]) := by simpa using hl₂
    obtain ⟨l', hloop, hl', hcur'⟩ := Linked.eraseLoop_eq fuel hl₃ hxs (by simpa using hlt)
    refine ⟨l', ?_, hl', ?_⟩
    · have hnext : l.next a = .ok (firstId ys (some tail)) := by
        rw [hl₀.next_eq, firstId_append]
        rfl
      simp only [firstId, Listing.eraseLoop, if_neg htail, hnext, bind, Except.bind, ← hl₁, he]
      exact hloop
    · have hnd := hl₀.nodup
      simp only [ids_append, ids_cons, ids_nil, List.nodup_append, List.nodup_cons, List.mem_append,
        List.mem_cons, List.not_mem_nil, or_false, not_or] at hnd
      obtain ⟨-, ⟨-, -, -, hys⟩, -⟩ := hnd
      rw [hcur', hcur, hcursor]
      simp only [ids_cons, List.mem_cons]
      by_cases h : l.cursor = a
      · have : tail ∉ ids ys := fun hmem => hys tail hmem tail rfl rfl
        simp [h, this]
      · simp [h]

/-- **Taking out all nodes from one on** is possible unless the node is the first one. -/
theorem Linked.eraseFrom_cases (hl : Linked l code) (a : NodeId) :
    (a ∈ ids code ∧ a ≠ head ∧ ∃ l' xs ys t, l.eraseFrom a = .ok l' ∧
      code = xs ++ ys ++ [(tail, t)] ∧ firstId ys (some tail) = some a ∧
      Linked l' (xs ++ [(tail, t)]) ∧ l'.cursor = if l.cursor ∈ ids ys then tail else l.cursor) ∨
    (¬ (a ∈ ids code ∧ a ≠ head) ∧ ∃ f, l.eraseFrom a = .error f) := by
  by_cases ha : a ∈ ids code
  · by_cases hhead : a = head
    · refine Or.inr ⟨fun h => h.2 hhead, .sentinelRemoved, ?_⟩
      obtain ⟨xs, k, ys, rfl⟩ := exists_split ha
      subst hhead
      simp only [Listing.eraseFrom, Listing.eraseLoop, if_neg (show head ≠ tail by decide), hl.next_eq,
        Listing.erase, bind, Except.bind, decide_true, Bool.true_or, if_true]
      rfl
    · obtain ⟨xs, k, ys, rfl⟩ := exists_split ha
      -- the nodes from `a` on, without the last one
      obtain ⟨zs, t, hzs⟩ : ∃ zs t, (a, k) :: ys = zs ++ [(tail, t)] := by
        rcases List.eq_nil_or_concat ((a, k) :: ys) with h | ⟨zs, ⟨b, t⟩, h⟩
        · cases h
        · rw [List.concat_eq_append] at h
          have hlast := hl.last
          rw [h, ← List.append_assoc, lastId_concat] at hlast
          obtain rfl : b = tail := Option.some.inj hlast
          exact ⟨zs, t, h⟩
      have hxs : xs ≠ [] := fun e => hhead (hl.eq_head_iff.mpr e)
      have hfirst : firstId zs (some tail) = some a := by
        rcases zs with _ | ⟨⟨b, j⟩, zs⟩
        · simp only [List.nil_append, List.cons.injEq, Prod.mk.injEq] at hzs
          exact congrArg some hzs.1.1.symm
        · simp only [List.cons_append, List.cons.injEq, Prod.mk.injEq] at hzs
          exact congrArg some hzs.1.1.symm
      have hlen := hl.length_le
      rw [hzs, ← List.append_assoc] at hl hlen
      obtain ⟨l', e, hl', hcur⟩ := hl.eraseLoop_eq (l.nodes.size + 1) hxs (by
        simp only [List.length_append] at hlen
        omega)
      refine Or.inl ⟨ha, hhead, l', xs, zs, t, ?_, by rw [hzs, List.append_assoc], hfirst, hl', hcur⟩
      rw [Listing.eraseFrom, ← hfirst]
      exact e
  · refine Or.inr ⟨fun h => ha h.1, .notInUnit a, ?_⟩
    have htail : a ≠ tail := fun e => ha (e ▸ hl.tail_mem)
    simp [Listing.eraseFrom, Listing.eraseLoop, htail, Listing.next, hl.error_of_not_mem ha, bind,
      Except.bind, Except.map]

/-- **Every operation** does what it does to the sequence, where it is possible. -/
theorem Linked.run_cases (hl : Linked l code) (op : Operation) :
    (op.Allowed l ∧ ∃ l' new, op.run l = .ok (l', new) ∧ op.Acts l new l') ∨
    (¬ op.Allowed l ∧ ∃ f, op.run l = .error f) := by
  have hentries := hl.entries_eq
  have htoList := hl.toList_eq
  cases op with
  | insert i =>
    rcases hl.linkBefore_cases l.cursor i with ⟨-, hhead, l', id, code', e, hl', hput, hcur⟩ |
      ⟨hnot, f, e⟩
    · refine Or.inl ⟨hhead, l', some id, ?_, id, rfl, ?_, hcur⟩
      · simp [Operation.run, Listing.insert, e, Except.map]
      · rwa [hentries, hl'.entries_eq]
    · refine Or.inr ⟨fun h => hnot ⟨hl.cursor, h⟩, f, ?_⟩
      simp [Operation.run, Listing.insert, e, Except.map]
  | append i =>
    rcases hl.linkBefore_cases tail i with ⟨-, -, l', id, code', e, hl', hput, hcur⟩ | ⟨hnot, -⟩
    · refine Or.inl ⟨trivial, l', some id, ?_, id, rfl, ?_, hcur⟩
      · simp [Operation.run, Listing.append, e, Except.map]
      · rwa [hentries, hl'.entries_eq]
    · exact absurd ⟨hl.tail_mem, by decide⟩ hnot
  | prepend i =>
    rcases hl.linkAfter_cases head i with ⟨-, -, l', id, code', e, hl', hput, hcur⟩ | ⟨hnot, -⟩
    · refine Or.inl ⟨trivial, l', some id, ?_, id, rfl, ?_, hcur⟩
      · simp [Operation.run, Listing.prepend, e, Except.map]
      · rwa [hentries, hl'.entries_eq]
    · exact absurd ⟨hl.head_mem, by decide⟩ hnot
  | linkBefore a i =>
    rcases hl.linkBefore_cases a i with ⟨ha, hhead, l', id, code', e, hl', hput, hcur⟩ | ⟨hnot, f, e⟩
    · refine Or.inl ⟨⟨htoList ▸ ha, hhead⟩, l', some id, ?_, id, rfl, ?_, hcur⟩
      · simp [Operation.run, e, Except.map]
      · rwa [hentries, hl'.entries_eq]
    · exact Or.inr ⟨fun h => hnot ⟨htoList ▸ h.1, h.2⟩, f, by simp [Operation.run, e, Except.map]⟩
  | linkAfter a i =>
    rcases hl.linkAfter_cases a i with ⟨ha, htail, l', id, code', e, hl', hput, hcur⟩ | ⟨hnot, f, e⟩
    · refine Or.inl ⟨⟨htoList ▸ ha, htail⟩, l', some id, ?_, id, rfl, ?_, hcur⟩
      · simp [Operation.run, e, Except.map]
      · rwa [hentries, hl'.entries_eq]
    · exact Or.inr ⟨fun h => hnot ⟨htoList ▸ h.1, h.2⟩, f, by simp [Operation.run, e, Except.map]⟩
  | erase a =>
    rcases hl.erase_cases a with ⟨ha, hne, l', xs, k, ys, e, hcode, hl', hcur⟩ | ⟨hnot, f, e⟩
    · exact Or.inl ⟨⟨htoList ▸ ha, hne⟩, l', none, by simp [Operation.run, e, Except.map], rfl, xs, k,
        ys, hentries.trans hcode, hl'.entries_eq, hcur⟩
    · exact Or.inr ⟨fun h => hnot ⟨htoList ▸ h.1, h.2⟩, f, by simp [Operation.run, e, Except.map]⟩
  | eraseFrom a =>
    rcases hl.eraseFrom_cases a with ⟨ha, hhead, l', xs, ys, t, e, hcode, hfirst, hl', hcur⟩ |
      ⟨hnot, f, e⟩
    · exact Or.inl ⟨⟨htoList ▸ ha, hhead⟩, l', none, by simp [Operation.run, e, Except.map], rfl, xs,
        ys, t, hentries.trans hcode, hfirst, hl'.entries_eq, hcur⟩
    · exact Or.inr ⟨fun h => hnot ⟨htoList ▸ h.1, h.2⟩, f, by simp [Operation.run, e, Except.map]⟩
  | moveCursor a =>
    by_cases ha : a ∈ ids code
    · obtain ⟨xs, k, ys, rfl⟩ := exists_split ha
      have hl' : Linked { l with cursor := a } (xs ++ (a, k) :: ys) := hl.of_nodes rfl rfl (by simp)
      refine Or.inl ⟨show a ∈ l.toList from htoList ▸ ha, { l with cursor := a }, none, ?_, rfl,
        hl'.entries_eq.trans hentries.symm, rfl⟩
      simp only [Operation.run, Listing.moveCursor, node, hl.node?_eq, bind, Except.bind]
      rfl
    · refine Or.inr ⟨fun h : a ∈ l.toList => ha (htoList ▸ h), .notInUnit a, ?_⟩
      simp [Operation.run, Listing.moveCursor, hl.error_of_not_mem ha, bind, Except.bind, Except.map]
  | put a i =>
    by_cases ha : a ∈ ids code
    · obtain ⟨xs, k, ys, rfl⟩ := exists_split ha
      obtain ⟨l', e, hl', hcur, -⟩ := hl.put i
      exact Or.inl ⟨show a ∈ l.toList from htoList ▸ ha, l', none,
        by simp [Operation.run, e, Except.map], rfl, xs, k, ys, hentries, hl'.entries_eq, hcur⟩
    · refine Or.inr ⟨fun h : a ∈ l.toList => ha (htoList ▸ h), .notInUnit a, ?_⟩
      simp [Operation.run, Listing.put, hl.error_of_not_mem ha, bind, Except.bind, Except.map]

theorem of_map_ok {α β : Type} {x : Except Fault α} {f : α → β} {v : β} (e : x.map f = .ok v) :
    ∃ u, x = .ok u ∧ f u = v := by
  cases x with
  | error f => cases e
  | ok u => exact ⟨u, rfl, Except.ok.inj e⟩

theorem Built.run {op : Operation} {new : Option NodeId} (hb : Built l)
    (e : op.run l = .ok (l', new)) : Built l' := by
  cases op with
  | insert i =>
    obtain ⟨⟨l₁, id⟩, he, e⟩ := of_map_ok e
    cases e
    exact hb.insert he
  | append i =>
    obtain ⟨⟨l₁, id⟩, he, e⟩ := of_map_ok e
    cases e
    exact hb.append he
  | prepend i =>
    obtain ⟨⟨l₁, id⟩, he, e⟩ := of_map_ok e
    cases e
    exact hb.prepend he
  | linkBefore a i =>
    obtain ⟨⟨l₁, id⟩, he, e⟩ := of_map_ok e
    cases e
    exact hb.linkBefore he
  | linkAfter a i =>
    obtain ⟨⟨l₁, id⟩, he, e⟩ := of_map_ok e
    cases e
    exact hb.linkAfter he
  | erase a =>
    obtain ⟨l₁, he, e⟩ := of_map_ok e
    cases e
    exact hb.erase he
  | eraseFrom a =>
    obtain ⟨l₁, he, e⟩ := of_map_ok e
    cases e
    exact hb.eraseFrom he
  | moveCursor a =>
    obtain ⟨l₁, he, e⟩ := of_map_ok e
    cases e
    exact hb.moveCursor he
  | put a i =>
    obtain ⟨l₁, he, e⟩ := of_map_ok e
    cases e
    exact hb.put he

/-- **A listing is a sequence**, whatever operations have built it: its links are in order, and each
further operation succeeds just where it is possible, builds a listing again, and does to the nodes in
order what it does to a plain sequence. -/
theorem Built.refines (hb : Built l) : Sequential l ∧ ∀ op : Operation,
    ((∃ l' new, op.run l = .ok (l', new)) ↔ op.Allowed l) ∧
    ∀ l' new, op.run l = .ok (l', new) → Built l' ∧ op.Acts l new l' := by
  obtain ⟨code, hl⟩ := hb.linked
  refine ⟨hl.sequential hb.stocked, fun op => ?_⟩
  rcases hl.run_cases op with ⟨hallowed, l', new, e, hacts⟩ | ⟨hnot, f, e⟩
  · refine ⟨⟨fun _ => hallowed, fun _ => ⟨l', new, e⟩⟩, fun l'' new' e' => ⟨hb.run e', ?_⟩⟩
    rw [e] at e'
    cases e'
    exact hacts
  · refine ⟨⟨fun ⟨l', new, e'⟩ => ?_, fun h => absurd h hnot⟩, fun l'' new' e' => ?_⟩
    · rw [e] at e'
      cases e'
    · rw [e] at e'
      cases e'

/-- Two loads and a return, of which one load has been taken out, its slot has been used again for a
node at the front, and the return has been cut off. -/
def relinked : Listing where
  nodes := #[some ⟨.nop, none, some ⟨3⟩⟩, some ⟨.done, some ⟨2⟩, none⟩,
    some ⟨.const ⟨0⟩ ⟨0⟩, some ⟨3⟩, some tail⟩, some ⟨.nop, some head, some ⟨2⟩⟩, none]
  free := [⟨4⟩]
  cursor := tail
  regs := #[]

theorem built_relinked : Built relinked := by
  have h₁ := Built.empty.append (i := .const ⟨0⟩ ⟨0⟩) rfl
  have h₂ := h₁.append (i := .const ⟨1⟩ ⟨0⟩) rfl
  have h₃ := h₂.append (i := .ret ⟨0⟩) rfl
  have h₄ := h₃.erase (a := ⟨3⟩) rfl
  have h₅ := h₄.prepend (i := .nop) rfl
  exact h₅.eraseFrom (a := ⟨4⟩) rfl

/-- The nodes are in the order of their links, and not of their numbers. -/
theorem refines_relinked : relinked.toList = [head, ⟨3⟩, ⟨2⟩, tail] ∧ Sequential relinked ∧
    (∃ l' new, (Operation.erase ⟨3⟩).run relinked = .ok (l', new)) ∧
    ¬ ∃ l' new, (Operation.erase ⟨4⟩).run relinked = .ok (l', new) := by
  obtain ⟨hseq, hrun⟩ := built_relinked.refines
  refine ⟨rfl, hseq, (hrun (.erase ⟨3⟩)).1.mpr ?_, fun h => ?_⟩
  · exact ⟨by decide, by decide, by decide, by decide⟩
  · exact absurd ((hrun (.erase ⟨4⟩)).1.mp h).1 (by decide)

end CountedMachine.Listing
