import CountedMachine.Listing.Control
import Mathlib

/-! # The links of a listing

A listing is `Linked` along a sequence of nodes with their instructions: the links in both
directions follow the sequence, it runs from the first node to the last, no other slot is in use, and
the free slots are listed once. Then `entries` is the sequence (`Linked.entries_eq`), and every
operation is one on sequences: linking in inserts, erasing removes, overwriting replaces.

Every listing that the operations build is linked (`Built.linked`). -/

namespace CountedMachine.Listing

/-- Nodes in order, with their instructions. -/
abbrev Code := List (NodeId × Instr NodeId)

/-- The nodes of a sequence. -/
def ids (code : Code) : List NodeId := code.map (·.1)

@[simp] theorem ids_nil : ids [] = [] := rfl

@[simp] theorem ids_cons (x : NodeId × Instr NodeId) (code : Code) :
    ids (x :: code) = x.1 :: ids code := rfl

@[simp] theorem ids_append (xs ys : Code) : ids (xs ++ ys) = ids xs ++ ids ys := List.map_append

/-- The node a sequence starts with, `q` where it is empty. -/
def firstId : Code → Option NodeId → Option NodeId
  | [], q => q
  | (a, _) :: _, _ => some a

/-- The node a sequence ends with, `p` where it is empty. -/
def lastId : Option NodeId → Code → Option NodeId
  | p, [] => p
  | _, (a, _) :: rest => lastId (some a) rest

@[simp] theorem firstId_append (xs ys : Code) (q : Option NodeId) :
    firstId (xs ++ ys) q = firstId xs (firstId ys q) := by
  cases xs <;> rfl

@[simp] theorem lastId_append : ∀ (p : Option NodeId) (xs ys : Code),
    lastId p (xs ++ ys) = lastId (lastId p xs) ys
  | _, [], _ => rfl
  | _, (a, _) :: xs, ys => lastId_append (some a) xs ys

/-- The links follow a stretch of nodes, between `p` before it and `q` after it. -/
def Chain (l : Listing) : Option NodeId → Code → Option NodeId → Prop
  | _, [], _ => True
  | p, (a, i) :: rest, q => l.node? a = some ⟨i, p, firstId rest q⟩ ∧ Chain l (some a) rest q

theorem chain_append {l : Listing} : ∀ {p q : Option NodeId} {xs ys : Code},
    Chain l p (xs ++ ys) q ↔ Chain l p xs (firstId ys q) ∧ Chain l (lastId p xs) ys q
  | p, q, [], ys => by simp [Chain, lastId]
  | p, q, (a, i) :: xs, ys => by
    simp only [List.cons_append, Chain, lastId, firstId_append]
    rw [chain_append, and_assoc]

theorem Chain.congr {l l' : Listing} : ∀ {p q : Option NodeId} {code : Code},
    (∀ a ∈ ids code, l'.node? a = l.node? a) → Chain l p code q → Chain l' p code q
  | _, _, [], _, _ => trivial
  | p, q, (a, i) :: rest, heq, hc =>
    ⟨(heq a (by simp)).trans hc.1, Chain.congr (fun b hb => heq b (by simp at hb ⊢; tauto)) hc.2⟩

/-- **The listing holds the given nodes**, in this order, and no others. -/
structure Linked (l : Listing) (code : Code) : Prop where
  chain : Chain l none code none
  nodup : (ids code).Nodup
  complete : ∀ {a n}, l.node? a = some n → a ∈ ids code
  first : firstId code none = some head
  last : lastId none code = some tail
  free_nodup : l.free.Nodup
  free_empty : ∀ a ∈ l.free, l.nodes[a.index]? = some none
  cursor : l.cursor ∈ ids code

variable {l l' : Listing} {code xs ys : Code} {a b place : NodeId} {i j k : Instr NodeId}

/-! ## Looking at a linked listing -/

theorem Linked.node?_eq (hl : Linked l (xs ++ (a, i) :: ys)) :
    l.node? a = some ⟨i, lastId none xs, firstId ys none⟩ :=
  (chain_append.mp hl.chain).2.1

theorem exists_split {code : Code} (ha : a ∈ ids code) : ∃ xs i ys, code = xs ++ (a, i) :: ys := by
  obtain ⟨⟨a', i⟩, hmem, rfl⟩ := List.mem_map.mp ha
  obtain ⟨xs, ys, rfl⟩ := List.append_of_mem hmem
  exact ⟨xs, i, ys, rfl⟩

theorem Linked.node?_none (hl : Linked l code) (ha : a ∉ ids code) : l.node? a = none := by
  cases hn : l.node? a with
  | none => rfl
  | some n => exact absurd (hl.complete hn) ha

theorem lt_size_of_node? {n : Node} (ha : l.node? a = some n) : a.index < l.nodes.size := by
  rcases Nat.lt_or_ge a.index l.nodes.size with hlt | hge
  · exact hlt
  · simp [node?, Array.getElem?_eq_none hge] at ha

theorem Linked.lt_size (hl : Linked l code) (ha : a ∈ ids code) : a.index < l.nodes.size := by
  obtain ⟨xs, i, ys, rfl⟩ := exists_split ha
  exact lt_size_of_node? hl.node?_eq

theorem length_le_of_index_lt {ids : List NodeId} {n : Nat} (hnd : ids.Nodup)
    (hlt : ∀ a ∈ ids, a.index < n) : ids.length ≤ n := by
  have hinj : (ids.map (·.index)).Nodup :=
    hnd.map fun a b e => by cases a; cases b; exact congrArg _ e
  have hsub : (ids.map (·.index)).toFinset ⊆ Finset.range n := by
    intro x hx
    obtain ⟨a, ha, rfl⟩ := List.mem_map.mp (List.mem_toFinset.mp hx)
    exact Finset.mem_range.mpr (hlt a ha)
  have hcard := Finset.card_le_card hsub
  rwa [List.toFinset_card_of_nodup hinj, List.length_map, Finset.card_range] at hcard

theorem Linked.length_le (hl : Linked l code) : code.length ≤ l.nodes.size := by
  have := length_le_of_index_lt hl.nodup fun a ha => hl.lt_size ha
  rwa [ids, List.length_map] at this

theorem walk_eq : ∀ {p : Option NodeId} {code : Code} (fuel : Nat), Chain l p code none →
    code.length ≤ fuel → l.walk fuel (firstId code none) = ids code
  | _, [], 0, _, _ => rfl
  | _, [], _ + 1, _, _ => rfl
  | _, (a, i) :: rest, 0, _, hlen => by simp at hlen
  | _, (a, i) :: rest, fuel + 1, hc, hlen => by
    show a :: l.walk fuel ((l.node? a).bind (·.next)) = a :: ids rest
    rw [hc.1]
    exact congrArg _ (walk_eq fuel hc.2 (by simpa using hlen))

theorem Linked.toList_eq (hl : Linked l code) : l.toList = ids code := by
  rw [toList, ← hl.first]
  exact walk_eq _ hl.chain hl.length_le

/-- **The entries of a linked listing.** -/
theorem Linked.entries_eq (hl : Linked l code) : l.entries = code := by
  have hchain : ∀ {p q : Option NodeId} {code : Code}, Chain l p code q →
      (ids code).filterMap (fun a => (l.node? a).map fun n => (a, n.instr)) = code := by
    intro p q code
    induction code generalizing p with
    | nil => exact fun _ => rfl
    | cons x rest ih =>
      obtain ⟨a, i⟩ := x
      intro hc
      simp only [ids_cons, List.filterMap_cons, hc.1, Option.map_some, ih hc.2]
  rw [entries, hl.toList_eq]
  exact hchain hl.chain

theorem Linked.get_eq (hl : Linked l code) (ha : (a, i) ∈ code) : l.get a = .ok i := by
  obtain ⟨xs, ys, rfl⟩ := List.append_of_mem ha
  simp [get, node, hl.node?_eq, Except.map]

theorem Linked.next_eq (hl : Linked l (xs ++ (a, i) :: ys)) :
    l.next a = .ok (firstId ys none) := by
  simp [next, node, hl.node?_eq, Except.map]

theorem Linked.mem_of_node {n : Node} (hl : Linked l code) (hn : l.node a = .ok n) :
    ∃ xs i ys, code = xs ++ (a, i) :: ys := by
  refine exists_split (hl.complete (n := n) ?_)
  unfold node at hn
  split at hn
  · next hn' =>
    cases hn
    exact hn'
  · cases hn

theorem Linked.mem_of_get (hl : Linked l code) (h : l.get a = .ok i) : (a, i) ∈ code := by
  cases hn : l.node a with
  | error f => simp [get, hn, Except.map] at h
  | ok n =>
    obtain ⟨xs, j, ys, rfl⟩ := hl.mem_of_node hn
    rw [hl.get_eq (a := a) (i := j) (by simp)] at h
    cases h
    simp

/-! ## Linking in -/

/-- What allotting does: an unused slot is filled. -/
theorem Linked.allot (hl : Linked l code) (n : Node) :
    ∃ l' id, l.allot n = (l', id) ∧ l.node? id = none ∧
      (∀ a, l'.node? a = if a = id then some n else l.node? a) ∧ l'.free.Nodup ∧
      (∀ a ∈ l'.free, a ∈ l.free ∧ a ≠ id) ∧ (∀ a ∈ l'.free, l'.nodes[a.index]? = some none) ∧
      l'.cursor = l.cursor ∧ l'.regs = l.regs := by
  rcases hf : l.free with _ | ⟨id, free⟩
  · refine ⟨{ l with nodes := l.nodes.push (some n) }, ⟨l.nodes.size⟩,
      by simp only [Listing.allot, hf], ?_, fun a => ?_, ?_, ?_, ?_, rfl, rfl⟩
    · simp [node?]
    · obtain ⟨a⟩ := a
      simp only [node?, Array.getElem?_push, NodeId.mk.injEq]
      split_ifs <;> rfl
    · simp [hf]
    · simp [hf]
    · simp [hf]
  · have hnone := hl.free_empty id (by simp [hf])
    have hlt := (Array.getElem?_eq_some_iff.mp hnone).1
    obtain ⟨hid, hnd⟩ := List.nodup_cons.mp (hf ▸ hl.free_nodup)
    have hidx : ∀ {a : NodeId}, a ≠ id → id.index ≠ a.index := by
      rintro ⟨a⟩ hne e
      obtain ⟨id⟩ := id
      exact hne (by rw [show a = id from e.symm])
    refine ⟨{ l with nodes := l.nodes.setIfInBounds id.index (some n), free := free }, id,
      by simp only [Listing.allot, hf], ?_, fun a => ?_, hnd, fun a ha => ?_, fun a ha => ?_,
      rfl, rfl⟩
    · simp [node?, hnone]
    · simp only [node?, Array.getElem?_setIfInBounds]
      by_cases e : a = id
      · simp [e, hlt]
      · simp [hidx e, e]
    · exact ⟨List.mem_cons_of_mem _ ha, fun e => hid (e ▸ ha)⟩
    · have hne : a ≠ id := fun e => hid (e ▸ ha)
      have := hl.free_empty a (by rw [hf]; exact List.mem_cons_of_mem _ ha)
      simpa [Array.getElem?_setIfInBounds, hidx hne] using this

/-- An unused slot stays so when other nodes change. -/
theorem modify_empty {f : Node → Node} (ha : l.nodes[a.index]? = some none) :
    (l.modify b f).nodes[a.index]? = some none := by
  simp only [modify, Array.getElem?_modify]
  split_ifs
  · rw [ha]
    rfl
  · exact ha

/-- **Linking in before a node** that is not the first. -/
theorem Linked.linkBefore (hl : Linked l (xs ++ (b, j) :: (place, k) :: ys)) (i : Instr NodeId) :
    ∃ l' id, l.linkBefore place i = .ok (l', id) ∧
      Linked l' (xs ++ (b, j) :: (id, i) :: (place, k) :: ys) ∧
      l'.cursor = l.cursor ∧ l'.regs = l.regs := by
  have hc := hl.chain
  simp only [chain_append, Chain, firstId] at hc
  obtain ⟨hcx, hcb, hcp, hcy⟩ := hc
  have hnd := hl.nodup
  simp only [ids_append, ids_cons, List.nodup_append, List.nodup_cons, List.mem_cons, not_or] at hnd
  obtain ⟨hndx, ⟨⟨hbp, hby⟩, hpy, hndy⟩, hdisj⟩ := hnd
  obtain ⟨l₁, id, e₁, hid, hnode₁, hfnd, hfsub, hfempty, hcur, hregs⟩ :=
    hl.allot ⟨i, some b, some place⟩
  have hne : ∀ {a}, a ∈ ids (xs ++ (b, j) :: (place, k) :: ys) → a ≠ id := by
    rintro a ha rfl
    obtain ⟨xs', i', ys', h'⟩ := exists_split ha
    rw [h'] at hl
    rw [hl.node?_eq] at hid
    cases hid
  set l₂ := (l₁.modify b ({ · with next := some id })).modify place ({ · with prev := some id })
    with hl₂
  have hnode : ∀ a, l₂.node? a = if a = place then (l₁.node? a).map ({ · with prev := some id })
      else if a = b then (l₁.node? a).map ({ · with next := some id }) else l₁.node? a := by
    intro a
    rw [hl₂, node?_modify, node?_modify]
    by_cases e₁ : a = place
    · simp [e₁, Ne.symm hbp]
    · simp [e₁]
  have hsame : ∀ a ∈ ids (xs ++ ys), l₂.node? a = l.node? a := by
    intro a ha
    have hab : a ≠ b ∧ a ≠ place := by
      rw [ids_append, List.mem_append] at ha
      rcases ha with ha | ha
      · exact ⟨hdisj a ha b (by simp), hdisj a ha place (by simp)⟩
      · exact ⟨fun e => hby (e ▸ ha), fun e => hpy (e ▸ ha)⟩
    rw [hnode, if_neg hab.2, if_neg hab.1, hnode₁, if_neg (hne _)]
    simp only [ids_append, ids_cons, List.mem_append, List.mem_cons] at ha ⊢
    tauto
  refine ⟨l₂, id, ?_, ⟨?_, ?_, ?_, ?_, ?_, hfnd, fun a ha => ?_, ?_⟩, hcur, hregs⟩
  · simp only [Listing.linkBefore, node, hcp, bind, Except.bind, e₁]
    rfl
  · simp only [chain_append, Chain, firstId]
    refine ⟨hcx.congr fun a ha => hsame a (by simp at ha ⊢; tauto), ?_, ?_, ?_,
      hcy.congr fun a ha => hsame a (by simp at ha ⊢; tauto)⟩
    · rw [hnode, if_neg hbp, if_pos rfl, hnode₁, if_neg (hne (by simp)), hcb]
      rfl
    · have hib : id ≠ b := fun e => hne (a := b) (by simp) e.symm
      have hip : id ≠ place := fun e => hne (a := place) (by simp) e.symm
      rw [hnode, if_neg hip, if_neg hib, hnode₁, if_pos rfl]
    · rw [hnode, if_pos rfl, hnode₁, if_neg (hne (by simp)), hcp]
      rfl
  · have hidx : id ∉ ids (xs ++ (b, j) :: (place, k) :: ys) := fun h => hne h rfl
    simp only [ids_append, ids_cons, List.nodup_append, List.nodup_cons, List.mem_cons,
      not_or, List.mem_append] at hidx ⊢
    refine ⟨hndx, ⟨⟨Ne.symm hidx.2.1, hbp, hby⟩, ⟨hidx.2.2.1, hidx.2.2.2⟩, hpy, hndy⟩,
      fun a ha c hc => ?_⟩
    rcases hc with rfl | rfl | rfl | hc
    · exact hdisj a ha _ (by simp)
    · exact fun e => hidx.1 (e ▸ ha)
    · exact hdisj a ha _ (by simp)
    · exact hdisj a ha c (by simp [hc])
  · intro a n ha
    by_cases e : a = id
    · simp [e]
    · have : ∃ n', l.node? a = some n' := by
        rw [hnode, hnode₁, if_neg e] at ha
        split_ifs at ha
        all_goals
          cases hn : l.node? a with
          | none => rw [hn] at ha; cases ha
          | some n' => exact ⟨n', rfl⟩
      obtain ⟨n', hn'⟩ := this
      have := hl.complete hn'
      simp only [ids_append, ids_cons, List.mem_append, List.mem_cons] at this ⊢
      tauto
  · have := hl.first
    rw [firstId_append] at this ⊢
    exact this
  · have := hl.last
    rw [lastId_append] at this ⊢
    exact this
  · exact modify_empty (modify_empty (hfempty a ha))
  · have := hl.cursor
    show l₁.cursor ∈ _
    rw [hcur]
    simp only [ids_append, ids_cons, List.mem_append, List.mem_cons] at this ⊢
    tauto

/-- **Linking in after a node** that is not the last. -/
theorem Linked.linkAfter (hl : Linked l (xs ++ (place, k) :: ys)) (hlast : place ≠ tail)
    (i : Instr NodeId) :
    ∃ l' id, l.linkAfter place i = .ok (l', id) ∧ Linked l' (xs ++ (place, k) :: (id, i) :: ys) ∧
      l'.cursor = l.cursor ∧ l'.regs = l.regs := by
  rcases ys with _ | ⟨⟨b, j⟩, ys⟩
  · have := hl.last
    rw [lastId_append] at this
    exact absurd (Option.some.inj this) hlast
  · obtain ⟨l', id, e, hl', hcur, hregs⟩ := hl.linkBefore i
    refine ⟨l', id, ?_, hl', hcur, hregs⟩
    simp only [Listing.linkAfter, node, hl.node?_eq, bind, Except.bind, firstId]
    exact e

/-! ## Erasing -/

/-- The listing without a node, whose neighbours are linked to one another. -/
def detach (l : Listing) (a b c : NodeId) : Listing :=
  let l₁ := (l.modify b ({ · with next := some c })).modify c ({ · with prev := some b })
  { l₁ with nodes := l₁.nodes.setIfInBounds a.index none, free := a :: l.free }

theorem node?_detach (hbc : b ≠ c) (ha : a.index < l.nodes.size) (x : NodeId) :
    (l.detach a b c).node? x = if x = a then none
      else if x = c then (l.node? x).map ({ · with prev := some b })
      else if x = b then (l.node? x).map ({ · with next := some c }) else l.node? x := by
  set l₁ := (l.modify b ({ · with next := some c })).modify c ({ · with prev := some b }) with hl₁
  have hmodified : l₁.node? x = if x = c then (l.node? x).map ({ · with prev := some b })
      else if x = b then (l.node? x).map ({ · with next := some c }) else l.node? x := by
    rw [hl₁, node?_modify, node?_modify]
    by_cases e : x = c
    · simp [e, Ne.symm hbc]
    · simp [e]
  have hlt : a.index < l₁.nodes.size := by rwa [hl₁, size_modify, size_modify]
  rw [← hmodified]
  obtain ⟨x⟩ := x
  obtain ⟨a⟩ := a
  show (l₁.nodes.setIfInBounds a none)[x]?.join = _
  simp only [node?, Array.getElem?_setIfInBounds, NodeId.mk.injEq]
  by_cases e : a = x
  · subst e
    simp [show a < l₁.nodes.size from hlt]
  · simp [e, Ne.symm e]

/-- A node that is neither first nor last has neighbours. -/
theorem Linked.exists_neighbours (hl : Linked l (xs ++ (a, i) :: ys)) (hhead : a ≠ head) (htail : a ≠ tail) :
    ∃ xs' b j c k ys', xs = xs' ++ [(b, j)] ∧ ys = (c, k) :: ys' := by
  rcases List.eq_nil_or_concat xs with rfl | ⟨xs', ⟨b, j⟩, rfl⟩
  · exact absurd (Option.some.inj hl.first) hhead
  · rcases ys with _ | ⟨⟨c, k⟩, ys'⟩
    · have hlast := hl.last
      rw [lastId_append] at hlast
      exact absurd (Option.some.inj hlast) htail
    · exact ⟨xs', b, j, c, k, ys', by simp, rfl⟩

/-- **What is left when a node is detached** from its neighbours is in order. -/
theorem Linked.detach (hl : Linked l (xs ++ (b, j) :: (a, i) :: (c, k) :: ys)) (hcursor : a ≠ l.cursor) :
    Linked (l.detach a b c) (xs ++ (b, j) :: (c, k) :: ys) := by
  have hnd := hl.nodup
  have hc := hl.chain
  simp only [chain_append, Chain, firstId] at hc
  obtain ⟨hcx, hcb, hca, hcc, hcy⟩ := hc
  simp only [ids_append, ids_cons, List.nodup_append, List.nodup_cons, List.mem_cons, not_or] at hnd
  obtain ⟨hndx, ⟨⟨hba, hbc, hby⟩, ⟨hac, hay⟩, hcy', hndy⟩, hdisj⟩ := hnd
  have hlt := lt_size_of_node? hca
  have hnode := node?_detach (l := l) hbc hlt
  have hsame : ∀ x ∈ ids (xs ++ ys), (l.detach a b c).node? x = l.node? x := by
    intro x hx
    rw [ids_append, List.mem_append] at hx
    have hne : x ≠ a ∧ x ≠ b ∧ x ≠ c := by
      rcases hx with hx | hx
      · exact ⟨hdisj x hx a (Or.inr (Or.inl rfl)), hdisj x hx b (Or.inl rfl),
          hdisj x hx c (Or.inr (Or.inr (Or.inl rfl)))⟩
      · exact ⟨fun e => hay (e ▸ hx), fun e => hby (e ▸ hx), fun e => hcy' (e ▸ hx)⟩
    rw [hnode, if_neg hne.1, if_neg hne.2.2, if_neg hne.2.1]
  have hfree : a ∉ l.free := fun hm => by
    rw [node?, hl.free_empty a hm] at hca
    cases hca
  refine ⟨?_, ?_, fun {x n} hx => ?_, ?_, ?_, ?_, fun x hx => ?_, ?_⟩
  · simp only [chain_append, Chain, firstId]
    refine ⟨hcx.congr fun x hx => hsame x (by simp [hx]), ?_, ?_,
      hcy.congr fun x hx => hsame x (by simp [hx])⟩
    · rw [hnode, if_neg hba, if_neg hbc, if_pos rfl, hcb]
      rfl
    · rw [hnode, if_neg (Ne.symm hac), if_pos rfl, hcc]
      rfl
  · simp only [ids_append, ids_cons, List.nodup_append, List.nodup_cons, List.mem_cons, not_or]
    exact ⟨hndx, ⟨⟨hbc, hby⟩, hcy', hndy⟩, fun x hx y hy => hdisj x hx y (hy.imp_right Or.inr)⟩
  · -- every node that is left was there, and is not the one detached
    have hxa : x ≠ a := by
      rintro rfl
      rw [hnode, if_pos rfl] at hx
      cases hx
    obtain ⟨n', hn'⟩ : ∃ n', l.node? x = some n' := by
      rw [hnode, if_neg hxa] at hx
      split_ifs at hx
      all_goals
        cases hn : l.node? x with
        | none => rw [hn] at hx; cases hx
        | some n' => exact ⟨n', rfl⟩
    have hmem := hl.complete hn'
    simp only [ids_append, ids_cons, List.mem_append, List.mem_cons] at hmem ⊢
    exact hmem.imp_right (Or.imp_right fun h => h.resolve_left hxa)
  · have hfirst := hl.first
    simp only [firstId_append] at hfirst ⊢
    exact hfirst
  · have hlast := hl.last
    rw [lastId_append] at hlast ⊢
    exact hlast
  · exact List.nodup_cons.mpr ⟨hfree, hl.free_nodup⟩
  · simp only [Listing.detach, Array.getElem?_setIfInBounds]
    rcases List.mem_cons.mp hx with rfl | hx
    · simp [hlt]
    · have hempty := modify_empty (b := c) (f := ({ · with prev := some b }))
        (modify_empty (b := b) (f := ({ · with next := some c })) (hl.free_empty x hx))
      by_cases e : a.index = x.index
      · simp [← e, hlt, size_modify]
      · rw [if_neg e]
        exact hempty
  · have hmem := hl.cursor
    show l.cursor ∈ _
    simp only [ids_append, ids_cons, List.mem_append, List.mem_cons] at hmem ⊢
    exact hmem.imp_right (Or.imp_right fun h => h.resolve_left (Ne.symm hcursor))

/-- **Erasing a node** between the first and the last one. -/
theorem Linked.erase (hl : Linked l (xs ++ (a, i) :: ys)) (hhead : a ≠ head) (htail : a ≠ tail)
    (hcursor : a ≠ l.cursor) :
    ∃ l', l.erase a = .ok l' ∧ Linked l' (xs ++ ys) ∧ l'.cursor = l.cursor ∧ l'.regs = l.regs := by
  obtain ⟨xs, b, j, c, k, ys, rfl, rfl⟩ := hl.exists_neighbours hhead htail
  simp only [List.append_assoc, List.singleton_append] at hl ⊢
  have hc := hl.chain
  simp only [chain_append, Chain, firstId] at hc
  obtain ⟨-, -, hca, -⟩ := hc
  refine ⟨l.detach a b c, ?_, hl.detach hcursor, rfl, rfl⟩
  simp only [Listing.erase, hhead, htail, hcursor, node, hca, relink, bind, Except.bind, pure, Except.pure]
  rfl

/-! ## Overwriting -/

/-- **Overwriting an instruction.** -/
theorem Linked.put (hl : Linked l (xs ++ (a, i) :: ys)) (i' : Instr NodeId) :
    ∃ l', l.put a i' = .ok l' ∧ Linked l' (xs ++ (a, i') :: ys) ∧ l'.cursor = l.cursor ∧
      l'.regs = l.regs := by
  have hnode := fun x => node?_modify l a x ({ · with instr := i' })
  have hids : ids (xs ++ (a, i') :: ys) = ids (xs ++ (a, i) :: ys) := by simp
  have hnd := hl.nodup
  have hc := hl.chain
  simp only [chain_append, Chain] at hc
  obtain ⟨hcx, hca, hcy⟩ := hc
  simp only [ids_append, ids_cons, List.nodup_append, List.nodup_cons, List.mem_cons] at hnd
  refine ⟨l.modify a ({ · with instr := i' }), ?_, ⟨?_, hids ▸ hl.nodup, fun {x n} hx => ?_, ?_, ?_,
    hl.free_nodup, fun x hx => modify_empty (hl.free_empty x hx), hids ▸ hl.cursor⟩, rfl, rfl⟩
  · simp only [Listing.put, node, hca, bind, Except.bind]
    rfl
  · simp only [chain_append, Chain]
    refine ⟨hcx.congr fun x hx => ?_, ?_, hcy.congr fun x hx => ?_⟩
    · rw [hnode, if_neg (hnd.2.2 x hx a (Or.inl rfl))]
    · rw [hnode, if_pos rfl, hca]
      rfl
    · rw [hnode, if_neg fun e : x = a => hnd.2.1.1 (e ▸ hx)]
  · rw [hids]
    rw [hnode] at hx
    cases hn : l.node? x with
    | none =>
      rw [hn] at hx
      split_ifs at hx
      all_goals cases hx
    | some n' => exact hl.complete hn
  · have := hl.first
    rw [firstId_append] at this ⊢
    exact this
  · have := hl.last
    rw [lastId_append] at this ⊢
    exact this

/-! ## What the operations build -/

/-- **A listing built by the operations** on listings and registers. -/
inductive Built : Listing → Prop
  | empty : Built .empty
  | freshReg {l : Listing} (role : RegRole) : Built l → Built (l.freshReg role).1
  | recordType {l l' : Listing} {r t} : Built l → l.recordType r t = .ok l' → Built l'
  | put {l l' : Listing} {a : NodeId} {i : Instr NodeId} : Built l → l.put a i = .ok l' → Built l'
  | moveCursor {l l' : Listing} {a : NodeId} : Built l → l.moveCursor a = .ok l' → Built l'
  | linkBefore {l l' : Listing} {a id : NodeId} {i : Instr NodeId} : Built l →
    l.linkBefore a i = .ok (l', id) → Built l'
  | linkAfter {l l' : Listing} {a id : NodeId} {i : Instr NodeId} : Built l →
    l.linkAfter a i = .ok (l', id) → Built l'
  | insert {l l' : Listing} {i : Instr NodeId} {id : NodeId} : Built l →
    l.insert i = .ok (l', id) → Built l'
  | append {l l' : Listing} {i : Instr NodeId} {id : NodeId} : Built l →
    l.append i = .ok (l', id) → Built l'
  | prepend {l l' : Listing} {i : Instr NodeId} {id : NodeId} : Built l →
    l.prepend i = .ok (l', id) → Built l'
  | erase {l l' : Listing} {a : NodeId} : Built l → l.erase a = .ok l' → Built l'
  | eraseFrom {l l' : Listing} {a : NodeId} : Built l → l.eraseFrom a = .ok l' → Built l'

theorem linked_empty : Linked .empty [(head, .nop), (tail, .done)] := by
  refine ⟨⟨rfl, rfl, trivial⟩, by decide, fun {a n} ha => ?_, rfl, rfl, List.nodup_nil,
    fun a ha => by simp [empty] at ha, by decide⟩
  obtain ⟨_ | _ | a⟩ := a
  · simp [head]
  · simp [tail]
  · simp [node?, empty] at ha

/-- Being linked is about the nodes and the cursor only. -/
theorem Linked.of_nodes (hl : Linked l code) (hn : l'.nodes = l.nodes) (hf : l'.free = l.free)
    (hc : l'.cursor ∈ ids code) : Linked l' code := by
  have hnode : ∀ a, l'.node? a = l.node? a := fun a => by simp only [node?, hn]
  exact ⟨hl.chain.congr fun a _ => hnode a, hl.nodup, fun ha => hl.complete (hnode _ ▸ ha), hl.first,
    hl.last, hf ▸ hl.free_nodup, fun a ha => hn ▸ hl.free_empty a (hf ▸ ha), hc⟩

theorem Linked.head_mem (hl : Linked l code) : head ∈ ids code := by
  rcases code with _ | ⟨⟨a, i⟩, rest⟩
  · cases hl.first
  · have := Option.some.inj hl.first
    simp [this]

theorem lastId_mem : ∀ {p : Option NodeId} {code : Code}, lastId p code = some a → p ≠ some a →
    a ∈ ids code
  | _, [], h, hp => absurd h hp
  | _, (b, i) :: rest, h, _ => by
    by_cases e : some b = some a
    · simp [Option.some.inj e]
    · exact List.mem_cons_of_mem _ (lastId_mem (p := some b) h e)

theorem Linked.tail_mem (hl : Linked l code) : tail ∈ ids code := lastId_mem hl.last (by simp)

theorem Linked.of_linkBefore {id : NodeId} (hl : Linked l code)
    (e : l.linkBefore place i = .ok (l', id)) : ∃ code', Linked l' code' := by
  cases hn : l.node place with
  | error f => simp [Listing.linkBefore, hn, bind, Except.bind] at e
  | ok n =>
    obtain ⟨xs, k, ys, rfl⟩ := hl.mem_of_node hn
    rcases List.eq_nil_or_concat xs with rfl | ⟨xs', ⟨b, j⟩, rfl⟩
    · simp [Listing.linkBefore, node, hl.node?_eq, lastId, bind, Except.bind] at e
    · rw [List.concat_eq_append, List.append_assoc, List.singleton_append] at hl
      obtain ⟨l'', id', e', hl', -⟩ := hl.linkBefore i
      rw [e'] at e
      cases e
      exact ⟨_, hl'⟩

theorem Linked.of_linkAfter {id : NodeId} (hl : Linked l code)
    (e : l.linkAfter place i = .ok (l', id)) : ∃ code', Linked l' code' := by
  cases hn : l.node place with
  | error f => simp [Listing.linkAfter, hn, bind, Except.bind] at e
  | ok n =>
    simp only [Listing.linkAfter, hn, bind, Except.bind] at e
    split at e
    · cases e
    · exact hl.of_linkBefore e

theorem Linked.of_erase (hl : Linked l code) (e : l.erase a = .ok l') :
    ∃ xs i ys, code = xs ++ (a, i) :: ys ∧ Linked l' (xs ++ ys) := by
  have hcond : a ≠ head ∧ a ≠ tail ∧ a ≠ l.cursor := by
    refine ⟨?_, ?_, ?_⟩
    all_goals
      rintro rfl
      simp [Listing.erase, bind, Except.bind] at e
    all_goals
      split_ifs at e
  obtain ⟨hhead, htail, hcursor⟩ := hcond
  cases hn : l.node a with
  | error f => simp [Listing.erase, hhead, htail, hcursor, hn, bind, Except.bind] at e
  | ok n =>
    obtain ⟨xs, i, ys, rfl⟩ := hl.mem_of_node hn
    obtain ⟨l'', e', hl', -⟩ := hl.erase hhead htail hcursor
    rw [e'] at e
    cases e
    exact ⟨xs, i, ys, rfl, hl'⟩

theorem Linked.of_eraseLoop : ∀ (fuel : Nat) {l l' : Listing} {code : Code} {o : Option NodeId},
    Linked l code → eraseLoop fuel l o = .ok l' → ∃ code', Linked l' code'
  | 0, l, l', code, o, hl, e => by cases e; exact ⟨code, hl⟩
  | fuel + 1, l, l', code, none, hl, e => by cases e; exact ⟨code, hl⟩
  | fuel + 1, l, l', code, some a, hl, e => by
    rw [eraseLoop] at e
    by_cases htail : a = tail
    · rw [if_pos htail] at e
      cases e
      exact ⟨code, hl⟩
    · rw [if_neg htail] at e
      have hl₁ : Linked (if l.cursor = a then { l with cursor := tail } else l) code := by
        split_ifs
        · exact hl.of_nodes rfl rfl hl.tail_mem
        · exact hl
      generalize (if l.cursor = a then { l with cursor := tail } else l) = l₁ at *
      cases hn : l.next a with
      | error f => simp [hn, bind, Except.bind] at e
      | ok after =>
        cases he : l₁.erase a with
        | error f => simp [hn, he, bind, Except.bind] at e
        | ok l₂ =>
          simp only [hn, he, bind, Except.bind] at e
          obtain ⟨xs, i, ys, -, hl₂⟩ := hl₁.of_erase he
          exact Linked.of_eraseLoop fuel hl₂ e

/-- **Every listing that the operations build is linked.** -/
theorem Built.linked (hb : Built l) : ∃ code, Linked l code := by
  induction hb with
  | empty => exact ⟨_, linked_empty⟩
  | freshReg role _ ih =>
    obtain ⟨code, hl⟩ := ih
    exact ⟨code, hl.of_nodes rfl rfl hl.cursor⟩
  | @recordType l l' r t _ e ih =>
    obtain ⟨code, hl⟩ := ih
    cases hf : l.factsOf r with
    | error f => simp [Listing.recordType, hf, bind, Except.bind] at e
    | ok facts =>
      simp only [Listing.recordType, hf, bind, Except.bind] at e
      cases e
      exact ⟨code, hl.of_nodes rfl rfl hl.cursor⟩
  | @put l l' a i _ e ih =>
    obtain ⟨code, hl⟩ := ih
    cases hn : l.node a with
    | error f => simp [Listing.put, hn, bind, Except.bind] at e
    | ok n =>
      obtain ⟨xs, j, ys, rfl⟩ := hl.mem_of_node hn
      obtain ⟨l'', e', hl', -⟩ := hl.put i
      rw [e'] at e
      cases e
      exact ⟨_, hl'⟩
  | @moveCursor l l' a _ e ih =>
    obtain ⟨code, hl⟩ := ih
    cases hn : l.node a with
    | error f => simp [Listing.moveCursor, hn, bind, Except.bind] at e
    | ok n =>
      simp only [Listing.moveCursor, hn, bind, Except.bind] at e
      cases e
      obtain ⟨xs, j, ys, rfl⟩ := hl.mem_of_node hn
      exact ⟨_, hl.of_nodes rfl rfl (by simp)⟩
  | linkBefore _ e ih => exact ih.elim fun _ hl => hl.of_linkBefore e
  | linkAfter _ e ih => exact ih.elim fun _ hl => hl.of_linkAfter e
  | insert _ e ih => exact ih.elim fun _ hl => hl.of_linkBefore e
  | append _ e ih => exact ih.elim fun _ hl => hl.of_linkBefore e
  | prepend _ e ih => exact ih.elim fun _ hl => hl.of_linkAfter e
  | erase _ e ih =>
    obtain ⟨code, hl⟩ := ih
    obtain ⟨xs, i, ys, -, hl'⟩ := hl.of_erase e
    exact ⟨_, hl'⟩
  | eraseFrom _ e ih => exact ih.elim fun _ hl => hl.of_eraseLoop _ e

end CountedMachine.Listing
