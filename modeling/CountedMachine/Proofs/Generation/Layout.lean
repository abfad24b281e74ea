import CountedMachine.Proofs.Generation.Finishing
import CountedMachine.Proofs.Kinds.Secure

/-! # Laying out code

Assembling a listing gives its instructions in order, with labels replaced by positions (`layout`,
`Linked.assemble_eq`). Where labels stand behind the instructions that lead there (`Ahead`), control
only goes forward in the finished code, and what is known of the nodes carries over: the environments
in which they are reached (`Secure.layout`), and the counts of registers (`Quiet.layout`). -/

namespace CountedMachine

namespace Listing

variable {l : Listing} {code xs ys : Code} {block : NodeId → Code}
  {keep : NodeId × Instr NodeId → Bool} {a b : NodeId} {i j : Instr NodeId} {pc pc' : Nat} {r : Reg}

/-- **The code in order**, with labels replaced by positions. -/
def layout (code : Code) : Array (Instr Nat) :=
  (code.map fun p => p.2.relabel (ids code).idxOf).toArray

/-- Labels stand behind the instructions that lead there. -/
def Ahead (code : Code) : Prop :=
  ∀ xs a i ys b, code = xs ++ (a, i) :: ys → i.label? = some b → b ∈ ids ys

theorem Ahead.inner (h : Ahead code) : Inner code := fun a i b ha hb => by
  obtain ⟨xs, ys, e⟩ := List.append_of_mem ha
  have := h _ _ _ _ _ e hb
  simp [e, this]

theorem relabel_congr {L M : Type} {f g : L → M} {i : Instr L}
    (h : ∀ b, i.label? = some b → f b = g b) : i.relabel f = i.relabel g := by
  cases i <;> first | rfl | simp [Instr.relabel, h _ rfl]

theorem relabel_relabel {L M N : Type} (f : L → M) (g : M → N) (i : Instr L) :
    (i.relabel f).relabel g = i.relabel (g ∘ f) := by
  cases i <;> rfl

/-- **Assembling a listing.** -/
theorem Linked.assemble_eq (hl : Linked l code) (hin : Inner code) :
    l.assemble = .ok (layout code).toList := by
  rw [assemble, hl.entries_eq, hl.toList_eq]
  refine mapM_eq_ok fun ⟨a, i⟩ ha => ?_
  cases hi : i.label? with
  | none =>
    simp only [resolve, hi]
    exact congrArg _ (relabel_congr (by simp [hi]))
  | some b =>
    have hb := hin a i b ha hi
    have hpos : l.position (ids code) b = .ok ((ids code).idxOf b) := by
      have hlt := hl.lt_size hb
      rw [position, if_neg (by omega), List.idxOf_eq_getD_idxOf?]
      cases e : (ids code).idxOf? b with
      | none => exact absurd hb (List.idxOf?_eq_none_iff.mp e)
      | some pc => rfl
    simp only [resolve, hi, hpos, Except.map]
    refine congrArg _ (relabel_congr fun c hc => ?_)
    rw [hi] at hc
    rw [Option.some.inj hc]

/-! ## Nodes and places -/

theorem getElem?_layout : (layout code)[pc]? = code[pc]?.map fun p => p.2.relabel (ids code).idxOf := by
  simp [layout]

theorem size_layout : (layout code).size = code.length := by
  simp [layout]

/-- What stands at a place. -/
theorem exists_of_layout {k : Instr Nat} (h : (layout code)[pc]? = some k) :
    ∃ a i, code[pc]? = some (a, i) ∧ k = i.relabel (ids code).idxOf := by
  rw [getElem?_layout] at h
  obtain ⟨⟨a, i⟩, hi, rfl⟩ := Option.map_eq_some_iff.mp h
  exact ⟨a, i, hi, rfl⟩

theorem split_of_getElem? (h : code[pc]? = some (a, i)) :
    ∃ xs ys, code = xs ++ (a, i) :: ys ∧ xs.length = pc := by
  obtain ⟨hlt, he⟩ := List.getElem?_eq_some_iff.mp h
  refine ⟨code.take pc, code.drop (pc + 1), ?_, by simp; omega⟩
  rw [← he, List.cons_getElem_drop_succ, List.take_append_drop]

theorem getElem?_idxOf (hb : b ∈ ids code) : ∃ j, code[(ids code).idxOf b]? = some (b, j) := by
  have hlt : (ids code).idxOf b < (ids code).length := List.idxOf_lt_length_of_mem hb
  have hget : (ids code)[(ids code).idxOf b]? = some b := by
    rw [List.getElem?_eq_getElem hlt, List.getElem_idxOf hlt]
  rw [ids, List.getElem?_map] at hget
  obtain ⟨⟨c, j⟩, hj, rfl⟩ := Option.map_eq_some_iff.mp hget
  exact ⟨j, hj⟩

theorem getElem?_unique (hnd : (ids code).Nodup) (h : code[pc]? = some (a, i))
    (h' : code[pc']? = some (a, j)) : pc = pc' := by
  obtain ⟨xs, ys, e, rfl⟩ := split_of_getElem? h
  obtain ⟨xs', ys', e', rfl⟩ := split_of_getElem? h'
  rw [(split_unique hnd e e').1]

/-- The node that follows. -/
theorem firstId_eq (e : code = xs ++ (a, i) :: ys) (hb : firstId ys none = some b) :
    ∃ j, code[xs.length + 1]? = some (b, j) := by
  rcases ys with _ | ⟨⟨c, j⟩, ys⟩
  · cases hb
  · obtain rfl : c = b := Option.some.inj hb
    refine ⟨j, ?_⟩
    rw [e, List.getElem?_append_right (by omega)]
    simp

/-- The code ends with a terminal instruction. -/
def Ends (code : Code) : Prop := ∃ xs, code = xs ++ [(tail, Instr.done)]

theorem Ends.firstId (h : Ends code) (e : code = xs ++ (a, i) :: ys) (hi : i.isTerminal = false) :
    ∃ b, Listing.firstId ys none = some b := by
  rcases ys with _ | ⟨⟨c, j⟩, ys⟩
  · obtain ⟨zs, hz⟩ := h
    have := List.append_inj_right' (e.symm.trans hz) rfl
    simp only [List.cons.injEq, Prod.mk.injEq, and_true] at this
    rw [this.2] at hi
    cases hi
  · exact ⟨c, rfl⟩

/-- A label is found behind. -/
theorem Ahead.label (h : Ahead code) (hnd : (ids code).Nodup) (e : code = xs ++ (a, i) :: ys)
    (hb : i.label? = some b) :
    xs.length < (ids code).idxOf b ∧ ∃ j, code[(ids code).idxOf b]? = some (b, j) := by
  have hmem := h _ _ _ _ _ e hb
  have hin : b ∈ ids code := by simp [e, hmem]
  obtain ⟨j, hj⟩ := getElem?_idxOf hin
  refine ⟨?_, j, hj⟩
  by_contra hle
  rw [e, ids_append, ids_cons, List.nodup_append, List.nodup_cons] at hnd
  rw [e] at hj hle
  rcases Nat.lt_or_ge ((ids (xs ++ (a, i) :: ys)).idxOf b) xs.length with hlt | hge
  · rw [List.getElem?_append_left hlt] at hj
    exact hnd.2.2 b (mem_ids (List.mem_of_getElem? hj)) b (by simp [hmem]) rfl
  · rw [List.getElem?_append_right hge,
      show (ids (xs ++ (a, i) :: ys)).idxOf b - xs.length = 0 by omega] at hj
    simp only [List.getElem?_cons_zero, Option.some.injEq, Prod.mk.injEq] at hj
    exact hnd.2.1.1 (hj.1 ▸ hmem)

/-- **Control goes forward**, to nodes that it may go to. -/
theorem Ahead.exits (h : Ahead code) (hnd : (ids code).Nodup) (hends : Ends code)
    (e : code = xs ++ (a, i) :: ys) (hpc : pc' ∈ (i.relabel (ids code).idxOf).exits xs.length) :
    xs.length < pc' ∧ ∃ b j, b ∈ targets i (firstId ys none) ∧ code[pc']? = some (b, j) := by
  have hnext : i.isTerminal = false → ∃ b j, firstId ys none = some b ∧
      code[xs.length + 1]? = some (b, j) := fun hi => by
    obtain ⟨b, hb⟩ := hends.firstId e hi
    obtain ⟨j, hj⟩ := firstId_eq e hb
    exact ⟨b, j, hb, hj⟩
  cases i
  case branch c no =>
    simp only [Instr.relabel, Instr.exits, List.mem_cons, List.not_mem_nil, or_false] at hpc
    rcases hpc with rfl | rfl
    · obtain ⟨b, j, hb, hj⟩ := hnext rfl
      exact ⟨by omega, b, j, by simp [targets, hb], hj⟩
    · obtain ⟨hlt, j, hj⟩ := h.label hnd e rfl
      exact ⟨hlt, no, j, by simp [targets], hj⟩
  case jump t =>
    simp only [Instr.relabel, Instr.exits, List.mem_singleton] at hpc
    subst hpc
    obtain ⟨hlt, j, hj⟩ := h.label hnd e rfl
    exact ⟨hlt, t, j, by simp [targets], hj⟩
  case ret => simp [Instr.relabel, Instr.exits, Instr.isTerminal] at hpc
  case tailCall => simp [Instr.relabel, Instr.exits, Instr.isTerminal] at hpc
  case done => simp [Instr.relabel, Instr.exits, Instr.isTerminal] at hpc
  all_goals
    simp only [Instr.relabel, Instr.exits, Instr.isTerminal, Bool.false_eq_true, if_false,
      List.mem_singleton] at hpc
    subst hpc
    obtain ⟨b, j, hb, hj⟩ := hnext rfl
    exact ⟨by omega, b, j, by simp [targets, hb, Instr.isTerminal], hj⟩

/-! ## Labels stay ahead -/

/-- Shaped code may be followed by code without labels. -/
theorem Shaped.ahead (h : Shaped xs) (hys : ∀ p ∈ ys, p.2.label? = none)
    (hnd : (ids (xs ++ ys)).Nodup) : Ahead (xs ++ ys) := by
  intro us a i vs b e hb
  have ha : (a, i) ∈ xs ++ ys := by simp [e]
  have ha' : (a, i) ∈ xs := (List.mem_append.mp ha).resolve_right fun hy => by
    rw [hys _ hy] at hb
    cases hb
  obtain ⟨hbefore, j, hj, -⟩ := h.closed.within (List.sublist_append_left xs ys) ha' hb
  have hlt := idxOf_lt_of_before hnd hbefore
  have hin := mem_ids hj
  rw [e, ids_append, ids_cons] at hnd hlt hin
  rw [List.nodup_append, List.nodup_cons] at hnd
  rw [List.idxOf_append_of_notMem (a := a) fun h => hnd.2.2 a h a (by simp) rfl] at hlt
  simp only [List.idxOf_cons_self, Nat.add_zero] at hlt
  rw [List.mem_append, List.mem_cons] at hin
  rcases hin with hin | rfl | hin
  · rw [List.idxOf_append_of_mem hin] at hlt
    have := List.idxOf_lt_length_of_mem hin
    omega
  · rw [List.idxOf_append_of_notMem fun h => hnd.2.2 b h b (by simp) rfl] at hlt
    simp at hlt
  · exact hin

theorem Ahead.weave (h : Ahead code) (hnd : (ids (weave code block)).Nodup)
    (hadj : ∀ {a x j}, (x, j) ∈ block a → ∃ op q, j = .adjust op q) : Ahead (weave code block) := by
  intro xs a i ys b e hb
  have hmem : (a, i) ∈ code := by
    refine (mem_weave.mp (show (a, i) ∈ Listing.weave code block by simp [e])).resolve_right ?_
    rintro ⟨c, -, hx⟩
    obtain ⟨op, q, rfl⟩ := hadj hx
    cases hb
  obtain ⟨us, vs, hcode⟩ := List.append_of_mem hmem
  have e' : Listing.weave code block = Listing.weave us block ++ (a, i) ::
      (block a ++ Listing.weave vs block) := by
    rw [hcode, weave_append, weave_cons]
  obtain ⟨-, -, rfl⟩ := split_unique hnd e e'
  obtain ⟨j, hj⟩ := exists_instr (h _ _ _ _ _ hcode hb)
  rw [ids_append, List.mem_append]
  exact Or.inr (mem_ids (mem_weave.mpr (Or.inl hj)))

theorem Ahead.filter (h : Ahead code) (hnd : (ids code).Nodup)
    (hlab : ∀ {a i b}, (a, i) ∈ code → i.label? = some b → ∃ j, (b, j) ∈ code ∧ keep (b, j) = true) :
    Ahead (code.filter keep) := by
  intro xs a i ys b e hb
  obtain ⟨X, Y, hXY, -, hY⟩ := List.filter_eq_append_iff.mp e
  obtain ⟨X₂, Y₂, hX₂, -, -, hY₂⟩ := List.filter_eq_cons_iff.mp hY
  have hcode : code = (X ++ X₂) ++ (a, i) :: Y₂ := by rw [hXY, hX₂]; simp
  obtain ⟨k, hk⟩ := exists_instr (h _ _ _ _ _ hcode hb)
  obtain ⟨j, hj, hkeep⟩ := hlab (a := a) (i := i) (by simp [hcode]) hb
  obtain rfl : j = k := instr_unique hnd hj (by simp [hcode, hk])
  rw [← hY₂]
  exact mem_ids (List.mem_filter.mpr ⟨hk, hkeep⟩)

/-! ## Counts of registers -/

/-- What an instruction that is no ownership instruction does to a count. -/
theorem observe_eq_ok {st st' : Holding} (hi : ∀ op q, i ≠ .adjust op q) :
    st.observe r a i = .ok st' ↔ (i.reads r = false ∧ st' = st) ∨ (i.reads r = true ∧
      st.dead = false ∧ ((i.consumes r = false ∧ st' = st) ∨
        (i.consumes r = true ∧ st.count ≠ 0 ∧ st' = ⟨st.count - 1, true⟩))) := by
  have hobs : st.observe r a i = if i.reads r then
      if st.dead then .error (.touchedDead r a) else st.read r a i else .ok st := by
    cases i <;> first | rfl | exact absurd rfl (hi _ _)
  rw [hobs, Holding.read]
  cases i.reads r <;> cases st.dead <;> cases i.consumes r <;> by_cases hc : st.count = 0 <;>
    simp [hc, eq_comm]

/-- Labels and places do not matter to a count. -/
theorem observe_relabel {st st' : Holding} (h : st.observe r a i = .ok st') (f : NodeId → NodeId)
    (c : NodeId) : st.observe r c (i.relabel f) = .ok st' := by
  by_cases hi : ∀ op q, i ≠ .adjust op q
  · rw [observe_eq_ok fun op q e => ?_, Instr.reads_relabel, Instr.consumes_relabel]
    · exact (observe_eq_ok hi).mp h
    · cases i <;> first | exact hi _ _ rfl | cases e
  · simp only [not_forall, not_not] at hi
    obtain ⟨op, q, rfl⟩ := hi
    by_cases hq : q = r
    · simp only [Holding.observe, Instr.relabel, hq, if_true] at h ⊢
      cases hd : st.dead <;> simp only [hd, if_true, if_false, Bool.false_eq_true] at h ⊢
      · cases op <;> by_cases hc : st.count = 0 <;> simp [Holding.adjust, hc] at h ⊢ <;> exact h
      · cases h
    · simpa [Holding.observe, Instr.relabel, hq] using h

end Listing

end CountedMachine
