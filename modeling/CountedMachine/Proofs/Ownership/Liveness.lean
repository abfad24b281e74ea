import CountedMachine.Ownership.Liveness
import CountedMachine.Proofs.Listing.Paths

/-! # The liveness search finds the live nodes

The search keeps an agenda of nodes to enter and nodes to leave. The nodes to leave are the open ones:
they lie on one control path, the innermost on top, and everything planned above one of them can be
reached from it (`Above`). Each node has been decided or is planned above the nodes that control may
come from (`Covers`), so its successors are decided when it is left. These facts and those about the
decided nodes are what one visit keeps (`Ongoing.visit`): a visit that finds an open node again has
found a loop, and a node that is decided is on none, since control never leads back from the decided
nodes to others.

A run therefore ends in one of two ways (`Ongoing.run`): with a loop that can be reached from the start,
or with the nodes that can be reached from it, none of them on a loop, each with its liveness. A node is
entered and left once, and at most two successors are planned, which gives three rounds for each node.
`liveness_spec` is the outcome on orderly code, which has no loops. -/

namespace CountedMachine

/-- The node that a visit is to. -/
def Visit.node : Visit → NodeId
  | .enter a => a
  | .leave a => a

namespace Listing

/-- **Some control path from the node on reads `r`.** -/
inductive Live (code : Code) (r : Reg) : NodeId → Prop
  | read {a i} : (a, i) ∈ code → i.reads r = true → Live code r a
  | step {a b} : Step code a b → Live code r b → Live code r a

variable {l : Listing} {code : Code} {r : Reg} {a b start : NodeId} {i : Instr NodeId}

theorem live_iff (hnd : (ids code).Nodup) (ha : (a, i) ∈ code) :
    Live code r a ↔ i.reads r = true ∨ ∃ b, Step code a b ∧ Live code r b := by
  constructor
  · rintro (⟨h, hr⟩ | ⟨hs, hb⟩)
    · exact Or.inl (instr_unique hnd ha h ▸ hr)
    · exact Or.inr ⟨_, hs, hb⟩
  · rintro (hr | ⟨b, hs, hb⟩)
    · exact .read ha hr
    · exact .step hs hb

/-- The nodes decided so far: their liveness is right, and so are their successors decided. -/
structure Decided (code : Code) (r : Reg) (live : Std.HashMap NodeId Bool) : Prop where
  right : ∀ {a v}, live[a]? = some v → (v = true ↔ Live code r a)
  mem : ∀ {a}, live.contains a = true → a ∈ ids code
  closed : ∀ {a b}, live.contains a = true → Step code a b → live.contains b = true

theorem Decided.reach {live : Std.HashMap NodeId Bool} (hd : Decided code r live) {a b : NodeId}
    (ha : live.contains a = true) (hr : Reach code a b) : live.contains b = true := by
  induction hr with
  | refl => exact ha
  | tail _ hs ih => exact hd.closed ih hs

theorem Decided.getD_iff {live : Std.HashMap NodeId Bool} (hd : Decided code r live) {a : NodeId}
    (ha : live.contains a = true) : live.getD a false = true ↔ Live code r a := by
  obtain ⟨v, hv⟩ : ∃ v, live[a]? = some v := by
    rw [← Option.isSome_iff_exists, Std.HashMap.isSome_getElem?_eq_contains]
    exact ha
  rw [Std.HashMap.getD_eq_getD_getElem?, hv]
  exact hd.right hv

theorem contains_insert_iff {live : Std.HashMap NodeId Bool} {v : Bool} :
    (live.insert a v).contains b = true ↔ live.contains b = true ∨ b = a := by
  rw [Std.HashMap.contains_insert, Bool.or_eq_true, beq_iff_eq, or_comm]
  exact or_congr_right eq_comm

/-! ## The agenda -/

/-- The first of two visits stands above the second: where that one leaves a node, the first is to a
node that control reaches from there, and it does not leave the same node. -/
def Above (code : Code) (v w : Visit) : Prop :=
  ∀ a, w = .leave a → Relation.TransGen (Step code) a v.node ∧ v ≠ .leave a

/-- **The agenda covers what is left to do:** the successors of a node that is left are known or
visited above it, and so is the start at the end. -/
def Covers (code : Code) (start : NodeId) : (NodeId → Prop) → List Visit → Prop
  | known, [] => known start
  | known, .enter a :: agenda => Covers code start (fun b => known b ∨ b = a) agenda
  | known, .leave a :: agenda =>
    (∀ b, Step code a b → known b) ∧ Covers code start (fun b => known b ∨ b = a) agenda

theorem Covers.mono : ∀ {agenda : List Visit} {known known' : NodeId → Prop},
    Covers code start known agenda → (∀ a, known a → known' a) → Covers code start known' agenda
  | [], _, _, h, hk => hk _ h
  | .enter _ :: agenda, _, _, h, hk => by
    have h : Covers code start _ agenda := h
    exact h.mono fun _ ha => ha.imp_left (hk _)
  | .leave _ :: agenda, _, _, h, hk => by
    have h₂ : Covers code start _ agenda := h.2
    exact ⟨fun b hb => hk b (h.1 b hb), h₂.mono fun _ ha => ha.imp_left (hk _)⟩

theorem covers_enters {agenda : List Visit} : ∀ (bs : List NodeId) {known : NodeId → Prop},
    Covers code start (fun a => known a ∨ a ∈ bs) agenda →
      Covers code start known (bs.map .enter ++ agenda)
  | [], _, h => h.mono fun _ ha => ha.resolve_right List.not_mem_nil
  | b :: bs, known, h => by
    refine covers_enters bs (h.mono fun a ha => ?_)
    rw [List.mem_cons] at ha
    tauto

/-- **The search is under way:** the decided nodes are right, reached and on no loop, and the agenda is
in order. -/
structure Ongoing (code : Code) (r : Reg) (start : NodeId) (s : Search) : Prop extends
    Decided code r s.live where
  acyclic : ∀ {a}, s.live.contains a = true → ¬ Relation.TransGen (Step code) a a
  reached : ∀ {a}, s.live.contains a = true → Reach code start a
  opened : ∀ a, s.opened.contains a = true ↔ .leave a ∈ s.agenda
  undecided : ∀ {a}, s.opened.contains a = true → s.live.contains a = false
  above : s.agenda.Pairwise (Above code)
  covers : Covers code start (fun a => s.live.contains a = true) s.agenda
  leads : ∀ v ∈ s.agenda, Reach code start v.node

/-- The rounds that are left are enough: three for each node that is neither decided nor open, and one
for each visit on the agenda. -/
def Affords (l : Listing) (fuel : Nat) (s : Search) : Prop :=
  s.agenda.length + 3 * l.nodes.size ≤ fuel + 3 * (s.live.size + s.opened.size)

/-- A loop can be reached from the start, through the given node. -/
def Loops (code : Code) (start a : NodeId) : Prop :=
  Reach code start a ∧ Relation.TransGen (Step code) a a

theorem ongoing_start (code : Code) (r : Reg) (start : NodeId) :
    Ongoing code r start (.start start) where
  right h := by simp [Search.start] at h
  mem h := by simp [Search.start] at h
  closed h := by simp [Search.start] at h
  acyclic h := by simp [Search.start] at h
  reached h := by simp [Search.start] at h
  opened a := by simp [Search.start]
  undecided h := by simp [Search.start] at h
  above := List.pairwise_singleton _ _
  covers := Or.inr rfl
  leads v hv := by
    obtain rfl := List.mem_singleton.mp hv
    exact .refl

/-! ## One visit -/

/-- Planning to enter the successors of a node either meets an open one or plans those that are not
decided yet. -/
theorem plan_cases : ∀ (ns : List NodeId) (s : Search),
    (∃ b ∈ ns, s.opened.contains b = true ∧ ns.foldlM Search.plan s = .error (.backEdge b)) ∨
    ns.foldlM Search.plan s = .ok { s with
      agenda := ((ns.filter fun a => !s.live.contains a).map .enter).reverse ++ s.agenda }
  | [], s => Or.inr rfl
  | a :: ns, s => by
    rw [List.foldlM_cons, Search.plan]
    by_cases hopen : s.opened.contains a = true
    · rw [if_pos hopen]
      exact Or.inl ⟨a, by simp, hopen, rfl⟩
    · rw [if_neg hopen]
      by_cases ha : s.live.contains a = true
      · rw [if_pos ha]
        refine (plan_cases ns s).imp (fun ⟨b, hb, h⟩ => ⟨b, by simp [hb], h⟩) fun h => ?_
        simpa [ha, bind, Except.bind] using h
      · rw [if_neg ha]
        refine (plan_cases ns { s with agenda := .enter a :: s.agenda }).imp
          (fun ⟨b, hb, h⟩ => ⟨b, by simp [hb], h⟩) fun h => ?_
        simpa [ha, bind, Except.bind] using h

/-- The instruction at a node and the nodes control goes to from it. -/
theorem Linked.exists_successors (hl : Linked l code) (ha : a ∈ ids code) : ∃ i ns,
    (a, i) ∈ code ∧ l.get a = .ok i ∧ l.successors a = .ok ns ∧ (∀ b, Step code a b ↔ b ∈ ns) ∧
      ns.length ≤ 2 := by
  obtain ⟨xs, i, ys, rfl⟩ := exists_split ha
  exact ⟨i, _, by simp, hl.get_eq (by simp), hl.successors_eq, fun b => step_iff hl.nodup,
    length_targets_le _ _⟩

variable {live : Std.HashMap NodeId Bool} {opened : Std.HashSet NodeId} {agenda : List Visit}
  {fuel : Nat}

/-- A node on the agenda below which it is open is on a loop. -/
theorem Ongoing.loops (hs : Ongoing code r start ⟨live, opened, .enter a :: agenda⟩)
    (ha : opened.contains a = true) : Loops code start a := by
  have hmem : .leave a ∈ agenda := (List.mem_cons.mp ((hs.opened a).mp ha)).resolve_left nofun
  exact ⟨hs.leads (.enter a) List.mem_cons_self,
    ((List.pairwise_cons.mp hs.above).1 _ hmem a rfl).1⟩

/-- **Leaving a node:** its successors are decided, and so it is on no loop. -/
theorem Ongoing.leave (hl : Linked l code) (hcode : ∀ b, Reach code start b → b ∈ ids code)
    (hs : Ongoing code r start ⟨live, opened, .leave a :: agenda⟩) : ∃ s',
      Search.visit l r ⟨live, opened, agenda⟩ (.leave a) = .ok s' ∧ Ongoing code r start s' ∧
        (Affords l (fuel + 1) ⟨live, opened, .leave a :: agenda⟩ → Affords l fuel s') := by
  have hreach : Reach code start a := hs.leads (.leave a) List.mem_cons_self
  obtain ⟨i, ns, hi, hget, hsucc, hstep, -⟩ := hl.exists_successors (hcode a hreach)
  have hopen : opened.contains a = true := (hs.opened a).mpr List.mem_cons_self
  have hnew : live.contains a = false := hs.undecided hopen
  obtain ⟨habove, hpair⟩ := List.pairwise_cons.mp hs.above
  have hknown : ∀ b, Step code a b → live.contains b = true := hs.covers.1
  set v := i.reads r || ns.any fun n => live.getD n false with hv
  have hval : v = true ↔ Live code r a := by
    rw [live_iff hl.nodup hi, hv, Bool.or_eq_true, List.any_eq_true]
    refine or_congr Iff.rfl (exists_congr fun b => ?_)
    rw [hstep]
    exact and_congr_right fun hb => hs.getD_iff (hknown b ((hstep b).mpr hb))
  refine ⟨⟨live.insert a v, opened.erase a, agenda⟩, ?_, ?_, fun haff => ?_⟩
  · simp only [Search.visit, hget, hsucc, bind, Except.bind, pure, Except.pure, hv]
  · refine ⟨⟨fun {b w} hw => ?_, fun {b} hb => ?_, fun {b c} hb hbc => ?_⟩, fun {b} hb hloop => ?_,
      fun {b} hb => ?_, fun b => ?_, fun {b} hb => ?_, hpair, ?_, fun w hw => hs.leads w
        (List.mem_cons_of_mem _ hw)⟩
    · rw [Std.HashMap.getElem?_insert] at hw
      split_ifs at hw with e
      · cases hw
        exact eq_of_beq e ▸ hval
      · exact hs.right hw
    · rcases contains_insert_iff.mp hb with hb | rfl
      · exact hs.mem hb
      · exact mem_ids hi
    · refine contains_insert_iff.mpr (Or.inl ?_)
      rcases contains_insert_iff.mp hb with hb | rfl
      · exact hs.closed hb hbc
      · exact hknown c hbc
    · rcases contains_insert_iff.mp hb with hb | rfl
      · exact hs.acyclic hb hloop
      · -- control leads from the node to decided ones only, and stays with them
        obtain ⟨c, hc, hback⟩ := Relation.TransGen.head'_iff.mp hloop
        have := hs.reach (hknown c hc) hback
        rw [hnew] at this
        cases this
    · rcases contains_insert_iff.mp hb with hb | rfl
      · exact hs.reached hb
      · exact hreach
    · have hb := hs.opened b
      rw [List.mem_cons, Visit.leave.injEq] at hb
      rw [Std.HashSet.contains_erase, Bool.and_eq_true, hb]
      by_cases e : b = a
      · subst e
        simpa using fun hmem => (habove _ hmem b rfl).2 rfl
      · simp [e, Ne.symm e]
    · rw [Std.HashSet.contains_erase, Bool.and_eq_true] at hb
      rw [Std.HashMap.contains_insert, hs.undecided hb.2, Bool.or_false]
      simpa using hb.1
    · exact hs.covers.2.mono fun b hb => contains_insert_iff.mpr hb
  · have hsize : (live.insert a v).size = live.size + 1 := by
      rw [Std.HashMap.size_insert, if_neg]
      rw [Std.HashMap.mem_iff_contains, hnew]
      exact Bool.false_ne_true
    have hsize' : (opened.erase a).size = opened.size - 1 := by
      rw [Std.HashSet.size_erase, if_pos (Std.HashSet.mem_iff_contains.mpr hopen)]
    unfold Affords at haff ⊢
    simp only [List.length_cons] at haff
    simp only [hsize, hsize']
    omega

/-- **Entering a node** that has not been decided meets an open successor, and with it a loop, or opens
the node and plans its successors. -/
theorem Ongoing.open (hl : Linked l code) (hcode : ∀ b, Reach code start b → b ∈ ids code)
    (hs : Ongoing code r start ⟨live, opened, .enter a :: agenda⟩) (hnew : live.contains a = false)
    (hopen : opened.contains a = false) :
    (∃ b, Search.visit l r ⟨live, opened, agenda⟩ (.enter a) = .error (.backEdge b) ∧
      Loops code start b) ∨
    ∃ s', Search.visit l r ⟨live, opened, agenda⟩ (.enter a) = .ok s' ∧ Ongoing code r start s' ∧
      (Affords l (fuel + 1) ⟨live, opened, .enter a :: agenda⟩ → Affords l fuel s') := by
  have hreach : Reach code start a := hs.leads (.enter a) List.mem_cons_self
  obtain ⟨i, ns, hi, -, hsucc, hstep, hlen⟩ := hl.exists_successors (hcode a hreach)
  obtain ⟨habove, hpair⟩ := List.pairwise_cons.mp hs.above
  have hleave : ∀ b, .leave b ∈ Visit.enter a :: agenda ↔ .leave b ∈ agenda := by simp
  have hinsert : ∀ b, (opened.insert a).contains b = true ↔ b = a ∨ .leave b ∈ agenda := fun b => by
    rw [Std.HashSet.contains_insert, Bool.or_eq_true, beq_iff_eq, hs.opened b, hleave, eq_comm]
  have hvisit : Search.visit l r ⟨live, opened, agenda⟩ (.enter a) =
      ns.foldlM Search.plan ⟨live, opened.insert a, .leave a :: agenda⟩ := by
    simp only [Search.visit, hnew, hopen, hsucc, bind, Except.bind, Bool.false_eq_true, if_false]
  rw [hvisit]
  -- what control reaches from a node is reached from the open ones
  have hbelow : ∀ w ∈ agenda, ∀ c, w = .leave c → ∀ b, Reach code a b →
      Relation.TransGen (Step code) c b := fun w hw c hc b hb =>
    (habove w hw c hc).1.trans_left hb
  rcases plan_cases ns ⟨live, opened.insert a, .leave a :: agenda⟩ with ⟨b, hb, hbo, e⟩ | e
  · refine Or.inl ⟨b, e, hreach.tail ((hstep b).mpr hb), ?_⟩
    rcases (hinsert b).mp hbo with rfl | hmem
    · exact .single ((hstep b).mpr hb)
    · exact hbelow _ hmem b rfl b (.single ((hstep b).mpr hb))
  · refine Or.inr ⟨_, e, ?_, fun haff => ?_⟩
    · rw [← List.map_reverse]
      set bs := (ns.filter fun b => !live.contains b).reverse with hbs
      have hmem : ∀ b, b ∈ bs ↔ Step code a b ∧ live.contains b = false := fun b => by
        rw [hbs, List.mem_reverse, List.mem_filter, hstep, Bool.not_eq_true']
      refine ⟨hs.toDecided, hs.acyclic, hs.reached, fun b => ?_, fun {b} hb => ?_, ?_, ?_,
        fun v hv => ?_⟩
      · rw [hinsert]
        simp
      · rcases (hinsert b).mp hb with rfl | hb
        · exact hnew
        · exact hs.undecided ((hs.opened b).mpr ((hleave b).mpr hb))
      · refine List.pairwise_append.mpr ⟨?_, List.pairwise_cons.mpr ⟨fun w hw c hc => ⟨?_, ?_⟩, hpair⟩,
          fun v hv w hw c hc => ?_⟩
        · rw [List.pairwise_map]
          exact List.pairwise_of_forall fun _ _ c hc => by cases hc
        · exact hbelow w hw c hc a .refl
        · rintro ⟨rfl⟩
          have := (hs.opened a).mpr ((hleave a).mpr (hc ▸ hw))
          rw [hopen] at this
          cases this
        · obtain ⟨b, hb, rfl⟩ := List.mem_map.mp hv
          have hab := ((hmem b).mp hb).1
          refine ⟨?_, nofun⟩
          rcases List.mem_cons.mp hw with rfl | hw
          · cases hc
            exact .single hab
          · exact hbelow w hw c hc b (.single hab)
      · refine covers_enters bs ⟨fun b hb => ?_, ?_⟩
        · show live.contains b = true ∨ b ∈ bs
          rw [hmem]
          cases hlive : live.contains b
          · exact Or.inr ⟨hb, rfl⟩
          · exact Or.inl rfl
        · have hcovers : Covers code start (fun b => live.contains b = true ∨ b = a) agenda := hs.covers
          exact hcovers.mono fun b hb => hb.imp_left Or.inl
      · rcases List.mem_append.mp hv with hv | hv
        · obtain ⟨b, hb, rfl⟩ := List.mem_map.mp hv
          exact hreach.tail ((hmem b).mp hb).1
        · rcases List.mem_cons.mp hv with rfl | hv
          · exact hreach
          · exact hs.leads v (List.mem_cons_of_mem _ hv)
    · have hsize : (opened.insert a).size = opened.size + 1 := by
        rw [Std.HashSet.size_insert, if_neg]
        rw [Std.HashSet.mem_iff_contains, hopen]
        exact Bool.false_ne_true
      have hfilter := List.length_filter_le (fun b => !live.contains b) ns
      unfold Affords at haff ⊢
      simp only [List.length_cons, List.length_append, List.length_reverse, List.length_map] at haff ⊢
      rw [hsize]
      omega

/-- **One visit** finds a loop or goes on with the search. -/
theorem Ongoing.visit (hl : Linked l code) (hcode : ∀ b, Reach code start b → b ∈ ids code)
    {v : Visit} (hs : Ongoing code r start ⟨live, opened, v :: agenda⟩) :
    (∃ b, Search.visit l r ⟨live, opened, agenda⟩ v = .error (.backEdge b) ∧ Loops code start b) ∨
    ∃ s', Search.visit l r ⟨live, opened, agenda⟩ v = .ok s' ∧ Ongoing code r start s' ∧
      (Affords l (fuel + 1) ⟨live, opened, v :: agenda⟩ → Affords l fuel s') := by
  cases v with
  | leave a => exact Or.inr (hs.leave hl hcode)
  | enter a =>
    by_cases hdec : live.contains a = true
    · -- decided before, and with it what can be reached from it
      refine Or.inr ⟨⟨live, opened, agenda⟩, by simp [Search.visit, hdec, pure, Except.pure], ?_,
        fun haff => ?_⟩
      · have hleave : ∀ b, .leave b ∈ Visit.enter a :: agenda ↔ .leave b ∈ agenda := by simp
        refine ⟨hs.toDecided, hs.acyclic, hs.reached, fun b => (hs.opened b).trans (hleave b),
          hs.undecided, (List.pairwise_cons.mp hs.above).2, ?_,
          fun w hw => hs.leads w (List.mem_cons_of_mem _ hw)⟩
        have hcovers : Covers code start (fun b => live.contains b = true ∨ b = a) agenda := hs.covers
        exact hcovers.mono fun b hb => hb.elim id fun e => e ▸ hdec
      · unfold Affords at haff ⊢
        simp only [List.length_cons] at haff ⊢
        omega
    · by_cases hopen : opened.contains a = true
      · refine Or.inl ⟨a, ?_, hs.loops hopen⟩
        simp only [Search.visit, hdec, hopen, if_true, Bool.false_eq_true, if_false]
        rfl
      · exact hs.open hl hcode (by simpa using hdec) (by simpa using hopen)

/-! ## The run -/

/-- A node is decided or open at most once, so there are no more of them than nodes. -/
theorem Ongoing.size_le (hl : Linked l code) (hcode : ∀ b, Reach code start b → b ∈ ids code)
    {s : Search} (hs : Ongoing code r start s) : s.live.size + s.opened.size ≤ l.nodes.size := by
  have hopened : ∀ a, a ∈ s.opened.toList ↔ s.opened.contains a = true := fun a => by
    rw [Std.HashSet.mem_toList, Std.HashSet.mem_iff_contains]
  have hdec : ∀ a, a ∈ s.live.keys ↔ s.live.contains a = true := fun a => by
    rw [Std.HashMap.mem_keys, Std.HashMap.mem_iff_contains]
  have hnd : s.opened.toList.Nodup :=
    Std.HashSet.distinct_toList.imp fun h => by simpa using h
  rw [← Std.HashMap.length_keys, ← Std.HashSet.length_toList, ← List.length_append]
  refine length_le_of_index_lt (List.nodup_append'.mpr ⟨Std.HashMap.nodup_keys, hnd, ?_⟩) fun a ha => ?_
  · intro a ha hb
    have := hs.undecided ((hopened a).mp hb)
    rw [(hdec a).mp ha] at this
    cases this
  · rcases List.mem_append.mp ha with ha | ha
    · exact hl.lt_size (hs.mem ((hdec a).mp ha))
    · exact hl.lt_size (hcode a (hs.leads _ ((hs.opened a).mp ((hopened a).mp ha))))

/-- What is found: the nodes that can be reached from the start, none of them on a loop, with their
liveness. -/
structure Found (code : Code) (r : Reg) (start : NodeId) (live : Std.HashMap NodeId Bool) : Prop
    extends Decided code r live where
  acyclic : ∀ {a}, live.contains a = true → ¬ Relation.TransGen (Step code) a a
  iff_reach : ∀ b, live.contains b = true ↔ Reach code start b

/-- **The search finds a loop or all there is to find.** -/
theorem Ongoing.run (hl : Linked l code) (hcode : ∀ b, Reach code start b → b ∈ ids code) :
    ∀ {fuel : Nat} {s : Search}, Ongoing code r start s → Affords l fuel s →
      (∃ b, Search.run l r fuel s = .error (.backEdge b) ∧ Loops code start b) ∨
      ∃ live, Search.run l r fuel s = .ok live ∧ Found code r start live
  | fuel, ⟨live, opened, []⟩, hs, _ => by
    refine Or.inr ⟨live, by cases fuel <;> rfl, hs.toDecided, hs.acyclic, fun b => ⟨hs.reached, ?_⟩⟩
    exact fun hr => hs.reach (show live.contains start = true from hs.covers) hr
  | 0, ⟨live, opened, v :: agenda⟩, hs, haff => by
    have hsize : live.size + opened.size ≤ l.nodes.size := hs.size_le hl hcode
    unfold Affords at haff
    simp only [List.length_cons] at haff
    omega
  | fuel + 1, ⟨live, opened, v :: agenda⟩, hs, haff => by
    rcases hs.visit hl hcode with ⟨b, e, hloop⟩ | ⟨s', e, hs', hstep⟩
    · exact Or.inl ⟨b, by rw [Search.run, e]; rfl, hloop⟩
    · rw [Search.run, e]
      exact Ongoing.run hl hcode hs' (hstep haff)

/-- **What the search comes to,** from a start from which control stays in the code. -/
theorem liveness_cases (hl : Linked l code) (hcode : ∀ b, Reach code start b → b ∈ ids code)
    (r : Reg) :
    (∃ b, l.liveness r start = .error (.backEdge b) ∧ Loops code start b) ∨
    ∃ live, l.liveness r start = .ok live ∧ Found code r start live := by
  refine (ongoing_start code r start).run hl hcode ?_
  show 1 + 3 * l.nodes.size ≤ 3 * l.nodes.size + 2 + 3 * (0 + 0)
  omega

/-- **What the search returns** on orderly code: the nodes reachable from its start, with their
liveness. -/
theorem liveness_spec (hl : Linked l code) (ho : Orderly code) (ha : a ∈ ids code) (r : Reg) :
    ∃ live, l.liveness r a = .ok live ∧ Decided code r live ∧
      ∀ b, live.contains b = true ↔ Reach code a b := by
  rcases liveness_cases hl (fun b hb => ho.reach_mem hb ha) r with ⟨b, -, -, hloop⟩ | ⟨live, e, hf⟩
  · exact absurd hloop (ho.acyclic b)
  · exact ⟨live, e, hf.toDecided, hf.iff_reach⟩

end Listing

end CountedMachine
