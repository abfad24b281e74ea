import CountedMachine.Proofs.Generation.Drafting
import CountedMachine.Proofs.Generation.Layout

/-! # Finishing leaves a unit in order

Whatever a listing is finished with, it is changed one instruction at a time: an ownership instruction
is linked in or overwritten by another one, and loads and ownership instructions are erased. None of
these has a part in passing arguments or is a label, so complete code stays `Complete`, and assembling
it gives a unit that is in order (`Drafted.finished`). -/

namespace CountedMachine

open Listing

/-- What is found for the elements of a list, one by one. -/
theorem mem_of_mapM_ok {ε α β : Type} {f : α → Except ε β} : ∀ {xs : List α} {ys : List β},
    xs.mapM f = .ok ys → ∀ y ∈ ys, ∃ x ∈ xs, f x = .ok y
  | [], ys, h, y, hy => by
    rw [List.mapM_nil] at h
    cases h
    cases hy
  | x :: xs, ys, h, y, hy => by
    rw [List.mapM_cons] at h
    obtain ⟨z, hz, h⟩ := bind_ok h
    obtain ⟨zs, hzs, h⟩ := bind_ok h
    cases h
    rcases List.mem_cons.mp hy with rfl | hy
    · exact ⟨x, by simp, hz⟩
    · obtain ⟨x', hx', e⟩ := mem_of_mapM_ok hzs y hy
      exact ⟨x', by simp [hx'], e⟩

/-- A fold keeps what each of its steps keeps. -/
theorem foldlM_ok {ε α β : Type} {P : β → Prop} {f : β → α → Except ε β} : ∀ {xs : List α} {y z : β},
    (∀ x ∈ xs, ∀ y z, P y → f y x = .ok z → P z) → P y → xs.foldlM f y = .ok z → P z
  | [], y, z, _, hy, h => by cases h; exact hy
  | x :: xs, y, z, hf, hy, h => by
    rw [List.foldlM_cons] at h
    obtain ⟨y', hy', h⟩ := bind_ok h
    exact foldlM_ok (fun x hx => hf x (by simp [hx])) (hf x (by simp) y y' hy hy') h

/-! ## The edits are about registers that were made -/

namespace Listing

variable {l l' : Listing} {code xs ys : Code} {r : Reg} {a : NodeId} {i : Instr NodeId} {R : Realm}

theorem reg_of_editsAt {live : Std.HashMap NodeId Bool} {es : List Edit}
    (h : l.editsAt r live a = .ok es) : ∀ e ∈ es, e.reg = r := by
  obtain ⟨i, -, h⟩ := bind_ok h
  split at h
  · obtain ⟨n, -, h⟩ := bind_ok h
    dsimp only at h
    split at h
    · obtain ⟨j, -, h⟩ := bind_ok h
      split at h
      · cases h
        simp
      · cases h
    · split at h <;> cases h <;> simp
  · obtain ⟨n, -, h⟩ := bind_ok h
    dsimp only at h
    split at h
    · split at h
      · cases h
      · cases h
        simp
    · cases h
      simp

theorem reg_of_editsFor {owned : Bool} {es : List Edit} (h : l.editsFor r a owned = .ok es) :
    ∀ e ∈ es, e.reg = r := by
  obtain ⟨next, -, h⟩ := bind_ok h
  split at h
  · cases h
  · obtain ⟨live, -, h⟩ := bind_ok h
    split at h
    · obtain ⟨releases, hrel, h⟩ := bind_ok h
      cases h
      intro e he
      rcases List.mem_append.mp he with he | he
      · split at he <;> simp_all
      · obtain ⟨es, hes, he⟩ := List.mem_flatten.mp he
        obtain ⟨n, -, hn⟩ := mem_of_mapM_ok hrel es hes
        exact reg_of_editsAt hn e he
    · cases h
      simp

/-- **An edit is about a register that was made.** -/
theorem made_of_editsIfCounted {es : List Edit} (h : l.editsIfCounted r = .ok (some es)) :
    ∀ e ∈ es, e.reg.index < l.regs.size := by
  obtain ⟨facts, hfacts, h⟩ := bind_ok h
  have hr : r.index < l.regs.size := by
    unfold factsOf at hfacts
    split at hfacts
    · next f hf => exact (Array.getElem?_eq_some_iff.mp hf).1
    · cases hfacts
  split at h
  · split at h
    · obtain ⟨es', hes', h⟩ := bind_ok h
      cases h
      intro e he
      rw [reg_of_editsFor hes' e he]
      exact hr
    · cases h
  · cases h

/-! ## Complete code -/

/-- **Complete code that is in order.** -/
structure Complete (R : Realm) (code : Code) : Prop where
  ends : Ends code
  apt : ∀ p ∈ code, p.2.Apt R
  aimed : ∀ p ∈ code, ∀ n, p.2.label? = some n → ∃ j, (n, j) ∈ code ∧ j.isLabel = true
  fed : feeds (code.map (·.2)) = some []

/-- An instruction that can be left out. -/
structure Idle (i : Instr NodeId) : Prop where
  feed : ∀ ps qs, i.feed ps = some qs → qs = ps
  unlabelled : i.isLabel = false
  goes : i ≠ .done

theorem idle_of_loadOrAdjust? (h : loadOrAdjust? i = some r) : Idle i := by
  cases i with
  | const | param | capture => exact ⟨by simp +contextual [Instr.feed], rfl, by simp⟩
  | adjust => exact ⟨by simp +contextual [Instr.feed], rfl, by simp⟩
  | _ => cases h

theorem Complete.erase (h : Complete R (xs ++ (a, i) :: ys)) (hi : Idle i) :
    Complete R (xs ++ ys) where
  ends := by
    obtain ⟨zs, e⟩ := h.ends
    rcases List.eq_nil_or_concat' ys with rfl | ⟨ws, q, rfl⟩
    · obtain ⟨-, e⟩ := List.append_inj' e rfl
      exact absurd (Prod.mk.inj (List.singleton_inj.mp e)).2 hi.goes
    · have e' : (xs ++ (a, i) :: ws) ++ [q] = zs ++ [(tail, Instr.done)] := by simpa using e
      obtain ⟨-, e⟩ := List.append_inj' e' rfl
      exact ⟨xs ++ ws, by rw [List.singleton_inj.mp e, List.append_assoc]⟩
  apt p hp := h.apt p (by simp only [List.mem_append, List.mem_cons] at hp ⊢; tauto)
  aimed p hp n hn := by
    obtain ⟨j, hj, hlab⟩ := h.aimed p (by simp only [List.mem_append, List.mem_cons] at hp ⊢; tauto)
      n hn
    refine ⟨j, ?_, hlab⟩
    simp only [List.mem_append, List.mem_cons, Prod.mk.injEq] at hj ⊢
    rcases hj with hj | ⟨-, rfl⟩ | hj
    · exact Or.inl hj
    · rw [hi.unlabelled] at hlab
      cases hlab
    · exact Or.inr hj
  fed := by
    have := h.fed
    simp only [List.map_append, List.map_cons] at this ⊢
    exact feeds_idle hi.feed this

theorem Complete.adjust (h : Complete R (xs ++ ys)) (hys : ys ≠ []) (op : CountOp)
    (hr : r.index < R.nregs) : Complete R (xs ++ (a, Instr.adjust op r) :: ys) where
  ends := by
    obtain ⟨zs, e⟩ := h.ends
    obtain ⟨ws, q, rfl⟩ := (List.eq_nil_or_concat' ys).resolve_left hys
    have e' : (xs ++ ws) ++ [q] = zs ++ [(tail, Instr.done)] := by simpa using e
    obtain ⟨-, e⟩ := List.append_inj' e' rfl
    exact ⟨xs ++ (a, Instr.adjust op r) :: ws, by simp [List.singleton_inj.mp e]⟩
  apt p hp := by
    simp only [List.mem_append, List.mem_cons] at hp
    rcases hp with hp | rfl | hp
    · exact h.apt p (by simp [hp])
    · exact ⟨by simpa [Instr.operands] using hr, trivial⟩
    · exact h.apt p (by simp [hp])
  aimed p hp n hn := by
    simp only [List.mem_append, List.mem_cons] at hp
    have hp : p ∈ xs ++ ys := by
      rcases hp with hp | rfl | hp
      · simp [hp]
      · cases hn
      · simp [hp]
    obtain ⟨j, hj, hlab⟩ := h.aimed p hp n hn
    refine ⟨j, ?_, hlab⟩
    simp only [List.mem_append, List.mem_cons] at hj ⊢
    tauto
  fed := by
    rw [List.map_append, List.map_cons, feeds_insert fun _ => rfl, ← List.map_append]
    exact h.fed

theorem Complete.ne_nil (h : Complete R (xs ++ (a, i) :: ys)) (hi : i ≠ .done) : ys ≠ [] := by
  rintro rfl
  obtain ⟨zs, e⟩ := h.ends
  obtain ⟨-, e⟩ := List.append_inj' e rfl
  exact hi (Prod.mk.inj (List.singleton_inj.mp e)).2

/-! ## One change at a time -/

/-- **A listing that holds complete code**, over the given registers. -/
structure Whole (R : Realm) (regs : Array RegFacts) (l : Listing) (code : Code) : Prop where
  linked : Linked l code
  complete : Complete R code
  regs : l.regs = regs

variable {regs : Array RegFacts}

theorem regs_erase (e : l.erase a = .ok l') : l'.regs = l.regs := by
  simp only [Listing.erase, bind, Except.bind] at e
  split_ifs at e
  cases hn : l.node a with
  | error f => rw [hn] at e; cases e
  | ok n =>
    rw [hn] at e
    obtain rfl := Except.ok.inj e
    dsimp only [relink]
    cases n.prev <;> cases n.next <;> rfl

theorem Whole.erase (h : Whole R regs l code) (ha : (a, i) ∈ code) (hi : Idle i)
    (e : l.erase a = .ok l') : ∃ xs ys, code = xs ++ (a, i) :: ys ∧ Whole R regs l' (xs ++ ys) := by
  obtain ⟨xs, j, ys, rfl, hl⟩ := h.linked.of_erase e
  obtain rfl : i = j := by
    have h₁ := h.linked.get_eq ha
    rw [h.linked.get_eq (i := j) (by simp)] at h₁
    exact (Except.ok.inj h₁).symm
  exact ⟨xs, ys, rfl, hl, h.complete.erase hi, (regs_erase e).trans h.regs⟩

theorem Whole.linkAfter (h : Whole R regs l code) {op : CountOp} {n : NodeId}
    (hr : r.index < R.nregs) (e : l.linkAfter a (.adjust op r) = .ok (l', n)) :
    ∃ code', Whole R regs l' code' := by
  obtain ⟨node, hnode, e⟩ := bind_ok e
  obtain ⟨xs, i, ys, rfl⟩ := h.linked.mem_of_node hnode
  have hnext : node.next = firstId ys none := by
    have := h.linked.node?_eq
    rw [Listing.node, this] at hnode
    exact (congrArg Node.next (Except.ok.inj hnode)).symm
  cases ys with
  | nil =>
    rw [hnext] at e
    cases e
  | cons q ys =>
    obtain ⟨b, j⟩ := q
    rw [hnext] at e
    obtain ⟨l₁, id, e₁, hl₁, -, hregs⟩ := h.linked.linkBefore (.adjust op r)
    have e : l.linkBefore b (.adjust op r) = .ok (l', n) := e
    rw [e₁] at e
    obtain ⟨rfl, rfl⟩ := Prod.mk.inj (Except.ok.inj e)
    refine ⟨_, hl₁, ?_, hregs.trans h.regs⟩
    have hc : Complete R ((xs ++ [(a, i)]) ++ (b, j) :: ys) := by simpa using h.complete
    simpa using hc.adjust (a := id) (by simp) op hr

theorem Whole.put (h : Whole R regs l code) {op op' : CountOp} (hr : r.index < R.nregs)
    (ha : (a, .adjust op' r) ∈ code) (e : l.put a (.adjust op r) = .ok l') :
    ∃ xs ys, code = xs ++ (a, Instr.adjust op' r) :: ys ∧
      Whole R regs l' (xs ++ (a, Instr.adjust op r) :: ys) := by
  obtain ⟨xs, ys, rfl⟩ := List.append_of_mem ha
  obtain ⟨l₁, e₁, hl₁, -, hregs⟩ := h.linked.put (.adjust op r)
  rw [e₁] at e
  obtain rfl := Except.ok.inj e
  refine ⟨xs, ys, rfl, hl₁, ?_, hregs.trans h.regs⟩
  exact (h.complete.erase (idle_of_loadOrAdjust? (r := r) rfl)).adjust
    (h.complete.ne_nil (by simp)) op hr

/-! ## The passes -/

/-- **Placing the ownership instructions** leaves complete code. -/
theorem Whole.placeOwnership (h : Whole R regs l code) (hR : regs.size ≤ R.nregs)
    {counts : PlacementCounts} (e : l.placeOwnership = .ok (l', counts)) :
    ∃ code', Whole R regs l' code' := by
  obtain ⟨plans, hplans, e⟩ := bind_ok e
  obtain ⟨l₁, hfold, e⟩ := bind_ok e
  cases e
  have hmade : ∀ e ∈ (plans.filterMap id).flatten, e.reg.index < R.nregs := by
    intro e he
    obtain ⟨es, hes, he⟩ := List.mem_flatten.mp he
    obtain ⟨plan, hplan, rfl⟩ : ∃ plan ∈ plans, plan = some es := by simpa using hes
    obtain ⟨r, -, hr⟩ := mem_of_mapM_ok hplans _ hplan
    have := made_of_editsIfCounted hr e he
    rw [h.regs] at this
    omega
  refine foldlM_ok (P := fun l => ∃ code, Whole R regs l code) (fun g hg l l' hl e => ?_)
    ⟨code, h⟩ hfold
  have hgroup : ∀ e ∈ g, e.reg.index < R.nregs := fun e he => hmade e <| by
    have := List.mem_flatten.mpr ⟨g, hg, he⟩
    rw [List.flatten_splitBy] at this
    exact (List.mergeSort_perm _ _).mem_iff.mp this
  cases g with
  | nil =>
    cases e
    exact hl
  | cons x es =>
    obtain ⟨q, hq, e⟩ := bind_ok e
    cases e
    refine foldlM_ok (P := fun q : Listing × NodeId => ∃ code, Whole R regs q.1 code)
      (fun x hx q q' hq e => ?_) hl hq
    obtain ⟨code, hcode⟩ := hq
    exact hcode.linkAfter (hgroup x hx) e

/-- **Erasing loads that nothing reads** leaves complete code. -/
theorem Whole.eraseUnreadLoads (h : Whole R regs l code) {isNil : ConstId → Bool} {n : Nat}
    (e : l.eraseUnreadLoads isNil = .ok (l', n)) : ∃ code', Whole R regs l' code' := by
  have hstep : ∀ dead, ∀ p ∈ l.entries, ∀ q q' : Listing × Nat,
      (∃ code', Whole R regs q.1 code' ∧ code' ⊆ code) → eraseDead dead q p = .ok q' →
      ∃ code', Whole R regs q'.1 code' ∧ code' ⊆ code := by
    rintro dead ⟨a, i⟩ hp ⟨l₁, m⟩ q' ⟨code', hw, hsub⟩ e
    rw [h.linked.entries_eq] at hp
    rw [eraseDead] at e
    split at e
    · next hdead =>
      obtain ⟨l₂, he, e⟩ := bind_ok e
      cases e
      -- what is erased is what the sequence held there from the start
      obtain ⟨xs, j, ys, hsplit, -⟩ := hw.linked.of_erase he
      have hj : (a, j) ∈ code' := by simp [hsplit]
      obtain rfl : i = j := instr_unique h.linked.nodup hp (hsub hj)
      obtain ⟨r, hr⟩ : ∃ r, loadOrAdjust? i = some r := by
        cases hload : loadOrAdjust? i with
        | none => simp [hload] at hdead
        | some r => exact ⟨r, rfl⟩
      obtain ⟨xs, ys, rfl, hw'⟩ := hw.erase hj (idle_of_loadOrAdjust? hr) he
      refine ⟨xs ++ ys, hw', fun p hp => hsub ?_⟩
      simp only [List.mem_append, List.mem_cons] at hp ⊢
      tauto
    · cases e
      exact ⟨code', hw, hsub⟩
  obtain ⟨code', hcode', -⟩ := foldlM_ok
    (P := fun q : Listing × Nat => ∃ code', Whole R regs q.1 code' ∧ code' ⊆ code)
    (hstep _) ⟨code, h, List.Subset.refl _⟩ e
  exact ⟨code', hcode'⟩

theorem Whole.fusePair (h : Whole R regs l code) (hi : (a, i) ∈ code) {b : NodeId}
    {j : Instr NodeId} (hj : (b, j) ∈ code) {after : Option NodeId} {n : Nat}
    (e : l.fusePair a b i j = .ok (l', after, n)) : ∃ code', Whole R regs l' code' := by
  unfold Listing.fusePair at e
  split at e
  · next reg r =>
    split at e
    · obtain ⟨next, -, e⟩ := bind_ok e
      obtain ⟨l₁, he₁, e⟩ := bind_ok e
      obtain ⟨l₂, he₂, e⟩ := bind_ok e
      cases e
      obtain ⟨xs, ys, rfl, hw₁⟩ := h.erase hi (idle_of_loadOrAdjust? (r := reg) rfl) he₁
      have hj₁ : (b, Instr.adjust .dec r) ∈ xs ++ ys := by simpa using hj
      obtain ⟨xs, ys, -, hw₂⟩ := hw₁.erase hj₁ (idle_of_loadOrAdjust? (r := r) rfl) he₂
      exact ⟨_, hw₂⟩
    · cases e
      exact ⟨code, h⟩
  · next reg r =>
    split at e
    · next hcond =>
      obtain ⟨l₁, he₁, e⟩ := bind_ok e
      obtain ⟨l₂, he₂, e⟩ := bind_ok e
      cases e
      obtain rfl : r = reg := by simpa using (Bool.and_eq_true_iff.mp hcond).1
      have hr : r.index < R.nregs := (h.complete.apt _ hi).operands r (by simp [Instr.operands])
      obtain ⟨xs, ys, rfl, hw₁⟩ := h.put hr hj he₁
      have hi₁ : (a, Instr.adjust .inc r) ∈ xs ++ (b, Instr.adjust .drop r) :: ys := by
        simp only [List.mem_append, List.mem_cons, Prod.mk.injEq] at hi ⊢
        simpa using hi
      obtain ⟨xs, ys, -, hw₂⟩ := hw₁.erase hi₁ (idle_of_loadOrAdjust? (r := r) rfl) he₂
      exact ⟨_, hw₂⟩
    · cases e
      exact ⟨code, h⟩
  · cases e
    exact ⟨code, h⟩

theorem Whole.fusePairsFrom : ∀ (fuel : Nat) {l l' : Listing} {code : Code} {o : Option NodeId}
    {m n : Nat}, Whole R regs l code → fusePairsFrom fuel l o m = .ok (l', n) →
    ∃ code', Whole R regs l' code'
  | 0, l, l', code, o, m, n, h, e => by cases e; exact ⟨code, h⟩
  | fuel + 1, l, l', code, none, m, n, h, e => by cases e; exact ⟨code, h⟩
  | fuel + 1, l, l', code, some a, m, n, h, e => by
    rw [Listing.fusePairsFrom] at e
    obtain ⟨node, hnode, e⟩ := bind_ok e
    split at e
    · cases e
      exact ⟨code, h⟩
    · next b hb =>
      obtain ⟨j, hj, e⟩ := bind_ok e
      obtain ⟨⟨l₁, after, k⟩, hfuse, e⟩ := bind_ok e
      have hi : (a, node.instr) ∈ code := h.linked.mem_of_get (by rw [Listing.get, hnode]; rfl)
      obtain ⟨code₁, hw₁⟩ := h.fusePair hi (h.linked.mem_of_get hj) hfuse
      exact Whole.fusePairsFrom fuel hw₁ e

/-- **Tidying** leaves complete code. -/
theorem Whole.tidied (h : Whole R regs l code) {settings : Settings} {pool : Array Constant}
    (e : Gen.tidied settings pool l = .ok l') : ∃ code', Whole R regs l' code' := by
  unfold Gen.tidied at e
  split at e
  · cases ht : l.tidy fun k => pool[k.index]?.any Constant.isNil with
    | error f => rw [ht] at e; cases e
    | ok q =>
      rw [ht] at e
      obtain rfl := Except.ok.inj e
      obtain ⟨⟨l₁, m⟩, he₁, ht⟩ := bind_ok ht
      obtain ⟨⟨l₂, n⟩, he₂, ht⟩ := bind_ok ht
      cases ht
      obtain ⟨code₁, hw₁⟩ := h.eraseUnreadLoads he₁
      obtain ⟨next, -, he₂⟩ := bind_ok he₂
      exact Whole.fusePairsFrom _ hw₁ he₂
  · cases e
    exact ⟨code, h⟩

/-- **Assembling** complete code gives a unit that is in order. -/
theorem Whole.assemble (h : Whole R regs l code) {is : List (Instr Nat)} (e : l.assemble = .ok is)
    {u : CodeUnit} (hu : u.code = is.toArray) : u.Finished R := by
  have hin : Inner code := fun a i b ha hb => by
    obtain ⟨j, hj, -⟩ := h.complete.aimed (a, i) ha b hb
    exact mem_ids hj
  rw [h.linked.assemble_eq hin] at e
  obtain rfl := Except.ok.inj e
  have hcode : u.code = layout code := by rw [hu, Array.toArray_toList]
  rw [hcode.symm] at hu
  refine ⟨fun i hi => ?_, fun i hi t ht => ?_, ?_, ?_⟩
  · rw [hcode] at hi
    obtain ⟨p, hp, rfl⟩ : ∃ p ∈ code, p.2.relabel (ids code).idxOf = i := by
      simpa [layout] using hi
    exact (h.complete.apt p hp).relabel _
  · rw [hcode] at hi
    obtain ⟨p, hp, rfl⟩ : ∃ p ∈ code, p.2.relabel (ids code).idxOf = i := by
      simpa [layout] using hi
    rw [Instr.label?_relabel, Option.map_eq_some_iff] at ht
    obtain ⟨n, hn, rfl⟩ := ht
    obtain ⟨j, hj, hlab⟩ := h.complete.aimed p hp n hn
    obtain ⟨j', hj'⟩ := getElem?_idxOf (mem_ids hj)
    obtain rfl : j = j' := instr_unique h.linked.nodup hj (List.mem_of_getElem? hj')
    refine ⟨j.relabel (ids code).idxOf, ?_, by simpa using hlab⟩
    rw [hcode, getElem?_layout, hj']
    rfl
  · obtain ⟨xs, rfl⟩ := h.complete.ends
    simp [hcode, layout, Array.back?, Instr.relabel]
  · rw [hcode]
    have : (layout code).toList = (code.map (·.2)).map (Instr.relabel (ids code).idxOf) := by
      simp [layout]
    rw [this, feeds_relabel]
    exact h.complete.fed

end Listing

/-- **Finishing a listing that is in order** gives a unit that is in order. -/
theorem Drafted.finished {R : Realm} {l : Listing} {code : Code} (h : Drafted R l code [])
    (hR : R.nregs = l.regs.size) {settings : Settings} {pool : Array Constant} {name : String}
    {out : Array (Instr Nat) × Nat} (e : Gen.finishListing settings pool name l = .ok out)
    {u : CodeUnit} (hu : u.code = out.1) : out.2 = l.regs.size ∧ u.Finished R := by
  obtain ⟨⟨l₁, counts⟩, he₁, e⟩ := bind_ok e
  obtain ⟨l₂, he₂, e⟩ := bind_ok e
  obtain ⟨-, -, e⟩ := bind_ok e
  obtain ⟨is, he₃, e⟩ := bind_ok e
  cases e
  have hstart : Whole R l.regs l (code ++ [(tail, Instr.done)]) := ⟨h.linked, ⟨⟨code, rfl⟩, ?_, ?_, ?_⟩, rfl⟩
  · obtain ⟨code₁, hw₁⟩ := hstart.placeOwnership hR.ge he₁
    obtain ⟨code₂, hw₂⟩ := hw₁.tidied he₂
    exact ⟨congrArg Array.size hw₂.regs, hw₂.assemble he₃ hu⟩
  · intro p hp
    rcases List.mem_append.mp hp with hp | hp
    · exact h.apt p hp
    · obtain rfl := List.mem_singleton.mp hp
      exact ⟨by simp [Instr.operands], trivial⟩
  · intro p hp n hn
    rcases List.mem_append.mp hp with hp | hp
    · obtain ⟨j, hj, hlab⟩ := h.aimed p hp n hn
      exact ⟨j, List.mem_append_left _ hj, hlab⟩
    · obtain rfl := List.mem_singleton.mp hp
      cases hn
  · rw [List.map_append]
    exact feeds_snoc h.fed

end CountedMachine
