import CountedMachine.Proofs.Ownership.Edits

/-! # Carrying out the edits

The edits, sorted by place, are carried out group by group: the instructions of a group follow
their place one after the other. The listing that comes out is the old sequence with a block woven in
after each node (`weave`), and the block of a node holds the edits of that place, in their order
(`insertAll_spec`). -/

namespace CountedMachine

/-- The instruction of an edit. -/
def Edit.instr (e : Edit) : Instr NodeId := .adjust e.op e.reg

namespace Listing

/-- A sequence with a block after each node. -/
def weave (code : Code) (block : NodeId → Code) : Code := code.flatMap fun x => x :: block x.1

variable {l : Listing} {code xs ys : Code} {block : NodeId → Code} {a : NodeId} {i : Instr NodeId}

@[simp] theorem weave_nil : weave [] block = [] := rfl

theorem weave_cons (x : NodeId × Instr NodeId) (code : Code) :
    weave (x :: code) block = x :: (block x.1 ++ weave code block) := rfl

theorem weave_append (xs ys : Code) : weave (xs ++ ys) block = weave xs block ++ weave ys block :=
  List.flatMap_append

theorem weave_congr {block' : NodeId → Code} (h : ∀ a ∈ ids code, block' a = block a) :
    weave code block' = weave code block := by
  refine List.flatMap_congr fun x hx => ?_
  rw [h x.1 (List.mem_map.mpr ⟨x, hx, rfl⟩)]

theorem weave_empty (code : Code) : weave code (fun _ => []) = code := by
  simp [weave]

/-! ## One place -/

theorem insertEdits_loop : ∀ (es : List Edit) {l : Listing} {xs ys : Code} {a : NodeId}
    {i : Instr NodeId}, Linked l (xs ++ (a, i) :: ys) → a ≠ tail →
      ∃ l' b blk, es.foldlM insertEdit (l, a) = .ok (l', b) ∧
        Linked l' (xs ++ (a, i) :: (blk ++ ys)) ∧ blk.map (·.2) = es.map Edit.instr ∧
        l'.cursor = l.cursor ∧ l'.regs = l.regs
  | [], l, xs, ys, a, i, hl, _ => ⟨l, a, [], rfl, hl, rfl, rfl, rfl⟩
  | e :: es, l, xs, ys, a, i, hl, ha => by
    obtain ⟨l₁, id, e₁, hl₁, hcur₁, hregs₁⟩ := hl.linkAfter ha (.adjust e.op e.reg)
    have hid : id ≠ tail := by
      rintro rfl
      have hnd := hl₁.nodup
      have htail := hl.tail_mem
      simp only [ids_append, ids_cons, List.nodup_append, List.nodup_cons, List.mem_append,
        List.mem_cons] at hnd htail
      rcases htail with h | h | h
      · exact hnd.2.2 tail h tail (by simp) rfl
      · exact ha h.symm
      · exact hnd.2.1.2.1 h
    have hl₁' : Linked l₁ ((xs ++ [(a, i)]) ++ (id, Instr.adjust e.op e.reg) :: ys) := by
      simpa using hl₁
    obtain ⟨l₂, b, blk, e₂, hl₂, hblk, hcur₂, hregs₂⟩ := insertEdits_loop es hl₁' hid
    refine ⟨l₂, b, (id, Instr.adjust e.op e.reg) :: blk, ?_, by simpa using hl₂, ?_,
      hcur₂.trans hcur₁, hregs₂.trans hregs₁⟩
    · rw [List.foldlM_cons, insertEdit, e₁]
      exact e₂
    · simp [hblk, Edit.instr]

/-- **The edits of one place** come to stand right after it. -/
theorem insertEdits_spec {es : List Edit} (hl : Linked l (xs ++ (a, i) :: ys)) (ha : a ≠ tail)
    (hes : ∀ e ∈ es, e.anchor = a) :
    ∃ l' blk, l.insertEdits es = .ok l' ∧ Linked l' (xs ++ (a, i) :: (blk ++ ys)) ∧
      blk.map (·.2) = es.map Edit.instr ∧ l'.cursor = l.cursor ∧ l'.regs = l.regs := by
  rcases es with _ | ⟨e, es⟩
  · exact ⟨l, [], rfl, hl, rfl, rfl, rfl⟩
  · obtain ⟨l', b, blk, e', hl', hblk, hcur, hregs⟩ := insertEdits_loop (e :: es) hl ha
    refine ⟨l', blk, ?_, hl', hblk, hcur, hregs⟩
    have ha' : e.anchor = a := hes e (by simp)
    simp only [insertEdits, ha', e', bind, Except.bind]
    rfl

/-! ## All places -/

/-- A group: edits of one place, at least one. -/
def IsGroup (g : List Edit) : Prop := g ≠ [] ∧ ∀ e ∈ g, ∀ e' ∈ g, e.anchor = e'.anchor

/-- The groups are about different places. -/
def Apart (g g' : List Edit) : Prop := ∀ e ∈ g, ∀ e' ∈ g', e.anchor ≠ e'.anchor

theorem insertGroups (hnd : (ids code).Nodup) (gs : List (List Edit)) {l : Listing}
    {block : NodeId → Code} (hl : Linked l (weave code block)) (hg : ∀ g ∈ gs, IsGroup g)
    (hpw : gs.Pairwise Apart) (hat : ∀ e ∈ gs.flatten, e.anchor ∈ ids code ∧ e.anchor ≠ tail ∧
      block e.anchor = []) :
    ∃ l' block', gs.foldlM insertEdits l = .ok l' ∧ Linked l' (weave code block') ∧
      (∀ a, (block' a).map (·.2) = (block a).map (·.2) ++
        (gs.flatten.filter fun e => e.anchor = a).map Edit.instr) ∧
      l'.cursor = l.cursor ∧ l'.regs = l.regs := by
  induction gs generalizing l block with
  | nil => exact ⟨l, block, rfl, hl, fun a => by simp, rfl, rfl⟩
  | cons g gs ih =>
    obtain ⟨hapart, hpw⟩ := List.pairwise_cons.mp hpw
    obtain ⟨hne, huni⟩ := hg g (by simp)
    obtain ⟨e₀, he₀⟩ := List.exists_mem_of_ne_nil g hne
    obtain ⟨hmem, htail, hempty⟩ := hat e₀ (by simp [he₀])
    have hanchor : ∀ e ∈ g, e.anchor = e₀.anchor := fun e he => huni e he e₀ he₀
    obtain ⟨xs, i, ys, hcode⟩ := exists_split hmem
    have hout : e₀.anchor ∉ ids xs ∧ e₀.anchor ∉ ids ys := by
      rw [hcode] at hnd
      simp only [ids_append, ids_cons, List.nodup_append, List.nodup_cons] at hnd
      exact ⟨fun h => hnd.2.2 _ h _ (by simp) rfl, hnd.2.1.1⟩
    have hw : weave code block = weave xs block ++ (e₀.anchor, i) :: weave ys block := by
      rw [hcode, weave_append, weave_cons, hempty]
      rfl
    rw [hw] at hl
    obtain ⟨l₁, blk, e₁, hl₁, hblk, hcur₁, hregs₁⟩ := insertEdits_spec hl htail hanchor
    set block₁ := Function.update block e₀.anchor blk with hb₁
    have hw₁ : weave code block₁ =
        weave xs block ++ (e₀.anchor, i) :: (blk ++ weave ys block) := by
      have hself : block₁ e₀.anchor = blk := Function.update_self ..
      have hother : ∀ {zs}, e₀.anchor ∉ ids zs → weave zs block₁ = weave zs block := fun h =>
        weave_congr fun a ha => Function.update_of_ne (fun e : a = e₀.anchor => h (e ▸ ha)) ..
      rw [hcode, weave_append, weave_cons, hother hout.1, hother hout.2, hself]
    rw [← hw₁] at hl₁
    obtain ⟨l₂, block₂, e₂, hl₂, hblock₂, hcur₂, hregs₂⟩ := ih hl₁
      (fun g' hg' => hg g' (by simp [hg'])) hpw fun e he => by
        obtain ⟨g', hg', he'⟩ := List.mem_flatten.mp he
        obtain ⟨h₁, h₂, h₃⟩ := hat e (by simp only [List.flatten_cons, List.mem_append]; exact Or.inr he)
        refine ⟨h₁, h₂, ?_⟩
        rw [hb₁, Function.update_of_ne (Ne.symm (hapart g' hg' e₀ he₀ e he')), h₃]
    refine ⟨l₂, block₂, ?_, hl₂, fun a => ?_, hcur₂.trans hcur₁, hregs₂.trans hregs₁⟩
    · rw [List.foldlM_cons, e₁]
      exact e₂
    · rw [hblock₂, List.flatten_cons, List.filter_append, List.map_append, ← List.append_assoc]
      congr 1
      by_cases ea : e₀.anchor = a
      · subst ea
        have hall : g.filter (fun e => decide (e.anchor = e₀.anchor)) = g :=
          List.filter_eq_self.mpr fun e he => by simpa using hanchor e he
        rw [hb₁, Function.update_self, hempty, hall, hblk]
        rfl
      · have hnone : g.filter (fun e => decide (e.anchor = a)) = [] :=
          List.filter_eq_nil_iff.mpr fun e he => by simpa [hanchor e he] using ea
        rw [hb₁, Function.update_of_ne (Ne.symm ea), hnone]
        simp

/-! ## The order of the edits -/

theorem before_iff (e e' : Edit) : e.before e' = true ↔ e.anchor.index < e'.anchor.index ∨
    (e.anchor.index = e'.anchor.index ∧ (e.rank < e'.rank ∨
      (e.rank = e'.rank ∧ e.reg.index ≤ e'.reg.index))) := by
  unfold Edit.before
  split_ifs with h₁ h₂
  all_goals simp only [decide_eq_true_eq]
  all_goals omega

theorem sorted_edits (es : List Edit) :
    (es.mergeSort Edit.before).Pairwise fun e e' => e.before e' = true := by
  refine List.pairwise_mergeSort (fun e e' e'' h h' => ?_) (fun e e' => ?_) es
  · rw [before_iff] at h h' ⊢
    omega
  · rw [Bool.or_eq_true, before_iff, before_iff]
    omega

/-- The edits of one place are sorted by kind. -/
def ByRank (es : List Edit) : Prop := es.Pairwise fun e e' => e.rank ≤ e'.rank

theorem byRank_filter {es : List Edit} (hs : es.Pairwise fun e e' => e.before e' = true)
    (a : NodeId) : ByRank (es.filter fun e => e.anchor = a) := by
  refine (hs.filter _).imp_of_mem fun {e e'} he he' h => ?_
  have h₁ : e.anchor = a := by simpa using (List.mem_filter.mp he).2
  have h₂ : e'.anchor = a := by simpa using (List.mem_filter.mp he').2
  rw [before_iff, h₁, h₂] at h
  omega

theorem isGroup_of_mem_splitBy {es g : List Edit}
    (hg : g ∈ es.splitBy fun e e' => e.anchor == e'.anchor) : IsGroup g := by
  refine ⟨List.ne_nil_of_mem_splitBy hg, ?_⟩
  have hchain := List.isChain_of_mem_splitBy hg
  have hpw : g.Pairwise fun e e' => e.anchor = e'.anchor := by
    have : IsTrans Edit fun e e' => e.anchor = e'.anchor := ⟨fun _ _ _ h h' => h.trans h'⟩
    exact List.isChain_iff_pairwise.mp (hchain.imp fun _ _ h => by simpa using h)
  intro e he e' he'
  have : Std.Symm fun e e' : Edit => e.anchor = e'.anchor := ⟨fun _ _ h => h.symm⟩
  exact List.Pairwise.forall_of_forall (R := fun e e' : Edit => e.anchor = e'.anchor)
    (fun _ _ => rfl) hpw he he'

theorem apart_of_sorted : ∀ {gs : List (List Edit)}, (∀ g ∈ gs, IsGroup g) →
    gs.IsChain (fun g g' => ∃ h h', ((g.getLast h).anchor == (g'.head h').anchor) = false) →
    gs.Pairwise (fun g g' => ∀ e ∈ g, ∀ e' ∈ g', e.before e' = true) → gs.Pairwise Apart
  | [], _, _, _ => .nil
  | [g], _, _, _ => by simp
  | g :: g₁ :: gs, hg, hch, hpw => by
    obtain ⟨⟨h, h', hne⟩, hch⟩ := List.isChain_cons_cons.mp hch
    obtain ⟨hle, hpw⟩ := List.pairwise_cons.mp hpw
    refine List.pairwise_cons.mpr ⟨fun g' hg' e he e' he' => ?_,
      apart_of_sorted (fun g hg₁ => hg g (by simp [hg₁])) hch hpw⟩
    have h₁ : e.anchor = (g.getLast h).anchor := (hg g (by simp)).2 e he _ (List.getLast_mem h)
    -- the first place of the next group lies strictly behind, and the other groups not before it
    have hlt : e.anchor.index < (g₁.head h').anchor.index := by
      have hb := hle g₁ (by simp) e he _ (List.head_mem h')
      rw [before_iff] at hb
      have : e.anchor ≠ (g₁.head h').anchor := by
        rw [h₁]
        simpa using hne
      have : e.anchor.index ≠ (g₁.head h').anchor.index := fun he => this (by
        cases hx : e.anchor
        cases hy : (g₁.head h').anchor
        rw [hx, hy] at he
        exact congrArg _ he)
      omega
    have hle' : (g₁.head h').anchor.index ≤ e'.anchor.index := by
      rcases List.mem_cons.mp hg' with rfl | hg'
      · rw [(hg g' (by simp)).2 _ (List.head_mem h') e' he']
      · have hb := (List.pairwise_cons.mp hpw).1 g' hg' _ (List.head_mem h') e' he'
        rw [before_iff] at hb
        omega
    intro heq
    rw [heq] at hlt
    omega

/-- **Carrying out sorted edits** weaves a block into the listing after each node. -/
theorem insertAll_spec {es : List Edit} (hl : Linked l code)
    (hs : es.Pairwise fun e e' => e.before e' = true)
    (hat : ∀ e ∈ es, e.anchor ∈ ids code ∧ e.anchor ≠ tail) :
    ∃ l' block, (es.splitBy fun e e' => e.anchor == e'.anchor).foldlM insertEdits l = .ok l' ∧
      Linked l' (weave code block) ∧
      (∀ a, (block a).map (·.2) = (es.filter fun e => e.anchor = a).map Edit.instr) ∧
      l'.cursor = l.cursor ∧ l'.regs = l.regs := by
  have hflat := List.flatten_splitBy (fun e e' : Edit => e.anchor == e'.anchor) es
  have hg : ∀ g ∈ es.splitBy (fun e e' => e.anchor == e'.anchor), IsGroup g :=
    fun g hg => isGroup_of_mem_splitBy hg
  have hcross := (List.pairwise_flatten.mp (hflat.symm ▸ hs)).2
  have hapart := apart_of_sorted hg
    (List.isChain_getLast_head_splitBy (fun e e' => e.anchor == e'.anchor) es) hcross
  have hl' : Linked l (weave code fun _ => []) := by rwa [weave_empty]
  obtain ⟨l', block, e, hl', hblock, hcur, hregs⟩ := insertGroups hl.nodup _ hl' hg hapart
    (by rw [hflat]; exact fun e he => ⟨(hat e he).1, (hat e he).2, rfl⟩)
  refine ⟨l', block, e, hl', fun a => ?_, hcur, hregs⟩
  rw [hblock, hflat]
  rfl

end Listing

end CountedMachine
