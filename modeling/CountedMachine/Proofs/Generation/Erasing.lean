import CountedMachine.Proofs.Generation.Completion
import CountedMachine.Proofs.Ownership.Bare

/-! # Finishing code without traces

A listing and the same listing without traces are finished in the same way: the same instructions stand
in the same order, traces apart, and a label leads to the rank of its place. So the finished code
without traces is the finished code, untraced (`Erasable.finished`); and a trace is followed by the
return of its register in the finished code too. -/

namespace CountedMachine.Listing

variable {l l' : Listing} {code xs ys V V' : Code} {f : NodeId → NodeId} {a b : NodeId}
  {i j : Instr NodeId} {r : Reg} {block block' : NodeId → Code}
  {keep keep' : NodeId × Instr NodeId → Bool} {isNil : ConstId → Bool}

/-! ## Layouts -/

/-- **A node with traces and without**: the instructions are the same but for the names of labels, and
so are the nodes of the old code. -/
def Pairs (f : NodeId → NodeId) (code : Code) (x y : NodeId × Instr NodeId) : Prop :=
  y.2 = x.2.relabel f ∧ (x.1 ∈ ids code → y.1 = f x.1)

/-- The labels of the code are nodes of the old code that are left. -/
def Bound (left : Instr NodeId → Bool) (code V : Code) : Prop :=
  ∀ {a i b}, (a, i) ∈ V → i.label? = some b → b ∈ ids code ∧ ∃ j, (b, j) ∈ V ∧ left j = true

section
variable {left : Instr NodeId → Bool} {left' : Instr Nat → Bool}
  (hleft : ∀ (i : Instr NodeId) (g : NodeId → Nat), left' (i.relabel g) = left i)
include hleft

/-- The place of a label is where the place of the old label has gone. -/
theorem idxOf_eq_place (hnd : (ids V).Nodup) (hnd' : (ids V').Nodup)
    (hpairs : List.Forall₂ (Pairs f code) (V.filter fun x => left x.2) V') (hb : (b, j) ∈ V)
    (hj : left j = true) (hcode : b ∈ ids code) :
    (ids V').idxOf (f b) = placeIn left' (layout V).toList ((ids V).idxOf b) := by
  obtain ⟨xs, ys, e⟩ := List.append_of_mem hb
  have hplace : (ids V).idxOf b = xs.length := by
    obtain ⟨k, hk⟩ := getElem?_idxOf (mem_ids hb)
    have hj : V[xs.length]? = some (b, j) := by rw [e]; simp
    exact getElem?_unique hnd hk hj
  have hrank : placeIn left' (layout V).toList xs.length = (xs.filter fun x => left x.2).length := by
    rw [placeIn, layout, e, List.map_append, List.take_append_of_le_length (by simp),
      List.take_of_length_le (by simp), List.countP_map, List.countP_eq_length_filter]
    congr 2
    funext x
    exact hleft x.2 _
  rw [hplace, hrank]
  have hkept : (V.filter fun x => left x.2)[(xs.filter fun x => left x.2).length]? = some (b, j) := by
    rw [e, List.filter_append, List.filter_cons_of_pos (by simp [hj])]
    simp
  obtain ⟨hlen, hget⟩ := List.forall₂_iff_get.mp hpairs
  obtain ⟨hlt, hbj⟩ := List.getElem?_eq_some_iff.mp hkept
  have hpair := hget _ hlt (hlen ▸ hlt)
  rw [List.get_eq_getElem, List.get_eq_getElem, hbj] at hpair
  have hright : V'[(xs.filter fun x => left x.2).length]? = some (f b, j.relabel f) := by
    rw [List.getElem?_eq_some_iff]
    exact ⟨hlen ▸ hlt, Prod.ext (hpair.2 hcode) hpair.1⟩
  obtain ⟨k, hk⟩ := getElem?_idxOf (b := f b)
    (List.mem_map.mpr ⟨_, List.mem_of_getElem? hright, rfl⟩)
  exact getElem?_unique hnd' hk hright

omit hleft in
theorem map_eq_of_forall₂ {α β γ : Type} {R : α → β → Prop} {g : α → γ} {h : β → γ} {xs : List α}
    {ys : List β} (hR : List.Forall₂ R xs ys) (hgh : ∀ x ∈ xs, ∀ y, R x y → g x = h y) :
    xs.map g = ys.map h := by
  induction hR with
  | nil => rfl
  | @cons x y xs ys hxy _ ih =>
    rw [List.map_cons, List.map_cons, hgh x (by simp) y hxy, ih fun x hx => hgh x (by simp [hx])]

/-- **Laid out with instructions left out** the code is the thinned code. -/
theorem layout_eq_thin (hnd : (ids V).Nodup) (hnd' : (ids V').Nodup)
    (hpairs : List.Forall₂ (Pairs f code) (V.filter fun x => left x.2) V') (hbound : Bound left code V) :
    (layout V').toList = thin left' (layout V).toList := by
  have hthin : thin left' (layout V).toList = (V.filter fun x => left x.2).map fun x =>
      x.2.relabel (placeIn left' (layout V).toList ∘ (ids V).idxOf) := by
    rw [thin]
    nth_rewrite 2 [layout]
    rw [List.filter_map, List.map_map]
    refine congrArg₂ List.map ?_ (List.filter_congr fun x _ => hleft x.2 _)
    funext x
    exact relabel_relabel _ _ _
  rw [hthin, layout]
  refine (map_eq_of_forall₂ hpairs fun x hx y hxy => ?_).symm
  obtain ⟨a, i⟩ := x
  rw [hxy.1, relabel_relabel]
  refine relabel_congr fun b hb => ?_
  obtain ⟨hcode, j, hj, hjp⟩ := hbound (List.mem_of_mem_filter hx) hb
  exact (idxOf_eq_place hleft hnd hnd' hpairs hj hjp hcode).symm

end

/-- A trace is followed by the return of its register. -/
def Returns (V : Code) : Prop := ∀ {xs ys : Code} {a : NodeId} {r : Reg} {loc : Location},
  V = xs ++ (a, Instr.trace r loc) :: ys → ∃ b zs, ys = (b, Instr.ret r) :: zs

theorem Returns.layout (h : Returns V) : Returning (layout V).toList := by
  intro pc r loc hpc
  rw [Array.getElem?_toList] at hpc ⊢
  obtain ⟨a, i, hi, e⟩ := exists_of_layout hpc
  obtain rfl := Instr.eq_trace_of_relabel e.symm
  obtain ⟨xs, ys, e, rfl⟩ := split_of_getElem? hi
  obtain ⟨b, zs, rfl⟩ := h e
  rw [getElem?_layout, e]
  simp [Instr.relabel]

/-! ## Woven code -/

namespace Erasable

theorem plain_block (hp : Placed l code block) {x : NodeId × Instr NodeId} (hx : x ∈ block a) :
    plain x = true := by
  obtain ⟨op, q, g, e, -⟩ := hp.adjusts (a := a) (x := x.1) (i := x.2) hx
  rw [plain, e]
  rfl

section
variable (he : Erasable f code) (hr : Ready l code) (hp : Placed l code block)
include he hr hp

/-- **Woven code**, with traces and without. -/
theorem weave_pairs (hnd : (ids (weave code block)).Nodup)
    (hblock : ∀ {a i}, (a, i) ∈ code → i.isTrace = false →
      (block' (f a)).map (·.2) = (block a).map (·.2)) :
    List.Forall₂ (Pairs f code) ((weave code block).filter plain) (weave (bare f code) block') := by
  have hall : ∀ cs : Code, (∀ x ∈ cs, x ∈ code) →
      List.Forall₂ (Pairs f code) ((weave cs block).filter plain) (weave (bare f cs) block') := by
    intro cs
    induction cs with
    | nil => exact fun _ => .nil
    | cons x cs ih =>
      intro hcs
      obtain ⟨a, i⟩ := x
      have ha : (a, i) ∈ code := hcs _ (by simp)
      have ih := ih fun x hx => hcs x (by simp [hx])
      rw [weave_cons]
      cases hi : i.isTrace with
      | true =>
        rw [he.block_trace hr hp ha hi, bare_trace hi, List.nil_append,
          List.filter_cons_of_neg (by simp [plain, hi])]
        exact ih
      | false =>
        rw [bare_cons hi, weave_cons, List.filter_cons_of_pos (by simp [plain, hi]), List.filter_append,
          List.filter_eq_self.mpr fun x hx => plain_block hp hx]
        refine .cons ⟨rfl, fun _ => rfl⟩ (List.rel_append ?_ ih)
        -- the nodes of a block are new, and their instructions have no labels
        have hsnd := hblock ha hi
        refine List.forall₂_iff_get.mpr ⟨?_, fun k h₁ h₂ => ⟨?_, fun hold => ?_⟩⟩
        · simpa using (congrArg List.length hsnd).symm
        · have hk : ((block' (f a)).map (·.2))[k]? = ((block a).map (·.2))[k]? := by rw [hsnd]
          rw [List.getElem?_map, List.getElem?_map, List.getElem?_eq_getElem h₁,
            List.getElem?_eq_getElem h₂] at hk
          have hk : ((block' (f a)).get ⟨k, h₂⟩).2 = ((block a).get ⟨k, h₁⟩).2 := Option.some.inj hk
          rw [hk]
          have hmem : (block a).get ⟨k, h₁⟩ ∈ block a := List.get_mem _ _
          obtain ⟨op, q, g, e, -⟩ := hp.adjusts (a := a) (x := ((block a).get ⟨k, h₁⟩).1)
            (i := ((block a).get ⟨k, h₁⟩).2) hmem
          rw [e]
          rfl
        · exfalso
          obtain ⟨k', hk'⟩ := exists_instr hold
          have hmem : ((block a).get ⟨k, h₁⟩) ∈ block a := List.get_mem _ _
          obtain ⟨op, q, g, e, -⟩ := hp.adjusts (a := a) (x := ((block a).get ⟨k, h₁⟩).1)
            (i := ((block a).get ⟨k, h₁⟩).2) hmem
          have hw : (((block a).get ⟨k, h₁⟩).1, ((block a).get ⟨k, h₁⟩).2) ∈ weave code block :=
            mem_weave.mpr (Or.inr ⟨a, mem_ids ha, hmem⟩)
          have := instr_unique hnd (mem_weave.mpr (Or.inl hk')) hw
          rw [e] at this
          exact hr.unadjusted (this ▸ hk')
  exact hall code fun x hx => hx

omit hr in
/-- Labels lead to nodes that are left and kept. -/
theorem bound_filter
    (hkeep : ∀ {a i}, (a, i) ∈ weave code block → loadOrAdjust? i = none → keep (a, i) = true) :
    Bound (fun i => !i.isTrace) code ((weave code block).filter keep) := by
  intro a i b ha hb
  obtain ⟨ha, -⟩ := hp.mem_code_of_kept ha (by rintro op q rfl; cases hb)
  obtain ⟨j, hj, hjl⟩ := he.orderly.labels ha hb
  have hjw : (b, j) ∈ weave code block := mem_weave.mpr (Or.inl hj)
  exact ⟨mem_ids hj, j, List.mem_filter.mpr ⟨hjw, hkeep hjw (loadOrAdjust_of_label hjl)⟩,
    by simp [isTrace_of_isLabel hjl]⟩

theorem returns_filter (hnd : (ids (weave code block)).Nodup)
    (hkeep : ∀ {a i}, (a, i) ∈ weave code block → loadOrAdjust? i = none → keep (a, i) = true) :
    Returns ((weave code block).filter keep) := by
  intro xs ys a r loc e
  have hmem : (a, .trace r loc) ∈ (weave code block).filter keep := mem_of_split e
  obtain ⟨ha, hk⟩ := hp.mem_code_of_kept hmem (by simp)
  obtain ⟨cs, ds, hcode⟩ := List.append_of_mem ha
  obtain ⟨b, es, rfl⟩ := he.returns hcode
  have hbw : (b, .ret r) ∈ weave code block := mem_weave.mpr (Or.inl (mem_of_split_snd hcode))
  have hw : (weave code block).filter keep = (weave cs block).filter keep ++
      (a, Instr.trace r loc) :: (b, Instr.ret r) :: (block b ++ weave es block).filter keep := by
    rw [hcode, weave_append, weave_cons, weave_cons, he.block_trace hr hp ha rfl, List.nil_append,
      List.filter_append, List.filter_cons_of_pos hk, List.filter_cons_of_pos (hkeep hbw rfl)]
  have hndk : (ids ((weave code block).filter keep)).Nodup :=
    hnd.sublist (List.filter_sublist.map _)
  obtain ⟨-, -, rfl⟩ := split_unique hndk e hw
  exact ⟨b, _, rfl⟩

omit hr hp in
/-- The same registers are dead. -/
theorem dead_iff : Dead isNil (bare f code) r ↔ Dead isNil code r := by
  have hidle : ∀ i : Instr NodeId, idleLoad? isNil (i.relabel f) = idleLoad? isNil i := by
    intro i
    cases i <;> rfl
  constructor
  · rintro ⟨⟨d, k, hd, hk⟩, hread⟩
    obtain ⟨a, i, ha, -, e⟩ := mem_bare.mp hd
    obtain ⟨-, rfl⟩ := Prod.mk.inj e
    refine ⟨⟨a, i, ha, by rwa [hidle] at hk⟩, fun b j hb => ?_⟩
    cases hj : j.isTrace with
    | false =>
      rw [← Instr.reads_relabel f]
      exact hread _ _ ((he.mem_bare_iff hb hj).mpr rfl)
    | true =>
      obtain ⟨q, loc, rfl⟩ := Instr.exists_of_isTrace hj
      obtain ⟨cs, ds, e⟩ := List.append_of_mem hb
      obtain ⟨c, es, rfl⟩ := he.returns e
      exact hread (f c) (.ret q) ((he.mem_bare_iff (mem_of_split_snd e) rfl).mpr rfl)
  · rintro ⟨⟨a, i, ha, hi⟩, hread⟩
    have hplain := isTrace_of_creates (creates_of_idleLoad hi)
    refine ⟨⟨f a, i.relabel f, (he.mem_bare_iff ha hplain).mpr rfl, by rwa [hidle]⟩, fun d k hd => ?_⟩
    obtain ⟨b, j, hb, -, e⟩ := mem_bare.mp hd
    obtain ⟨-, rfl⟩ := Prod.mk.inj e
    rw [Instr.reads_relabel]
    exact hread b j hb

end

end Erasable

/-! ## Finished code -/

variable {settings : Settings} {pool : Array Constant} {name : String} {c c' : Array (Instr Nat)}
  {n n' : Nat}

/-- An instruction that the last improvements leave. -/
def stays (tidy : Bool) (isNil : ConstId → Bool) (code : Code) (x : NodeId × Instr NodeId) : Bool :=
  !(tidy && (loadOrAdjust? x.2).any (deadRegs isNil code).contains)

theorem stays_of_none (tidy : Bool) (h : loadOrAdjust? i = none) :
    stays tidy isNil code (a, i) = true := by
  simp [stays, h]

theorem stays_eq_false {tidy : Bool} : stays tidy isNil code (a, i) = false ↔
    tidy = true ∧ ∃ r, loadOrAdjust? i = some r ∧ Dead isNil code r := by
  simp only [stays, Bool.not_eq_false', Bool.and_eq_true]
  refine and_congr_right fun _ => ?_
  cases loadOrAdjust? i with
  | none => simp
  | some r => simpa using contains_deadRegs

theorem Erasable.stays_relabel (he : Erasable f code) (tidy : Bool) :
    stays tidy isNil (bare f code) (b, i.relabel f) = stays tidy isNil code (a, i) := by
  have hload : loadOrAdjust? (i.relabel f) = loadOrAdjust? i := by cases i <;> rfl
  rw [Bool.eq_iff_iff, ← not_iff_not, Bool.not_eq_true, Bool.not_eq_true, stays_eq_false,
    stays_eq_false, hload]
  simp only [he.dead_iff]

/-- **The code of a finished listing**, laid out. -/
theorem finishListing_eq (hr : Ready l code) (hcur : l.cursor = tail) (hhead : (head, .nop) ∈ code)
    (e : Gen.finishListing settings pool name l = .ok (c, n)) :
    ∃ l₁ counts block, l.placeOwnership = .ok (l₁, counts) ∧ Linked l₁ (weave code block) ∧
      Placed l code block ∧ n = l.regs.size ∧ c = layout ((weave code block).filter
        (stays settings.tidy (fun k => pool[k.index]?.any Constant.isNil) code)) := by
  obtain ⟨l₁, counts, block, hplace, hl, hp, hcur₁, hregs⟩ := placeOwnership_spec hr
  set isNil : ConstId → Bool := fun k => pool[k.index]?.any Constant.isNil with hnil
  refine ⟨l₁, counts, block, hplace, hl, hp, ?_⟩
  -- what the last improvements leave, with the node under the cursor in any case
  have htidied : ∃ l₂, Gen.tidied settings pool l₁ = .ok l₂ ∧ l₂.regs = l.regs ∧
      Linked l₂ ((weave code block).filter (stays settings.tidy isNil code)) := by
    unfold Gen.tidied
    split_ifs with htidy
    · obtain ⟨l₂, m, htidy', hl₂, hregs₂⟩ := hp.tidy_eq hr hl fun {i r} hi hload _ => by
        rw [instr_unique hr.orderly.nodup hi hhead] at hload
        cases hload
      refine ⟨l₂, by rw [htidy']; rfl, hregs₂.trans hregs, ?_⟩
      rw [List.filter_congr (q := kept isNil (weave code block) l₁.cursor)]
      · exact hl₂
      · rintro ⟨a, i⟩ ha
        rw [Bool.eq_iff_iff, ← not_iff_not, Bool.not_eq_true, Bool.not_eq_true, stays_eq_false,
          hp.kept_weave]
        refine ⟨fun ⟨_, h⟩ => ⟨h, ?_⟩, fun ⟨h, _⟩ => ⟨htidy, h⟩⟩
        rintro rfl
        obtain ⟨xs, hends⟩ := hr.orderly.ends
        have htail : (tail, .done) ∈ weave code block := mem_weave.mpr (Or.inl (by rw [hends]; simp))
        rw [hcur₁.trans hcur] at ha
        rw [instr_unique hl.nodup ha htail] at h
        obtain ⟨r, h, -⟩ := h
        cases h
    · refine ⟨l₁, rfl, hregs, ?_⟩
      rwa [List.filter_eq_self.mpr fun x _ => by simp [stays, htidy]]
  obtain ⟨l₂, htidied, hregs₂, hl₂⟩ := htidied
  have hinner : Inner ((weave code block).filter (stays settings.tidy isNil code)) := by
    intro a i b ha hb
    obtain ⟨ha, -⟩ := hp.mem_code_of_kept ha (by rintro op q rfl; cases hb)
    obtain ⟨j, hj, hjl⟩ := hr.orderly.labels ha hb
    exact mem_ids (List.mem_filter.mpr ⟨mem_weave.mpr (Or.inl hj),
      stays_of_none _ (loadOrAdjust_of_label hjl)⟩)
  simp only [Gen.finishListing, hplace, htidied, hl₂.assemble_eq hinner, bind, Except.bind] at e
  split at e
  · cases e
  · obtain ⟨rfl, rfl⟩ := Prod.mk.inj (Except.ok.inj e)
    exact ⟨by rw [hregs₂], rfl⟩

/-- **Finishing a listing without its traces** gives the finished code without its traces, over as many
registers; and a trace is still followed by the return of its register. -/
theorem Erasable.finished (he : Erasable f code) (hr : Ready l code) (hl' : Linked l' (bare f code))
    (hregs : l'.regs = l.regs) (hcur : l.cursor = tail) (hcur' : l'.cursor = tail)
    (hhead : (head, .nop) ∈ code) (hfhead : f head = head) (hftail : f tail = tail)
    {settings' : Settings} (htidy : settings'.tidy = settings.tidy)
    (e : Gen.finishListing settings pool name l = .ok (c, n))
    (e' : Gen.finishListing settings' pool name l' = .ok (c', n')) :
    n' = n ∧ c'.toList = untrace c.toList ∧ Returning c.toList := by
  have hr' := he.ready_bare hr hftail hl' hregs
  have hhead' : (head, .nop) ∈ bare f code := by
    rw [← hfhead]
    exact (he.mem_bare_iff hhead rfl).mpr rfl
  obtain ⟨l₁, -, block, -, hl₁, hp, rfl, rfl⟩ := finishListing_eq hr hcur hhead e
  obtain ⟨l₁', -, block', -, hl₁', hp', rfl, rfl⟩ := finishListing_eq hr' hcur' hhead' e'
  rw [htidy]
  set isNil : ConstId → Bool := fun k => pool[k.index]?.any Constant.isNil with hnil
  have hkeep : ∀ {a i}, (a, i) ∈ weave code block → loadOrAdjust? i = none →
      stays settings.tidy isNil code (a, i) = true := fun _ h => stays_of_none _ h
  have hpairs := List.rel_filter (p := stays settings.tidy isNil code)
    (q := stays settings.tidy isNil (bare f code))
    (fun x y hxy => by
      have h : stays settings.tidy isNil (bare f code) (y.1, x.2.relabel f) =
        stays settings.tidy isNil code x := he.stays_relabel settings.tidy
      rw [← hxy.1] at h
      exact iff_of_eq (congrArg (· = true) h.symm))
    (he.weave_pairs hr hp hl₁.nodup fun ha hi => he.block_eq hr hp hp' hregs hr' ha hi)
  rw [List.filter_filter, List.filter_congr fun x _ => Bool.and_comm _ _, ← List.filter_filter]
    at hpairs
  refine ⟨congrArg Array.size hregs, layout_eq_thin (fun i g => by simp) ?_ ?_ hpairs (he.bound_filter hp hkeep),
    Returns.layout (he.returns_filter hr hp hl₁.nodup hkeep)⟩
  · exact hl₁.nodup.sublist (List.filter_sublist.map _)
  · exact hl₁'.nodup.sublist (List.filter_sublist.map _)

end CountedMachine.Listing
