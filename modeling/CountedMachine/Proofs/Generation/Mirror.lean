import CountedMachine.Proofs.Generation.Erasing

/-! # A listing and its mirror

While a unit is drafted, the same code is written without traces into a second listing, its mirror. The
nodes have names there, all but the traces, and everything else is the same (`Mirrors`). Writing an
instruction into both (`Mirrors.write`), writing a trace and the return after it into the first one
(`Mirrors.writeTrace`) and changing a label in both (`Mirrors.retarget`) keeps them so, and complete
listings are finished alike (`Mirrors.finished`). -/

namespace CountedMachine.Listing

variable {l l' l₁ l₁' : Listing} {code : Code} {a b c d id id' : NodeId} {i j : Instr NodeId}
  {r : Reg}

/-- The names of nodes; traces have none. -/
abbrev Names := NodeId → Option NodeId

namespace Names

variable (N : Names)

/-- The name of a node, the node itself where it has none. -/
def get (a : NodeId) : NodeId := (N a).getD a

/-- One more name. -/
def add (a b : NodeId) : Names := fun c => if c = a then some b else N c

/-- The other names are among these. -/
def Le (N N' : Names) : Prop := ∀ a b, N a = some b → N' a = some b

/-- The names in the empty listing. -/
def ends : Names := fun a => if a = head ∨ a = tail then some a else none

variable {N} {N' : Names}

theorem get_eq (h : N a = some b) : N.get a = b := by rw [get, h]; rfl

theorem Le.refl (N : Names) : N.Le N := fun _ _ h => h

theorem Le.trans {N'' : Names} (h : N.Le N') (h' : N'.Le N'') : N.Le N'' := fun a b e =>
  h' a b (h a b e)

theorem Le.get_eq (h : N.Le N') (ha : N a = some b) : N'.get a = N.get a := by
  rw [Names.get_eq ha, Names.get_eq (h _ _ ha)]

theorem le_add (ha : N a = none) : N.Le (N.add a b) := by
  intro c d hc
  rw [add, if_neg]
  · exact hc
  · rintro rfl
    rw [ha] at hc
    cases hc

theorem add_self (N : Names) (a b : NodeId) : N.add a b a = some b := if_pos rfl

end Names

theorem bare_congr {f g : NodeId → NodeId}
    (hnode : ∀ {a i}, (a, i) ∈ code → i.isTrace = false → f a = g a)
    (hlabel : ∀ {a i b}, (a, i) ∈ code → i.label? = some b → f b = g b) :
    bare f code = bare g code := by
  refine List.map_congr_left fun ⟨a, i⟩ hx => ?_
  obtain ⟨ha, hi⟩ := List.mem_filter.mp hx
  exact Prod.ext (hnode ha (by simpa [plain] using hi)) (relabel_congr fun b hb => hlabel ha hb)

/-! ## Traces and returns -/

theorem returns_iff : Returns code ↔ ∀ {k a r loc}, code[k]? = some (a, .trace r loc) →
    ∃ b, code[k + 1]? = some (b, .ret r) := by
  constructor
  · intro h k a r loc hk
    obtain ⟨xs, ys, e, rfl⟩ := split_of_getElem? hk
    obtain ⟨b, zs, rfl⟩ := h e
    exact ⟨b, by simp [e]⟩
  · intro h xs ys a r loc e
    have hk : code[xs.length]? = some (a, .trace r loc) := by simp [e]
    obtain ⟨b, hb⟩ := h hk
    rw [e, List.getElem?_append_right (Nat.le_add_right _ _), Nat.add_sub_cancel_left,
      List.getElem?_cons_succ] at hb
    rcases ys with _ | ⟨y, ys⟩
    · cases hb
    · exact ⟨b, ys, by rw [Option.some.inj hb]⟩

/-- An instruction that is no trace may follow. -/
theorem Returns.snoc (h : Returns code) (a : NodeId) (hi : i.isTrace = false) :
    Returns (code ++ [(a, i)]) := by
  rw [returns_iff] at h ⊢
  intro k b r loc hk
  rw [List.getElem?_append] at hk
  split_ifs at hk with hlt
  · obtain ⟨c, hc⟩ := h hk
    exact ⟨c, by rw [List.getElem?_append_left (List.getElem?_eq_some_iff.mp hc).1, hc]⟩
  · rw [List.getElem?_singleton] at hk
    split_ifs at hk
    obtain ⟨-, rfl⟩ := Prod.mk.inj (Option.some.inj hk)
    cases hi

/-- So may a trace with the return of its register. -/
theorem Returns.trace (h : Returns code) (a b : NodeId) (r : Reg) (loc : Location) :
    Returns (code ++ [(a, Instr.trace r loc)] ++ [(b, Instr.ret r)]) := by
  rw [returns_iff] at h ⊢
  intro k c q loc' hk
  rw [List.append_assoc, List.getElem?_append] at hk
  split_ifs at hk with hlt
  · obtain ⟨d, hd⟩ := h hk
    refine ⟨d, ?_⟩
    rw [List.append_assoc, List.getElem?_append_left (List.getElem?_eq_some_iff.mp hd).1, hd]
  · obtain ⟨m, rfl⟩ := Nat.exists_eq_add_of_le (Nat.le_of_not_lt hlt)
    rw [Nat.add_sub_cancel_left] at hk
    rcases m with _ | _ | m
    · obtain ⟨-, hk⟩ := Prod.mk.inj (Option.some.inj hk)
      obtain ⟨rfl, -⟩ := Instr.trace.inj hk
      exact ⟨b, by simp⟩
    · cases hk
    · cases hk

/-- Labels do not matter. -/
theorem Returns.congr {code' : Code} (h : Returns code)
    (e : code'.map (·.2.relabel fun _ => head) = code.map (·.2.relabel fun _ => head)) :
    Returns code' := by
  have hat : ∀ k : Nat, code'[k]?.map (·.2.relabel fun _ => head) =
      code[k]?.map (·.2.relabel fun _ => head) := fun k => by
    rw [← List.getElem?_map, ← List.getElem?_map, e]
  rw [returns_iff] at h ⊢
  intro k a r loc hk
  have hk' := hat k
  rw [hk] at hk'
  obtain ⟨⟨b, i⟩, hb, hi⟩ := Option.map_eq_some_iff.mp hk'.symm
  obtain rfl := Instr.eq_trace_of_relabel hi
  obtain ⟨c, hc⟩ := h hb
  have hc' := hat (k + 1)
  rw [hc] at hc'
  obtain ⟨⟨d, j⟩, hd, hj⟩ := Option.map_eq_some_iff.mp hc'
  have hj : j.relabel (fun _ => head) = .ret r := hj
  obtain rfl := Instr.eq_ret_of_relabel hj
  exact ⟨d, hd⟩

/-- **A listing and its mirror.** -/
structure Mirrors (N : Names) (l l' : Listing) (code : Code) : Prop where
  linked : Linked l (code ++ [(tail, Instr.done)])
  linked' : Linked l' (bare N.get code ++ [(tail, Instr.done)])
  cursor : l.cursor = tail
  cursor' : l'.cursor = tail
  regs : l'.regs = l.regs
  begins : (head, .nop) ∈ code
  first : N head = some head
  last : N tail = some tail
  named : ∀ {a i}, (a, i) ∈ code → i.isTrace = false → ∃ b, N a = some b
  there : ∀ {a b}, N a = some b → a = tail ∨ ∃ i, (a, i) ∈ code ∧ i.isTrace = false
  apart : ∀ {a b c}, N a = some c → N b = some c → a = b
  labels : ∀ {a i b}, (a, i) ∈ code → i.label? = some b → ∃ c, N b = some c
  returns : Returns code

variable {N N' : Names}

theorem mirrors_empty : Mirrors .ends .empty .empty [(head, .nop)] where
  linked := linked_empty
  linked' := linked_empty
  cursor := rfl
  cursor' := rfl
  regs := rfl
  begins := by simp
  first := rfl
  last := rfl
  named ha _ := by
    obtain ⟨rfl, -⟩ := Prod.mk.inj (List.mem_singleton.mp ha)
    exact ⟨_, rfl⟩
  there {a b} h := by
    unfold Names.ends at h
    split_ifs at h with hab
    rcases hab with rfl | rfl
    · exact Or.inr ⟨.nop, by simp, rfl⟩
    · exact Or.inl rfl
  apart {a b c} ha hb := by
    unfold Names.ends at ha hb
    split_ifs at ha hb
    exact (Option.some.inj ha).trans (Option.some.inj hb).symm
  labels ha hb := by
    obtain ⟨-, rfl⟩ := Prod.mk.inj (List.mem_singleton.mp ha)
    cases hb
  returns {xs ys a r loc} e := by
    have : (a, .trace r loc) ∈ [(head, (.nop : Instr NodeId))] := mem_of_split e
    simp at this

/-! ## Writing -/

/-- **Writing at the end.** -/
theorem Linked.insert_eq (hl : Linked l (code ++ [(tail, Instr.done)])) (hcur : l.cursor = tail)
    (hne : code ≠ []) (i : Instr NodeId) :
    ∃ l₁ id, l.insert i = .ok (l₁, id) ∧ Linked l₁ (code ++ [(id, i)] ++ [(tail, Instr.done)]) ∧
      l₁.cursor = tail ∧ l₁.regs = l.regs := by
  obtain ⟨xs, ⟨b, j⟩, rfl⟩ : ∃ xs x, code = xs ++ [x] :=
    ⟨code.dropLast, code.getLast hne, (List.dropLast_append_getLast hne).symm⟩
  obtain ⟨l₁, id, e, hl₁, hcur₁, hregs₁⟩ := Linked.linkBefore (b := b) (j := j)
    (show Linked l (xs ++ (b, j) :: (tail, Instr.done) :: []) by simpa using hl) i
  exact ⟨l₁, id, by rw [insert, hcur, e], by simpa using hl₁, hcur₁.trans hcur, hregs₁⟩

namespace Mirrors

variable (h : Mirrors N l l' code)
include h

theorem ne_nil : code ≠ [] := List.ne_nil_of_mem h.begins

theorem bare_ne_nil : bare N.get code ≠ [] :=
  List.ne_nil_of_mem (mem_bare.mpr ⟨_, _, h.begins, rfl, rfl⟩)

/-- More names leave the mirror as it is. -/
theorem bare_eq (hle : N.Le N') : bare N'.get code = bare N.get code := by
  refine bare_congr (fun ha hi => ?_) fun ha hb => ?_
  · obtain ⟨b, hb⟩ := h.named ha hi
    exact hle.get_eq hb
  · obtain ⟨c, hc⟩ := h.labels ha hb
    exact hle.get_eq hc

/-- A node that is not in the code has no name. -/
theorem unnamed (ha : a ∉ ids (code ++ [(tail, Instr.done)])) : N a = none := by
  cases hN : N a with
  | none => rfl
  | some b =>
    refine absurd ?_ ha
    rcases h.there hN with rfl | ⟨i, hi, -⟩
    · simp
    · simpa using Or.inl (mem_ids hi)

/-- A name in the mirror. -/
theorem mem_mirror (ha : N a = some b) : b ∈ ids (bare N.get code ++ [(tail, Instr.done)]) := by
  rcases h.there ha with rfl | ⟨i, hi, hp⟩
  · obtain rfl := Option.some.inj (h.last.symm.trans ha)
    simp
  · rw [← Names.get_eq ha]
    have hmem : (N.get a, i.relabel N.get) ∈ bare N.get code := mem_bare.mpr ⟨a, i, hi, hp, rfl⟩
    simpa using Or.inl (mem_ids hmem)

/-- **The code grows**: an instruction is written into both listings, where the code of the first one
may have traces before it. -/
theorem snoc (ts : Code) (hts : ∀ x ∈ ts, x.2.isTrace = true)
    (hl₁ : Linked l₁ (code ++ ts ++ [(id, i)] ++ [(tail, Instr.done)]))
    (hl₁' : Linked l₁' (bare N.get code ++ [(id', i.relabel N.get)] ++ [(tail, Instr.done)]))
    (hcur : l₁.cursor = tail) (hcur' : l₁'.cursor = tail) (hregs : l₁'.regs = l₁.regs)
    (hi : i.isTrace = false) (hlabel : ∀ {b}, i.label? = some b → ∃ c, N b = some c)
    (hreturns : Returns (code ++ ts ++ [(id, i)])) :
    N.Le (N.add id id') ∧ Mirrors (N.add id id') l₁ l₁' (code ++ ts ++ [(id, i)]) := by
  have hnd := hl₁.nodup
  have hnd' := hl₁'.nodup
  have hnew : id ∉ ids (code ++ [(tail, Instr.done)]) := by
    simp only [ids_append, ids_cons, ids_nil, List.nodup_append, List.append_assoc] at hnd
    simp only [ids_append, ids_cons, ids_nil, List.mem_append, List.mem_singleton]
    grind
  have hnew' : id' ∉ ids (bare N.get code ++ [(tail, Instr.done)]) := by
    simp only [ids_append, ids_cons, ids_nil, List.nodup_append, List.append_assoc] at hnd'
    simp only [ids_append, ids_cons, ids_nil, List.mem_append, List.mem_singleton]
    grind
  have hle : N.Le (N.add id id') := Names.le_add (h.unnamed hnew)
  have hbare : bare (N.add id id').get (code ++ ts ++ [(id, i)]) =
      bare N.get code ++ [(id', i.relabel N.get)] := by
    have htraces : bare (N.add id id').get ts = [] := by
      rw [bare, List.filter_eq_nil_iff.mpr fun x hx => by simp [plain, hts x hx]]
      rfl
    rw [bare_append, bare_append, htraces, List.append_nil, h.bare_eq hle, bare_cons hi, bare_nil,
      Names.get_eq (N.add_self id id')]
    refine congrArg (fun k => bare N.get code ++ [(id', k)]) (relabel_congr fun b hb => ?_)
    obtain ⟨c, hc⟩ := hlabel hb
    exact hle.get_eq hc
  have hmem : ∀ {a k}, (a, k) ∈ code ++ ts ++ [(id, i)] → k.isTrace = false →
      (a, k) ∈ code ∨ (a = id ∧ k = i) := by
    intro a k ha hk
    rcases List.mem_append.mp ha with ha | ha
    · rcases List.mem_append.mp ha with ha | ha
      · exact Or.inl ha
      · rw [hts _ ha] at hk
        cases hk
    · exact Or.inr (Prod.mk.inj (List.mem_singleton.mp ha))
  refine ⟨hle, hl₁, by rwa [hbare], hcur, hcur', hregs, by simp [h.begins], hle _ _ h.first, hle _ _ h.last,
    fun ha hk => ?_, fun {a b} ha => ?_, fun {a b c} ha hb => ?_, fun {a k b} ha hb => ?_, hreturns⟩
  · rcases hmem ha hk with ha | ⟨rfl, -⟩
    · obtain ⟨b, hb⟩ := h.named ha hk
      exact ⟨b, hle _ _ hb⟩
    · exact ⟨_, N.add_self _ _⟩
  · unfold Names.add at ha
    split_ifs at ha with e
    · exact Or.inr ⟨i, by simp [e], hi⟩
    · rcases h.there ha with rfl | ⟨k, hk, hp⟩
      · exact Or.inl rfl
      · exact Or.inr ⟨k, by simp [hk], hp⟩
  · unfold Names.add at ha hb
    split_ifs at ha hb with ea eb eb
    · rw [ea, eb]
    · obtain rfl := Option.some.inj ha
      exact absurd (h.mem_mirror hb) hnew'
    · obtain rfl := Option.some.inj hb
      exact absurd (h.mem_mirror ha) hnew'
    · exact h.apart ha hb
  · rcases hmem ha (isTrace_of_label hb) with ha | ⟨-, rfl⟩
    · obtain ⟨c, hc⟩ := h.labels ha hb
      exact ⟨c, hle _ _ hc⟩
    · obtain ⟨c, hc⟩ := hlabel hb
      exact ⟨c, hle _ _ hc⟩

/-- **An instruction is written into both listings.** -/
theorem write (hi : i.isTrace = false) (hlabel : ∀ {b}, i.label? = some b → ∃ c, N b = some c) :
    ∃ l₁ id l₁' id', l.insert i = .ok (l₁, id) ∧ l'.insert (i.relabel N.get) = .ok (l₁', id') ∧
      l₁.regs = l.regs ∧ N.Le (N.add id id') ∧ Mirrors (N.add id id') l₁ l₁' (code ++ [(id, i)]) := by
  obtain ⟨l₁, id, e, hl₁, hcur₁, hregs₁⟩ := h.linked.insert_eq h.cursor h.ne_nil i
  obtain ⟨l₁', id', e', hl₁', hcur₁', hregs₁'⟩ :=
    h.linked'.insert_eq h.cursor' h.bare_ne_nil (i.relabel N.get)
  have := h.snoc [] (by simp) (by simpa using hl₁) hl₁' hcur₁ hcur₁'
    (hregs₁'.trans (h.regs.trans hregs₁.symm)) hi hlabel
    (by rw [List.append_nil]; exact Returns.snoc h.returns id hi)
  exact ⟨l₁, id, l₁', id', e, e', hregs₁, by simpa using this⟩

/-- **A trace and the return after it** are written into the first listing, and the return into its
mirror. -/
theorem writeTrace (r : Reg) (loc : Location) :
    ∃ l₁ t l₂ id l₁' id', l.insert (.trace r loc) = .ok (l₁, t) ∧ l₁.insert (.ret r) = .ok (l₂, id) ∧
      l'.insert (.ret r) = .ok (l₁', id') ∧ l₂.regs = l.regs ∧ N.Le (N.add id id') ∧
      Mirrors (N.add id id') l₂ l₁' (code ++ [(t, Instr.trace r loc)] ++ [(id, Instr.ret r)]) := by
  obtain ⟨l₁, t, e₁, hl₁, hcur₁, hregs₁⟩ := h.linked.insert_eq h.cursor h.ne_nil (.trace r loc)
  obtain ⟨l₂, id, e₂, hl₂, hcur₂, hregs₂⟩ := hl₁.insert_eq hcur₁ (by simp) (.ret r)
  obtain ⟨l₁', id', e', hl₁', hcur₁', hregs₁'⟩ := h.linked'.insert_eq h.cursor' h.bare_ne_nil (.ret r)
  have hregs := hregs₂.trans hregs₁
  obtain ⟨hle, hm⟩ := h.snoc [(t, .trace r loc)] (by simp [Instr.isTrace]) hl₂ hl₁' hcur₂
    hcur₁' (hregs₁'.trans (h.regs.trans hregs.symm)) rfl (fun hb => by cases hb) 
    (Returns.trace h.returns t id r loc)
  exact ⟨l₁, t, l₂, id, l₁', id', e₁, e₂, e', hregs, hle, hm⟩

/-- **A label is changed in both listings.** -/
theorem retarget (ha : N a = some b) (hc : N c = some d) :
    ∃ i l₁ l₁' code', l.get a = .ok i ∧ l.put a (i.relabel fun _ => c) = .ok l₁ ∧
      l'.get b = .ok (i.relabel N.get) ∧
      l'.put b ((i.relabel N.get).relabel fun _ => d) = .ok l₁' ∧ l₁.regs = l.regs ∧
      Mirrors N l₁ l₁' code' := by
  rcases h.there ha with rfl | ⟨i, hi, hp⟩
  · -- the last node has no label
    obtain rfl := Option.some.inj (h.last.symm.trans ha)
    obtain ⟨l₁, e, hl₁, hcur, hregs⟩ := h.linked.put .done
    obtain ⟨l₁', e', hl₁', hcur', hregs'⟩ := h.linked'.put .done
    exact ⟨.done, l₁, l₁', code, h.linked.get_eq (by simp), e,
      h.linked'.get_eq (i := .done) (by simp), e', hregs,
      { h with
        linked := hl₁, linked' := hl₁', cursor := hcur.trans h.cursor, cursor' := hcur'.trans h.cursor'
        regs := hregs'.trans (h.regs.trans hregs.symm) }⟩
  · obtain ⟨xs, ys, e⟩ := List.append_of_mem hi
    have hab : N.get a = b := Names.get_eq ha
    have hbare : bare N.get code = bare N.get xs ++ (b, i.relabel N.get) :: bare N.get ys := by
      rw [e, bare_append, bare_cons hp, hab]
    have hl : Linked l (xs ++ (a, i) :: (ys ++ [(tail, Instr.done)])) := by
      have := h.linked
      rw [e] at this
      simpa using this
    have hl' : Linked l'
        (bare N.get xs ++ (b, i.relabel N.get) :: (bare N.get ys ++ [(tail, Instr.done)])) := by
      have := h.linked'
      rw [hbare] at this
      simpa using this
    obtain ⟨l₁, e₁, hl₁, hcur, hregs⟩ := hl.put (i.relabel fun _ => c)
    obtain ⟨l₁', e₁', hl₁', hcur', hregs'⟩ := hl'.put ((i.relabel N.get).relabel fun _ => d)
    have hlabel : (i.relabel fun _ => c).relabel N.get = (i.relabel N.get).relabel fun _ => d := by
      rw [relabel_relabel, relabel_relabel]
      exact relabel_congr fun _ _ => Names.get_eq hc
    have hp' : (i.relabel fun _ => c).isTrace = false := by rwa [Instr.isTrace_relabel]
    have hold : ∀ {x k}, (x, k) ∈ xs ++ (a, i.relabel fun _ => c) :: ys →
        (x, k) ∈ code ∨ (x = a ∧ k = i.relabel fun _ => c) := by
      intro x k hx
      simp only [e, List.mem_append, List.mem_cons, Prod.mk.injEq] at hx ⊢
      tauto
    refine ⟨i, l₁, l₁', xs ++ (a, i.relabel fun _ => c) :: ys, hl.get_eq (by simp), e₁,
      hl'.get_eq (by simp), e₁', hregs, ?_, ?_, hcur.trans h.cursor, hcur'.trans h.cursor',
      hregs'.trans (h.regs.trans hregs.symm), ?_, h.first, h.last, fun {x k} hx hk => ?_,
      fun {x y} hx => ?_, h.apart, fun {x k y} hx hk => ?_, Returns.congr h.returns ?_⟩
    · simpa using hl₁
    · rw [bare_append, bare_cons hp', hab, hlabel]
      simpa using hl₁'
    · have := h.begins
      rw [e] at this
      rcases List.mem_append.mp this with hm | hm
      · simp [hm]
      · rcases List.mem_cons.mp hm with hm | hm
        · obtain ⟨rfl, rfl⟩ := Prod.mk.inj hm
          exact List.mem_append_right _ (List.mem_cons_self ..)
        · simp [hm]
    · rcases hold hx with hx | ⟨rfl, -⟩
      · exact h.named hx hk
      · exact ⟨b, ha⟩
    · rcases h.there hx with hx | ⟨k, hk, hkp⟩
      · exact Or.inl hx
      · rw [e] at hk
        rcases List.mem_append.mp hk with hm | hm
        · exact Or.inr ⟨k, by simp [hm], hkp⟩
        · rcases List.mem_cons.mp hm with hm | hm
          · obtain ⟨rfl, rfl⟩ := Prod.mk.inj hm
            exact Or.inr ⟨_, List.mem_append_right _ (List.mem_cons_self ..), hp'⟩
          · exact Or.inr ⟨k, by simp [hm], hkp⟩
    · rcases hold hx with hx | ⟨rfl, rfl⟩
      · exact h.labels hx hk
      · obtain rfl : c = y := by cases i <;> simp_all [Instr.relabel, Instr.label?]
        exact ⟨d, hc⟩
    · simp [e, relabel_relabel, Function.comp_def]

/-- Only the registers have changed. -/
theorem withRegs {regs : Array RegFacts} :
    Mirrors N { l with regs := regs } { l' with regs := regs } code :=
  { h with
    linked := h.linked.of_nodes rfl rfl (by simp [h.cursor])
    linked' := h.linked'.of_nodes rfl rfl (by simp [h.cursor'])
    regs := rfl }

/-! ## Finished code -/

theorem erasable (ho : Orderly (code ++ [(tail, Instr.done)])) :
    Erasable N.get (code ++ [(tail, Instr.done)]) where
  orderly := ho
  apart {a b i j} ha hi hb hj e := by
    have hname : ∀ {a i}, (a, i) ∈ code ++ [(tail, Instr.done)] → i.isTrace = false →
        ∃ c, N a = some c := by
      intro a i ha hi
      rcases List.mem_append.mp ha with ha | ha
      · exact h.named ha hi
      · obtain ⟨rfl, -⟩ := Prod.mk.inj (List.mem_singleton.mp ha)
        exact ⟨_, h.last⟩
    obtain ⟨c, hc⟩ := hname ha hi
    obtain ⟨d, hd⟩ := hname hb hj
    rw [Names.get_eq hc, Names.get_eq hd] at e
    exact h.apart hc (e ▸ hd)
  returns := Returns.snoc h.returns tail rfl

/-- **The listing and its mirror are finished alike**: the code of the mirror is the code of the
listing, untraced. -/
theorem finished (hr : Ready l (code ++ [(tail, Instr.done)])) {settings settings' : Settings}
    (htidy : settings'.tidy = settings.tidy) {pool : Array Constant} {name : String}
    {c c' : Array (Instr Nat)} {n n' : Nat} (e : Gen.finishListing settings pool name l = .ok (c, n))
    (e' : Gen.finishListing settings' pool name l' = .ok (c', n')) :
    n' = n ∧ c'.toList = untrace c.toList ∧ Returning c.toList := by
  have hlast : N.get tail = tail := Names.get_eq h.last
  have hbare : bare N.get (code ++ [(tail, Instr.done)]) = bare N.get code ++ [(tail, Instr.done)] := by
    rw [bare_append, bare_cons rfl, hlast]
    rfl
  exact (h.erasable hr.orderly).finished hr (by rw [hbare]; exact h.linked') h.regs h.cursor h.cursor'
    (by simp [h.begins]) (Names.get_eq h.first) hlast htidy e e'

end Mirrors

end CountedMachine.Listing
