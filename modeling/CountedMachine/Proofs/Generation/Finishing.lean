import CountedMachine.Generation.Unit
import CountedMachine.Proofs.Generation.Shape
import CountedMachine.Proofs.Kinds.Finished
import CountedMachine.Proofs.Ownership.Acceptance

/-! # Finishing a unit

The instructions of a unit use registers as they are meant (`Good`), and the registers whose ownership
is managed are created once each, in the order in which they are made (`Writes`). With that, shaped
code is ready for the ownership pass (`Writes.ready`), and the last improvements succeed
(`tidied_eq`). -/

namespace CountedMachine

namespace Listing

/-- The role of a register. -/
def roleOf (regs : Array RegFacts) (r : Reg) : Option RegRole := regs[r.index]?.map (·.role)

/-- Registers have been added; the old ones keep their roles. -/
structure Grows (regs regs' : Array RegFacts) : Prop where
  size : regs.size ≤ regs'.size
  role : ∀ {r : Reg}, r.index < regs.size → roleOf regs' r = roleOf regs r

/-- **An instruction that uses registers as they are meant.** -/
structure Good (regs : Array RegFacts) (i : Instr NodeId) : Prop where
  known : ∀ {r}, i.creates = some r ∨ i.reads r = true → r.index < regs.size
  test : ∀ {c no}, i = .branch c no → roleOf regs c = some .flag
  merged : ∀ {r}, i.creates = some r → roleOf regs r = some .merged →
    i = .merge r ∨ i = .allocClosure r
  owner : ∀ {r}, i.creates = some r → i.createsOwner = true → roleOf regs r = some .merged

/-- The registers that are created, flags apart. -/
def owners (regs : Array RegFacts) (code : Code) : List Reg :=
  (code.filterMap fun p => p.2.creates).filter fun r => roleOf regs r ≠ some .flag

/-- **What a stretch of code does to the registers:** it makes new ones, and those it creates are
among them, each created once. -/
structure Writes (regs regs' : Array RegFacts) (code : Code) : Prop where
  grows : Grows regs regs'
  good : ∀ p ∈ code, Good regs' p.2
  fresh : ∀ r ∈ owners regs' code, regs.size ≤ r.index
  nodup : (owners regs' code).Nodup

variable {l l' : Listing} {regs regs' regs'' : Array RegFacts} {code xs ys : Code}
  {block : NodeId → Code} {keep : NodeId × Instr NodeId → Bool} {r : Reg} {a b : NodeId}
  {i j : Instr NodeId}

theorem Grows.refl (regs : Array RegFacts) : Grows regs regs := ⟨Nat.le_refl _, fun _ => rfl⟩

theorem Grows.trans (h : Grows regs regs') (h' : Grows regs' regs'') : Grows regs regs'' where
  size := h.size.trans h'.size
  role hr := (h'.role (Nat.lt_of_lt_of_le hr h.size)).trans (h.role hr)

theorem Good.grow (h : Good regs i) (hg : Grows regs regs') : Good regs' i where
  known hr := Nat.lt_of_lt_of_le (h.known hr) hg.size
  test e := by
    rw [hg.role (h.known (Or.inr (by rw [e]; simp [Instr.reads, Instr.inputs])))]
    exact h.test e
  merged hcr hrole := by
    rw [hg.role (h.known (Or.inl hcr))] at hrole
    exact h.merged hcr hrole
  owner hcr hown := (hg.role (h.known (Or.inl hcr))).trans (h.owner hcr hown)

/-! ## The registers of a stretch of code -/

@[simp] theorem owners_append (regs : Array RegFacts) (xs ys : Code) :
    owners regs (xs ++ ys) = owners regs xs ++ owners regs ys := by
  simp [owners]

theorem mem_owners : r ∈ owners regs code ↔
    (∃ a i, (a, i) ∈ code ∧ i.creates = some r) ∧ roleOf regs r ≠ some .flag := by
  simp only [owners, List.mem_filter, List.mem_filterMap, Prod.exists, decide_eq_true_eq]

theorem owners_grow (hgood : ∀ p ∈ code, Good regs p.2) (hg : Grows regs regs') :
    owners regs' code = owners regs code := by
  refine List.filter_congr fun r hr => ?_
  obtain ⟨⟨a, i⟩, hp, hcr⟩ := List.mem_filterMap.mp hr
  rw [hg.role ((hgood _ hp).known (Or.inl hcr))]

/-- What is created lies below the size. -/
theorem Writes.lt_size (h : Writes regs regs' code) (hr : r ∈ owners regs' code) :
    r.index < regs'.size := by
  obtain ⟨⟨a, i, hp, hcr⟩, -⟩ := mem_owners.mp hr
  exact (h.good _ hp).known (Or.inl hcr)

theorem Writes.nil (h : Grows regs regs') : Writes regs regs' [] :=
  ⟨h, by simp, by simp [owners], by simp [owners]⟩

theorem Writes.trans (h : Writes regs regs' xs) (h' : Writes regs' regs'' ys) :
    Writes regs regs'' (xs ++ ys) := by
  have hxs : owners regs'' xs = owners regs' xs := owners_grow h.good h'.grows
  refine ⟨h.grows.trans h'.grows, fun p hp => ?_, fun r hr => ?_, ?_⟩
  · rcases List.mem_append.mp hp with hp | hp
    · exact (h.good p hp).grow h'.grows
    · exact h'.good p hp
  · rw [owners_append, hxs, List.mem_append] at hr
    rcases hr with hr | hr
    · exact h.fresh r hr
    · exact h.grows.size.trans (h'.fresh r hr)
  · rw [owners_append, hxs, List.nodup_append]
    refine ⟨h.nodup, h'.nodup, fun r hr r' hr' e => ?_⟩
    have := h.lt_size hr
    have := h'.fresh r' hr'
    rw [e] at *
    omega

/-- What was made earlier is not created. -/
theorem Writes.notMem (h : Writes regs regs' code) (hr : r.index < regs.size) :
    r ∉ owners regs' code := fun hmem => by
  have := h.fresh r hmem
  omega

/-- One more instruction. -/
theorem Writes.snoc (h : Writes regs regs' xs) (hi : Good regs' i)
    (hcr : ∀ r, i.creates = some r → roleOf regs' r ≠ some .flag →
      regs.size ≤ r.index ∧ r ∉ owners regs' xs) : Writes regs regs' (xs ++ [(a, i)]) := by
  have hone : ∀ r, r ∈ owners regs' [(a, i)] ↔ i.creates = some r ∧ roleOf regs' r ≠ some .flag := by
    intro r
    rw [mem_owners]
    simp
  refine ⟨h.grows, fun p hp => ?_, fun r hr => ?_, ?_⟩
  · rcases List.mem_append.mp hp with hp | hp
    · exact h.good p hp
    · rw [List.mem_singleton.mp hp]
      exact hi
  · rw [owners_append, List.mem_append, hone] at hr
    rcases hr with hr | ⟨hr, hrole⟩
    · exact h.fresh r hr
    · exact (hcr r hr hrole).1
  · rw [owners_append, List.nodup_append]
    refine ⟨h.nodup, ?_, fun r hr r' hr' e => ?_⟩
    · cases hc : i.creates <;> simp [owners, hc, List.Nodup.filter]
    · obtain ⟨hc, hrole⟩ := (hone r').mp hr'
      exact (hcr r' hc hrole).2 (e ▸ hr)

theorem owners_single {p q : NodeId × Instr NodeId} (hnd : (owners regs code).Nodup)
    (hp : p ∈ code) (hq : q ∈ code) (hpr : p.2.creates = some r) (hqr : q.2.creates = some r)
    (hrole : roleOf regs r ≠ some .flag) : p = q := by
  induction code with
  | nil => simp at hp
  | cons x code ih =>
    have hcons : x :: code = [x] ++ code := rfl
    rw [hcons, owners_append, List.nodup_append] at hnd
    have hout : ∀ {y}, y ∈ code → y.2.creates = some r → x.2.creates = some r → False := by
      intro y hy hyr hxr
      exact hnd.2.2 r (mem_owners.mpr ⟨⟨x.1, x.2, by simp, hxr⟩, hrole⟩) r
        (mem_owners.mpr ⟨⟨y.1, y.2, hy, hyr⟩, hrole⟩) rfl
    rcases List.mem_cons.mp hp with rfl | hp'
    · rcases List.mem_cons.mp hq with rfl | hq'
      · rfl
      · exact (hout hq' hqr hpr).elim
    · rcases List.mem_cons.mp hq with rfl | hq'
      · exact (hout hp' hpr hqr).elim
      · exact ih hnd.2.1 hp' hq'

/-- The code of a complete unit. -/
def unitCode (ys : Code) : Code := (head, Instr.nop) :: ys ++ [(tail, Instr.done)]

/-- **Shaped code is ready for the ownership pass.** -/
theorem Writes.ready (h : Writes #[] l.regs ys) (hs : Shaped ys) (hl : Linked l (unitCode ys)) :
    Ready l (unitCode ys) := by
  have hshape : Shaped ((head, Instr.nop) :: ys) := .plain rfl (by simp) hs
  have hin : ∀ {a i}, (a, i) ∈ unitCode ys → (∃ r, i.creates = some r ∨ i.reads r = true) →
      (a, i) ∈ ys := by
    rintro a i ha ⟨r, hr⟩
    simp only [unitCode, List.cons_append, List.mem_cons, List.mem_append, List.not_mem_nil,
      or_false, Prod.mk.injEq] at ha
    rcases ha with ⟨-, rfl⟩ | ha | ⟨-, rfl⟩
    · simp [Instr.creates, Instr.reads, Instr.inputs] at hr
    · exact ha
    · simp [Instr.creates, Instr.reads, Instr.inputs] at hr
  have hrole : ∀ {r f}, l.regs[r.index]? = some f → roleOf l.regs r = some f.role := fun hf => by
    simp [roleOf, hf]
  have hflag : ∀ {r f}, l.regs[r.index]? = some f → f.counted = true →
      roleOf l.regs r ≠ some .flag := fun hf hc e => by
    rw [hrole hf] at e
    simp [RegFacts.counted, Option.some.inj e] at hc
  refine ⟨hl, hshape.orderly hl.nodup, fun {a op r} ha => ?_, fun {a i r} ha hr => ?_,
    fun {a c no f} ha hf => ?_, fun {r f a b i j} hf hc ha hi hb hj => ?_,
    fun {r f a i} hf hown ha hi => ?_⟩
  · simp only [unitCode, List.mem_append, List.mem_singleton, Prod.mk.injEq, reduceCtorEq, and_false,
      or_false] at ha
    exact hshape.unadjusted ha
  · exact ⟨_, Array.getElem?_eq_getElem ((h.good _ (hin ha ⟨r, hr⟩)).known hr)⟩
  · have hreads : (Instr.branch c no).reads c = true := by simp [Instr.reads, Instr.inputs]
    have := (h.good _ (hin ha ⟨c, Or.inr hreads⟩)).test rfl
    rw [hrole hf] at this
    simp [RegFacts.counted, Option.some.inj this]
  · have := owners_single h.nodup (hin ha ⟨r, Or.inl hi⟩) (hin hb ⟨r, Or.inl hj⟩) hi hj (hflag hf hc)
    exact congrArg Prod.fst this
  · refine (h.good _ (hin ha ⟨r, Or.inl hi⟩)).merged hi ?_
    rw [hrole hf]
    simpa [RegFacts.bornOwned] using hown

end Listing

open Listing

/-! ## The finished unit -/

/-- The last improvements leave thinned code, and no ownership instruction without the load of its
register. -/
theorem tidied_eq {l l' : Listing} {code : Code} {block : NodeId → Code} (hr : Ready l code)
    (hp : Placed l code block) (hl : Linked l' (weave code block)) (hcur : l'.cursor = l.cursor)
    (hregs : l'.regs = l.regs) (hclear : ∀ isNil, Clear l isNil code) (settings : Settings)
    (pool : Array Constant) :
    ∃ l'' keep, Gen.tidied settings pool l' = .ok l'' ∧ Thinned l code block l'' keep ∧
      ∀ {x op q b j}, (x, .adjust op q) ∈ weave code block → keep (x, .adjust op q) = true →
        (b, j) ∈ code → j.creates = some q → keep (b, j) = true := by
  unfold Gen.tidied
  split_ifs
  · set isNil : ConstId → Bool := fun k => pool[k.index]?.any Constant.isNil with hnil
    have hhead : ∀ {i r}, (head, i) ∈ code → loadOrAdjust? i = some r → Dead isNil code r →
        l'.cursor = head := fun hi hload hdead => hcur.trans ((hclear isNil).head hi hload hdead)
    obtain ⟨l'', n, htidy, hl'', hregs''⟩ := hp.tidy_eq hr hl hhead
    refine ⟨l'', _, by rw [htidy]; rfl, hp.thinned hr hl hcur hregs (hclear isNil) hl'' hregs'',
      fun {x op q b j} hx hkx hb hj => ?_⟩
    by_contra hk
    obtain ⟨⟨r, hload, hdead⟩, -⟩ := hp.kept_weave.mp (by simpa using hk)
    obtain rfl : r = q := by
      rcases creates_of_loadOrAdjust hload with e | ⟨op, rfl⟩
      · exact Option.some.inj (e.symm.trans hj)
      · cases hj
    -- the ownership instruction is not under the cursor, which stands on a node of the old code
    obtain ⟨k, hk⟩ := exists_instr (hcur ▸ hr.linked.cursor : l'.cursor ∈ ids code)
    have hgone : kept isNil (weave code block) l'.cursor (x, .adjust op r) = false := by
      refine hp.kept_weave.mpr ⟨⟨r, rfl, hdead⟩, ?_⟩
      rintro rfl
      rw [instr_unique hl.nodup (mem_weave.mpr (Or.inl hk)) hx] at hk
      exact hr.unadjusted hk
    rw [hgone] at hkx
    cases hkx
  · exact ⟨l', _, rfl, Placed.thinned_self hl hregs, fun _ _ _ _ => rfl⟩

end CountedMachine
