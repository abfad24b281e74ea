import CountedMachine.Proofs.Generation.Finishing
import CountedMachine.Proofs.Kinds.Blocks

/-! # Environments along a listing

`Secure` says of the environments in which the nodes of some code are reached that every instruction
can be carried out in them and that control stays among them. The body of a unit that is `Ok` gives
such environments (`secure_unitCode`). They remain when ownership instructions are woven in
(`Secure.weave`), and when nodes are taken out that load registers nothing reads (`Secure.filter`):
the environments may then differ in those registers, as long as nobody can tell (`Agrees`). -/

namespace CountedMachine

open Listing

namespace World

variable (w : World)

/-- **Nothing goes wrong** in the environments of `S`, and control stays among them. -/
def Secure (code : Code) (S : NodeId → Env → Prop) : Prop :=
  ∀ a ρ, S a ρ → ∃ xs i ys, code = xs ++ (a, i) :: ys ∧ w.Safe ρ i ∧
    ∀ ρ' b, w.Goes ρ i (firstId ys none) ρ' b → S b ρ'

variable {w} {L : Type} {code xs ys : Code} {block : NodeId → Code} {ρ ρ' σ σ' : Env} {a b : NodeId}
  {i : Instr NodeId} {next : Option NodeId}

theorem goes_plain (hl : i.label? = none) :
    w.Goes ρ i next ρ' b ↔ w.Fires ρ i ρ' ∧ next = some b := by
  cases i <;> first | exact Iff.rfl | cases hl

/-- Control falls through, or goes to the label whatever follows. -/
theorem Goes.cases (h : w.Goes ρ i next ρ' b) :
    (Falls i ∧ next = some b ∧ ∀ c, w.Goes ρ i (some c) ρ' c) ∨
      (i.label? = some b ∧ ∀ next', w.Goes ρ i next' ρ' b) := by
  cases i
  case branch cond no =>
    obtain ⟨e, ⟨hc, hn⟩ | ⟨hc, rfl⟩⟩ := h
    · exact Or.inl ⟨⟨rfl, by simp⟩, hn, fun c => ⟨e, Or.inl ⟨hc, rfl⟩⟩⟩
    · exact Or.inr ⟨rfl, fun _ => ⟨e, Or.inr ⟨hc, rfl⟩⟩⟩
  case jump t =>
    obtain ⟨e, rfl⟩ := h
    exact Or.inr ⟨rfl, fun _ => ⟨e, rfl⟩⟩
  case ret => exact h.1.elim
  case tailCall => exact h.1.elim
  case done => exact h.1.elim
  all_goals exact Or.inl ⟨⟨rfl, by simp⟩, h.2, fun c => ⟨h.1, rfl⟩⟩

/-! ## Blocks -/

end World

namespace Block

variable (w : World)

/-- **The environments in which the nodes of a block are reached.** -/
def Visits : Block → Env → NodeId → Env → Prop
  | nil, _, _, _ => False
  | plain a i t, ρ, x, ρ' => (x = a ∧ ρ' = ρ) ∨ ∃ ρ₁, w.Fires ρ i ρ₁ ∧ t.Visits ρ₁ x ρ'
  | arms b flag n yes j m no k t, ρ, x, ρ' => (x = b ∧ ρ' = ρ) ∨
    (ρ.regs flag = .val (.bool true) ∧ (yes.Visits ρ x ρ' ∨ (x = j ∧ yes.Run w ρ ρ'))) ∨
    (ρ.regs flag = .val (.bool false) ∧ ((x = n ∧ ρ' = ρ) ∨ no.Visits ρ x ρ')) ∨
    ∃ ρ₁, ((ρ.regs flag = .val (.bool true) ∧ yes.Run w ρ ρ₁) ∨
      (ρ.regs flag = .val (.bool false) ∧ no.Run w ρ ρ₁)) ∧
      ((x = m ∧ ρ' = ρ₁) ∨ ∃ ρ₂, w.Fires ρ₁ k ρ₂ ∧ t.Visits ρ₂ x ρ')

variable {w} {t : Block} {ρ ρ' : Env} {x : NodeId}

/-- A block starts with its first node, or control is at its end. -/
theorem visits_first (t : Block) (ρ : Env) {q : Option NodeId} {b : NodeId}
    (h : firstId t.code q = some b) : t.Visits w ρ b ρ ∨ (t.Run w ρ ρ ∧ q = some b) := by
  cases t with
  | nil => exact Or.inr ⟨rfl, h⟩
  | plain a i t => exact Or.inl (Or.inl ⟨(Option.some.inj h).symm, rfl⟩)
  | arms c flag n yes j m no k t => exact Or.inl (Or.inl ⟨(Option.some.inj h).symm, rfl⟩)

/-- **Where a block can be carried out**, nothing goes wrong at its nodes, and control goes to others
or to what follows. -/
theorem Visits.safe (ht : t.Proper) (hok : t.Ok w ρ) (h : t.Visits w ρ x ρ') :
    ∃ xs i ys, t.code = xs ++ (x, i) :: ys ∧ w.Safe ρ' i ∧ ∀ (q : Option NodeId) ρ'' b,
      w.Goes ρ' i (firstId ys q) ρ'' b → t.Visits w ρ b ρ'' ∨ (t.Run w ρ ρ'' ∧ q = some b) := by
  induction t generalizing ρ with
  | nil => exact h.elim
  | plain a i t ih =>
    rcases h with ⟨rfl, rfl⟩ | ⟨ρ₁, hf, hv⟩
    · refine ⟨[], i, t.code, rfl, hok.1, fun q ρ'' b hg => ?_⟩
      obtain ⟨hf, hb⟩ := (World.goes_plain ht.1).mp hg
      exact (visits_first t ρ'' hb).imp (fun hv => Or.inr ⟨ρ'', hf, hv⟩)
        fun hr => ⟨⟨ρ'', hf, hr.1⟩, hr.2⟩
    · obtain ⟨xs, j, ys, hcode, hs, hgo⟩ := ih ht.2.2 (hok.2 ρ₁ hf) hv
      refine ⟨(a, i) :: xs, j, ys, by rw [code, hcode]; rfl, hs, fun q ρ'' b hg => ?_⟩
      exact (hgo q ρ'' b hg).imp (fun hv => Or.inr ⟨ρ₁, hf, hv⟩) fun hr => ⟨⟨ρ₁, hf, hr.1⟩, hr.2⟩
  | arms c flag n yes j m no k t ihy ihn ih =>
    obtain ⟨hyp, hnp, hk, htp⟩ := ht
    obtain ⟨hbr, hyes, hno, hmeet⟩ := hok
    have hkl : k.label? = none := label?_of_isLabel hk
    rcases h with ⟨rfl, rfl⟩ | ⟨hf, hv | ⟨rfl, hrun⟩⟩ | ⟨hf, ⟨rfl, rfl⟩ | hv⟩ |
      ⟨ρ₁, hm, ⟨rfl, rfl⟩ | ⟨ρ₂, hfk, hv⟩⟩
    · -- the branch itself
      refine ⟨[], .branch flag n, _, rfl, hbr, fun q ρ'' b hg => ?_⟩
      obtain ⟨rfl, ⟨hf, hb⟩ | ⟨hf, rfl⟩⟩ := hg
      · rw [firstId_append] at hb
        rcases visits_first (w := w) yes ρ'' hb with hv | ⟨hrun, hb⟩
        · exact Or.inl (Or.inr (Or.inl ⟨hf, Or.inl hv⟩))
        · exact Or.inl (Or.inr (Or.inl ⟨hf, Or.inr ⟨(Option.some.inj hb).symm, hrun⟩⟩))
      · exact Or.inl (Or.inr (Or.inr (Or.inl ⟨hf, Or.inl ⟨rfl, rfl⟩⟩)))
    · obtain ⟨xs, i, ys, hcode, hs, hgo⟩ := ihy hyp (hyes hf) hv
      refine ⟨(c, Instr.branch flag n) :: xs, i,
        ys ++ (j, Instr.jump m) :: (n, Instr.nop) :: (no.code ++ (m, k) :: t.code),
        by rw [code, hcode]; simp, hs, fun q ρ'' b hg => ?_⟩
      rw [firstId_append] at hg
      rcases hgo _ ρ'' b hg with hv | ⟨hrun, hb⟩
      · exact Or.inl (Or.inr (Or.inl ⟨hf, Or.inl hv⟩))
      · exact Or.inl (Or.inr (Or.inl ⟨hf, Or.inr ⟨(Option.some.inj hb).symm, hrun⟩⟩))
    · -- the jump over the second arm
      have hm : (ρ.regs flag = .val (.bool true) ∧ yes.Run w ρ ρ') ∨
          (ρ.regs flag = .val (.bool false) ∧ no.Run w ρ ρ') := Or.inl ⟨hf, hrun⟩
      refine ⟨(c, Instr.branch flag n) :: yes.code, .jump m, (n, Instr.nop) :: (no.code ++ (m, k) :: t.code), rfl,
        ⟨(hmeet ρ' hm).1.noted.mono fun _ _ => trivial, by simp [Instr.inputs], trivial,
          by simp [Instr.creates], trivial⟩,
        fun q ρ'' b hg => ?_⟩
      obtain ⟨rfl, rfl⟩ := hg
      exact Or.inl (Or.inr (Or.inr (Or.inr ⟨_, hm, Or.inl ⟨rfl, rfl⟩⟩)))
    · -- the label of the second arm
      refine ⟨(c, Instr.branch flag x) :: (yes.code ++ [(j, Instr.jump m)]), .nop, no.code ++ (m, k) :: t.code,
        by simp [code],
        ⟨hbr.noted, by simp [Instr.inputs], trivial, by simp [Instr.creates], trivial⟩,
        fun q ρ'' b hg => ?_⟩
      obtain ⟨rfl, hb⟩ := hg
      rw [firstId_append] at hb
      rcases visits_first (w := w) no ρ'' hb with hv | ⟨hrun, hb⟩
      · exact Or.inl (Or.inr (Or.inr (Or.inl ⟨hf, Or.inr hv⟩)))
      · exact Or.inl (Or.inr (Or.inr (Or.inr ⟨_, Or.inr ⟨hf, hrun⟩,
          Or.inl ⟨(Option.some.inj hb).symm, rfl⟩⟩)))
    · obtain ⟨xs, i, ys, hcode, hs, hgo⟩ := ihn hnp (hno hf) hv
      refine ⟨(c, Instr.branch flag n) :: (yes.code ++ (j, Instr.jump m) :: (n, Instr.nop) :: xs), i,
        ys ++ (m, k) :: t.code,
        by rw [code, hcode]; simp, hs, fun q ρ'' b hg => ?_⟩
      rw [firstId_append] at hg
      rcases hgo _ ρ'' b hg with hv | ⟨hrun, hb⟩
      · exact Or.inl (Or.inr (Or.inr (Or.inl ⟨hf, Or.inr hv⟩)))
      · exact Or.inl (Or.inr (Or.inr (Or.inr ⟨_, Or.inr ⟨hf, hrun⟩,
          Or.inl ⟨(Option.some.inj hb).symm, rfl⟩⟩)))
    · -- the place where the arms meet
      refine ⟨(c, Instr.branch flag n) :: (yes.code ++ (j, Instr.jump x) :: (n, Instr.nop) :: no.code), k, t.code,
        by simp [code], (hmeet _ hm).1, fun q ρ'' b hg => ?_⟩
      obtain ⟨hfk, hb⟩ := (World.goes_plain hkl).mp hg
      exact (visits_first t ρ'' hb).imp
        (fun hv => Or.inr (Or.inr (Or.inr ⟨_, hm, Or.inr ⟨ρ'', hfk, hv⟩⟩)))
        fun hr => ⟨⟨_, ρ'', hm, hfk, hr.1⟩, hr.2⟩
    · obtain ⟨xs, i, ys, hcode, hs, hgo⟩ := ih htp ((hmeet ρ₁ hm).2 ρ₂ hfk) hv
      refine ⟨(c, .branch flag n) :: (yes.code ++ (j, .jump m) :: (n, .nop) :: (no.code ++ (m, k) :: xs)),
        i, ys, by rw [code, hcode]; simp, hs, fun q ρ'' b hg => ?_⟩
      exact (hgo q ρ'' b hg).imp
        (fun hv => Or.inr (Or.inr (Or.inr ⟨ρ₁, hm, Or.inr ⟨ρ₂, hfk, hv⟩⟩)))
        fun hr => ⟨⟨ρ₁, ρ₂, hm, hfk, hr.1⟩, hr.2⟩

end Block

namespace World

variable {w : World} {code : Code} {block : NodeId → Code} {S : NodeId → Env → Prop} {ρ ρ' σ σ' : Env}
  {a b : NodeId} {i : Instr NodeId} {next : Option NodeId}

/-- **The body of a unit** that can be carried out and never comes to its end. -/
theorem secure_unitCode {T : Block} (hT : T.Proper) (hok : T.Ok w .start)
    (hend : ∀ ρ, ¬ T.Run w .start ρ) :
    w.Secure (unitCode T.code) fun a ρ => (a = head ∧ ρ = .start) ∨ T.Visits w .start a ρ := by
  rintro a ρ (⟨rfl, rfl⟩ | hv)
  · refine ⟨[], .nop, T.code ++ [(tail, Instr.done)], rfl,
      ⟨noted_start w _, by simp [Instr.inputs], trivial, by simp [Instr.creates], trivial⟩,
      fun ρ' b hg => ?_⟩
    obtain ⟨rfl, hb⟩ := hg
    rw [firstId_append] at hb
    exact Or.inr ((Block.visits_first T _ hb).resolve_right fun h => hend _ h.1)
  · obtain ⟨xs, i, ys, hcode, hs, hgo⟩ := hv.safe hT hok
    refine ⟨(head, Instr.nop) :: xs, i, ys ++ [(tail, Instr.done)], by simp [unitCode, hcode], hs,
      fun ρ' b hg => ?_⟩
    rw [firstId_append] at hg
    exact Or.inr ((hgo _ ρ' b hg).resolve_right fun h => hend _ h.1)

/-! ## Ownership instructions -/

/-- The environments in which the nodes of woven code are reached. -/
def Woven (code : Code) (block : NodeId → Code) (S : NodeId → Env → Prop) (x : NodeId) (ρ : Env) :
    Prop :=
  S x ρ ∨ ∃ a i pre j post, (a, i) ∈ code ∧ Falls i ∧ block a = pre ++ (x, j) :: post ∧
    ∀ n, Next code a n → S n ρ

/-- **Weaving in ownership instructions** leaves the environments as they are. -/
theorem Secure.weave (h : w.Secure code S) (ho : Orderly code)
    (hadj : ∀ {a x j}, (x, j) ∈ block a → ∃ op q, j = .adjust op q) :
    w.Secure (Listing.weave code block) (Woven code block S) := by
  rintro x ρ (hx | ⟨a, i, pre, j, post, ha, hi, hblk, hS⟩)
  · obtain ⟨xs, i, ys, hcode, hs, hgo⟩ := h _ _ hx
    refine ⟨Listing.weave xs block, i, block x ++ Listing.weave ys block,
      by rw [hcode, weave_append, weave_cons], hs, fun ρ' b hg => ?_⟩
    rcases hg.cases with ⟨hfalls, hb, hany⟩ | ⟨-, hany⟩
    · rw [firstId_append, firstId_weave] at hb
      have hnext : ∀ n, firstId ys none = some n → S n ρ' := fun n hn =>
        hgo ρ' n (by rw [hn]; exact hany n)
      rcases hblk : block x with _ | ⟨⟨y, j⟩, rest⟩
      · rw [hblk] at hb
        exact Or.inl (hnext b hb)
      · rw [hblk] at hb
        obtain rfl : y = b := Option.some.inj hb
        refine Or.inr ⟨x, i, [], j, rest, by simp [hcode], hfalls, hblk, fun n hn => hnext n ?_⟩
        exact (next_iff (hcode ▸ ho.nodup)).mp (hcode ▸ hn)
    · exact Or.inl (hgo ρ' b (hany _))
  · obtain ⟨op, q, rfl⟩ := hadj (a := a) (x := x) (j := j) (by simp [hblk])
    obtain ⟨n, hn, -⟩ := ho.exists_next ha (by rintro rfl; cases hi.1)
    obtain ⟨_, _, _, _, hs, _⟩ := h _ _ (hS n hn)
    obtain ⟨xs, ys, hcode⟩ := List.append_of_mem ha
    refine ⟨Listing.weave xs block ++ (a, i) :: pre, .adjust op q, post ++ Listing.weave ys block,
      by rw [hcode, weave_append, weave_cons, hblk]; simp,
      ⟨hs.noted.mono fun _ _ => trivial, by simp [Instr.inputs], trivial, by simp [Instr.creates], trivial⟩,
      fun ρ' b hg => ?_⟩
    obtain ⟨rfl, hb⟩ := hg
    rw [firstId_append, firstId_weave] at hb
    rcases hpost : post with _ | ⟨⟨y, k⟩, rest⟩
    · rw [hpost] at hb
      exact Or.inl (hS b ⟨xs, i, ys, hcode, hb⟩)
    · rw [hpost] at hb hblk
      obtain rfl : y = b := Option.some.inj hb
      exact Or.inr ⟨a, i, pre ++ [(x, Instr.adjust op q)], k, rest, ha, hi, by simp [hblk], hS⟩

/-! ## Loads that nothing reads -/

variable (w)

/-- The environments agree except in registers of which nothing is known but that they hold nothing
unusual: in the second one they hold some value. -/
structure Agrees (gone : Reg → Prop) (σ ρ : Env) : Prop where
  scope : σ.scope = ρ.scope
  pushed : σ.pushed = ρ.pushed
  regs : ∀ r, σ.regs r = ρ.regs r ∨ (gone r ∧ (∃ κ, ρ.regs r = .val κ) ∧
    (σ.regs r = .void ∨ ∃ κ, σ.regs r = .val κ ∧ κ ≠ .shell ∧ w.Suits False r κ))

variable {w} {gone : Reg → Prop} {r : Reg} {st : Status}

theorem Agrees.refl (gone : Reg → Prop) (ρ : Env) : w.Agrees gone ρ ρ :=
  ⟨rfl, rfl, fun _ => Or.inl rfl⟩

theorem Agrees.eq (h : w.Agrees gone σ ρ) (hr : ¬ gone r) : σ.regs r = ρ.regs r :=
  (h.regs r).resolve_right fun hg => hr hg.1

/-- What is not a plain value is the same in both. -/
theorem Agrees.eq_of (h : w.Agrees gone σ ρ) (hr : ∀ κ, ρ.regs r ≠ .val κ) : σ.regs r = ρ.regs r :=
  (h.regs r).resolve_right fun ⟨_, ⟨κ, hκ⟩, _⟩ => hr κ hκ

theorem Agrees.noted {spared : Reg → Prop} (h : w.Agrees gone σ ρ) (hn : w.Noted spared ρ) :
    w.Noted spared σ := by
  intro r κ hκ
  rcases h.regs r with e | ⟨-, -, e | ⟨κ', e, -, hsuits⟩⟩
  · exact hn r κ (e ▸ hκ)
  · rw [e] at hκ
    cases hκ
  · rw [e] at hκ
    exact Option.some.inj hκ ▸ hsuits.mono False.elim

theorem Agrees.calm (h : w.Agrees gone σ ρ) (hc : ρ.Calm) : σ.Calm := by
  refine ⟨h.scope.trans hc.scope, fun r => ?_⟩
  rcases h.regs r with e | ⟨-, -, e | ⟨κ, e, hκ, -⟩⟩
  · rw [e]
    exact hc.regs r
  · exact Or.inl e
  · exact Or.inr ⟨κ, e, hκ⟩

/-- Both get the same. -/
theorem Agrees.set (h : w.Agrees gone σ ρ) (r : Reg) (st : Status) :
    w.Agrees gone (σ.set r st) (ρ.set r st) := by
  refine ⟨h.scope, h.pushed, fun q => ?_⟩
  rw [Env.set_eq, Env.set_eq]
  split_ifs
  · exact Or.inl rfl
  · exact h.regs q

/-- Only the second one gets a value. -/
theorem Agrees.load (h : w.Agrees gone σ ρ) (hc : ρ.Calm) (hn : w.Noted (fun _ => False) ρ) (hr : gone r)
    (κ : Kind) :
    w.Agrees gone σ (ρ.set r (.val κ)) := by
  refine ⟨h.scope, h.pushed, fun q => ?_⟩
  rw [Env.set_eq]
  split_ifs with e
  · subst e
    refine Or.inr ⟨hr, ⟨κ, rfl⟩, ?_⟩
    rcases h.regs q with e | ⟨-, -, hq⟩
    · rw [e]
      exact (hc.regs q).imp id fun ⟨κ', hκ', hs⟩ => ⟨κ', hκ', hs, hn q κ' (by rw [hκ']; rfl)⟩
    · exact hq
  · exact h.regs q

variable (h : w.Agrees gone σ ρ) (hread : ∀ r ∈ i.inputs, ¬ gone r)
include h hread

theorem Agrees.input (hr : r ∈ i.inputs) : σ.regs r = ρ.regs r := h.eq (hread r hr)

theorem Agrees.needs (hn : w.Needs ρ i) : w.Needs σ i := by
  have hin := fun {r} => h.input hread (r := r)
  cases i
  case const => exact ⟨h.calm hn.1, hn.2⟩
  case param => exact h.calm hn
  case capture => exact ⟨h.calm hn.1, hn.2⟩
  case unbox => exact (hin (by simp [Instr.inputs])).trans hn
  case assign => exact (hin (by simp [Instr.inputs])).trans hn
  case operate =>
    refine hn.imp id (Or.imp id (Or.imp id (Or.imp id fun hn => ⟨?_, ?_⟩)))
    · exact (hin (by simp [Instr.inputs])).trans hn.1
    · exact (hin (by simp [Instr.inputs])).trans hn.2
  case field =>
    obtain ⟨ty, n, hv, hrest⟩ := hn
    exact ⟨ty, n, (hin (by simp [Instr.inputs])).trans hv, hrest⟩
  case guard => exact h.calm hn
  case branch => exact hn.imp fun b hb => (hin (by simp [Instr.inputs])).trans hb
  case merge dst =>
    obtain ⟨κ, hκ⟩ := hn
    exact ⟨κ, (h.eq_of (by simp [hκ])).trans hκ⟩
  case move dst src =>
    have hn : ρ.regs dst = .void := hn
    exact (h.eq_of (by simp [hn])).trans hn
  case call =>
    refine ⟨h.calm hn.1, h.pushed.trans hn.2.1, fun hc => ?_⟩
    obtain ⟨unit, u, hv, hrest⟩ := hn.2.2 hc
    exact ⟨unit, u, (hin (by simp [Instr.inputs])).trans hv, hrest⟩
  case tailCall => exact ⟨h.calm hn.1, h.pushed.trans hn.2⟩
  case ret => exact ⟨h.calm hn.1, h.pushed.trans hn.2⟩
  case done => exact ⟨h.calm hn.1, h.pushed.trans hn.2⟩
  case yield => exact ⟨h.calm hn.1, h.pushed.trans hn.2⟩
  case finishClosure dst unit caps =>
    obtain ⟨hdst, hscope, ms, hms, hlen, hcells⟩ := hn
    refine ⟨(hin (by simp [Instr.inputs])).trans hdst, fun n k hk => hscope n k (h.scope ▸ hk), ms, hms,
      hlen, fun idx r hr hm => ?_⟩
    have hmem : r ∈ caps := List.mem_of_getElem? hr
    exact (hin (by simp [Instr.inputs, hmem])).trans (hcells idx r hr hm)
  case beginScope => exact h.scope.trans hn
  case endScope => exact h.scope.trans hn
  all_goals trivial

omit hread in
theorem Agrees.not_shell (hs : ∀ r, ρ.regs r ≠ .val .shell) (r : Reg) : σ.regs r ≠ .val .shell := by
  intro hr
  rcases h.regs r with e | ⟨-, -, e | ⟨κ, e, hκ, -⟩⟩
  · exact hs r (e.symm.trans hr)
  · cases e.symm.trans hr
  · exact hκ (Status.val.inj (e.symm.trans hr))

theorem Agrees.shields (hs : ρ.Shields i) : σ.Shields i := by
  cases i
  case finishClosure dst unit caps =>
    intro hn r hr
    rw [h.input hread (by simp [Instr.inputs, hr])]
    exact hs (h.scope.symm.trans hn) r hr
  case endScope => exact h.not_shell hs
  all_goals first
    | exact ⟨h.scope.trans hs.1, h.not_shell hs.2⟩
    | trivial

theorem Agrees.safe (hs : w.Safe ρ i) : w.Safe σ i where
  noted := h.noted hs.noted
  reads r hr := by
    rw [h.input hread hr]
    exact hs.reads r hr
  needs := h.needs hread hs.needs
  unheld {r κ} hr hκ := by
    rcases h.regs r with e | ⟨-, -, e | ⟨κ', e, -⟩⟩
    · exact hs.unheld hr (e ▸ hκ)
    · cases e.symm.trans hκ
    · cases e.symm.trans hκ
  shields := h.shields hread hs.shields

/-- The kinds of value that are created are the same. -/
theorem Agrees.gives {κ : Kind} (hg : w.Gives σ i κ) : w.Gives ρ i κ := by
  have hin := fun {r} => h.input hread (r := r)
  cases i
  case operate op dst l r checked =>
    obtain ⟨x, y, hx, hy, hκ⟩ := hg
    exact ⟨x, y, (hin (by simp [Instr.inputs])).symm.trans hx, (hin (by simp [Instr.inputs])).symm.trans hy, hκ⟩
  case testType dst src ty =>
    obtain ⟨x, hx, hκ⟩ := hg
    exact ⟨x, (hin (by simp [Instr.inputs])).symm.trans hx, hκ⟩
  case field dst src idx =>
    exact ⟨hg.1, fun hu => hg.2 ((hin (by simp [Instr.inputs])).trans hu)⟩
  all_goals exact hg

/-- **An instruction that reads none of the other registers** does the same in both. -/
theorem Agrees.fires (hs : w.Safe ρ i) (hf : w.Fires σ i σ') :
    ∃ ρ', w.Fires ρ i ρ' ∧ w.Agrees gone σ' ρ' := by
  have hin := fun {r} => h.input hread (r := r)
  have hmake : ∀ {dst}, (∃ κ, w.Gives σ i κ ∧ σ' = σ.set dst (.val κ)) →
      ∃ ρ', (∃ κ, w.Gives ρ i κ ∧ ρ' = ρ.set dst (.val κ)) ∧ w.Agrees gone σ' ρ' := by
    rintro dst ⟨κ, hκ, rfl⟩
    exact ⟨_, ⟨κ, h.gives hread hκ, rfl⟩, h.set dst (.val κ)⟩
  cases i
  case merge dst =>
    obtain ⟨κ, hκ, rfl⟩ := hf
    obtain ⟨κ', hκ'⟩ := hs.needs
    have e := (h.eq_of (r := dst) (by simp [hκ'])).symm.trans hκ
    exact ⟨_, ⟨κ, e, rfl⟩, h.set dst (.val κ)⟩
  case move dst src =>
    obtain ⟨κ, hκ, rfl⟩ := hf
    exact ⟨_, ⟨κ, (hin (by simp [Instr.inputs])).symm.trans hκ, rfl⟩, h.set dst (.held κ)⟩
  case finishClosure dst unit caps =>
    obtain rfl := hf
    have := h.set dst (.val (.fn unit))
    exact ⟨_, rfl, ⟨by simp [Env.join, h.scope], this.pushed, this.regs⟩⟩
  case beginScope n =>
    obtain rfl := hf
    exact ⟨_, rfl, ⟨rfl, h.pushed, h.regs⟩⟩
  case endScope n =>
    obtain rfl := hf
    exact ⟨_, rfl, ⟨rfl, h.pushed, h.regs⟩⟩
  case guard src ty =>
    obtain ⟨hv, rfl⟩ := hf
    exact ⟨_, ⟨(hin (by simp [Instr.inputs])).symm.trans hv, rfl⟩, h⟩
  case push src =>
    obtain rfl := hf
    exact ⟨_, rfl, ⟨h.scope, by simp [h.pushed], h.regs⟩⟩
  case call dst func nargs checked =>
    obtain ⟨κ, hκ, rfl⟩ := hf
    exact ⟨_, ⟨κ, hκ, rfl⟩, ⟨h.scope, rfl, (h.set dst (.val κ)).regs⟩⟩
  case ret => exact hf.elim
  case tailCall => exact hf.elim
  case done => exact hf.elim
  case nop => obtain rfl := hf; exact ⟨ρ, rfl, h⟩
  case assign => obtain rfl := hf; exact ⟨ρ, rfl, h⟩
  case branch => obtain rfl := hf; exact ⟨ρ, rfl, h⟩
  case jump => obtain rfl := hf; exact ⟨ρ, rfl, h⟩
  case yield => obtain rfl := hf; exact ⟨ρ, rfl, h⟩
  case trace => obtain rfl := hf; exact ⟨ρ, rfl, h⟩
  case adjust => obtain rfl := hf; exact ⟨ρ, rfl, h⟩
  all_goals exact hmake hf

theorem Agrees.goes (hs : w.Safe ρ i) (hg : w.Goes σ i next σ' b) :
    ∃ ρ', (∀ next b, w.Goes σ i next σ' b → w.Goes ρ i next ρ' b) ∧ w.Agrees gone σ' ρ' := by
  cases i
  case branch cond no =>
    obtain ⟨rfl, -⟩ := hg
    refine ⟨ρ, fun next b hg => ⟨rfl, ?_⟩, h⟩
    rw [← h.input hread (r := cond) (by simp [Instr.inputs])]
    exact hg.2
  case jump t =>
    obtain ⟨rfl, -⟩ := hg
    exact ⟨ρ, fun next b hg => ⟨rfl, hg.2⟩, h⟩
  all_goals
    obtain ⟨ρ', hf, ha⟩ := h.fires hread hs hg.1
    exact ⟨ρ', fun next b hg => ⟨hf, hg.2⟩, ha⟩

omit h hread in
/-- **A load that is taken out** is a step that only the second environment makes. -/
theorem Agrees.skip (h : w.Agrees gone σ ρ) (hs : w.Safe ρ i) {r : Reg}
    (hi : loadOrAdjust? i = some r) (hr : gone r) :
    ∃ ρ', w.Fires ρ i ρ' ∧ w.Agrees gone σ ρ' := by
  have hn := hs.needs
  cases i
  case const dst k =>
    obtain rfl : dst = r := Option.some.inj hi
    obtain ⟨hc, c, hk⟩ := hn
    exact ⟨_, ⟨_, ⟨c, hk, rfl⟩, rfl⟩, h.load hc hs.noted hr _⟩
  case param dst idx =>
    obtain rfl : dst = r := Option.some.inj hi
    exact ⟨_, ⟨.nil, by simp [Gives], rfl⟩, h.load hn hs.noted hr _⟩
  case capture dst idx =>
    obtain rfl : dst = r := Option.some.inj hi
    exact ⟨_, ⟨.cell, by simp [Gives], rfl⟩, h.load hn.1 hs.noted hr _⟩
  case adjust op q => exact ⟨ρ, rfl, h⟩
  all_goals cases hi

omit h hread

variable {keep : NodeId × Instr NodeId → Bool}

/-- The registers whose loads have been taken out. -/
def Gone (code : Code) (keep : NodeId × Instr NodeId → Bool) (r : Reg) : Prop :=
  ∃ a i, (a, i) ∈ code ∧ keep (a, i) = false ∧ loadOrAdjust? i = some r

/-- What may be taken out of code: loads of registers that nothing reads, and ownership instructions
on them, but no label. -/
structure Thins (code : Code) (keep : NodeId × Instr NodeId → Bool) : Prop where
  about : ∀ {a i}, (a, i) ∈ code → keep (a, i) = false → ∃ r, loadOrAdjust? i = some r
  unread : ∀ {a i r}, (a, i) ∈ code → r ∈ i.inputs → ¬ Gone code keep r
  labels : ∀ {a i b}, (a, i) ∈ code → i.label? = some b → ∃ j, (b, j) ∈ code ∧ keep (b, j) = true

/-- The environments in which the nodes that are left are reached. -/
def Left (w : World) (code : Code) (keep : NodeId × Instr NodeId → Bool) (S : NodeId → Env → Prop)
    (a : NodeId) (σ : Env) : Prop :=
  (∃ i, (a, i) ∈ code ∧ keep (a, i) = true) ∧ ∃ ρ, S a ρ ∧ w.Agrees (Gone code keep) σ ρ

/-- Past nodes that have been taken out the environment stays the same. -/
theorem Secure.skip (hS : w.Secure code S) (hnd : (ids code).Nodup) (ht : Thins code keep) :
    ∀ {xs ys : Code} {ρ : Env}, code = xs ++ ys → (∀ b, firstId ys none = some b → S b ρ) →
      w.Agrees (Gone code keep) σ ρ → firstId (ys.filter keep) none = some b →
        Left w code keep S b σ
  | xs, [], ρ, _, _, _, hb => by cases hb
  | xs, (c, j) :: ys, ρ, hcode, hfirst, ha, hb => by
    have hc : S c ρ := hfirst c rfl
    have hmem : (c, j) ∈ code := by simp [hcode]
    by_cases hk : keep (c, j) = true
    · rw [List.filter_cons_of_pos hk] at hb
      obtain rfl : c = b := Option.some.inj hb
      exact ⟨⟨j, hmem, hk⟩, ρ, hc, ha⟩
    · have hk : keep (c, j) = false := by simpa using hk
      rw [List.filter_cons_of_neg (by simp [hk])] at hb
      obtain ⟨xs', j', ys', hcode', hs, hgo⟩ := hS _ _ hc
      obtain ⟨rfl, rfl, rfl⟩ := split_unique hnd hcode hcode'
      obtain ⟨r, hr⟩ := ht.about hmem hk
      obtain ⟨ρ', hf, ha'⟩ := ha.skip hs hr ⟨c, j, hmem, hk, hr⟩
      have hlabel : j.label? = none := by
        cases j <;> first | rfl | cases hr
      refine Secure.skip hS hnd ht (by simp [hcode] : code = (xs ++ [(c, j)]) ++ ys) (fun d hd => ?_)
        ha' hb
      exact hgo ρ' d ((goes_plain hlabel).mpr ⟨hf, hd⟩)

/-- **Taking out loads that nothing reads** leaves every instruction one that can be carried out. -/
theorem Secure.filter (hS : w.Secure code S) (hnd : (ids code).Nodup) (ht : Thins code keep) :
    w.Secure (code.filter keep) (Left w code keep S) := by
  rintro a σ ⟨⟨i, hi, hk⟩, ρ, hρ, ha⟩
  obtain ⟨xs, i', ys, hcode, hs, hgo⟩ := hS _ _ hρ
  obtain rfl : i = i' := instr_unique hnd hi (by simp [hcode])
  have hread : ∀ r ∈ i.inputs, ¬ Gone code keep r := fun r hr => ht.unread hi hr
  refine ⟨xs.filter keep, i, ys.filter keep, by rw [hcode, List.filter_append,
    List.filter_cons_of_pos hk], ha.safe hread hs, fun σ' b hg => ?_⟩
  obtain ⟨ρ', hsame, ha'⟩ := ha.goes hread hs hg
  rcases hg.cases with ⟨-, hb, hany⟩ | ⟨hl, hany⟩
  · exact hS.skip hnd ht (by simp [hcode] : code = (xs ++ [(a, i)]) ++ ys)
      (fun c hc => hgo ρ' c (hsame _ c (by rw [hc]; exact hany c))) ha' hb
  · exact ⟨ht.labels hi hl, ρ', hgo ρ' b (hsame _ b (hany _)), ha'⟩

end World

end CountedMachine
