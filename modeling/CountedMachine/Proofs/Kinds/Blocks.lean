import CountedMachine.Proofs.Generation.Shape
import CountedMachine.Proofs.Kinds.Basic

/-! # Blocks

A block is shaped code as a tree, so that what it does can be followed by recursion: `Block.Run`
relates the environments in which it begins and ends, and it is `Ok` where every instruction that is
reached can be carried out. -/

namespace CountedMachine

open Listing

/-- Code that is put together from plain instructions and branches with two arms. -/
inductive Block
  | nil
  | plain (a : NodeId) (i : Instr NodeId) (rest : Block)
  | arms (b : NodeId) (flag : Reg) (n : NodeId) (yes : Block) (j m : NodeId) (no : Block)
    (k : Instr NodeId) (rest : Block)

namespace Block

/-- The code of a block. -/
def code : Block → Code
  | nil => []
  | plain a i t => (a, i) :: t.code
  | arms b flag n yes j m no k t =>
    (b, Instr.branch flag n) :: (yes.code ++ (j, Instr.jump m) :: (n, Instr.nop) :: (no.code ++ (m, k) :: t.code))

/-- Plain instructions have no labels and are no ownership instructions; arms meet at a label. -/
def Proper : Block → Prop
  | nil => True
  | plain _ i t => i.label? = none ∧ (∀ op r, i ≠ .adjust op r) ∧ t.Proper
  | arms _ _ _ yes _ _ no k t => yes.Proper ∧ no.Proper ∧ k.isLabel = true ∧ t.Proper

/-- One block after the other. -/
def append : Block → Block → Block
  | nil, u => u
  | plain a i t, u => plain a i (t.append u)
  | arms b flag n yes j m no k t, u => arms b flag n yes j m no k (t.append u)

/-- A block of one instruction. -/
def single (a : NodeId) (i : Instr NodeId) : Block := plain a i nil

variable {t u : Block}

@[simp] theorem code_append (t u : Block) : (t.append u).code = t.code ++ u.code := by
  induction t with
  | nil => rfl
  | plain a i t ih => simp [append, code, ih]
  | arms b flag n yes j m no k t _ _ ih => simp [append, code, ih]

@[simp] theorem code_single (a : NodeId) (i : Instr NodeId) : (single a i).code = [(a, i)] := rfl

theorem Proper.append (ht : t.Proper) (hu : u.Proper) : (t.append u).Proper := by
  induction t with
  | nil => exact hu
  | plain a i t ih => exact ⟨ht.1, ht.2.1, ih ht.2.2⟩
  | arms b flag n yes j m no k t _ _ ih => exact ⟨ht.1, ht.2.1, ht.2.2.1, ih ht.2.2.2⟩

theorem Proper.shaped (ht : t.Proper) : Shaped t.code := by
  induction t with
  | nil => exact .nil
  | plain a i t ih => exact .plain ht.1 ht.2.1 (ih ht.2.2)
  | arms b flag n yes j m no k t ihy ihn ih =>
    exact .arms (ihy ht.1) (ihn ht.2.1) ht.2.2.1 (ih ht.2.2.2)

/-- **Control does not get through the block**, whatever the flags are. -/
def Stops : Block → Prop
  | nil => False
  | plain _ i t => i.isTerminal = true ∨ t.Stops
  | arms _ _ _ yes _ _ no _ t => (yes.Stops ∧ no.Stops) ∨ t.Stops

theorem Stops.before (ht : t.Stops) (u : Block) : (t.append u).Stops := by
  induction t with
  | nil => exact ht.elim
  | plain a i t ih => exact ht.imp id ih
  | arms b flag n yes j m no k t _ _ ih => exact ht.imp id ih

theorem Stops.after (hu : u.Stops) (t : Block) : (t.append u).Stops := by
  induction t with
  | nil => exact hu
  | plain a i t ih => exact .inr ih
  | arms b flag n yes j m no k t _ _ ih => exact .inr ih

/-! ## What a block does -/

variable (w : World)

/-- **A block leads from one environment to the other.** -/
def Run : Block → Env → Env → Prop
  | nil, ρ, ρ' => ρ' = ρ
  | plain _ i t, ρ, ρ' => ∃ ρ₁, w.Fires ρ i ρ₁ ∧ t.Run ρ₁ ρ'
  | arms _ flag _ yes _ _ no k t, ρ, ρ' => ∃ ρ₁ ρ₂,
    ((ρ.regs flag = .val (.bool true) ∧ yes.Run ρ ρ₁) ∨
      (ρ.regs flag = .val (.bool false) ∧ no.Run ρ ρ₁)) ∧ w.Fires ρ₁ k ρ₂ ∧ t.Run ρ₂ ρ'

/-- **Every instruction of a block that is reached can be carried out.** -/
def Ok : Block → Env → Prop
  | nil, _ => True
  | plain _ i t, ρ => w.Safe ρ i ∧ ∀ ρ₁, w.Fires ρ i ρ₁ → t.Ok ρ₁
  | arms _ flag n yes _ _ no k t, ρ => w.Safe ρ (.branch flag n : Instr NodeId) ∧
    (ρ.regs flag = .val (.bool true) → yes.Ok ρ) ∧ (ρ.regs flag = .val (.bool false) → no.Ok ρ) ∧
    ∀ ρ₁, (ρ.regs flag = .val (.bool true) ∧ yes.Run w ρ ρ₁) ∨
      (ρ.regs flag = .val (.bool false) ∧ no.Run w ρ ρ₁) →
      w.Safe ρ₁ k ∧ ∀ ρ₂, w.Fires ρ₁ k ρ₂ → t.Ok ρ₂

variable {w} {ρ ρ' : Env}

theorem run_append : (t.append u).Run w ρ ρ' ↔ ∃ ρ₁, t.Run w ρ ρ₁ ∧ u.Run w ρ₁ ρ' := by
  induction t generalizing ρ with
  | nil => simp [append, Run]
  | plain a i t ih =>
    simp only [append, Run, ih]
    exact ⟨fun ⟨ρ₁, h₁, ρ₂, h₂, h₃⟩ => ⟨ρ₂, ⟨ρ₁, h₁, h₂⟩, h₃⟩,
      fun ⟨ρ₂, ⟨ρ₁, h₁, h₂⟩, h₃⟩ => ⟨ρ₁, h₁, ρ₂, h₂, h₃⟩⟩
  | arms b flag n yes j m no k t _ _ ih =>
    simp only [append, Run, ih]
    exact ⟨fun ⟨ρ₁, ρ₂, h₁, h₂, ρ₃, h₃, h₄⟩ => ⟨ρ₃, ⟨ρ₁, ρ₂, h₁, h₂, h₃⟩, h₄⟩,
      fun ⟨ρ₃, ⟨ρ₁, ρ₂, h₁, h₂, h₃⟩, h₄⟩ => ⟨ρ₁, ρ₂, h₁, h₂, ρ₃, h₃, h₄⟩⟩

theorem Ok.append (ht : t.Ok w ρ) (hu : ∀ ρ₁, t.Run w ρ ρ₁ → u.Ok w ρ₁) : (t.append u).Ok w ρ := by
  induction t generalizing ρ with
  | nil => exact hu ρ rfl
  | plain a i t ih =>
    exact ⟨ht.1, fun ρ₁ h₁ => ih (ht.2 ρ₁ h₁) fun ρ₂ h₂ => hu ρ₂ ⟨ρ₁, h₁, h₂⟩⟩
  | arms b flag n yes j m no k t _ _ ih =>
    refine ⟨ht.1, ht.2.1, ht.2.2.1, fun ρ₁ h₁ => ?_⟩
    obtain ⟨hk, hrest⟩ := ht.2.2.2 ρ₁ h₁
    exact ⟨hk, fun ρ₂ h₂ => ih (hrest ρ₂ h₂) fun ρ₃ h₃ => hu ρ₃ ⟨ρ₁, ρ₂, h₁, h₂, h₃⟩⟩

/-- **The block checks a register**: its instructions belong to the check, or do not look at values. -/
def Spares (r : Reg) : Block → Prop
  | nil => True
  | plain _ i t => i.Spares r ∧ i.creates ≠ some r ∧ t.Spares r
  | arms _ _ _ yes _ _ no k t => yes.Spares r ∧ no.Spares r ∧ k.Spares r ∧ k.creates ≠ some r ∧ t.Spares r

theorem Spares.append {r : Reg} (ht : t.Spares r) (hu : u.Spares r) : (t.append u).Spares r := by
  induction t with
  | nil => exact hu
  | plain a i t ih => exact ⟨ht.1, ht.2.1, ih ht.2.2⟩
  | arms b flag n yes j m no k t _ _ ih => exact ⟨ht.1, ht.2.1, ht.2.2.1, ht.2.2.2.1, ih ht.2.2.2.2⟩

theorem run_forget {r : Reg} : t.Run (w.forget r) ρ ρ' ↔ t.Run w ρ ρ' := by
  induction t generalizing ρ ρ' with
  | nil => exact Iff.rfl
  | plain a i t ih => simp only [Run, World.fires_forget, ih]
  | arms b flag n yes j m no k t ihy ihn ih => simp only [Run, World.fires_forget, ihy, ihn, ih]

/-- A block that spares a register leaves it as it is. -/
theorem Run.of_spares {r : Reg} (h : t.Run w ρ ρ') (hs : t.Spares r) : ρ'.regs r = ρ.regs r := by
  induction t generalizing ρ ρ' with
  | nil => exact congrArg (·.regs r) h
  | plain a i t ih =>
    obtain ⟨ρ₁, hf, hrest⟩ := h
    exact (ih hrest hs.2.2).trans (hf.of_spares hs.1 hs.2.1)
  | arms b flag n yes j m no k t ihy ihn ih =>
    obtain ⟨ρ₁, ρ₂, harm, hf, hrest⟩ := h
    obtain ⟨hy, hn, hk, hc, ht⟩ := hs
    refine ((ih hrest ht).trans (hf.of_spares hk hc)).trans ?_
    exact harm.elim (fun h => ihy h.2 hy) fun h => ihn h.2 hn

/-- **A block that checks a register** can be carried out also where more has been noted of it. -/
theorem Ok.of_forget {r : Reg} (h : t.Ok (w.forget r) ρ) (hs : t.Spares r)
    (hr : ∀ κ, (ρ.regs r).kind? = some κ → w.Suits True r κ) : t.Ok w ρ := by
  induction t generalizing ρ with
  | nil => trivial
  | plain a i t ih =>
    obtain ⟨hi, hc, ht⟩ := hs
    refine ⟨h.1.of_forget fun κ hκ => (hr κ hκ).mono fun _ => hi, fun ρ₁ hf => ?_⟩
    refine ih (h.2 ρ₁ (World.fires_forget.mpr hf)) ht ?_
    rw [hf.of_spares hi hc]
    exact hr
  | arms b flag n yes j m no k t ihy ihn ih =>
    obtain ⟨hy, hn, hk, hc, ht⟩ := hs
    refine ⟨h.1.of_forget fun κ hκ => (hr κ hκ).mono fun _ => trivial, fun hf => ihy (h.2.1 hf) hy hr,
      fun hf => ihn (h.2.2.1 hf) hn hr, fun ρ₁ h₁ => ?_⟩
    have hsame : ρ₁.regs r = ρ.regs r := h₁.elim (fun h => h.2.of_spares hy) fun h => h.2.of_spares hn
    obtain ⟨hsafe, hrest⟩ := h.2.2.2 ρ₁ (h₁.imp (fun h => ⟨h.1, run_forget.mpr h.2⟩) fun h =>
      ⟨h.1, run_forget.mpr h.2⟩)
    have hr₁ : ∀ κ, (ρ₁.regs r).kind? = some κ → w.Suits True r κ := hsame ▸ hr
    refine ⟨hsafe.of_forget fun κ hκ => (hr₁ κ hκ).mono fun _ => hk, fun ρ₂ hf => ?_⟩
    refine ih (hrest ρ₂ (World.fires_forget.mpr hf)) ht ?_
    rw [hf.of_spares hk hc]
    exact hr₁

variable (w)

/-- **What is promised of a block:** begun as `P` says it can be carried out, and where it ends `Q`
holds of the environments at both ends. -/
def Does (t : Block) (P : Env → Prop) (Q : Env → Env → Prop) : Prop :=
  ∀ ρ, P ρ → t.Ok w ρ ∧ ∀ ρ', t.Run w ρ ρ' → Q ρ ρ'

variable {w} {P A : Env → Prop} {Q B R : Env → Env → Prop}

theorem does_nil (h : ∀ ρ, P ρ → Q ρ ρ) : nil.Does w P Q := fun ρ hρ =>
  ⟨trivial, fun _ e => e ▸ h ρ hρ⟩

theorem Does.append (ht : t.Does w P Q) (hu : u.Does w A B) (h : ∀ ρ ρ', P ρ → Q ρ ρ' → A ρ')
    (hR : ∀ ρ ρ₁ ρ', P ρ → Q ρ ρ₁ → B ρ₁ ρ' → R ρ ρ') : (t.append u).Does w P R := by
  intro ρ hρ
  obtain ⟨hok, hrun⟩ := ht ρ hρ
  refine ⟨hok.append fun ρ₁ h₁ => (hu ρ₁ (h ρ ρ₁ hρ (hrun ρ₁ h₁))).1, fun ρ' h' => ?_⟩
  obtain ⟨ρ₁, h₁, h₂⟩ := run_append.mp h'
  have hq := hrun ρ₁ h₁
  exact hR ρ ρ₁ ρ' hρ hq ((hu ρ₁ (h ρ ρ₁ hρ hq)).2 ρ' h₂)

theorem does_single {a : NodeId} {i : Instr NodeId} (hs : ∀ ρ, P ρ → w.Safe ρ i)
    (hf : ∀ ρ ρ', P ρ → w.Fires ρ i ρ' → Q ρ ρ') : (single a i).Does w P Q := by
  refine fun ρ hρ => ⟨⟨hs ρ hρ, fun _ _ => trivial⟩, fun ρ' h => ?_⟩
  obtain ⟨ρ₁, h₁, rfl⟩ := h
  exact hf ρ _ hρ h₁

theorem Does.mono (ht : t.Does w P Q) (hP : ∀ ρ, A ρ → P ρ) (hQ : ∀ ρ ρ', A ρ → Q ρ ρ' → B ρ ρ') :
    t.Does w A B := fun ρ hρ =>
  ⟨(ht ρ (hP ρ hρ)).1, fun ρ' h => hQ ρ ρ' hρ ((ht ρ (hP ρ hρ)).2 ρ' h)⟩

theorem Does.and (ht : t.Does w P Q) (ht' : t.Does w P B) :
    t.Does w P fun ρ ρ' => Q ρ ρ' ∧ B ρ ρ' := fun ρ hρ =>
  ⟨(ht ρ hρ).1, fun ρ' h => ⟨(ht ρ hρ).2 ρ' h, (ht' ρ hρ).2 ρ' h⟩⟩

/-- **A branch** whose arms both lead to where they meet. -/
theorem does_arms {b n j m : NodeId} {flag : Reg} {yes no : Block} {k : Instr NodeId}
    (hs : ∀ ρ, P ρ → w.Safe ρ (.branch flag n : Instr NodeId))
    (hy : yes.Does w (fun ρ => P ρ ∧ ρ.regs flag = .val (.bool true)) Q)
    (hn : no.Does w (fun ρ => P ρ ∧ ρ.regs flag = .val (.bool false)) Q)
    (hk : ∀ ρ ρ₁, P ρ → Q ρ ρ₁ → w.Safe ρ₁ k ∧ ∀ ρ₂, w.Fires ρ₁ k ρ₂ → R ρ ρ₂) :
    (arms b flag n yes j m no k nil).Does w P R := by
  intro ρ hρ
  have hmid : ∀ ρ₁, (ρ.regs flag = .val (.bool true) ∧ yes.Run w ρ ρ₁) ∨
      (ρ.regs flag = .val (.bool false) ∧ no.Run w ρ ρ₁) → Q ρ ρ₁ := by
    rintro ρ₁ (⟨hf, hrun⟩ | ⟨hf, hrun⟩)
    · exact (hy ρ ⟨hρ, hf⟩).2 ρ₁ hrun
    · exact (hn ρ ⟨hρ, hf⟩).2 ρ₁ hrun
  refine ⟨⟨hs ρ hρ, fun hf => (hy ρ ⟨hρ, hf⟩).1, fun hf => (hn ρ ⟨hρ, hf⟩).1, fun ρ₁ h₁ => ?_⟩,
    fun ρ' hrun => ?_⟩
  · exact ⟨(hk ρ ρ₁ hρ (hmid ρ₁ h₁)).1, fun _ _ => trivial⟩
  · obtain ⟨ρ₁, ρ₂, h₁, hfires, rfl⟩ := hrun
    exact (hk ρ ρ₁ hρ (hmid ρ₁ h₁)).2 _ hfires

end Block

/-! ## Open branches -/

/-- Code with branches that are still open: blocks between them, and after the last one. -/
inductive Nest
  | flat (t : Block)
  | level (outer : Nest) (b : NodeId) (flag : Reg) (t : Block)

namespace Nest

/-- The code of a nest; it is not known yet where the branches lead to. -/
def code : Nest → Code
  | flat t => t.code
  | level outer b flag t => outer.code ++ (b, Instr.branch flag head) :: t.code

/-- The branches that are open, the innermost first. -/
def opened : Nest → List NodeId
  | flat _ => []
  | level outer b _ _ => b :: outer.opened

def Proper : Nest → Prop
  | flat t => t.Proper
  | level outer _ _ t => outer.Proper ∧ t.Proper

/-- One nest inside the other. -/
def cat (N : Nest) : Nest → Nest
  | flat u => match N with
    | flat t => flat (t.append u)
    | level outer b flag t => level outer b flag (t.append u)
  | level outer b flag t => level (N.cat outer) b flag t

variable {N M : Nest} (w : World)

/-- **The end of the nest is reached**: all flags on the way are set. -/
def Run : Nest → Env → Env → Prop
  | flat t, ρ, ρ' => t.Run w ρ ρ'
  | level outer _ flag t, ρ, ρ' => ∃ ρ₁, outer.Run ρ ρ₁ ∧ ρ₁.regs flag = .val (.bool true) ∧
    t.Run w ρ₁ ρ'

/-- **A branch is reached whose flag is not set.** -/
def Fails : Nest → Env → Env → Prop
  | flat _, _, _ => False
  | level outer _ flag _, ρ, ρ' => outer.Fails ρ ρ' ∨
    (outer.Run w ρ ρ' ∧ ρ'.regs flag = .val (.bool false))

/-- Every instruction of a nest that is reached can be carried out. -/
def Ok : Nest → Env → Prop
  | flat t, ρ => t.Ok w ρ
  | level outer _ flag t, ρ => outer.Ok ρ ∧ ∀ ρ₁, outer.Run w ρ ρ₁ →
    w.Safe ρ₁ (.branch flag head : Instr NodeId) ∧ (ρ₁.regs flag = .val (.bool true) → t.Ok w ρ₁)

variable {w} {ρ ρ' : Env}

@[simp] theorem code_cat (N M : Nest) : (N.cat M).code = N.code ++ M.code := by
  induction M with
  | flat u => cases N <;> simp [cat, code]
  | level outer b flag t ih => simp [cat, code, ih]

@[simp] theorem opened_cat (N M : Nest) : (N.cat M).opened = M.opened ++ N.opened := by
  induction M with
  | flat u => cases N <;> rfl
  | level outer b flag t ih => simp [cat, opened, ih]

theorem Proper.cat (hN : N.Proper) (hM : M.Proper) : (N.cat M).Proper := by
  induction M with
  | flat u =>
    cases N with
    | flat t => exact Block.Proper.append hN hM
    | level outer b flag t => exact ⟨hN.1, hN.2.append hM⟩
  | level outer b flag t ih => exact ⟨ih hM.1, hM.2⟩

theorem run_cat : (N.cat M).Run w ρ ρ' ↔ ∃ ρ₁, N.Run w ρ ρ₁ ∧ M.Run w ρ₁ ρ' := by
  induction M generalizing ρ' with
  | flat u =>
    cases N with
    | flat t => exact Block.run_append
    | level outer b flag t =>
      simp only [cat, Run, Block.run_append]
      exact ⟨fun ⟨ρ₁, h₁, hf, ρ₂, h₂, h₃⟩ => ⟨ρ₂, ⟨ρ₁, h₁, hf, h₂⟩, h₃⟩,
        fun ⟨ρ₂, ⟨ρ₁, h₁, hf, h₂⟩, h₃⟩ => ⟨ρ₁, h₁, hf, ρ₂, h₂, h₃⟩⟩
  | level outer b flag t ih =>
    simp only [cat, Run, ih]
    exact ⟨fun ⟨ρ₁, ⟨ρ₂, h₁, h₂⟩, h₃⟩ => ⟨ρ₂, h₁, ρ₁, h₂, h₃⟩,
      fun ⟨ρ₂, h₁, ρ₁, h₂, h₃⟩ => ⟨ρ₁, ⟨ρ₂, h₁, h₂⟩, h₃⟩⟩

theorem fails_cat : (N.cat M).Fails w ρ ρ' ↔
    N.Fails w ρ ρ' ∨ ∃ ρ₁, N.Run w ρ ρ₁ ∧ M.Fails w ρ₁ ρ' := by
  induction M with
  | flat u => cases N <;> simp [cat, Fails]
  | level outer b flag t ih =>
    simp only [cat, Fails, ih, run_cat]
    constructor
    · rintro ((h | ⟨ρ₁, h₁, h₂⟩) | ⟨⟨ρ₁, h₁, h₂⟩, hf⟩)
      · exact Or.inl h
      · exact Or.inr ⟨ρ₁, h₁, Or.inl h₂⟩
      · exact Or.inr ⟨ρ₁, h₁, Or.inr ⟨h₂, hf⟩⟩
    · rintro (h | ⟨ρ₁, h₁, h₂ | ⟨h₂, hf⟩⟩)
      · exact Or.inl (Or.inl h)
      · exact Or.inl (Or.inr ⟨ρ₁, h₁, h₂⟩)
      · exact Or.inr ⟨⟨ρ₁, h₁, h₂⟩, hf⟩

theorem Ok.cat (hN : N.Ok w ρ) (hM : ∀ ρ₁, N.Run w ρ ρ₁ → M.Ok w ρ₁) : (N.cat M).Ok w ρ := by
  induction M with
  | flat u =>
    cases N with
    | flat t => exact Block.Ok.append hN hM
    | level outer b flag t =>
      refine ⟨hN.1, fun ρ₁ h₁ => ⟨(hN.2 ρ₁ h₁).1, fun hf => ?_⟩⟩
      exact ((hN.2 ρ₁ h₁).2 hf).append fun ρ₂ h₂ => hM ρ₂ ⟨ρ₁, h₁, hf, h₂⟩
  | level outer b flag t ih =>
    refine ⟨ih fun ρ₁ h₁ => (hM ρ₁ h₁).1, fun ρ₂ h₂ => ?_⟩
    obtain ⟨ρ₁, h₁, h₂⟩ := run_cat.mp h₂
    exact (hM ρ₁ h₁).2 ρ₂ h₂

variable (w)

/-- **What is promised of a nest:** begun as `P` says it can be carried out; `Q` holds where its end
is reached, and `F` where a flag is not set. -/
structure Does (N : Nest) (P : Env → Prop) (Q F : Env → Env → Prop) : Prop where
  ok : ∀ {ρ}, P ρ → N.Ok w ρ
  run : ∀ {ρ ρ'}, P ρ → N.Run w ρ ρ' → Q ρ ρ'
  fails : ∀ {ρ ρ'}, P ρ → N.Fails w ρ ρ' → F ρ ρ'

variable {w} {P A : Env → Prop} {Q B R F D G : Env → Env → Prop} {t : Block}

theorem does_flat (h : t.Does w P Q) : (flat t).Does w P Q F where
  ok hρ := (h _ hρ).1
  run hρ hrun := (h _ hρ).2 _ hrun
  fails _ hfails := hfails.elim

theorem Does.cat (hN : N.Does w P Q F) (hM : M.Does w A B D) (h : ∀ ρ ρ', P ρ → Q ρ ρ' → A ρ')
    (hR : ∀ ρ ρ₁ ρ', P ρ → Q ρ ρ₁ → B ρ₁ ρ' → R ρ ρ') (hF : ∀ ρ ρ', P ρ → F ρ ρ' → G ρ ρ')
    (hD : ∀ ρ ρ₁ ρ', P ρ → Q ρ ρ₁ → D ρ₁ ρ' → G ρ ρ') : (N.cat M).Does w P R G where
  ok hρ := (hN.ok hρ).cat fun ρ₁ h₁ => hM.ok (h _ ρ₁ hρ (hN.run hρ h₁))
  run hρ hrun := by
    obtain ⟨ρ₁, h₁, h₂⟩ := run_cat.mp hrun
    have hq := hN.run hρ h₁
    exact hR _ ρ₁ _ hρ hq (hM.run (h _ ρ₁ hρ hq) h₂)
  fails hρ hfails := by
    rcases fails_cat.mp hfails with h₁ | ⟨ρ₁, h₁, h₂⟩
    · exact hF _ _ hρ (hN.fails hρ h₁)
    · have hq := hN.run hρ h₁
      exact hD _ ρ₁ _ hρ hq (hM.fails (h _ ρ₁ hρ hq) h₂)

theorem Does.mono (h : N.Does w P Q F) (hP : ∀ ρ, A ρ → P ρ)
    (hQ : ∀ ρ ρ', A ρ → Q ρ ρ' → B ρ ρ') (hF : ∀ ρ ρ', A ρ → F ρ ρ' → D ρ ρ') :
    N.Does w A B D where
  ok hρ := h.ok (hP _ hρ)
  run hρ hrun := hQ _ _ hρ (h.run (hP _ hρ) hrun)
  fails hρ hfails := hF _ _ hρ (h.fails (hP _ hρ) hfails)

/-- **Closing the innermost branch**: where its flag is not set, control goes to its end. -/
theorem Does.close {b n j k : NodeId} {flag : Reg} (h : (N.level b flag t).Does w P Q F)
    (hnoted : ∀ ρ ρ', P ρ → Q ρ ρ' ∨ F ρ ρ' → w.Noted (fun _ => True) ρ') :
    (N.cat (flat (.arms b flag n t j k .nil .nop .nil))).Does w P (fun ρ ρ' => Q ρ ρ' ∨ F ρ ρ') F where
  ok {ρ} hρ := by
    refine (h.ok hρ).1.cat fun ρ₁ h₁ => ?_
    obtain ⟨hsafe, hok⟩ := (h.ok hρ).2 ρ₁ h₁
    refine ⟨⟨hsafe.noted, hsafe.reads, hsafe.needs, by simp [Instr.creates], trivial⟩, hok, fun _ => trivial,
      fun ρ₂ h₂ => ?_⟩
    refine ⟨⟨hnoted ρ ρ₂ hρ ?_, by simp [Instr.inputs], trivial, by simp [Instr.creates], trivial⟩,
      fun _ _ => trivial⟩
    rcases h₂ with ⟨hf, h₂⟩ | ⟨hf, rfl⟩
    · exact Or.inl (h.run hρ ⟨ρ₁, h₁, hf, h₂⟩)
    · exact Or.inr (h.fails hρ (Or.inr ⟨h₁, hf⟩))
  run {ρ ρ'} hρ hrun := by
    obtain ⟨ρ₁, h₁, ρ₂, ρ₃, h₂, hnop, rfl⟩ := run_cat.mp hrun
    obtain rfl : ρ' = ρ₂ := hnop
    rcases h₂ with ⟨hf, h₂⟩ | ⟨hf, rfl⟩
    · exact Or.inl (h.run hρ ⟨ρ₁, h₁, hf, h₂⟩)
    · exact Or.inr (h.fails hρ (Or.inr ⟨h₁, hf⟩))
  fails {ρ ρ'} hρ hfails := by
    rcases fails_cat.mp hfails with h₁ | ⟨ρ₁, -, h₂⟩
    · exact h.fails hρ (Or.inl h₁)
    · exact h₂.elim

end Nest

end CountedMachine
