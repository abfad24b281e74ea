import CountedMachine.Proofs.Kinds.Exits
import CountedMachine.Proofs.Matching.Tests

/-! # The arms of a match

Code for a match consists of the code for its arms and of code that decides between them. An arm is a
stretch of code (`Side`) that was generated where the parts of the value are bound. Where its value is
used control goes on from its end; in tail position control does not leave it (`NotLeft`).

`Decides` says that the code for a match runs the right arm: from its start control gets to the arm
for a value that matches just if the value does, and from the end of an arm to the end of the match
without passing the other one. -/

namespace CountedMachine

open Listing

namespace Gen

/-! ## Code for an arm -/

/-- **Code for an expression is generated** in one of three ways. The register holds its value; there
is none where the code ends the unit. -/
inductive Codes (sub : Sub) (e : Expr) (s : GenState) : Option Reg → GenState → Prop
  | expr {out : Option Reg} {s' : GenState} (tail : Bool) : (sub.expr e tail).run s = .ok (out, s') →
      Codes sub e s out s'
  | value {r : Reg} {s' : GenState} : (sub.value e).run s = .ok (r, s') → Codes sub e s (some r) s'
  | tail {s' : GenState} : (sub.tail e).run s = .ok ((), s') → Codes sub e s none s'

/-- **What code for an expression is like**: its labels stand in it, and it is not left if it ends the
unit. -/
structure Coded (σ : Site) (sub : Sub) (e : Expr) (s : GenState) (body : Code) (x : Option Reg)
    (s' : GenState) (ys : Code) (P' : Point) : Prop where
  codes : Codes sub e s x s'
  drawn : Drawn σ s body s' ys P'
  inner : Inner ys
  ends : x = none → NotLeft ys
  mem : ∀ r ∈ x, r ∈ P'.regs
  stack : s.draft.stack <:+ s'.draft.stack

variable {α : Type} {σ : Site} {sub sub' : Sub} {e : Expr} {s s' : GenState} {body : Code} {P : Point}

/-- What is certain apart from where control gets to. -/
theorem Fine.alive (h : Fine σ s body P) : Fine σ s body { P with live := True } :=
  { h with made := ⟨h.made.regs, h.made.sure⟩ }

theorem Runs.self {x x' : Gen α} {Q : α → GenState → Prop} (h : Runs x x' s Q) :
    Runs x x s fun a s' => x.run s = .ok (a, s') ∧ Q a s' := by
  refine ⟨rfl, ?_⟩
  have hends := h.ends
  rcases hrun : x.run s with (e | f) | ⟨a, s'⟩
  · trivial
  · rw [hrun] at hends
    exact hends
  · rw [hrun] at hends
    exact ⟨rfl, hends⟩

section
variable (h : Serves σ sub sub' e) (hf : Fine σ s body P)
include h hf

theorem Serves.codesExpr (tail : Bool) : Runs (sub.expr e tail) (sub.expr e tail) s fun x s' =>
    ∃ ys P', Coded σ sub e s body x s' ys P' := by
  refine (h.expr tail hf.alive).self.mono fun x s' hx => ?_
  obtain ⟨hrun, t, P', hd, ht, hl, ha⟩ := hx
  exact ⟨t.code, P', .expr tail hrun, ⟨hd.fine, hd.writes, hd.later⟩, ht.shaped.inner,
    fun hx => (hl.stops trivial (ha.ends hx)).code_notLeft ht, ha.mem, ha.stack⟩

theorem Serves.codesValue : Runs (sub.value e) (sub.value e) s fun x s' =>
    ∃ ys P', Coded σ sub e s body (some x) s' ys P' := by
  refine (h.value hf.alive).self.mono fun x s' hx => ?_
  obtain ⟨hrun, t, P', hd, ht, hl, hr, hstack⟩ := hx
  exact ⟨t.code, P', .value hrun, ⟨hd.fine, hd.writes, hd.later⟩, ht.shaped.inner, by simp,
    by simpa using hr, hstack⟩

theorem Serves.codesTail : Runs (sub.tail e) (sub.tail e) s fun _ s' =>
    ∃ ys P', Coded σ sub e s body none s' ys P' := by
  refine (h.tail hf.alive).self.mono fun x s' hx => ?_
  obtain ⟨hrun, t, P', hd, ht, hl, hlive, hstack⟩ := hx
  exact ⟨t.code, P', .tail hrun, ⟨hd.fine, hd.writes, hd.later⟩, ht.shaped.inner,
    fun _ => (hl.stops trivial hlive).code_notLeft ht, by simp, hstack⟩

end

/-! ## How an arm ends -/

/-- **How the value of an arm is passed on**: it is moved into the register of the match, if there is
one. -/
inductive Ending (merged : Option Reg) : Option Reg → Code → Prop
  | moved {m x : Reg} (a : NodeId) : merged = some m → Ending merged (some x) [(a, .move m x)]
  | last : merged = none → Ending merged none []

/-- **An arm that has been written**, with what is bound above a height forgotten after it. -/
structure Written (σ : Site) (sub : Sub) (e : Expr) (s : GenState) (body : Code) (merged x : Option Reg)
    (height : Nat) (s₁ : GenState) (ys mv : Code) (s' : GenState) (P' : Point) : Prop where
  coded : Coded σ sub e s body x s₁ ys P'
  ending : Ending merged x mv
  drawn : Drawn σ s body s' (ys ++ mv) P'
  stack : ∀ vs : List Variable, vs.length = height → vs <:+ s.draft.stack → s'.draft.stack = vs

section
variable {β : Type} {P₁ : Point} {s₁ : GenState} {xs ys mv : Code} {merged x : Option Reg} {m : Reg} {n : Nat}

theorem Serves.codesMoved (h : Serves σ sub sub' e) (hf : Fine σ s body P) (m : Reg) (height : Nat)
    {g : Reg → Gen β} {R : β → GenState → Prop}
    (hg : ∀ {x s₁ ys mv s' P'}, Written σ sub e s body (some m) (some x) height s₁ ys mv s' P' →
      Runs (g x) (g x) s' R) :
    Runs (sub.value e >>= fun x => Gen.write (.move m x) >>= fun _ => Gen.forgetAbove height >>= fun _ => g x)
      (sub.value e >>= fun x => Gen.write (.move m x) >>= fun _ => Gen.forgetAbove height >>= fun _ => g x)
      s R := by
  refine Runs.bind (h.codesValue hf) fun x s₁ hd => ?_
  obtain ⟨ys, P₁, hc⟩ := hd
  have hx : x.index < s₁.regs.size := hc.drawn.fine.lt (hc.mem x rfl)
  have hgood : Listing.Good s₁.regs (.move m x) := good_of_plain rfl rfl (by simpa [Instr.inputs] using hx)
  refine Runs.bind (hc.drawn.write hgood (by simp [Instr.creates])) fun _ s₂ hd₂ => ?_
  obtain ⟨a, hd₂, hs₂⟩ := hd₂
  refine Runs.bind (hd₂.forgetAbove height) fun _ s₃ hd₃ => ?_
  obtain ⟨hd₃, rfl⟩ := hd₃
  refine hg ⟨hc, .moved a rfl, hd₃, fun vs hlen hvs => ?_⟩
  subst hlen
  exact drop_of_suffix (hvs.trans (hs₂.stack ▸ hc.stack))

theorem Serves.codesArm (h : Serves σ sub sub' e) (hf : Fine σ s body P) (merged : Option Reg)
    (height : Nat) : Runs (Gen.genArm sub e merged height) (Gen.genArm sub e merged height) s fun x s' =>
      ∃ s₁ ys mv P', Written σ sub e s body merged x height s₁ ys mv s' P' := by
  cases merged with
  | some m => exact h.codesMoved hf m height fun hw => runs_pure ⟨_, _, _, _, hw⟩
  | none =>
    refine Runs.bind (h.codesTail hf) fun _ s₁ hd => ?_
    obtain ⟨ys, P₁, hc⟩ := hd
    refine Runs.bind (hc.drawn.forgetAbove height) fun _ s₂ hd₂ => ?_
    obtain ⟨hd₂, rfl⟩ := hd₂
    refine runs_pure ⟨s₁, ys, [], P₁, hc, .last rfl, by simpa using hd₂, fun vs hlen hvs => ?_⟩
    subst hlen
    exact drop_of_suffix (hvs.trans hc.stack)

/-- **Both arms of a branch have been written**, and meet. -/
structure Joined (σ : Site) (sub : Sub) (yes no : Expr) (s : GenState) (body : Code) (P : Point)
    (merged : Option Reg) (s₁ : GenState) (xs : Code) (b : NodeId) (f : Reg) (ys : Code) (s' : GenState) where
  (x y : Option Reg)
  (s₂ s₃ s₄ : GenState)
  (us mv zs us' mv' : Code)
  (j k n : NodeId)
  (P₂ P₄ P' : Point)
  first : Coded σ sub yes s₁ (body ++ (xs ++ (b, Instr.branch f head) :: ys)) x s₂ us P₂
  moved : Ending merged x mv
  fine : Fine σ s₃ zs P
  stack : s₃.draft.stack = s.draft.stack
  second : Coded σ sub no s₃ zs y s₄ us' P₄
  moved' : Ending merged y mv'
  drawn : Drawn σ s body s' (xs ++ (b, Instr.branch f n) :: (ys ++ (us ++ (mv ++ (j, Instr.jump k) :: (n, Instr.nop) ::
    (us' ++ (mv' ++ [(k, joint merged)])))))) P'
  size : s₁.regs.size ≤ s'.regs.size
  merges : ∀ m ∈ merged, m.index < s'.regs.size

theorem Drawn.joins {b : Branch} {f : Reg} {yes no : Expr}
    (hd : Drawn σ s body s₁ (xs ++ (b.node, Instr.branch f head) :: ys) P₁) (h : Fine σ s body P)
    (hsuffix : s.draft.stack <:+ s₁.draft.stack)
    (hm : ∀ m ∈ merged, Held s s₁ (xs ++ (b.node, Instr.branch f head) :: ys) ⟨.merged, none⟩ m)
    (hyes : Serves σ sub sub' yes) (hno : Serves σ sub sub' no) :
    Runs (Gen.genArms sub b merged s.draft.stack.length yes no)
      (Gen.genArms sub b merged s.draft.stack.length yes no) s₁ fun out s' => out = merged ∧
        Nonempty (Joined σ sub yes no s body P merged s₁ xs b.node f ys s') := by
  unfold Gen.genArms
  refine Runs.bind (hyes.codesArm hd.fine merged _) fun x s₂ hx => ?_
  obtain ⟨r₂, us, mv, P₂, hx⟩ := hx
  have hstack₂ : s₂.draft.stack = s.draft.stack := hx.stack _ rfl hsuffix
  have hm₂ : ∀ m ∈ merged, Held s s₂ (xs ++ (b.node, Instr.branch f head) :: (ys ++ (us ++ mv))) ⟨.merged, none⟩ m :=
    fun m hmem => by simpa using (hm m hmem).trans hd hx.drawn
  have hd₂ := hd.trans hx.drawn
  rw [List.append_assoc, List.cons_append] at hd₂
  refine Runs.bind hd₂.beginElse fun b' s₃ hd₃ => ?_
  obtain ⟨j, n, hj, hd₃, hs₃⟩ := hd₃
  have hstack₃ : s₃.draft.stack = s.draft.stack := hs₃.stack.trans hstack₂
  have hm₃ : ∀ m ∈ merged, Held s s₃ (xs ++ (b.node, Instr.branch f n) :: (ys ++ (us ++ mv) ++
      [(j, .jump head), (n, .nop)])) ⟨.merged, none⟩ m :=
    fun m hmem => (hm₂ m hmem).congr hs₃ (by simp [owners, Instr.creates])
  -- the second arm starts where the branch was
  have hd₃ := hd₃.move (h.made.later hd₃.later) fun v hv => (h.stack v (hstack₃ ▸ hv)).1
  refine Runs.bind (hno.codesArm hd₃.fine merged _) fun y s₄ hy => ?_
  obtain ⟨r₄, us', mv', P₄, hy⟩ := hy
  have hm₄ : ∀ m ∈ merged, Held s s₄ ((xs ++ (b.node, Instr.branch f n) :: (ys ++ (us ++ mv))) ++ (j, .jump head) ::
      ((n, Instr.nop) :: (us' ++ mv'))) ⟨.merged, none⟩ m :=
    fun m hmem => by simpa using (hm₃ m hmem).trans hd₃ hy.drawn
  have hd₄ : Drawn σ s body s₄ ((xs ++ (b.node, Instr.branch f n) :: (ys ++ (us ++ mv))) ++ (j, .jump head) ::
      ((n, Instr.nop) :: (us' ++ mv'))) P₄ := by
    simpa using hd₃.trans hy.drawn
  refine Runs.bind (hd₄.meet hj hm₄) fun _ s₅ hd₅ => ?_
  obtain ⟨k, hd₅, hs₅⟩ := hd₅
  have hlater : s₁.Later s₅ :=
    ((hx.drawn.later.trans hs₃.later).trans hy.drawn.later).trans hs₅.later
  have hjoined : ∀ {s' : GenState}, Drawn σ s body s' ((xs ++ (b.node, Instr.branch f n) :: (ys ++ (us ++ mv))) ++
      (j, Instr.jump k) :: (((n, Instr.nop) :: (us' ++ mv')) ++ [(k, joint merged)])) P₄ →
      s₁.regs.size ≤ s'.regs.size → (∀ m ∈ merged, m.index < s'.regs.size) →
      Nonempty (Joined σ sub yes no s body P merged s₁ xs b.node f ys s') := fun hd' hsize hmerged =>
    ⟨_, _, _, _, _, _, _, _, _, _, j, k, n, _, _, _, hx.coded, hx.ending, hd₃.fine, hstack₃, hy.coded,
      hy.ending, by simpa using hd', hsize, hmerged⟩
  cases hx.ending with
  | last hnone =>
    subst hnone
    exact runs_pure ⟨rfl, hjoined hd₅ hlater.size (by simp)⟩
  | @moved m x a hsome =>
    subst hsome
    cases hy.ending with
    | last hnone => cases hnone
    | @moved m' y a' hsome =>
      obtain rfl : m = m' := Option.some.inj hsome
      have hm₅ : New s s₅ ⟨.merged, none⟩ m := (hm₄ m rfl).toNew.later hs₅.later
      have hx₅ : x.index < s₅.regs.size := (hx.drawn.fine.lt (hx.coded.mem x rfl)).trans_le
        ((hs₃.later.trans hy.drawn.later).trans hs₅.later).size
      have hy₅ : y.index < s₅.regs.size :=
        (hy.drawn.fine.lt (hy.coded.mem y rfl)).trans_le hs₅.later.size
      refine Runs.bind (hd₅.agree hm₅ hx₅ hy₅) fun _ s₆ hd₆ => ?_
      obtain ⟨hd₆, hag⟩ := hd₆
      refine runs_pure ⟨rfl, hjoined hd₆ (hag.size ▸ hlater.size) ?_⟩
      rintro _ ⟨⟩
      exact hag.size ▸ hm₅.lt

end

/-! ## Matches -/

/-- **An arm in the code for a match**: what stands before it and after it there, the states between
which it was generated, and the register with its value. -/
structure Side where
  before : Code
  code : Code
  after : Code
  start : GenState
  value : Option Reg
  fin : GenState

/-- **The arm was generated for an expression**, where variables for the registers `rs` had been added
to those of the match. -/
structure Side.Holds (k : Side) (σ : Site) (sub : Sub) (e : Expr) (rs : List Reg) (s : GenState)
    (ys : Code) : Prop where
  split : ys = k.before ++ (k.code ++ k.after)
  coded : ∃ xs P P', Fine σ k.start xs P ∧ Coded σ sub e k.start xs k.value k.fin k.code P'
  stack : k.start.draft.stack = fixed rs.reverse ++ s.draft.stack

/-- A place that is not in the arm, where the match begins at the place `n`. -/
def Side.Apart (k : Side) (n pc : Nat) : Prop :=
  pc < n + k.before.length ∨ n + k.before.length + k.code.length ≤ pc

/-- **A place in the code for a match that is in neither arm.** -/
def Between (n : Nat) (ys : Code) (yes no : Option Side) (pc : Nat) : Prop :=
  (n ≤ pc ∧ pc < n + ys.length) ∧ (∀ k ∈ yes, k.Apart n pc) ∧ ∀ k ∈ no, k.Apart n pc

/-- **From the end of an arm control gets to the end of the match**, and the value of the arm to the
register of the match, whatever the arm has made of the machine. The first registers are as they were before
the arm. -/
def Rejoins (S : Stage) (A : Nat → Prop) (x out : Option Reg) (n : Nat) (m : Memory) (xs after : Code) :
    Prop :=
  ∀ S₁ : Stage, S₁.program = S.program → S₁.code = S.code → ∀ r ∈ x, ∀ m₁ u, m₁.regs.size = m.regs.size →
    (∀ q : Reg, q.index < n → m₁.reg? q = m.reg? q) → m₁.reg? r = some u → m₁.heap.Live u →
      ∃ q ∈ out, ∃ m₂, S₁.Goes A xs m₁ [] after m₂ ∧ m₂.reg? q = some u

theorem rejoins_none {S : Stage} {A : Nat → Prop} {out : Option Reg} {n : Nat} {m : Memory} {xs after : Code} :
    Rejoins S A none out n m xs after := fun _ _ _ r hr => by cases hr

theorem rejoins_refl {S : Stage} {A : Nat → Prop} {out : Option Reg} {n : Nat} {m : Memory} {xs : Code} :
    Rejoins S A out out n m xs xs := fun S₁ _ _ r hr m₁ _ _ _ hu _ => ⟨r, hr, m₁, Stage.Goes.refl S₁ A xs m₁, hu⟩

/-- **An arm is left** for the end of the match: its value is moved, and then control gets on. -/
theorem Ending.rejoins {S : Stage} {A : Nat → Prop} {pre xs mv : Code} {merged x : Option Reg}
    {m : Memory} {n : Nat} (h : Ending merged x mv) (after : Code) (hcode : S.code = pre ++ (mv ++ xs))
    (hA : ∀ q, pre.length ≤ q → q < pre.length + mv.length → A q)
    (hsize : ∀ q ∈ merged, q.index < m.regs.size)
    (hgo : ∀ S₁ : Stage, S₁.program = S.program → S₁.code = S.code → ∀ m₁ : Memory,
      (∀ q : Reg, q.index < n → q ∉ merged → m₁.reg? q = m.reg? q) → S₁.Goes A xs m₁ [] after m₁) :
    Rejoins S A x merged n m (mv ++ xs) after := by
  cases h with
  | last => exact rejoins_none
  | @moved d x a hsome =>
    subst hsome
    rintro S₁ hp hc _ ⟨⟩ m₁ u hsame hkeep hu hlive
    obtain ⟨h', hinc⟩ := Heap.exists_inc hlive
    have hd : d.index < m₁.regs.size := hsame ▸ hsize d rfl
    have hmove := Stage.goes_move (hA _ le_rfl (by simp)) (hc.trans hcode) hd hu hinc
    refine ⟨d, rfl, (m₁.withHeap h').set d u, hmove.trans (hgo S₁ hp hc _ fun q hq hne => ?_),
      Memory.reg?_set_self hd⟩
    rw [Memory.reg?_set_ne (by rintro rfl; exact hne rfl)]
    exact hkeep q hq

theorem Stage.goes_joint {S : Stage} {A : Nat → Prop} {pre xs : Code} {a : NodeId} {o : Option Reg}
    (hA : A pre.length) (h : S.code = pre ++ (a, joint o) :: xs) (m : Memory) :
    S.Goes A ((a, joint o) :: xs) m [] xs m := by
  cases o with
  | none => exact Stage.goes_nop hA h
  | some r => exact Stage.goes_merge hA h

/-- **Control gets to an arm**, and from its end to the end of the match. -/
def Side.Reached (k : Side) (S : Stage) (A : Nat → Prop) (ys after : Code) (out : Option Reg)
    (n : Nat) (m : Memory) (ls : List (Value × Nat)) (Q : Memory → Prop) : Prop :=
  ∃ m', S.Goes A (ys ++ after) m ls (k.code ++ (k.after ++ after)) m' ∧ m.Grows n m' ∧
    Rejoins S A k.value out k.start.regs.size m' (k.after ++ after) after ∧ Q m'

/-- **A machine that is about to match a value**: the heap is in order, there are registers enough, and
the register holds the value. -/
structure Poised (types : Array StructType) (n : Nat) (v : Reg) (m : Memory) (w : Value) : Prop where
  proper : m.heap.Proper types
  size : n ≤ m.regs.size
  live : m.heap.Live w
  reg : m.reg? v = some w

/-- **The code for a match runs the right arm.** A value that matches gets control to the first arm,
with its parts in the registers that are bound there; one that does not match to the second arm, or
there is none and a guard fails. The fields that are read are those that the pattern asks for. -/
structure Decides (σ : Site) (sub : Sub) (v : Reg) (p : Pattern) (yes : Expr) (no : Option Expr)
    (s : GenState) (ys : Code) (s' : GenState) (out : Option Reg) (k k' : Option Side) (rs : List Reg) :
    Prop where
  first : ∀ j ∈ k, j.Holds σ sub yes rs s ys
  second : ∀ j ∈ k', ∃ e ∈ no, j.Holds σ sub e [] s ys
  fits : ∀ {S : Stage} {before after : Code} {m : Memory} {w : Value}, S.program.types = σ.types →
    S.code = before ++ (ys ++ after) → Poised σ.types s'.regs.size v m w →
    s.Knows v m.heap (.value w) → p.fits m.heap (.value w) = true → ∃ j ∈ k,
      j.Reached S (Between before.length ys k k') ys after out s.regs.size m
        (p.trial m.heap (.value w)).loads fun m' => List.Forall₂ m'.Holds rs (p.bound m.heap (.value w))
  misses : ∀ {S : Stage} {before after : Code} {m : Memory} {w : Value}, S.program.types = σ.types →
    S.code = before ++ (ys ++ after) → Poised σ.types s'.regs.size v m w →
    s.Knows v m.heap (.value w) → p.fits m.heap (.value w) = false →
      (no = none ∧ S.Fails (Between before.length ys k k') (ys ++ after) m
        (p.trial m.heap (.value w)).loads) ∨
      ∃ j ∈ k', j.Reached S (Between before.length ys k k') ys after out s.regs.size m
        (p.trial m.heap (.value w)).loads fun _ => True

theorem Poised.over {types : Array StructType} {n n' : Nat} {v : Reg} {m : Memory} {w : Value}
    (h : Poised types n v m w) (hn : n' ≤ n) : m.Over types m.heap n' :=
  ⟨h.proper, Heap.Extends.refl _, h.proper.arena, hn.trans h.size⟩

theorem Poised.le {types : Array StructType} {n n' : Nat} {v : Reg} {m : Memory} {w : Value}
    (h : Poised types n v m w) (hn : n' ≤ n) : Poised types n' v m w :=
  { h with size := hn.trans h.size }

theorem Poised.holds {types : Array StructType} {n : Nat} {v : Reg} {m : Memory} {w : Value}
    (h : Poised types n v m w) : m.Holds v (.value w) := ⟨w, h.reg, rfl⟩

/-- The code that a step has written for a match runs the right arm. -/
def Decided (σ : Site) (sub : Sub) (v : Reg) (p : Pattern) (yes : Expr) (no : Option Expr)
    (s : GenState) (body : Code) (out : Option Reg) (s' : GenState) : Prop :=
  ∃ ys P' k k' rs, Drawn σ s body s' ys P' ∧ Decides σ sub v p yes no s ys s' out k k' rs

end Gen

end CountedMachine
