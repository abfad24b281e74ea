import CountedMachine.Proofs.Matching.Sides

/-! # Closing branches

The branches of a nested pattern are closed one after the other, the innermost first. Each gets a label
behind the code of the first arm, from where control goes on through the labels of the outer ones
(`Closers`): wherever the pattern fails, control gets to the same place. -/

namespace CountedMachine

open Listing

/-- **Code that closes branches**: control goes through it, and the branches lead into it, so that control
gets to what follows it. -/
def Closers (lab : NodeId → NodeId) (ys cs : Code) : Prop :=
  ∀ {S : Stage} {A : Nat → Prop} {pre zs : Code}, S.code = pre ++ (cs ++ zs) →
    (∀ k, pre.length ≤ k → k < pre.length + cs.length → A k) →
    (∀ p ∈ ys, p.2.label? ≠ none → S.LeadsTo A (lab p.1) zs) ∧ ∀ m, S.Goes A (cs ++ zs) m [] zs m

section
variable {lab : NodeId → NodeId} {ys zs cs : Code} {b j k n : NodeId} {f : Reg}

theorem Listing.Flat.closers (h : Flat ys) (lab : NodeId → NodeId) : Closers lab ys [] :=
  fun {S A _ zs} _ _ => ⟨fun p hp hl => absurd (h p hp) hl, fun m => Stage.Goes.refl S A zs m⟩

/-- One more branch is closed, which is inside the others. -/
theorem Closers.level (h : Closers lab ys cs) (hz : Flat zs) (hb : b ∉ ids ys) :
    Closers (Function.update lab b n) (ys ++ (b, Instr.branch f head) :: zs)
      ((j, Instr.jump k) :: (n, Instr.nop) :: (k, Instr.nop) :: cs) := by
  intro S A pre ws hcode hA
  have hcs : S.code = (pre ++ [(j, Instr.jump k), (n, Instr.nop), (k, Instr.nop)]) ++ (cs ++ ws) := by
    rw [hcode]
    simp
  obtain ⟨hleads, hgo⟩ := h (A := A) hcs fun q hq hq' =>
    hA q (by simp at hq; omega) (by simp at hq' ⊢; omega)
  have hn : S.code = (pre ++ [(j, Instr.jump k)]) ++ (n, Instr.nop) :: ((k, Instr.nop) :: (cs ++ ws)) := by
    rw [hcode]
    simp
  have hk : S.code = (pre ++ [(j, Instr.jump k), (n, Instr.nop)]) ++ (k, Instr.nop) :: (cs ++ ws) := by
    rw [hcode]
    simp
  have hlast : ∀ m, S.Goes A ((k, Instr.nop) :: (cs ++ ws)) m [] ws m := fun m =>
    (Stage.goes_nop (hA _ (by simp) (by simp)) hk).trans (hgo m)
  refine ⟨fun p hp hl => ?_, fun m => (Stage.goes_jump (hA _ le_rfl (by simp)) hcode hk).trans (hlast m)⟩
  obtain hp | hp := List.mem_append.mp hp
  · rw [Function.update_of_ne fun e : p.1 = b => hb (e ▸ mem_ids hp)]
    exact hleads p hp hl
  · obtain rfl | hp := List.mem_cons.mp hp
    · rw [Function.update_self]
      exact ⟨_, .nop, _, hn, fun m => (Stage.goes_nop (hA _ (by simp) (by simp)) hn).trans (hlast m)⟩
    · exact absurd (hz p hp) hl

theorem steer_level (hz : Flat zs) (hb : b ∉ ids ys) :
    steer (Function.update lab b n) (ys ++ (b, Instr.branch f head) :: zs) =
      steer lab ys ++ (b, Instr.branch f n) :: zs := by
  have hys : steer (Function.update lab b n) ys = steer lab ys := by
    refine List.map_congr_left fun p hp => ?_
    rw [Function.update_of_ne fun e : p.1 = b => hb (e ▸ mem_ids hp)]
  rw [steer_append, steer_cons, hz.steer_eq, hys, Function.update_self]
  rfl

end

namespace Gen

variable {σ : Site} {s s₁ : GenState} {body xs ys us ws : Code} {br : Branch} {flag : Reg} {x : NodeId}
  {P₁ : Point}

/-- **Closing a branch** whose second arm is empty. -/
theorem Drawn.closes (h : Drawn σ s body s₁ (xs ++ (br.node, Instr.branch flag x) :: ws) P₁) {o : Option Reg}
    (hm : ∀ m ∈ o, Held s s₁ (xs ++ (br.node, Instr.branch flag x) :: ws) ⟨.merged, none⟩ m) :
    Runs (Gen.closeBranch br o) (Gen.closeBranch br o) s₁ fun _ s₂ =>
      ∃ n j k, Drawn σ s body s₂ (xs ++ (br.node, Instr.branch flag n) ::
        (ws ++ [(j, Instr.jump k), (n, Instr.nop), (k, joint o)])) P₁ ∧ Recoded s₁ s₂ := by
  refine Runs.bind h.beginElse fun br' s₂ hd₂ => ?_
  obtain ⟨j, label, hj, hd₂, hs₂⟩ := hd₂
  have hsplit : xs ++ (br.node, Instr.branch flag label) :: (ws ++ [(j, Instr.jump head), (label, Instr.nop)]) =
      (xs ++ (br.node, Instr.branch flag label) :: ws) ++ (j, Instr.jump head) :: [(label, Instr.nop)] := by
    simp
  rw [hsplit] at hd₂
  have hm₂ : ∀ m ∈ o, Held s s₂ ((xs ++ (br.node, Instr.branch flag label) :: ws) ++
      (j, Instr.jump head) :: [(label, Instr.nop)]) ⟨.merged, none⟩ m :=
    fun m hmem => (hm m hmem).congr hs₂ (by simp [owners, Instr.creates])
  refine (hd₂.meet hj hm₂).mono fun _ s₃ hd₃ => ?_
  obtain ⟨k, hd₃, hs₃⟩ := hd₃
  exact ⟨label, j, k, by simpa using hd₃, hs₂.trans hs₃⟩

/-- **Closing all branches** of a nested pattern. -/
theorem Drawn.steers {bs : List Branch} : ∀ {s₁ : GenState} {ys us : Code}, Open ys (bs.map (·.node)) →
    Drawn σ s body s₁ (ys ++ us) P₁ → Runs (Gen.ascend bs) (Gen.ascend bs) s₁ fun _ s₂ => ∃ lab cs,
      Drawn σ s body s₂ (steer lab ys ++ (us ++ cs)) P₁ ∧ Recoded s₁ s₂ ∧ Closers lab ys cs := by
  induction bs with
  | nil =>
    intro s₁ ys us hopen hd
    generalize hbs : ([] : List Branch).map (·.node) = nodes at hopen
    cases hopen with
    | flat hy => exact runs_pure ⟨id, [], by simpa [hy.steer_eq] using hd, .refl s₁, hy.closers id⟩
    | level => cases hbs
  | cons b bs ih =>
    intro s₁ ys us hopen hd
    generalize hbs : (b :: bs).map (·.node) = nodes at hopen
    cases hopen with
    | flat => cases hbs
    | @level ys zs node f rest hy hz =>
      obtain ⟨rfl, rfl⟩ := List.cons.inj hbs
      rw [List.append_assoc, List.cons_append] at hd
      have hb : b.node ∉ ids ys := by
        have hnd := hd.fine.linked.nodup
        simp only [ids_append, ids_cons, List.nodup_append, List.nodup_cons, List.mem_append,
          List.mem_cons] at hnd
        tauto
      refine Runs.bind (hd.closes (o := none) (by simp)) fun _ s₂ hd₂ => ?_
      obtain ⟨n, j, k, hd₂, hs₂⟩ := hd₂
      refine (ih hy hd₂).mono fun _ s₃ hd₃ => ?_
      obtain ⟨lab, cs, hd₃, hs₃, hclose⟩ := hd₃
      refine ⟨Function.update lab b.node n, _, ?_, hs₂.trans hs₃, hclose.level (j := j) (k := k) hz hb⟩
      rw [steer_level hz hb]
      simpa [joint] using hd₃

end Gen

end CountedMachine
