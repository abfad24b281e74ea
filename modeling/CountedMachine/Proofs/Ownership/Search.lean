import CountedMachine.Proofs.Ownership.Acceptance

/-! # The liveness search is exact

`Built.liveness_exact` reads the search off the listing itself, whatever operations have built it: it
refuses a start just when control can get from there into a loop, and returns otherwise with the nodes
that control can reach, each marked by whether an instruction that reads the register can be reached
from it. Nodes where control paths join are reached more than once and are no loops; `hooked` has one
of each. -/

namespace CountedMachine.Listing

variable {l : Listing} {code : Code} {r : Reg} {a b : NodeId}

/-- The steps of its code are the edges of a linked listing. -/
theorem Linked.step_iff_edge (hl : Linked l code) : Step code a b ↔ Edge l a b := by
  refine ⟨hl.edge_of_step, fun ⟨next, hnext, hb⟩ => ?_⟩
  obtain ⟨n, hn, -⟩ := bind_ok hnext
  obtain ⟨xs, i, ys, rfl⟩ := hl.mem_of_node hn
  obtain ⟨-, ns, -, -, hsucc, hstep, -⟩ := hl.exists_successors (a := a) (by simp)
  rw [hnext] at hsucc
  cases hsucc
  exact (hstep b).mpr hb

/-- A node is live when control can get from it to an instruction that reads the register. -/
theorem live_iff_reads (hl : Linked l code) : Live code r a ↔
    ∃ b i, Relation.ReflTransGen (Edge l) a b ∧ l.get b = .ok i ∧ i.reads r = true := by
  constructor
  · intro h
    induction h with
    | read ha hr => exact ⟨_, _, .refl, hl.get_eq ha, hr⟩
    | step hs _ ih =>
      obtain ⟨c, i, hreach, hi, hr⟩ := ih
      exact ⟨c, i, .head (hl.edge_of_step hs) hreach, hi, hr⟩
  · rintro ⟨b, i, hreach, hi, hr⟩
    induction hreach using Relation.ReflTransGen.head_induction_on with
    | refl => exact .read (hl.mem_of_get hi) hr
    | head hs _ ih => exact .step (hl.step_iff_edge.mpr hs) ih

/-- **The liveness search is exact** on every listing whose labels are among its nodes, from every
node. It refuses a back edge just when control can get from the start into a loop. Otherwise it returns,
its answer is about the nodes that control can reach from the start, and a node is marked as live just
when control can get from it to an instruction that reads the register. -/
theorem Built.liveness_exact (hb : Built l)
    (hlabels : ∀ {b i c}, (b, i) ∈ l.entries → i.label? = some c → c ∈ l.toList)
    (ha : a ∈ l.toList) (r : Reg) :
    let Reaches := Relation.ReflTransGen (Edge l)
    let looping := ∃ b, Reaches a b ∧ Relation.TransGen (Edge l) b b
    ((∃ b, l.liveness r a = .error (.backEdge b)) ↔ looping) ∧
    (¬ looping → ∃ live, l.liveness r a = .ok live ∧
      (∀ b, live.contains b = true ↔ Reaches a b) ∧
      ∀ b, Reaches a b → ∃ v, live[b]? = some v ∧
        (v = true ↔ ∃ c i, Reaches b c ∧ l.get c = .ok i ∧ i.reads r = true)) := by
  intro Reaches looping
  obtain ⟨code, hl⟩ := hb.linked
  rw [hl.toList_eq] at ha
  have hedge : Step code = Edge l := funext fun a => funext fun b => propext hl.step_iff_edge
  have hcode : ∀ b, Reach code a b → b ∈ ids code := by
    intro b hr
    rcases Relation.ReflTransGen.cases_tail hr with rfl | ⟨c, -, xs, i, ys, rfl, hb⟩
    · exact ha
    · refine targets_mem (fun d hd => ?_) hb
      rw [← hl.toList_eq]
      exact hlabels (hl.entries_eq ▸ (by simp : (c, i) ∈ xs ++ (c, i) :: ys)) hd
  have hloops : ∀ b, Loops code a b ↔ Reaches a b ∧ Relation.TransGen (Edge l) b b := by
    intro b
    unfold Loops Reach
    rw [hedge]
  rcases liveness_cases hl hcode r with ⟨b, e, hloop⟩ | ⟨live, e, hf⟩
  · have hloop : looping := ⟨b, (hloops b).mp hloop⟩
    exact ⟨⟨fun _ => hloop, fun _ => ⟨b, e⟩⟩, fun hnot => absurd hloop hnot⟩
  · have hreach : ∀ b, live.contains b = true ↔ Reaches a b := fun b => by
      rw [hf.iff_reach]
      unfold Reach
      rw [hedge]
    refine ⟨⟨fun ⟨b, e'⟩ => ?_, fun ⟨b, hb, hloop⟩ => ?_⟩, fun _ => ⟨live, e, hreach, fun b hb => ?_⟩⟩
    · rw [e] at e'
      cases e'
    · exact absurd (hedge ▸ hloop) (hf.acyclic ((hreach b).mpr hb))
    · obtain ⟨v, hv⟩ : ∃ v, live[b]? = some v := by
        rw [← Option.isSome_iff_exists, Std.HashMap.isSome_getElem?_eq_contains]
        exact (hreach b).mpr hb
      exact ⟨v, hv, (hf.right hv).trans (live_iff_reads hl)⟩

/-- A branch around a push of a register, and a jump from where the arms join. -/
def hooked (target : NodeId) : Listing where
  nodes := #[some ⟨.nop, none, some ⟨2⟩⟩, some ⟨.done, some ⟨4⟩, none⟩,
    some ⟨.branch ⟨1⟩ ⟨4⟩, some head, some ⟨3⟩⟩, some ⟨.push ⟨0⟩, some ⟨2⟩, some ⟨4⟩⟩,
    some ⟨.jump target, some ⟨3⟩, some tail⟩]
  free := []
  cursor := tail
  regs := #[]

theorem built_hooked (target : NodeId) : Built (hooked target) :=
  ((Built.empty.append (i := .branch ⟨1⟩ ⟨4⟩) rfl).append (i := .push ⟨0⟩) rfl).append
    (i := .jump target) rfl

theorem labels_hooked {target : NodeId} (h : target = head ∨ target = tail) {a b : NodeId}
    {i : Instr NodeId} (ha : (a, i) ∈ (hooked target).entries) (hi : i.label? = some b) :
    b ∈ (hooked target).toList := by
  have hentries : (hooked target).entries = [(head, .nop), (⟨2⟩, .branch ⟨1⟩ ⟨4⟩),
    (⟨3⟩, .push ⟨0⟩), (⟨4⟩, .jump target), (tail, .done)] := rfl
  rw [hentries] at ha
  show b ∈ [head, ⟨2⟩, ⟨3⟩, ⟨4⟩, tail]
  fin_cases ha <;> cases hi
  · decide
  · rcases h with rfl | rfl <;> decide

/-- Without the jump back, control goes down the unit. -/
theorem edge_hooked (h : Edge (hooked tail) a b) : a ≠ tail ∧ (b = tail ∨ a.index < b.index) := by
  obtain ⟨next, e, hb⟩ := h
  obtain ⟨_ | _ | _ | _ | _ | a⟩ := a
  all_goals cases e
  all_goals simp [Instr.isTerminal] at hb
  all_goals obtain rfl | rfl := hb <;> decide

theorem transGen_hooked (h : Relation.TransGen (Edge (hooked tail)) a b) :
    a ≠ tail ∧ (b = tail ∨ a.index < b.index) := by
  induction h with
  | single h => exact edge_hooked h
  | tail _ h ih =>
    obtain ⟨hne, hstep⟩ := edge_hooked h
    exact ⟨ih.1, hstep.imp_right (ih.2.resolve_left hne).trans⟩

/-- **A join is no loop:** the search refuses the jump back to the branch, and where the jump goes to
the end it finds the register live at the branch and not where the arms join. -/
theorem liveness_hooked : (∃ b, (hooked head).liveness ⟨0⟩ ⟨3⟩ = .error (.backEdge b)) ∧
    ∃ live, (hooked tail).liveness ⟨0⟩ ⟨2⟩ = .ok live ∧ live[(⟨2⟩ : NodeId)]? = some true ∧
      live[(⟨4⟩ : NodeId)]? = some false := by
  constructor
  · have hexact := (built_hooked head).liveness_exact (labels_hooked (.inl rfl)) (a := ⟨3⟩)
      (by decide) ⟨0⟩
    have h₂ : Edge (hooked head) ⟨2⟩ ⟨4⟩ := ⟨_, rfl, .tail _ (.head _)⟩
    have h₃ : Edge (hooked head) ⟨3⟩ ⟨4⟩ := ⟨_, rfl, .head _⟩
    have h₄ : Edge (hooked head) ⟨4⟩ head := ⟨_, rfl, .head _⟩
    have h₀ : Edge (hooked head) head ⟨2⟩ := ⟨_, rfl, .head _⟩
    exact hexact.1.mpr ⟨⟨4⟩, .single h₃, .tail (.tail (.single h₄) h₀) h₂⟩
  · have hexact := (built_hooked tail).liveness_exact (labels_hooked (.inr rfl)) (a := ⟨2⟩)
      (by decide) ⟨0⟩
    obtain ⟨live, e, -, hlive⟩ := hexact.2 fun ⟨a, _, hloop⟩ => by
      obtain ⟨hne, heq | hlt⟩ := transGen_hooked hloop
      · exact hne heq
      · exact Nat.lt_irrefl _ hlt
    have h₂ : Edge (hooked tail) ⟨2⟩ ⟨3⟩ := ⟨_, rfl, .head _⟩
    have h₃ : Edge (hooked tail) ⟨3⟩ ⟨4⟩ := ⟨_, rfl, .head _⟩
    obtain ⟨v, hv, hiff⟩ := hlive ⟨2⟩ .refl
    obtain ⟨w, hw, hiff'⟩ := hlive ⟨4⟩ (.head h₂ (.single h₃))
    rw [hiff.mpr ⟨⟨3⟩, .push ⟨0⟩, .single h₂, rfl, by decide⟩] at hv
    refine ⟨live, e, hv, hw.trans (congrArg some (Bool.eq_false_iff.mpr fun hw' => ?_))⟩
    obtain ⟨b, i, hreach, hi, hr⟩ := hiff'.mp hw'
    -- only the jump and the end can be reached, and neither reads anything
    rcases Relation.ReflTransGen.cases_head hreach with rfl | ⟨c, hc, hreach⟩
    · cases hi
      cases hr
    · obtain ⟨next, e, hc⟩ := hc
      cases e
      obtain rfl := List.mem_singleton.mp hc
      rcases Relation.ReflTransGen.cases_head hreach with rfl | ⟨d, hd, -⟩
      · cases hi
        cases hr
      · exact absurd rfl (edge_hooked hd).1

end CountedMachine.Listing
