import CountedMachine.Proofs.Machine.Chores

/-! # Calls forget nothing

At a call, a return or a yield nothing is in the making and no scope is open. The frame that is left gives
back its arguments and its closure; the value it hands over is at zero in the caller, where it is due
(`neat_returnWith`). -/

namespace CountedMachine

open Heap

variable {p : Program} [p.Origin] {B R : Multiset ObjId} {K : Array Value} {h h₀ : Heap} {consts : Array Value}
  {stack : List Value} {stats : CallCounts} {callers : Array Frame} {f : Frame} {n : Nat} {v : Value}
  {q : Progress}

theorem Heap.Sound.undefined_ok (hs : Sound h R []) (tag : String) : Sound (h.undefined tag).1 R [] :=
  Sound.allocate (by simpa [Object.refs, Object.owned, refsOf_nil] using hs) trivial

/-- **Leaving a frame** with a value that carries one reference. -/
theorem Running.neat_returnWith (hc : Clean h [] ∅ [] n) (ht : Tame h₀ h) (hconsts : consts = K)
    (hs : Sound h (refsOf f.args + (refsOf f.closure.toList + (refsOf [v] + R))) [])
    (hwait : Waiting p h₀ callers.toList.reverse f.ret)
    (e : Running.returnWith v ⟨⟨h, consts, stack, stats⟩, callers, f⟩ = .ok q) : q.Neat p K ∅ [] n h₀ := by
  obtain ⟨m₁, hm₁, e⟩ := bind_ok e
  obtain ⟨h₁, e₁, rfl⟩ := Machine.overHeap_ok hm₁
  obtain ⟨m₂, hm₂, e⟩ := bind_ok e
  obtain ⟨h₂, e₂, rfl⟩ := Machine.overHeap_ok hm₂
  have hc₁ := hc.unrefAll e₁
  have hc₂ := hc₁.unrefAll e₂
  have ht₂ := (ht.trans (hc.swept.toSteady.tame_unrefAll e₁)).trans (hc₁.swept.toSteady.tame_unrefAll e₂)
  cases hback : callers.back? with
  | none =>
    rw [hback] at e
    cases e
    exact ⟨ht₂, hconsts, hc₂⟩
  | some caller =>
    rw [hback] at e
    obtain ⟨m₃, hm₃, e⟩ := bind_ok e
    obtain ⟨h₃, e₃, rfl⟩ := Machine.overHeap_ok hm₃
    obtain ⟨cs, rfl⟩ := Array.back?_eq_some_iff.mp hback
    have hlist : (cs.push caller).toList.reverse = caller :: cs.toList.reverse := by simp
    rw [hlist] at hwait
    cases hret : f.ret with
    | none =>
      rw [hret] at hwait
      cases hwait
    | some dst =>
      rw [hret] at hwait e
      cases hwait with
      | caller hpark hrest =>
        obtain ⟨f', hf, e⟩ := bind_ok e
        cases e
        have hset := Frame.write_ok hf
        have hs₂ := (hs.unrefAll_ok e₁).unrefAll_ok e₂
        obtain ⟨κ, hκ, hv⟩ := exists_has (live_of_le hs₂ (Multiset.le_add_right _ _))
        refine ⟨ht₂.trans (onward_release e₃).tame, hconsts, hset.scopes.trans hpark.scope,
          (hc₂.release e₃).mono ?_, fun hx => absurd hx (Set.notMem_empty _)⟩
        have hdue := hpark.home.vetted.due_of_creates hpark.reached hpark.instr rfl rfl
          ⟨⟨κ, hκ, rfl⟩, rfl⟩ (Env.set_self _ _) hv (hset.pc.trans hpark.place) hset.self
        rw [Running.due, show f'.unit = caller.unit from hset.unit]
        exact hdue

namespace Working

variable {s : Running} {w : World} {ρ : Env} {limit : Nat} {i : Instr Nat} (hw : Working p B s w ρ)
  (hu : s.Upkept p K ρ n)
include hw hu

/-- In a calm frame nothing is in the making. -/
theorem neat_of_calm (hi : (code p s)[s.cur.pc]? = some i) (hadj : ∀ op r, i ≠ .adjust op r) (hc : ρ.Calm)
    (hneat : ∀ q, Clean s.machine.heap [] ∅ [] n → s.advance.exec p limit i = .ok q →
      q.Neat p K ∅ [] n s.machine.heap) : Neat p K n limit s ρ i := by
  intro q e
  obtain ⟨hempty, hnil⟩ := hw.making_of_whole hc.whole
  rw [hempty, hnil]
  exact hneat q (hnil ▸ hw.clean_of_whole hu hi hadj hc.whole) e

/-! ## Calls -/

/-- A call that does not take place. -/
theorem neat_refusal {dst func : Reg} {nargs : Nat} {checked : Bool} (reason : CallRefusal)
    (hi : (code p s)[s.cur.pc]? = some (.call dst func nargs checked)) (hc : ρ.Calm)
    (hclean : Clean s.machine.heap [] ∅ [] n)
    (e : Running.refuse reason s.machine.stack.reverse dst
      ⟨{ s.machine with stack := [] }, s.callers, { s.cur with pc := s.cur.pc + 1 }⟩ = .ok q) :
    q.Neat p K ∅ [] n s.machine.heap := by
  have hsound := (hw.good_taken hc).sound
  have hgo : w.Goes ρ (.call dst func nargs checked) (some (s.cur.pc + 1))
      { ρ.set dst (.val (.obj .undefined)) with pushed := 0 } (s.cur.pc + 1) := ⟨⟨_, by simp, rfl⟩, rfl⟩
  obtain ⟨-, hnil⟩ := hw.making_of_whole hc.whole
  obtain ⟨⟨h, consts, stack, stats⟩, callers, f⟩ := s
  obtain ⟨s₁, hs₁, e⟩ := bind_ok e
  obtain ⟨h₁, e₁, rfl⟩ := Running.overHeap_ok hs₁
  obtain ⟨h', v, f', hg, hset, rfl⟩ := Running.storeFrom_ok e
  obtain ⟨rfl, rfl⟩ := Prod.mk.inj (Except.ok.inj hg)
  have hc₁ := hclean.unrefAll e₁
  obtain ⟨hc₂, ht₂⟩ := hc₁.adds (hsound.unrefAll_ok e₁) (adds_undefined h₁ reason.tag)
  have hh : Has (h₁.undefined reason.tag).1 (h₁.undefined reason.tag).2 (.obj .undefined) := by
    obtain ⟨r, hr, hgain⟩ := hc₁.gains_of (.undefined reason.tag [])
    rw [Heap.undefined, hr]
    exact ⟨_, hgain.self, rfl⟩
  refine ⟨(hclean.swept.toSteady.tame_unrefAll e₁).trans ht₂, hu.consts, hset.scopes.trans hnil, hc₂.mono ?_,
    fun hx => absurd hx (Set.notMem_empty _)⟩
  have hdue := hw.rests.home.vetted.due_of_creates hw.rests.reached hi rfl rfl hgo (Env.set_self _ _) hh hset.pc
    hset.self
  rw [Running.due, show f'.unit = f.unit from hset.unit]
  exact hdue

/-- **A call.** -/
theorem neat_call {dst func : Reg} {nargs : Nat} {checked : Bool}
    (hi : (code p s)[s.cur.pc]? = some (.call dst func nargs checked)) :
    Neat p K n limit s ρ (.call dst func nargs checked) := by
  obtain ⟨hc, hn, -⟩ := (hw.safe hi).needs
  refine hw.neat_of_calm hu hi (by simp) hc fun q hclean e => ?_
  have hrefuse := fun reason => hw.neat_refusal hu (q := q) reason hi hc hclean
  have hconsts := hu.consts
  have hpushed := hw.pushed
  obtain ⟨⟨h, consts, stack, stats⟩, callers, f⟩ := s
  obtain ⟨⟨m, args⟩, hargs, e⟩ := bind_ok e
  obtain ⟨rfl, rfl⟩ := Prod.mk.inj (Except.ok.inj (hargs.symm.trans (takeArgs_eq (hpushed.trans hn))))
  obtain ⟨v, hv, e⟩ := bind_ok e
  obtain ⟨res, -, e⟩ := bind_ok e
  cases res with
  | ok unit =>
    dsimp only at e
    split at e
    · exact hrefuse _ e
    · obtain ⟨m, hm, e⟩ := bind_ok e
      obtain ⟨h₁, e₁, rfl⟩ := Machine.overHeap_ok hm
      obtain ⟨callee, hcallee, e⟩ := bind_ok e
      cases e
      have hnew := Frame.new_of_frame hcallee
      exact ⟨(onward_inc e₁).tame, hconsts, hnew.scopes, (hclean.inc_nil e₁).grow _,
        fun hx => absurd hx (Set.notMem_empty _)⟩
  | error reason =>
    dsimp only at e
    split at e
    · cases e
    · exact hrefuse _ e

/-! ## Returns -/

theorem neat_ret {src : Reg} (hi : (code p s)[s.cur.pc]? = some (.ret src)) :
    Neat p K n limit s ρ (.ret src) := by
  obtain ⟨hc, hn⟩ := (hw.safe hi).needs
  refine hw.neat_of_calm hu hi (by simp) hc fun q hclean e => ?_
  have hg := (hw.good_left (r := src) hi rfl hc (by simp [Instr.consumes, eq_comm])).sound
  have hstack : s.machine.stack = [] := List.eq_nil_of_length_eq_zero (hw.pushed.trans hn)
  have hconsts := hu.consts
  have hwait := hw.waiting
  obtain ⟨⟨h, consts, stack, stats⟩, callers, f⟩ := s
  obtain rfl : stack = [] := hstack
  obtain ⟨v, hv, e⟩ := bind_ok e
  obtain rfl : v = f.get src := Frame.read_ok hv
  refine Running.neat_returnWith (R := framesRefs p callers.toList + refsOf consts.toList + B) hclean (.refl _)
    hconsts ?_ hwait e
  simp only [List.reverse_nil, refsOf_nil, zero_add] at hg
  convert hg using 1
  dsimp only
  abel

theorem neat_done (hi : (code p s)[s.cur.pc]? = some .done) : Neat p K n limit s ρ .done := by
  obtain ⟨hc, hn⟩ := (hw.safe hi).needs
  refine hw.neat_of_calm hu hi (by simp) hc fun q hclean e => ?_
  have hg := (hw.good_taken hc).sound
  rw [Frame.refs, hw.rests.regRefs_done hi hc] at hg
  have hstack : s.machine.stack = [] := List.eq_nil_of_length_eq_zero (hw.pushed.trans hn)
  have hconsts := hu.consts
  have hwait := hw.waiting
  obtain ⟨⟨h, consts, stack, stats⟩, callers, f⟩ := s
  obtain rfl : stack = [] := hstack
  refine Running.neat_returnWith (R := framesRefs p callers.toList + refsOf consts.toList + B) hclean (.refl _)
    hconsts ?_ hwait e
  simp only [List.reverse_nil, refsOf_nil, zero_add] at hg
  simpa only [refsOf_nilValue, zero_add, add_assoc] using hg

/-- **A tail call.** -/
theorem neat_tailCall {func : Reg} {nargs : Nat} (hi : (code p s)[s.cur.pc]? = some (.tailCall func nargs)) :
    Neat p K n limit s ρ (.tailCall func nargs) := by
  obtain ⟨hc, hn⟩ := (hw.safe hi).needs
  refine hw.neat_of_calm hu hi (by simp) hc fun q hclean e => ?_
  have hg := (hw.good_left (r := func) hi rfl hc (by simp [Instr.consumes, eq_comm])).sound
  have hconsts := hu.consts
  have hwait := hw.waiting
  have hpushed := hw.pushed
  obtain ⟨⟨h, consts, stack, stats⟩, callers, f⟩ := s
  obtain ⟨⟨m, args⟩, hargs, e⟩ := bind_ok e
  obtain ⟨rfl, rfl⟩ := Prod.mk.inj (Except.ok.inj (hargs.symm.trans (takeArgs_eq (hpushed.trans hn))))
  obtain ⟨v, hv, e⟩ := bind_ok e
  obtain rfl : v = f.get func := Frame.read_ok hv
  obtain ⟨res, -, e⟩ := bind_ok e
  cases res with
  | ok unit =>
    obtain ⟨m₁, hm₁, e⟩ := bind_ok e
    obtain ⟨h₁, e₁, rfl⟩ := Machine.overHeap_ok hm₁
    obtain ⟨m₂, hm₂, e⟩ := bind_ok e
    obtain ⟨h₂, e₂, rfl⟩ := Machine.overHeap_ok hm₂
    obtain ⟨callee, hcallee, e⟩ := bind_ok e
    cases e
    have hnew := Frame.new_of_frame hcallee
    have hc₁ := hclean.unrefAll e₁
    exact ⟨(hclean.swept.toSteady.tame_unrefAll e₁).trans (hc₁.swept.toSteady.tame_unrefAll e₂), hconsts,
      hnew.scopes, (hc₁.unrefAll e₂).grow _, fun hx => absurd hx (Set.notMem_empty _)⟩
  | error reason =>
    -- the frame is left with an error value
    obtain ⟨m₁, hm₁, e⟩ := bind_ok e
    obtain ⟨h₁, e₁, rfl⟩ := Machine.overHeap_ok hm₁
    obtain ⟨m₂, hm₂, e⟩ := bind_ok e
    obtain ⟨h₂, e₂, rfl⟩ := Machine.overHeap_ok hm₂
    obtain ⟨m₃, hm₃, e⟩ := bind_ok e
    obtain ⟨h₃, e₃, rfl⟩ := Machine.overHeap_ok hm₃
    have hc₁ := hclean.unrefAll e₁
    have hs₂ := (hg.unrefAll_ok e₁).unref_ok e₂
    have hc₂ := hc₁.unref e₂
    obtain ⟨hc₃, ht₃⟩ := hc₂.adds hs₂ (adds_undefined h₂ reason.tag)
    have hs₃ := (hs₂.undefined_ok reason.tag).inc_ok e₃
    refine Running.neat_returnWith (R := framesRefs p callers.toList + refsOf consts.toList + B)
      (hc₃.inc (fun x hx => Or.inl (Value.eq_of_mem_asObj? hx)) e₃) ?_ hconsts ?_ hwait e
    · exact ((hclean.swept.toSteady.tame_unrefAll e₁).trans (hc₁.swept.toSteady.onward_unref e₂).tame).trans
        (ht₃.trans (onward_inc e₃).tame)
    · convert hs₃ using 1
      dsimp only
      abel

/-! ## Yields -/

theorem neat_yield {src : Reg} (hi : (code p s)[s.cur.pc]? = some (.yield src)) :
    Neat p K n limit s ρ (.yield src) := by
  obtain ⟨hc, -⟩ := (hw.safe hi).needs
  refine hw.neat_of_calm hu hi (by simp) hc fun q hclean e => ?_
  have hconsts := hu.consts
  obtain ⟨⟨h, consts, stack, stats⟩, callers, f⟩ := s
  obtain ⟨v, -, e⟩ := bind_ok e
  obtain ⟨m, hm, e⟩ := bind_ok e
  obtain ⟨h₁, e₁, rfl⟩ := Machine.overHeap_ok hm
  cases e
  exact ⟨(onward_inc e₁).tame, hconsts, hclean.inc_nil e₁⟩

end Working

end CountedMachine
