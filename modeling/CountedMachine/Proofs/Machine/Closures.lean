import CountedMachine.Proofs.Machine.Execution

/-! # Closures and recursive scopes

A closure is allocated without code and owned by its register from the start; until it gets its code
it is one of the shells of the frame. The closures that are bound together get their code inside one
recursive scope, which is sealed when all of them have joined it. -/

namespace CountedMachine

open Heap

namespace Working

variable {crowded : Prop} {p : Program} [p.Origin] {B : Multiset ObjId} {s : Running} {w : World} {ρ : Env}
  {limit : Nat} (hw : Working p B s w ρ)
include hw

/-! ## Allocating -/

theorem shells_alloc {dst : Reg} {x : ObjId} {f' : Frame}
    (hi : (code p s)[s.cur.pc]? = some (.allocClosure dst))
    (hgo : w.Goes ρ (.allocClosure dst) (some (s.cur.pc + 1)) (ρ.set dst (.val .shell)) (s.cur.pc + 1))
    (hfol : Frame.Follows (.allocClosure dst) (s.cur.pc + 1) s.cur f') (hx : f'.get dst = .obj x) :
    f'.shells (ρ.set dst (.val .shell)) = insert x (s.cur.shells ρ) := by
  have hv := hw.rests.home.vetted
  have hu := hv.counted_of_shell (hw.rests.reached.step hi hgo) (Env.set_self _ _)
  have hvoid : ρ.regs dst ≠ .val .shell := by
    rcases hv.void_of_creates hu hw.rests.reached hi rfl with e | ⟨e, -⟩
    · rw [e]
      simp
    · cases e
  have hother : ∀ {q}, q ≠ dst → (ρ.set dst (.val .shell)).regs q = ρ.regs q ∧
      f'.get q = s.cur.get q := fun hq =>
    ⟨Env.set_of_ne _ _ hq, hfol.get _ fun e => hq (Option.some.inj e).symm⟩
  ext y
  constructor
  · rintro ⟨q, hq, hy⟩
    by_cases e : q = dst
    · rw [e, hx] at hy
      exact Or.inl (Value.obj.inj hy).symm
    · rw [(hother e).1] at hq
      rw [(hother e).2] at hy
      exact Or.inr ⟨q, hq, hy⟩
  · rintro (rfl | ⟨q, hq, hy⟩)
    · exact ⟨dst, Env.set_self _ _, hx⟩
    · have e : q ≠ dst := fun e => hvoid (e ▸ hq)
      exact ⟨q, (hother e).1.trans hq, (hother e).2.trans hy⟩

theorem carried_allocClosure {dst : Reg} (hi : (code p s)[s.cur.pc]? = some (.allocClosure dst)) :
    Carried crowded p B limit s ρ (.allocClosure dst) := by
  have hv := hw.rests.home.vetted
  have hgo : w.Goes ρ (.allocClosure dst) (some (s.cur.pc + 1)) (ρ.set dst (.val .shell))
    (s.cur.pc + 1) := ⟨⟨.shell, rfl, rfl⟩, rfl⟩
  have hu := hv.counted_of_shell (hw.rests.reached.step hi hgo) (Env.set_self _ _)
  have hbefore := hw.rests.stocked.share_created hv hw.rests.reached hi rfl (by simp)
  have hwalk : Walk (code p s) dst (s.cur.pc + 1) ⟨1, false⟩ :=
    .born hi rfl (by simp [Instr.exits, Instr.isTerminal])
  obtain ⟨⟨h, consts, stack, stats⟩, callers, f⟩ := s
  obtain ⟨x, hx, hg₁, hgain⟩ := hw.good.allocate_blank
  have hself : Has (h.allocate (.closure .blank)).1 (.obj x) .shell :=
    ⟨_, hgain.self, Or.inr (Or.inr ⟨rfl, rfl, rfl, rfl⟩)⟩
  obtain ⟨h₂, e₂, hg₂, hr₂⟩ := hg₁.inc hself.live
  unfold Carried
  simp only [Running.exec, Running.advance]
  refine Running.ensures_storeFrom ?_
  simp only [hx, e₂, bind, Except.bind]
  refine .ok fun f' hset => ?_
  have hfol : Frame.Follows (.allocClosure dst) (f.pc + 1) f f' := hset.follows rfl
  have hafter : f'.share (p.codeOf f.unit) dst = refsOf [.obj x] := by
    rw [Frame.share, hfol.place, hv.owned_of_walk hu hwalk, one_nsmul, hset.self]
  have htouch := hw.refs_touch hi hgo hfol (d := dst) (by
    rintro q (e | ⟨op, e⟩)
    · exact (Option.some.inj e).symm
    · cases e) rfl
  rw [hbefore, hafter, zero_add] at htouch
  have hp := (hgain.preserves (Running.refs p ⟨⟨h, consts, stack, stats⟩, callers, f⟩ + B)).trans
    (hr₂.preserves _)
  refine hw.go hi hgo hfol ?_ hp.toRespects (Or.inl le_rfl) (fun _ hle hh _ => hp.has hle hh)
    (fun q hq => ?_) (by simp) (fun q y e hy => ?_) (fun {q r y} hq hr _ hy e => ?_) ?_ hw.pushed
  · rw [hw.shells_alloc hi hgo hfol hset.self]
    exact htouch ▸ hg₂
  · obtain rfl := Option.some.inj hq
    refine ⟨hset.within, ?_⟩
    rw [Env.set_self]
    intro _
    rw [hset.self]
    exact hr₂.has hself
  · cases e
    rw [hset.self] at hy
    cases hy
    exact hgain.free
  · obtain rfl := Option.some.inj hq
    rw [hset.self] at e
    cases e
    obtain ⟨c, hc⟩ := hw.rests.stocked.live_of_inUse (Frame.Stocked.inUse_of_shell hv hw.rests.reached hr) x hy
    rw [hgain.free] at hc
    cases hc
  · rw [hset.scopes]
    exact hw.rests.scope.preserves hp

/-! ## Giving a closure its code -/

section
variable {dst : Reg} {unit : UnitId} {caps : List Reg} {x : ObjId}
  (hi : (code p s)[s.cur.pc]? = some (.finishClosure dst unit caps)) (hx : s.cur.get dst = .obj x)
include hi hx

theorem shells_finish {pc' : Nat} : Frame.shells { s.cur with pc := pc' }
    (ρ.set dst (.val (.fn unit))).join = s.cur.shells ρ \ {x} := by
  have hdst : ρ.regs dst = .val .shell := (hw.safe hi).needs.1
  ext y
  constructor
  · rintro ⟨q, hq, hy⟩
    have e : q ≠ dst := by
      rintro rfl
      rw [Env.regs_join, Env.set_self] at hq
      cases hq
    rw [Env.regs_join, Env.set_of_ne _ _ e] at hq
    refine ⟨⟨q, hq, hy⟩, ?_⟩
    rintro rfl
    exact e (hw.rests.stocked.apart hq (Frame.Stocked.inUse_of_shell hw.rests.home.vetted
      hw.rests.reached hdst) hy hx)
  · rintro ⟨⟨q, hq, hy⟩, hne⟩
    have e : q ≠ dst := by
      rintro rfl
      exact hne (Value.obj.inj (hy.symm.trans hx))
    exact ⟨q, by rw [Env.regs_join, Env.set_of_ne _ _ e]; exact hq, hy⟩

omit hx in
/-- The register owns its closure as before. -/
theorem share_finish : Frame.share (code p s) { s.cur with pc := s.cur.pc + 1 } dst =
    s.cur.share (code p s) dst := by
  have hv := hw.rests.home.vetted
  have hdst : ρ.regs dst = .val .shell := (hw.safe hi).needs.1
  have hu := hv.counted_of_shell hw.rests.reached hdst
  obtain ⟨st, hst⟩ := hv.walk_of_val hw.rests.reached hdst
  have hobs := hv.walk_observe hu hst hi
  have hnext := hst.step hi (show s.cur.pc + 1 ∈ _ by simp [Instr.exits, Instr.isTerminal])
  have e : st.advance dst (Instr.finishClosure dst unit caps : Instr Nat).placed = st := by
    rcases Holding.observe_cases hobs with ⟨-, -, e⟩ | ⟨-, ⟨op, e, -⟩ | ⟨-, hc, -⟩ | ⟨-, -, e⟩⟩
    · exact e
    · cases Instr.placed_eq_adjust.mp e
    · rw [Instr.consumes_placed] at hc
      cases hc
    · exact e
  rw [Frame.share, Frame.share, hv.owned_of_walk hu hnext, hv.owned_of_walk hu hst, e]
  rfl

/-- **The closure has its code**, and the heap is good. -/
theorem finished {h' : Heap} (hgood : Good p h' (s.refs p + B) (s.cur.shells ρ \ {x}))
    (hresp : Respects (s.refs p + B) s.machine.heap h')
    (hkeep : ∀ {v κ}, Has s.machine.heap v κ → (κ = .shell → v ≠ .obj x) → Has h' v κ)
    (hfn : Has h' (.obj x) (.fn unit)) (hscope : Frame.Opened h' ρ.join.scope s.cur.scopes) :
    (Progress.more ⟨⟨h', s.machine.consts, s.machine.stack, s.machine.stats⟩, s.callers,
      { s.cur with pc := s.cur.pc + 1 }⟩).Carries p B (s.cur.shells ρ) s.machine.heap := by
  have hdst : ρ.regs dst = .val .shell := (hw.safe hi).needs.1
  have hgo : w.Goes ρ (.finishClosure dst unit caps) (some (s.cur.pc + 1))
    (ρ.set dst (.val (.fn unit))).join (s.cur.pc + 1) := ⟨rfl, rfl⟩
  have hfol := Frame.follows_of_regs (.finishClosure dst unit caps) (s.cur.pc + 1) s.cur s.cur.scopes
  have htouch := hw.refs_touch hi hgo hfol (d := dst) (by
    rintro q (e | ⟨op, e⟩)
    · exact (Option.some.inj e).symm
    · cases e) rfl
  rw [hw.share_finish hi] at htouch
  have hinuse : s.cur.InUse (code p s) ρ dst :=
    Frame.Stocked.inUse_of_shell hw.rests.home.vetted hw.rests.reached hdst
  refine hw.go hi hgo hfol ?_ hresp (Or.inl le_rfl) (fun {q κ} hq _ hh hsh => ?_) (fun q hq => ?_)
    (by simp) (by simp) (fun {q r y} hq hr hne hy e => ?_) hscope hw.pushed
  · rw [hw.shells_finish hi hx]
    exact add_left_cancel htouch ▸ hgood
  · refine hkeep hh fun e hy => hq ?_
    rw [hw.rests.stocked.apart (hsh e) hinuse hy hx]
    rfl
  · obtain rfl := Option.some.inj hq
    refine ⟨hw.rests.stocked.within (by simp [hdst]), ?_⟩
    rw [Env.regs_join, Env.set_self]
    intro _
    show Has h' (s.cur.get dst) (.fn unit)
    rw [hx]
    exact hfn
  · obtain rfl := Option.some.inj hq
    exact hne (hw.rests.stocked.apart hr hinuse hy e)

end

theorem carried_finishClosure {dst : Reg} {unit : UnitId} {caps : List Reg}
    (hi : (code p s)[s.cur.pc]? = some (.finishClosure dst unit caps)) :
    Carried crowded p B limit s ρ (.finishClosure dst unit caps) := by
  obtain ⟨hdst, hroom, ms, hms, hlen, hcells⟩ := (hw.safe hi).needs
  rw [hw.rests.home.ok] at hms
  obtain ⟨x, rc, k, hx, hslot, hk⟩ := (hw.input_of hi (by simp [Instr.inputs]) hdst).shell
  have hlive : ∀ v ∈ caps.map s.cur.get, s.machine.heap.Live v := by
    intro v hv
    obtain ⟨r, hr, rfl⟩ := List.mem_map.mp hv
    obtain ⟨κ, -, hh, -⟩ := hw.input hi (r := r) (by simp [Instr.inputs, hr])
    exact hh.live
  have hcell : ∀ {idx : Nat} {v : Value}, ms[idx]? = some true → (caps.map s.cur.get)[idx]? = some v →
      Has s.machine.heap v .cell := by
    intro idx v hm hv
    rw [List.getElem?_map, Option.map_eq_some_iff] at hv
    obtain ⟨r, hr, rfl⟩ := hv
    exact hw.input_of hi (by simp [Instr.inputs, List.mem_of_getElem? hr]) (hcells idx r hr hm)
  obtain ⟨h₁, e₁, hg₁, hr₁⟩ := hw.good.incAll hlive
  obtain ⟨rc₁, hslot₁⟩ := hr₁.objs.symm.back hslot
  obtain ⟨h₂, k', e₂, hg₂, hre₂, hsc₂, hu₂, hs₂⟩ := hg₁.finish hslot₁ hk hms (by simpa using hlen.symm)
    (fun hm hv => hr₁.has (hcell hm hv))
  have hscope := hw.rests.scope
  show Ensures crowded (s.advance.finishClosure dst unit caps) _
  obtain ⟨⟨h, consts, stack, stats⟩, callers, f⟩ := s
  refine (Frame.ensures_readAll _ caps).bind fun vs hvs => ?_
  obtain rfl : vs = caps.map f.get := hvs
  refine Running.ensures_overHeap e₁ ?_
  refine (Frame.ensures_read _ dst).bind fun v hv => ?_
  obtain rfl : v = .obj x := hv.trans hx
  simp only [Value.asObj?, get_eq hslot₁, bind, Except.bind]
  refine Running.ensures_overHeap (g := (·.put x _)) e₂ ?_
  have hresp₂ := fun E => (hr₁.preserves E).toRespects.trans (hre₂.respects E)
  have hkeep₂ : ∀ {v κ}, Has h v κ → (κ = .shell → v ≠ .obj x) → Has h₂ v κ := by
    intro v κ hh hne
    by_cases e : κ = .shell
    · subst e
      obtain ⟨y, -, -, rfl, -⟩ := hh.shell
      exact hre₂.shell (fun e => hne rfl (by rw [e])) (hr₁.has hh)
    · exact hre₂.has (hr₁.has hh) e
  have hfn₂ : Has h₂ (.obj x) (.fn unit) := by
    obtain ⟨rc₂, hslot₂⟩ := hre₂.after
    exact ⟨_, hslot₂, Or.inl (by rw [hu₂])⟩
  have hsame : ∀ g, h₂.scopeAt g = h.scopeAt g := fun g =>
    (scopeAt_congr hsc₂ g).trans (scopeAt_congr hr₁.scopes g)
  cases hρ : ρ.scope with
  | none =>
    rw [hρ] at hscope
    have hnone : f.scopes = [] := hscope
    simp only [hnone]
    refine .ok ?_
    have := hw.finished hi hx hg₂ (hresp₂ _) hkeep₂ hfn₂ (by
      simp only [Env.join, hρ, Option.map_none]
      exact hnone)
    simpa only [hnone] using this
  | some nk =>
    obtain ⟨n, j⟩ := nk
    rw [hρ] at hscope
    obtain ⟨g, sc, hgs, hg, ho, hsize, hmem⟩ := hscope
    obtain ⟨rc₂, hslot₂⟩ := hre₂.after
    obtain ⟨h₃, e₃, hg₃, hre₃, hsc₃⟩ := hg₂.enrol hslot₂ hs₂ (by simp) ((hsame g).trans hg) ho
      (by rw [hmem, hsize]; exact hroom n j hρ)
    have hgs' : f.scopes = [g] := hgs
    simp only [hgs']
    refine Running.ensures_after (.of_eq e₃ ?_)
    have := hw.finished hi hx hg₃ ((hresp₂ _).trans (hre₃.respects _)) (fun {v κ} hh hne => ?_)
      (hre₃.has hfn₂ (by simp)) (by
        simp only [Env.join, hρ, Option.map_some]
        exact ⟨g, _, hgs, hsc₃, ho, hsize, by simp [hmem]⟩)
    · simpa only [hgs'] using this
    · by_cases e : κ = .shell
      · subst e
        obtain ⟨y, -, -, rfl, -⟩ := hh.shell
        exact hre₃.shell (fun e => hne rfl (by rw [e])) (hkeep₂ hh hne)
      · exact hre₃.has (hkeep₂ hh hne) e

/-! ## Scopes -/

theorem carried_beginScope {n : Nat} (hi : (code p s)[s.cur.pc]? = some (.beginScope n)) :
    Carried crowded p B limit s ρ (.beginScope n) := by
  have hnone : ρ.scope = none := (hw.safe hi).needs
  have hgo : w.Goes ρ (.beginScope n) (some (s.cur.pc + 1)) { ρ with scope := some (n, 0) }
    (s.cur.pc + 1) := ⟨rfl, rfl⟩
  have hscope := hw.rests.scope
  rw [hnone] at hscope
  have hempty : s.cur.scopes = [] := hscope
  obtain ⟨hg₁, hp₁⟩ := hw.good.openScope n
  have hrefs := hw.refs_same hi hgo rfl (by simp) ((s.machine.heap.openScope n).2 :: s.cur.scopes)
  have hfol := Frame.follows_of_regs (.beginScope n) (s.cur.pc + 1) s.cur
    ((s.machine.heap.openScope n).2 :: s.cur.scopes)
  obtain ⟨⟨h, consts, stack, stats⟩, callers, f⟩ := s
  refine .ok (hw.go hi hgo hfol ?_ (hp₁ _).toRespects (Or.inl le_rfl)
    (fun _ hle hh _ => (hp₁ _).has hle hh) (by simp [Instr.fills, Instr.creates]) (by simp) (by simp)
    (by simp [Instr.fills, Instr.creates]) ?_ hw.pushed)
  · rw [Running.refs, ← hrefs] at hg₁
    exact hg₁
  · refine ⟨(h.openScope n).2, .new n, ?_, ?_, rfl, rfl, rfl⟩
    · rw [show f.scopes = [] from hempty]
      rfl
    · exact (scopeAt_openScope n _).trans (if_pos rfl)

theorem carried_endScope {n : Nat} (hi : (code p s)[s.cur.pc]? = some (.endScope n)) :
    Carried crowded p B limit s ρ (.endScope n) := by
  have hfull : ρ.scope = some (n, n) := (hw.safe hi).needs
  have hgo : w.Goes ρ (.endScope n) (some (s.cur.pc + 1)) { ρ with scope := none }
    (s.cur.pc + 1) := ⟨rfl, rfl⟩
  have hscope := hw.rests.scope
  rw [hfull] at hscope
  obtain ⟨g, sc, hgs, hg, ho, hsize, hmem⟩ := hscope
  have hrefs := hw.refs_same hi hgo rfl (by simp) []
  have hfol := Frame.follows_of_regs (.endScope n) (s.cur.pc + 1) s.cur []
  obtain ⟨⟨h, consts, stack, stats⟩, callers, f⟩ := s
  show Ensures crowded (Running.endScope ⟨_, callers, { f with pc := f.pc + 1 }⟩) _
  have hgs' : f.scopes = [g] := hgs
  simp only [Running.endScope, hgs']
  refine Running.ensures_after ((hw.good.sealScope hg ho (hmem.trans hsize.symm)).mono
    fun h' hg' => ?_)
  refine hw.go hi hgo hfol ?_ hg'.2.toRespects (Or.inl le_rfl)
    (fun _ hle hh _ => hg'.2.has hle hh) (by simp [Instr.fills, Instr.creates]) (by simp) (by simp)
    (by simp [Instr.fills, Instr.creates]) rfl hw.pushed
  rw [hrefs]
  exact hg'.1

end Working

end CountedMachine
