import CountedMachine.Proofs.Machine.Control
import CountedMachine.Proofs.Machine.Handover

/-! # Making closures

A closure is set apart when it is allocated. When it gets its code it refers to nothing in the making
(`Env.Shields`), and is complete, or it joins the scope that is open, and is complete when this is sealed. So
**a step forgets nothing** (`Working.upkept_step`). -/

namespace CountedMachine

open Heap

/-- The closure with its code and captures. -/
def Closure.furnish (k : Closure) (unit : UnitId) (vs : List Value) : Closure :=
  { k with unit := unit, caps := vs, weak := vs.map fun _ => false }

theorem Closure.refs_furnish (k : Closure) (unit : UnitId) (vs : List Value) :
    (Object.closure (k.furnish unit vs)).refs = refsOf vs := by
  refine congrArg refsOf (ownedCaps_of_unmarked fun i => ?_)
  simp only [furnish, List.getD_eq_getElem?_getD, List.getElem?_map]
  cases vs[i]? <;> rfl

namespace Heap

variable {h h' : Heap} {r y : ObjId} {c c' : Slot} {o : Object} {g : ScopeId}

theorem put_back (hr : h.slot? r = some c) (e : h.put r o = .ok h') (hy : h'.slot? y = some c') :
    y = r ∨ h.slot? y = some c' := by
  rw [put_eq hr] at e
  obtain rfl := Except.ok.inj e
  rw [slot?_setSlot_of hr] at hy
  split_ifs at hy with hyr
  · exact Or.inl hyr
  · exact Or.inr hy

theorem enrol_back {rc : Nat} {k : Closure} (hr : h.slot? r = some ⟨rc, .closure k⟩) (e : h.enrol g r = .ok h')
    (hy : h'.slot? y = some c') : y = r ∨ h.slot? y = some c' := by
  obtain ⟨s, -, -, rfl⟩ := enrol_eq hr e
  rw [slot?_setSlot_of (h := h.setScope g _) hr] at hy
  split_ifs at hy with hyr
  · exact Or.inl hyr
  · exact Or.inr hy

end Heap

namespace Working

variable {p : Program} [p.Origin] {B : Multiset ObjId} {K : Array Value} {s s' : Running} {w w' : World} {ρ ρ' : Env}
  {q : Progress} {n limit : Nat} {dst : Reg} (hw : Working p B s w ρ) (hu : s.Upkept p K ρ n)
  (hw' : Working p B s' w' ρ')
  (hshells : ∀ x ∈ s'.cur.shells ρ', x ∈ s.cur.shells ρ ∨ s.machine.heap.slot? x = none)
include hw hu hw' hshells

theorem upkept_allocClosure (hi : (code p s)[s.cur.pc]? = some (.allocClosure dst))
    (e : s.advance.exec p limit (.allocClosure dst) = .ok (.more s')) : s'.Upkept p K ρ' n := by
  have hclean := hu.clean
  rw [due_eq hi (by simp)] at hclean
  obtain ⟨r, hr, hgain⟩ := hclean.gains_of (.closure .blank)
  have hfresh : ∀ x ∈ refsOf K.toList, x ∉ ({r} : Set ObjId) := by
    rintro x hx rfl
    obtain ⟨c, hc⟩ := hw.live_const (hu.consts.symm ▸ hx)
    rw [hgain.free] at hc
    cases hc
  have hblank : Closure.blank.Blank := ⟨rfl, rfl, rfl⟩
  obtain ⟨⟨h, consts, stack, stats⟩, callers, f⟩ := s
  simp only [Running.exec, Running.advance] at e
  obtain ⟨h', v, f', hg, hset, hs'⟩ := Running.storeFrom_ok e
  cases hs'
  obtain ⟨h₁, e₁, hg⟩ := bind_ok hg
  obtain ⟨rfl, rfl⟩ := Prod.mk.inj (Except.ok.inj hg)
  have ho := onward_inc e₁
  have hback : ∀ {x c'}, h₁.slot? x = some c' → (x = r ∧ c'.obj = .closure .blank) ∨
      x ≠ r ∧ ∃ c, h.slot? x = some c ∧ c'.obj = c.obj := fun {x c'} hx => by
    obtain ⟨c, hc, ex⟩ := ho.objs hx
    rw [hgain.slot] at hc
    split_ifs at hc with hxr
    · cases hc
      exact Or.inl ⟨hxr, ex⟩
    · exact Or.inr ⟨hxr, c, hc, ex⟩
  have hc : Clean h₁ [] _ f.scopes n := (hclean.allocate_apart hw.good.sound rfl hr).inc
    (fun x hx => Or.inl (List.mem_singleton.mp hx ▸ hr)) e₁
  refine hw.upkept_of hu hw' hshells (D := {r}) (fun {x rc' k} hx => ?_)
    (fun {x rc k c'} _ hxD hx hx' => ?_) hfresh (hset.scopes ▸ hc.grow _) hu.consts
    (fun {g sc x} hg hsc hm => ?_) (fun x hx _ => Or.inr (Or.inl hx)) (fun x hx _ => Or.inl hx)
    (fun x hx hxD => ?_) (fun {x c} hxD _ _ hx => ?_)
  · rcases hback hx with ⟨hxr, -⟩ | ⟨-, ⟨rc, o⟩, hc, ex⟩
    · exact Or.inl hxr
    · obtain rfl : Object.closure k = o := ex
      exact Or.inr ⟨rc, hc⟩
  · rcases hback hx' with ⟨hxr, -⟩ | ⟨-, c, hc, ex⟩
    · exact absurd hxr hxD
    · cases hx.symm.trans hc
      exact ex
  · obtain ⟨sc₀, hg₀, -, hm₀, -⟩ := ho.used hsc
    rw [scopeAt_congr hgain.scopes] at hg₀
    exact Or.inr (Or.inr ⟨g, hset.scopes ▸ hg, sc₀, hg₀, hm₀ ▸ hm⟩)
  · rcases hx with hx | hx | ⟨g, hg, sc, hsc, hm⟩
    · exact absurd hx hxD
    · exact Or.inl hx
    · rw [← scopeAt_congr hgain.scopes] at hsc
      obtain ⟨sc', hsc', em, -⟩ := ho.tame.filling hsc
        (hw.unsealed hg (scopeAt_congr hgain.scopes g ▸ hsc))
      exact Or.inr (Or.inr ⟨g, hset.scopes ▸ hg, sc', hsc', em ▸ hm⟩)
  · rcases hback hx with ⟨-, ex⟩ | ⟨hxr, -⟩
    · rw [ex]
      exact refs_of_blank hblank
    · exact absurd hxD hxr

section
variable {unit : UnitId} {caps : List Reg} (hi : (code p s)[s.cur.pc]? = some (.finishClosure dst unit caps))
include hi

omit hu hw' hshells in
/-- Outside a scope the captures are complete. -/
theorem captures_complete (hnone : ρ.scope = none) :
    ∀ y ∈ refsOf (caps.map s.cur.get), y ∉ s.cur.shells ρ := by
  rintro y hy ⟨q, hq, hqy⟩
  obtain ⟨r, hr, hry⟩ : ∃ r ∈ caps, s.cur.get r = .obj y := by
    rw [refsOf, Multiset.mem_coe, List.mem_filterMap] at hy
    obtain ⟨v, hv, hvy⟩ := hy
    obtain ⟨r, hr, rfl⟩ := List.mem_map.mp hv
    exact ⟨r, hr, Value.eq_of_mem_asObj? (by rw [hvy]; simp)⟩
  have hsame := hw.rests.stocked.apart_input hw.rests.home.vetted hw.rests.reached hi
    (r := r) (by simp [Instr.inputs, hr]) hq hqy hry
  exact (hw.safe hi).shields hnone r hr (hsame ▸ hq)

variable {x : ObjId} {rc : Nat} {k : Closure} (rc₁ : Nat) (h₁ h₂ h₃ : Heap) (g : ScopeId) (gs : List ScopeId)
  (hx : s.cur.get dst = .obj x) (hslot : s.machine.heap.slot? x = some ⟨rc, .closure k⟩) (hk : k.Blank)
  (e₁ : s.machine.heap.incAll (caps.map s.cur.get) = .ok h₁) (hslot₁ : h₁.slot? x = some ⟨rc₁, .closure k⟩)
  (e₂ : h₁.put x (.closure (k.furnish unit (caps.map s.cur.get))) = .ok h₂)
include hx hslot hk e₁ hslot₁ e₂

/-- **A closure of its own** is complete. -/
theorem upkept_complete (hnil : s.cur.scopes = [])
    (hs' : s' = ⟨⟨h₂, s.machine.consts, s.machine.stack, s.machine.stats⟩, s.callers,
      { s.cur with pc := s.cur.pc + 1 }⟩) : s'.Upkept p K ρ' n := by
  have hdst : ρ.regs dst = .val .shell := (hw.safe hi).needs.1
  have hxs : x ∈ s.cur.shells ρ := ⟨dst, hdst, hx⟩
  have hnone : ρ.scope = none := by
    have hscope := hw.rests.scope
    cases hρ : ρ.scope with
    | none => rfl
    | some nj =>
      rw [hρ] at hscope
      obtain ⟨g, sc, hgs, -⟩ := hscope
      rw [hnil] at hgs
      cases hgs
  have hmaking : s.making ρ = s.cur.shells ρ := by
    simp [Running.making, hnil]
  have hclean := hu.clean
  rw [due_eq hi (by simp), hmaking, hnil] at hclean
  have hc₁ := hclean.incAll e₁
  have hrefs : ∀ y ∈ (Object.closure (k.furnish unit (caps.map s.cur.get))).refs, y ∉ s.cur.shells ρ :=
    fun y hy => hw.captures_complete hi hnone y (k.refs_furnish unit _ ▸ hy)
  -- the closure is apart no longer, unless it still counts as one without code
  obtain ⟨Q, hcQ, hQ, hold, hD⟩ : ∃ Q, Clean h₂ [] Q [] n ∧ (∀ y ∈ Q, y ∈ s.cur.shells ρ) ∧
      (∀ y ∈ s.cur.shells ρ, y ≠ x → y ∈ Q) ∧ (x ∈ Q ↔ x ∈ s'.making ρ') := by
    by_cases hin : x ∈ s'.making ρ'
    · exact ⟨_, hc₁.put (o := .closure (k.furnish unit _)) hslot₁ rfl (Or.inl hxs) e₂, fun y hy => hy,
        fun y hy _ => hy, fun _ => hin, fun _ => hxs⟩
    · have hscope : (Object.closure k).scope? = none := hk.2.2
      exact ⟨_, hc₁.complete (o := .closure (k.furnish unit _)) hslot₁ hxs hscope hscope hrefs e₂,
        fun y hy => hy.1, fun y hy hne => ⟨hy, hne⟩, fun hy => absurd rfl hy.2, fun hy => absurd hy hin⟩
  have hback : ∀ {y c'}, h₂.slot? y = some c' → y = x ∨ ∃ c, s.machine.heap.slot? y = some c ∧ c'.obj = c.obj :=
    fun {y c'} hy => (put_back hslot₁ e₂ hy).imp id (onward_incAll e₁).objs
  subst hs'
  refine hw.upkept_of hu hw' hshells (D := {x}) (fun {y rc' k'} hy => ?_)
    (fun {y rc' k' c'} _ hyD hy hy' => ?_) (fun y hy hyx => hu.apart y hy (hyx ▸ hxs)) (hnil ▸ hcQ.grow _)
    hu.consts (fun hg => by simp [hnil] at hg) hold (fun y hy hin => ?_) (fun y hy _ => Or.inl (hQ y hy))
    (fun {y c} hy hyQ hn _ => ?_)
  · rcases hback hy with hyx | ⟨⟨rc₀, o⟩, hc, ex⟩
    · exact Or.inl hyx
    · obtain rfl : Object.closure k' = o := ex
      exact Or.inr ⟨rc₀, hc⟩
  · obtain ⟨c, hc, ex⟩ := (hback hy').resolve_left hyD
    cases hy.symm.trans hc
    exact ex
  · obtain rfl : y = x := hy
    exact hD.mpr hin
  · obtain rfl : y = x := hy
    exact absurd (hD.mp hyQ) hn

/-- **A closure joins the scope that is open.** -/
theorem upkept_join (hgs : s.cur.scopes = g :: gs) (e₃ : h₂.enrol g x = .ok h₃)
    (hs' : s' = ⟨⟨h₃, s.machine.consts, s.machine.stack, s.machine.stats⟩, s.callers,
      { s.cur with pc := s.cur.pc + 1 }⟩) : s'.Upkept p K ρ' n := by
  have hdst : ρ.regs dst = .val .shell := (hw.safe hi).needs.1
  have hxs : x ∈ s.cur.shells ρ := ⟨dst, hdst, hx⟩
  have hclean := hu.clean
  rw [due_eq hi (by simp), hgs] at hclean
  have ho₁ := onward_incAll e₁
  have hc₂ := (hclean.incAll e₁).put (o := .closure (k.furnish unit _)) hslot₁ rfl (Or.inl (Or.inl hxs)) e₂
  have hsc₂ : h₂.scopes = h₁.scopes ∧ h₂.slot? x = some ⟨rc₁, .closure (k.furnish unit (caps.map s.cur.get))⟩ := by
    have e₂' := e₂
    rw [put_eq hslot₁] at e₂'
    obtain rfl := Except.ok.inj e₂'
    exact ⟨rfl, by rw [slot?_setSlot_of hslot₁, if_pos rfl]⟩
  obtain ⟨hsc₂, hslot₂⟩ := hsc₂
  have hc₃ := hc₂.enrol hslot₂ hk.2.2 (Or.inl hxs) e₃
  have hback : ∀ {y c'}, h₃.slot? y = some c' → y = x ∨ ∃ c, s.machine.heap.slot? y = some c ∧ c'.obj = c.obj :=
    fun {y c'} hy => (enrol_back hslot₂ e₃ hy).elim Or.inl
      fun hy => (put_back hslot₁ e₂ hy).imp id ho₁.objs
  obtain ⟨sc, hsc, -, rfl⟩ := enrol_eq hslot₂ e₃
  have hat : ∀ g', ((h₂.setScope g (some { sc with members := sc.members ++ [x] })).setSlot x
      (some ⟨rc₁, .closure { k.furnish unit (caps.map s.cur.get) with scope := some g }⟩)).scopeAt g' =
      if g' = g then some { sc with members := sc.members ++ [x] } else h₁.scopeAt g' := fun g' => by
    rw [← scopeAt_congr hsc₂ g']
    exact scopeAt_setScope hsc _ g'
  rw [scopeAt_congr hsc₂] at hsc
  obtain ⟨sc₀, hsc₀, -, hm₀, -⟩ := ho₁.used hsc
  subst hs'
  refine hw.upkept_of hu hw' hshells (D := {x}) (fun {y rc' k'} hy => ?_)
    (fun {y rc' k' c'} _ hyD hy hy' => ?_) (fun y hy hyx => hu.apart y hy (hyx ▸ hxs))
    (hgs.symm ▸ hc₃.grow _) hu.consts (fun {g' sc' y} hg hsc' hm => ?_) (fun y hy _ => Or.inl hy)
    (fun y hy _ => hy ▸ Or.inl hxs) (fun y hy hyx => ?_) (fun {y c} hy _ hn _ => ?_)
  · rcases hback hy with hyx | ⟨⟨rc₀, o⟩, hc, ex⟩
    · exact Or.inl hyx
    · obtain rfl : Object.closure k' = o := ex
      exact Or.inr ⟨rc₀, hc⟩
  · obtain ⟨c, hc, ex⟩ := (hback hy').resolve_left hyD
    cases hy.symm.trans hc
    exact ex
  · rw [hat] at hsc'
    split_ifs at hsc' with hg'
    · cases hsc'
      rcases List.mem_append.mp hm with hm | hm
      · exact Or.inr ⟨g, hgs ▸ List.mem_cons_self, sc₀, hsc₀, hm₀ ▸ hm⟩
      · exact Or.inl (List.mem_singleton.mp hm ▸ hxs)
    · obtain ⟨sc₁, hsc₁, -, hm₁, -⟩ := ho₁.used hsc'
      exact Or.inr ⟨g', hg, sc₁, hsc₁, hm₁ ▸ hm⟩
  · refine hy.imp_right ?_
    rintro ⟨g', hg, sc', hsc', hm⟩
    by_cases hg' : g' = g
    · subst hg'
      cases hsc'.symm.trans hsc₀
      exact Or.inr ⟨g', hg, _, (hat g').trans (if_pos rfl), List.mem_append_left _ (hm₀ ▸ hm)⟩
    · obtain ⟨sc₁, hsc₁, em, -⟩ := ho₁.tame.filling hsc' (hw.unsealed hg hsc')
      exact Or.inr ⟨g', hg, sc₁, (hat g').trans ((if_neg hg').trans hsc₁), em ▸ hm⟩
  · obtain rfl : y = x := hy
    exact absurd (Or.inr ⟨g, hgs ▸ List.mem_cons_self, _, (hat g).trans (if_pos rfl), by simp⟩) hn

end

omit hu hw' hshells in
/-- What happens when a closure gets its code. -/
theorem finishClosure_cases {unit : UnitId} {caps : List Reg}
    (hi : (code p s)[s.cur.pc]? = some (.finishClosure dst unit caps))
    (e : s.advance.exec p limit (.finishClosure dst unit caps) = .ok q) :
    ∃ x rc k rc₁ h₁ h₂ h₃, s.cur.get dst = .obj x ∧ s.machine.heap.slot? x = some ⟨rc, .closure k⟩ ∧ k.Blank ∧
      s.machine.heap.incAll (caps.map s.cur.get) = .ok h₁ ∧ h₁.slot? x = some ⟨rc₁, .closure k⟩ ∧
      h₁.put x (.closure (k.furnish unit (caps.map s.cur.get))) = .ok h₂ ∧
      (s.cur.scopes = [] ∧ h₃ = h₂ ∨ ∃ g gs, s.cur.scopes = g :: gs ∧ h₂.enrol g x = .ok h₃) ∧
      q = .more ⟨⟨h₃, s.machine.consts, s.machine.stack, s.machine.stats⟩, s.callers,
        { s.cur with pc := s.cur.pc + 1 }⟩ := by
  obtain ⟨x, rc, k, hx, hslot, hk⟩ := (hw.input_of hi (by simp [Instr.inputs]) (hw.safe hi).needs.1).shell
  obtain ⟨⟨h, consts, stack, stats⟩, callers, f⟩ := s
  obtain ⟨vs, hvs, e⟩ := bind_ok e
  obtain rfl : vs = caps.map f.get := Frame.readAll_ok hvs
  obtain ⟨s₁, hs₁, e⟩ := bind_ok e
  obtain ⟨h₁, e₁, rfl⟩ := Running.overHeap_ok hs₁
  obtain ⟨v, hv, e⟩ := bind_ok e
  obtain rfl : v = f.get dst := Frame.read_ok hv
  rw [show f.get dst = .obj x from hx] at e
  obtain ⟨o, ho, e⟩ := bind_ok e
  obtain ⟨⟨rc₁, o'⟩, hslot₁, rfl⟩ := get_cases ho
  obtain rfl : o' = .closure k := by
    obtain ⟨c₀, hc₀, ex⟩ := (onward_incAll e₁).objs hslot₁
    cases hslot.symm.trans hc₀
    exact ex
  obtain ⟨s₂, hs₂, e⟩ := bind_ok e
  obtain ⟨h₂, e₂, rfl⟩ := Running.overHeap_ok hs₂
  dsimp only at e
  split at e
  · next g gs hgs =>
    obtain ⟨h₃, e₃, hq⟩ := Running.after_ok e
    exact ⟨x, rc, k, rc₁, h₁, h₂, h₃, hx, hslot, hk, e₁, hslot₁, e₂, Or.inr ⟨g, gs, hgs, e₃⟩, hq⟩
  · next hnil =>
    exact ⟨x, rc, k, rc₁, h₁, h₂, h₂, hx, hslot, hk, e₁, hslot₁, e₂, Or.inl ⟨hnil, rfl⟩, (Except.ok.inj e).symm⟩

/-- **A closure gets its code.** -/
theorem upkept_finishClosure {unit : UnitId} {caps : List Reg}
    (hi : (code p s)[s.cur.pc]? = some (.finishClosure dst unit caps))
    (e : s.advance.exec p limit (.finishClosure dst unit caps) = .ok (.more s')) : s'.Upkept p K ρ' n := by
  obtain ⟨x, rc, k, rc₁, h₁, h₂, h₃, hx, hslot, hk, e₁, hslot₁, e₂, hjoin, hq⟩ := hw.finishClosure_cases hi e
  have hs' := Progress.more.inj hq
  rcases hjoin with ⟨hnil, rfl⟩ | ⟨g, gs, hgs, e₃⟩
  · exact hw.upkept_complete hu hw' hshells hi rc₁ h₁ h₃ hx hslot hk e₁ hslot₁ e₂ hnil hs'
  · exact hw.upkept_join hu hw' hshells hi rc₁ h₁ h₂ h₃ g gs hx hslot hk e₁ hslot₁ e₂ hgs e₃ hs'

/-! ## Scopes -/

theorem upkept_beginScope {size : Nat} (hi : (code p s)[s.cur.pc]? = some (.beginScope size))
    (e : s.advance.exec p limit (.beginScope size) = .ok (.more s')) :
    s'.Upkept p K ρ' (n + if 0 < size then 1 else 0) := by
  have hnil : s.cur.scopes = [] := by
    have hscope := hw.rests.scope
    rw [show ρ.scope = none from (hw.safe hi).needs] at hscope
    exact hscope
  have hclean := hu.clean
  rw [due_eq hi (by simp)] at hclean
  have hc := hclean.openScope size
  obtain ⟨⟨h, consts, stack, stats⟩, callers, f⟩ := s
  cases e
  refine hw.upkept_of hu hw' hshells (D := ∅) (fun {x rc' k} hx => Or.inr ⟨rc', hx⟩)
    (fun {x rc k c'} _ _ hx hx' => ?_) (by simp) (hc.grow _) hu.consts (fun {g sc x} hg hsc hm => ?_)
    (fun x hx _ => Or.inl hx) (by simp) (fun x hx _ => hx.imp_right ?_) (by simp)
  · cases hx.symm.trans hx'
    rfl
  · have hnew : g = ⟨h.scopes.size⟩ := by
      have hnil : f.scopes = [] := hnil
      simpa [hnil] using hg
    have hsc : (h.openScope size).1.scopeAt g = some sc := hsc
    rw [scopeAt_openScope, if_pos hnew] at hsc
    cases hsc
    simp [Scope.new] at hm
  · rintro ⟨g, hg, -⟩
    rw [hnil] at hg
    cases hg

/-- **A scope is sealed**: its members are complete. -/
theorem upkept_endScope {size : Nat} (hi : (code p s)[s.cur.pc]? = some (.endScope size))
    (e : s.advance.exec p limit (.endScope size) = .ok (.more s')) : s'.Upkept p K ρ' n := by
  have hfull : ρ.scope = some (size, size) := (hw.safe hi).needs
  have hscope := hw.rests.scope
  rw [hfull] at hscope
  obtain ⟨g, sc, hgs, hg, ho, hsize, hmem⟩ := hscope
  have hnone : s.cur.shells ρ = ∅ := by
    refine Set.eq_empty_of_forall_notMem ?_
    rintro x ⟨r, hr, -⟩
    exact (hw.safe hi).shields r hr
  have hmaking : s.making ρ = {m | m ∈ sc.members} := by
    ext x
    simp only [Running.making, hnone, hgs, Set.empty_union, Set.mem_ofPred_eq, List.mem_singleton]
    refine ⟨?_, fun hm => ⟨g, rfl, sc, hg, hm⟩⟩
    rintro ⟨g', rfl, sc', hsc', hm⟩
    cases hg.symm.trans hsc'
    exact hm
  have hclean := hu.clean
  rw [due_eq hi (by simp), hmaking, hgs] at hclean
  have hseal : Ensures True (s.machine.heap.sealScope g) _ :=
    hw.good.sound.ensures_sealScope hg ho (hmem.trans hsize.symm)
  obtain ⟨⟨h, consts, stack, stats⟩, callers, f⟩ := s
  have e : Running.endScope ⟨⟨h, consts, stack, stats⟩, callers, { f with pc := f.pc + 1 }⟩ = .ok (.more s') := e
  have hgs : f.scopes = [g] := hgs
  simp only [Running.endScope, hgs] at e
  obtain ⟨h', e', hs'⟩ := Running.after_ok e
  obtain ⟨-, hages⟩ := hseal.result e'
  have hc := hclean.sealScope hg e'
  cases hs'
  have hempty : Running.making ρ' ⟨⟨h', consts, stack, stats⟩, callers, ⟨f.unit, f.pc + 1, f.regs, f.args, f.closure,
      f.ret, []⟩⟩ = ∅ := by
    refine Set.eq_empty_of_forall_notMem ?_
    rintro x (hx | ⟨g', hg', -⟩)
    · rcases hshells x hx with hx' | hx'
      · exact (hnone ▸ hx').elim
      · obtain ⟨rc, k, hslot, -⟩ := hw'.blank_of_shell hx
        obtain ⟨c, hc, -⟩ := hages.back hslot
        cases hc.symm.trans hx'
    · cases hg'
  refine ⟨hempty ▸ hc.grow _, hu.consts, fun {x rc k} hx hslot => ?_, fun x _ hx => ?_⟩
  · obtain ⟨⟨rc₀, o⟩, hc, halike⟩ := hages.back hslot
    cases o with
    | closure k₀ =>
      obtain ⟨hcaps, hscope⟩ := hu.plain hx hc
      exact ⟨halike.2.1.trans hcaps, halike.2.2.trans hscope⟩
    | _ => cases halike
  · exact (hempty ▸ Or.inl hx : x ∈ (∅ : Set ObjId)).elim


/-! ## Steps -/

omit hw' hshells in
/-- **A step forgets nothing**, where no cell is written to. -/
theorem upkept_step (hcarry : Ensures True (s.step p limit) (Progress.Carries p B (s.cur.shells ρ) s.machine.heap))
    (hassign : ∀ cell src, (code p s)[s.cur.pc]? ≠ some (.assign cell src)) (e : s.step p limit = .ok q) :
    q.Upkept p B K (n + s.opening p) := by
  have hq := hcarry.result e
  obtain ⟨i, hi, -⟩ := hw.rests.home.vetted.safe hw.rests.reached
  have e : s.advance.exec p limit i = .ok q := by
    rw [Running.step, Running.fetch_eq.mpr hi] at e
    exact e
  have hopens : s.opening p = i.opens := by rw [Running.opening, hi]
  rw [hopens]
  -- most instructions leave closures and scopes alone
  have hneat : i.opens = 0 → Neat p K n limit s ρ i → q.Upkept p B K (n + i.opens) := by
    intro hzero hneat
    rw [hzero]
    cases q with
    | more s' =>
      obtain ⟨⟨w', ρ', hw', hshells⟩, -⟩ := hq
      exact ⟨w', ρ', hw', hw.upkept_of_neat hu hw' hshells (hneat _ e)⟩
    | stop m o =>
      obtain ⟨ht, hconsts, hc⟩ := hneat _ e
      refine ⟨hc, hconsts, fun {x rc k} hx hslot => ?_⟩
      obtain ⟨rc₀, hslot₀⟩ := ht.closures hslot
      exact hu.plain hx hslot₀
  have hmake : s.advance.Within q → (∀ s' w' ρ', Working p B s' w' ρ' →
      (∀ x ∈ s'.cur.shells ρ', x ∈ s.cur.shells ρ ∨ s.machine.heap.slot? x = none) →
      s.advance.exec p limit i = .ok (.more s') → s'.Upkept p K ρ' (n + i.opens)) →
      q.Upkept p B K (n + i.opens) := by
    rintro ⟨h, cur, rfl, -⟩ hmake
    obtain ⟨⟨w', ρ', hw', hshells⟩, -⟩ := hq
    exact ⟨w', ρ', hw', hmake _ w' ρ' hw' hshells e⟩
  cases i with
  | nop => exact hneat rfl (neat_nop hu hi)
  | done => exact hneat rfl (hw.neat_done hu hi)
  | const dst k => exact hneat rfl (hw.neat_const hu hi)
  | param dst idx => exact hneat rfl (hw.neat_param hu hi)
  | capture dst idx => exact hneat rfl (hw.neat_capture hu hi)
  | box dst src => exact hneat rfl (hw.neat_box hu hi)
  | unbox dst cell => exact hneat rfl (hw.neat_unbox hu hi)
  | assign cell src => exact absurd hi (hassign cell src)
  | operate op dst l r checked => exact hneat rfl (hw.neat_operate hu hi)
  | test dst src => exact hneat rfl (hw.neat_test hu hi)
  | testType dst src ty => exact hneat rfl (hw.neat_testType hu hi)
  | flag dst b => exact hneat rfl (hw.neat_flag hu hi)
  | field dst src idx => exact hneat rfl (hw.neat_field hu hi)
  | make dst ty fields => exact hneat rfl (hw.neat_make hu hi)
  | guard src ty => exact hneat rfl (neat_guard hu hi)
  | branch cond no => exact hneat rfl (neat_branch hu hi)
  | jump target => exact hneat rfl (neat_jump hu hi)
  | merge dst => exact hneat rfl (neat_merge hu hi)
  | move dst src => exact hneat rfl (neat_move hu hi)
  | push src => exact hneat rfl (neat_push hu hi)
  | call dst func nargs checked => exact hneat rfl (hw.neat_call hu hi)
  | tailCall func nargs => exact hneat rfl (hw.neat_tailCall hu hi)
  | ret src => exact hneat rfl (hw.neat_ret hu hi)
  | yield src => exact hneat rfl (hw.neat_yield hu hi)
  | trace src loc => exact hneat rfl (neat_trace hu hi)
  | adjust op r => exact hneat rfl (hw.neat_adjust hu hi)
  | allocClosure dst =>
    have hwithin : s.advance.Within q := by
      simp only [Running.exec] at e
      exact Running.within_storeFrom e
    exact hmake hwithin fun s' w' ρ' hw' hshells e =>
      hw.upkept_allocClosure hu hw' hshells hi e
  | finishClosure dst unit caps =>
    exact hmake (Running.within_finishClosure e) fun s' w' ρ' hw' hshells e =>
      hw.upkept_finishClosure hu hw' hshells hi e
  | beginScope size =>
    refine hmake ?_ fun s' w' ρ' hw' hshells e => hw.upkept_beginScope hu hw' hshells hi e
    cases e
    exact ⟨_, _, rfl, rfl, rfl⟩
  | endScope size =>
    exact hmake (Running.within_endScope e) fun s' w' ρ' hw' hshells e =>
      hw.upkept_endScope hu hw' hshells hi e

end Working

end CountedMachine
