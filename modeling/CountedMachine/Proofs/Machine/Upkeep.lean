import CountedMachine.Proofs.Heap.Clean
import CountedMachine.Proofs.Machine.Calls

/-! # The machine forgets nothing

While the machine is at work its heap is clean (`Running.Upkept`). A value that an instruction has just
created is at zero until the next instruction takes or drops it: it is due (`Frame.due`). The closures that
have no code yet and those of the scope that is open are in the making (`Running.making`), and they are set
apart from all others until they are complete, which is where references may go up.

Most instructions leave closures and open scopes alone (`Progress.Neat`); four of them make closures, and
are looked at one by one. -/

namespace CountedMachine

open Heap

/-- The objects of a frame that have yet to report: what the next instruction takes or drops. -/
def Frame.due (code : Array (Instr Nat)) (f : Frame) : List ObjId :=
  match code[f.pc]? with
  | some (.adjust .inc r) => (f.get r).asObj?.toList
  | some (.adjust .drop r) => (f.get r).asObj?.toList
  | _ => []

/-- The closures among some constants have no captures and are in no scope. -/
def Plain (h : Heap) (K : Array Value) : Prop :=
  ∀ {x rc k}, x ∈ refsOf K.toList → h.slot? x = some ⟨rc, .closure k⟩ → k.caps = [] ∧ k.scope = none

/-- The number of scopes with room for members that an instruction opens. -/
def Instr.opens : Instr Nat → Nat
  | .beginScope n => if 0 < n then 1 else 0
  | _ => 0

namespace Running

/-- The objects that have yet to report. -/
def due (p : Program) (s : Running) : List ObjId := s.cur.due (p.codeOf s.cur.unit)

/-- **The closures in the making:** those without code, and those of the scope that is open. -/
def making (ρ : Env) (s : Running) : Set ObjId :=
  s.cur.shells ρ ∪ {x | ∃ g ∈ s.cur.scopes, ∃ sc, s.machine.heap.scopeAt g = some sc ∧ x ∈ sc.members}

/-- The number of scopes with room for members that the next instruction opens. -/
def opening (p : Program) (s : Running) : Nat :=
  match (p.codeOf s.cur.unit)[s.cur.pc]? with
  | some i => i.opens
  | none => 0

/-- **The machine at work forgets nothing.** `K` are the constants, and `n` scopes with room for members have
been opened. -/
structure Upkept (p : Program) [p.Origin] (K : Array Value) (s : Running) (ρ : Env) (n : Nat) : Prop where
  clean : Clean s.machine.heap (s.due p) (s.making ρ) s.cur.scopes n
  consts : s.machine.consts = K
  plain : Plain s.machine.heap K
  apart : ∀ x ∈ refsOf K.toList, x ∉ s.cur.shells ρ

end Running

/-- **The idle machine has forgotten nothing.** -/
structure Machine.Upkept (K : Array Value) (m : Machine) (n : Nat) : Prop where
  clean : Clean m.heap [] ∅ [] n
  consts : m.consts = K
  plain : Plain m.heap K

/-- What most instructions do to a heap `h`, with `P` in the making and the scopes `gs` open. -/
def Progress.Neat (p : Program) (K : Array Value) (P : Set ObjId) (gs : List ScopeId) (n : Nat) (h : Heap) :
    Progress → Prop
  | .more s => Tame h s.machine.heap ∧ s.machine.consts = K ∧ s.cur.scopes = gs ∧
      Clean s.machine.heap (s.due p) P gs n ∧
      ∀ {x rc k c'}, x ∈ P → h.slot? x = some ⟨rc, .closure k⟩ → s.machine.heap.slot? x = some c' →
        c'.obj = .closure k
  | .stop m _ => Tame h m.heap ∧ m.consts = K ∧ Clean m.heap [] ∅ [] n

/-- What a step comes to. -/
def Progress.Upkept (p : Program) [p.Origin] (B : Multiset ObjId) (K : Array Value) (n : Nat) : Progress → Prop
  | .more s => ∃ w ρ, Working p B s w ρ ∧ s.Upkept p K ρ n
  | .stop m _ => m.Upkept K n

/-! ## Results of computations -/

section
variable {p : Program} [p.Origin] {f f' : Frame} {r dst : Reg} {v : Value} {g : Heap → Except Fault Heap}
  {s s' : Running}
  {h h' : Heap} {consts : Array Value} {stack : List Value} {stats : CallCounts} {callers : Array Frame}
  {q : Progress}

theorem Frame.readAll_ok {rs : List Reg} {vs : List Value} (e : f.readAll rs = .ok vs) : vs = rs.map f.get :=
  have he : Ensures True (f.readAll rs) _ := f.ensures_readAll rs
  he.result e

theorem Frame.write_ok (e : f.write r v = .ok f') : f.Sets f' r v :=
  have he : Ensures True (f.write r v) _ := f.ensures_write r v
  he.result e

theorem Machine.overHeap_ok {m : Machine} (e : Machine.overHeap g ⟨h, consts, stack, stats⟩ = .ok m) :
    ∃ h', g h = .ok h' ∧ m = ⟨h', consts, stack, stats⟩ := by
  obtain ⟨h', hg, e⟩ := bind_ok e
  exact ⟨h', hg, (Except.ok.inj e).symm⟩

namespace Running

theorem overHeap_ok (e : overHeap g ⟨⟨h, consts, stack, stats⟩, callers, f⟩ = .ok s') :
    ∃ h', g h = .ok h' ∧ s' = ⟨⟨h', consts, stack, stats⟩, callers, f⟩ := by
  obtain ⟨m, hm, e⟩ := bind_ok e
  obtain ⟨h', hg, rfl⟩ := Machine.overHeap_ok hm
  exact ⟨h', hg, (Except.ok.inj e).symm⟩

theorem after_ok (e : after g ⟨⟨h, consts, stack, stats⟩, callers, f⟩ = .ok q) :
    ∃ h', g h = .ok h' ∧ q = .more ⟨⟨h', consts, stack, stats⟩, callers, f⟩ := by
  obtain ⟨s', hs, e⟩ := bind_ok e
  obtain ⟨h', hg, rfl⟩ := overHeap_ok hs
  exact ⟨h', hg, (Except.ok.inj e).symm⟩

theorem storeFrom_ok {g : Heap → Except Fault (Heap × Value)}
    (e : storeFrom g dst ⟨⟨h, consts, stack, stats⟩, callers, f⟩ = .ok q) : ∃ h' v f', g h = .ok (h', v) ∧
      f.Sets f' dst v ∧ q = .more ⟨⟨h', consts, stack, stats⟩, callers, f'⟩ := by
  obtain ⟨⟨h', v⟩, hg, e⟩ := bind_ok e
  obtain ⟨f', hf, e⟩ := bind_ok e
  exact ⟨h', v, f', hg, Frame.write_ok hf, (Except.ok.inj e).symm⟩

theorem store_sets (e : store ⟨⟨h, consts, stack, stats⟩, callers, f⟩ dst v = .ok q) :
    ∃ f', f.Sets f' dst v ∧ q = .more ⟨⟨h, consts, stack, stats⟩, callers, f'⟩ := by
  obtain ⟨s', hs, e⟩ := bind_ok e
  obtain ⟨f', hf, hs⟩ := bind_ok hs
  cases hs
  exact ⟨f', Frame.write_ok hf, (Except.ok.inj e).symm⟩

end Running

end

section
variable {h h' : Heap} {R : Multiset ObjId} {v : Value} {vs : List Value}

theorem Heap.Sound.inc_ok (hs : Sound h R []) (e : h.inc v = .ok h') : Sound h' (refsOf [v] + R) [] := by
  have hl : h.Live v := by
    rintro r rfl
    exact live_of_incObj e
  obtain ⟨h₁, e₁, hs₁, -⟩ := hs.inc_value hl
  obtain rfl := Except.ok.inj (e.symm.trans e₁)
  exact hs₁

theorem Heap.Sound.incAll_ok : ∀ {vs : List Value} {h : Heap} {R : Multiset ObjId}, Sound h R [] →
    h.incAll vs = .ok h' → Sound h' (refsOf vs + R) []
  | [], h, R, hs, e => by
    obtain rfl : h = h' := Except.ok.inj e
    simpa [refsOf_nil] using hs
  | v :: vs, h, R, hs, e => by
    rw [Heap.incAll, List.foldlM_cons] at e
    obtain ⟨h₁, e₁, e⟩ := bind_ok e
    have := incAll_ok (hs.inc_ok e₁) e
    rwa [refsOf_cons, add_comm (refsOf [v]), add_assoc]

theorem Heap.Sound.unrefAll_ok (hs : Sound h (refsOf vs + R) []) (e : h.unrefAll vs = .ok h') :
    Sound h' R [] :=
  have he : Ensures True (h.unrefAll vs) _ := hs.ensures_unrefAll vs
  (he.result e).1

theorem Heap.Sound.unref_ok (hs : Sound h (refsOf [v] + R) []) (e : h.unref v = .ok h') : Sound h' R [] :=
  have he : Ensures True (h.unref v) _ := hs.ensures_unref
  (he.result e).1

theorem Heap.Steady.tame_unrefAll (hs : Heap.Steady h []) (e : h.unrefAll vs = .ok h') : Tame h h' :=
  (hs.onward_unrefAll e).tame

end

/-! ## What is due -/

theorem Value.eq_of_mem_asObj? {v : Value} {x : ObjId} (hx : x ∈ v.asObj?.toList) : v = .obj x := by
  cases v with
  | obj y => rw [List.mem_singleton.mp hx]
  | _ => simp [Value.asObj?] at hx

/-- **A value that has just been created is due**: the next instruction takes or drops it. -/
theorem World.Vetted.due_of_creates {w : World} {code : Array (Instr Nat)} {pc : Nat} {ρ ρ' : Env}
    {i : Instr Nat} {dst : Reg} {κ : Kind} {f : Frame} {h : Heap} {v : Value} (hv : w.Vetted code)
    (hreach : w.Reached code pc ρ) (hi : code[pc]? = some i) (hcr : i.creates = some dst)
    (hown : i.createsOwner = false) (hgo : w.Goes ρ i (some (pc + 1)) ρ' (pc + 1))
    (hκ : ρ'.regs dst = .val κ) (hh : Has h v κ) (hpc : f.pc = pc + 1) (hget : f.get dst = v) :
    ∀ x ∈ v.asObj?.toList, x ∈ f.due code := by
  by_cases hu : w.Uncounted dst
  · obtain ⟨i', -, hs⟩ := hv.safe (hreach.step hi hgo)
    have h0 := hh.refsOf_eq (hs.modest dst κ (by rw [hκ]; rfl) hu)
    cases v with
    | obj r => simp [refsOf_obj] at h0
    | _ => simp [Value.asObj?]
  · intro x hx
    rw [← hget] at hx
    unfold Frame.due
    rw [hpc]
    rcases hv.acquired hu hi hcr hown with e | e <;> simpa only [e] using hx

namespace Working

variable {p : Program} [p.Origin] {B R : Multiset ObjId} {K : Array Value} {s s' : Running} {w w' : World} {ρ ρ' : Env}
  {q : Progress} {n n' limit : Nat} {i : Instr Nat} {h h' : Heap} {dst r : Reg} {v : Value}

/-- A closure without code is blank. -/
theorem blank_of_shell (hw : Working p B s w ρ) {x : ObjId} (hx : x ∈ s.cur.shells ρ) :
    ∃ rc k, s.machine.heap.slot? x = some ⟨rc, .closure k⟩ ∧ k.Blank := by
  obtain ⟨r, hr, hget⟩ := hx
  have hv := hw.rests.home.vetted
  obtain ⟨st, hst⟩ := hv.walk_of_val hw.rests.reached hr
  obtain ⟨y, rc, k, hy, hslot, hk⟩ :=
    (hw.rests.stocked.val hr (Or.inr ⟨st, hst, hv.shell_alive hw.rests.reached hr hst⟩)).shell
  cases hget.symm.trans hy
  exact ⟨rc, k, hslot, hk⟩

/-- The constants are live. -/
theorem live_const (hw : Working p B s w ρ) {x : ObjId} (hx : x ∈ refsOf s.machine.consts.toList) :
    ∃ c, s.machine.heap.slot? x = some c := by
  refine live_of_mem hw.good.sound ?_
  simp only [Running.refs, Multiset.mem_add]
  tauto

/-- What is in the making when nothing is. -/
theorem making_of_whole (hw : Working p B s w ρ) (h : ρ.Whole) : s.making ρ = ∅ ∧ s.cur.scopes = [] := by
  have hscope := hw.rests.scope
  rw [h.1] at hscope
  have hnil : s.cur.scopes = [] := hscope
  refine ⟨Set.eq_empty_of_forall_notMem ?_, hnil⟩
  rintro x (⟨r, hr, -⟩ | ⟨g, hg, -⟩)
  · exact h.2 r hr
  · simp [hnil] at hg

omit [p.Origin] in
/-- What is due before an instruction that takes or drops nothing. -/
theorem due_eq (hi : (code p s)[s.cur.pc]? = some i) (hadj : ∀ op r, i ≠ .adjust op r) : s.due p = [] := by
  unfold Running.due Frame.due
  rw [hi]
  split
  · next e => exact absurd (Option.some.inj e) (hadj _ _)
  · next e => exact absurd (Option.some.inj e) (hadj _ _)
  · rfl

/-! ## Closing a step -/

theorem refs_of_blank {k : Closure} (hk : k.Blank) : (Object.closure k).refs = 0 := by
  simp [Object.refs, Object.owned, Closure.ownedCaps, hk.2.1, refsOf_nil]

/-- A scope of the current frame is being filled. -/
theorem unsealed (hw : Working p B s w ρ) {g : ScopeId} {sc : Scope} (hg : g ∈ s.cur.scopes)
    (hsc : s.machine.heap.scopeAt g = some sc) : sc.isSealed = false := by
  have hscope := hw.rests.scope
  cases hρ : ρ.scope with
  | none =>
    rw [hρ] at hscope
    have hnil : s.cur.scopes = [] := hscope
    simp [hnil] at hg
  | some nk =>
    rw [hρ] at hscope
    obtain ⟨g₀, sc₀, hgs₀, hsc₀, ho, -⟩ := hscope
    rw [hgs₀] at hg
    obtain rfl := List.mem_singleton.mp hg
    obtain rfl := Option.some.inj (hsc.symm.trans hsc₀)
    exact ho

/-- **After a step** the machine forgets nothing, when apart from the closures in `D` those of before are the
same, and those in `Q`, which are still set apart, are in the making or have no captures. -/
theorem upkept_of (hw : Working p B s w ρ) (hu : s.Upkept p K ρ n) (hw' : Working p B s' w' ρ')
    (hshells : ∀ x ∈ s'.cur.shells ρ', x ∈ s.cur.shells ρ ∨ s.machine.heap.slot? x = none)
    {D Q : Set ObjId}
    (hclosures : ∀ {x rc' k}, s'.machine.heap.slot? x = some ⟨rc', .closure k⟩ →
      x ∈ D ∨ ∃ rc, s.machine.heap.slot? x = some ⟨rc, .closure k⟩)
    (hkept : ∀ {x rc k c'}, x ∈ s.cur.shells ρ → x ∉ D → s.machine.heap.slot? x = some ⟨rc, .closure k⟩ →
      s'.machine.heap.slot? x = some c' → c'.obj = .closure k)
    (hK : ∀ x ∈ refsOf K.toList, x ∉ D)
    (hc : Clean s'.machine.heap (s'.due p) Q s'.cur.scopes n') (hconsts : s'.machine.consts = K)
    (hmem : ∀ {g sc x}, g ∈ s'.cur.scopes → s'.machine.heap.scopeAt g = some sc → x ∈ sc.members → x ∈ Q)
    (hold : ∀ x ∈ s.cur.shells ρ, x ∉ D → x ∈ Q) (hD : ∀ x ∈ D, x ∈ s'.making ρ' → x ∈ Q)
    (hQ : ∀ x ∈ Q, x ∉ D → x ∈ s.cur.shells ρ ∨ x ∈ s'.making ρ')
    (hrefs : ∀ {x c}, x ∈ D → x ∈ Q → x ∉ s'.making ρ' → s'.machine.heap.slot? x = some c →
      c.obj.refs = 0) : s'.Upkept p K ρ' n' := by
  have hback : ∀ {x}, x ∈ s'.cur.shells ρ' → x ∉ D → x ∈ s.cur.shells ρ := fun {x} hx hxD => by
    refine (hshells x hx).resolve_right fun hnone => ?_
    obtain ⟨rc, k, hslot, -⟩ := hw'.blank_of_shell hx
    obtain ⟨rc₀, hslot₀⟩ := (hclosures hslot).resolve_left hxD
    rw [hnone] at hslot₀
    cases hslot₀
  refine ⟨hc.shrink ?_ fun {x c} hx hn hslot => ?_, hconsts, fun {x rc k} hx hslot => ?_, fun x hx hxs => ?_⟩
  · rintro x (hx | ⟨g, hg, sc, hsc, hm⟩)
    · by_cases hxD : x ∈ D
      · exact hD x hxD (Or.inl hx)
      · exact hold x (hback hx hxD) hxD
    · exact hmem hg hsc hm
  · by_cases hxD : x ∈ D
    · exact hrefs hxD hx hn hslot
    · have hxs := (hQ x hx hxD).resolve_right hn
      obtain ⟨rc, k, hslot₀, hk⟩ := hw.blank_of_shell hxs
      rw [hkept hxs hxD hslot₀ hslot]
      exact refs_of_blank hk
  · obtain ⟨rc₀, hslot₀⟩ := (hclosures hslot).resolve_left (hK x hx)
    exact hu.plain hx hslot₀
  · exact hu.apart x hx (hback hxs (hK x hx))

/-- A step that leaves closures and open scopes alone. -/
theorem upkept_of_neat (hw : Working p B s w ρ) (hu : s.Upkept p K ρ n) (hw' : Working p B s' w' ρ')
    (hshells : ∀ x ∈ s'.cur.shells ρ', x ∈ s.cur.shells ρ ∨ s.machine.heap.slot? x = none)
    (hq : Progress.Neat p K (s.making ρ) s.cur.scopes n s.machine.heap (.more s')) :
    s'.Upkept p K ρ' n := by
  obtain ⟨ht, hconsts, hgs, hc, hkept⟩ := hq
  refine hw.upkept_of hu hw' hshells (D := ∅) (fun hx => Or.inr (ht.closures hx))
    (fun hx _ => hkept (Or.inl hx)) (by simp) (hgs.symm ▸ hc) hconsts (fun {g sc x} hg hsc hm => ?_)
    (fun _ hx _ => Or.inl hx) (by simp) (fun x hx _ => hx.imp_right ?_) (by simp)
  · obtain ⟨sc₀, hsc₀, e⟩ := ht.used hsc
    exact Or.inr ⟨g, hgs ▸ hg, sc₀, hsc₀, e ▸ hm⟩
  · rintro ⟨g, hg, sc, hsc, hm⟩
    obtain ⟨sc', hsc', e, -⟩ := ht.filling hsc (hw.unsealed hg hsc)
    exact Or.inr ⟨g, hgs ▸ hg, sc', hsc', e ▸ hm⟩

end Working

/-! ## Operations with a result -/

namespace Heap

variable {h h' : Heap} {R : Multiset ObjId} {P : Set ObjId} {gs : List ScopeId} {n : Nat} {v a b : Value}
  {op : Operator} {checked : Bool} {q : Heap × Value}

/-- The heap is as it was, or has one object more, which is no closure and holds no references. -/
def Adds (h : Heap) (q : Heap × Value) : Prop :=
  q.1 = h ∨ ∃ o, q = h.allocate o ∧ o.refs = 0 ∧ ∀ k, o ≠ .closure k

theorem adds_str (h : Heap) (s : String) : Adds h (h.allocate (.str s)) := Or.inr ⟨_, rfl, rfl, by simp⟩

theorem adds_undefined (h : Heap) (tag : String) : Adds h (h.undefined tag) :=
  Or.inr ⟨_, rfl, rfl, by simp⟩

theorem Clean.adds (hc : Clean h [] P gs n) (hs : Sound h R []) (ha : Adds h (h', v)) :
    Clean h' v.asObj?.toList P gs n ∧ Tame h h' := by
  rcases ha with rfl | ⟨o, e, hrefs, ho⟩
  · exact ⟨hc.grow _, .refl _⟩
  · obtain ⟨rfl, rfl⟩ := Prod.mk.inj e
    have hscope : o.scope? = none := by
      cases o with
      | closure k => exact absurd rfl (ho k)
      | _ => rfl
    have hc' := hc.allocate_plain hs hrefs hscope
    rw [List.append_nil] at hc'
    exact ⟨hc', .allocate hs.arena ho⟩

theorem adds_onTexts (op : Operator) (h : Heap) (s t : String) : Adds h (op.onTexts h s t) := by
  cases op with
  | add => exact adds_str h _
  | lt => exact Or.inl rfl
  | le => exact Or.inl rfl
  | gt => exact Or.inl rfl
  | ge => exact Or.inl rfl
  | _ => exact adds_undefined h _

theorem adds_arithmetic (e : op.arithmetic h a b checked = .ok q) : Adds h q := by
  unfold Operator.arithmetic at e
  extract_lets onTexts onOthers at e
  have hothers : onOthers = .ok q → Adds h q := by
    intro e
    subst onOthers onTexts
    cases checked with
    | false => cases e
    | true =>
      obtain ⟨s, -, e⟩ := bind_ok e
      obtain ⟨t, -, e⟩ := bind_ok e
      split at e
      · rw [← Except.ok.inj e]
        exact adds_onTexts op h _ _
      · rw [← Except.ok.inj e]
        exact adds_undefined h _
  split at e
  · split at e
    · rw [← Except.ok.inj e]
      exact Or.inl rfl
    · exact hothers e
  · exact hothers e

theorem adds_eval (hop : op ≠ .cons) (e : op.eval h a b checked = .ok q) : Adds h q := by
  cases op with
  | cons => exact absurd rfl hop
  | eq =>
    obtain ⟨x, -, e⟩ := bind_ok e
    rw [← Except.ok.inj e]
    exact Or.inl rfl
  | ne =>
    obtain ⟨x, -, e⟩ := bind_ok e
    rw [← Except.ok.inj e]
    exact Or.inl rfl
  | _ =>
    simp only [Operator.eval] at e
    exact adds_arithmetic e

theorem adds_field {idx : Nat} (e : h.field v idx = .ok q) : Adds h q := by
  cases v with
  | obj r =>
    obtain ⟨o, -, e⟩ := bind_ok e
    cases o with
    | cons x y =>
      dsimp only at e
      split at e
      · rw [← Except.ok.inj e]
        exact Or.inl rfl
      · rw [← Except.ok.inj e]
        exact Or.inl rfl
      · cases e
    | struct ty fields =>
      dsimp only at e
      split at e
      · rw [← Except.ok.inj e]
        exact Or.inl rfl
      · cases e
    | undefined tag places =>
      rw [← Except.ok.inj e]
      exact adds_str h tag
    | _ => cases e
  | _ => cases e

/-- Pairing. -/
theorem Clean.cons (hc : Clean h [] ∅ gs n) (hs : Sound h R [])
    (e : Operator.eval .cons h a b checked = .ok (h', v)) : Clean h' v.asObj?.toList ∅ gs n ∧ Tame h h' := by
  obtain ⟨h₁, e₁, e⟩ := bind_ok e
  obtain ⟨h₂, e₂, e⟩ := bind_ok e
  obtain ⟨rfl, rfl⟩ := Prod.mk.inj (Except.ok.inj e)
  have hs₂ := (hs.inc_ok e₁).inc_ok e₂
  have hrefs : (Object.cons a b).refs + R = refsOf [b] + (refsOf [a] + R) := by
    show refsOf [a, b] + R = _
    rw [refsOf_cons]
    abel
  rw [← hrefs] at hs₂
  have hc₂ := ((hc.inc_nil e₁).inc_nil e₂).allocate hs₂ rfl (by simp)
  rw [List.append_nil] at hc₂
  exact ⟨hc₂, ((onward_inc e₁).trans (onward_inc e₂)).tame.trans (.allocate hs₂.arena (by simp))⟩

/-- Making a struct. -/
theorem Clean.make {ty : Nat} {vs : List Value} {h₁ : Heap} (hc : Clean h [] ∅ gs n) (hs : Sound h R [])
    (e : h.incAll vs = .ok h₁) : Clean (h₁.allocate (.struct ty vs)).1
      (h₁.allocate (.struct ty vs)).2.asObj?.toList ∅ gs n ∧ Tame h (h₁.allocate (.struct ty vs)).1 := by
  have hs₁ := hs.incAll_ok e
  have hc₁ := (hc.incAll e).allocate (o := .struct ty vs) hs₁ rfl (by simp)
  rw [List.append_nil] at hc₁
  exact ⟨hc₁, (onward_incAll e).tame.trans (.allocate hs₁.arena (by simp))⟩

/-- Making a cell. -/
theorem Clean.box {h₁ : Heap} (hc : Clean h [] ∅ gs n) (hs : Sound h R []) (e : h.inc v = .ok h₁) :
    Clean (h₁.allocate (.cell v)).1 (h₁.allocate (.cell v)).2.asObj?.toList ∅ gs n ∧
      Tame h (h₁.allocate (.cell v)).1 := by
  have hs₁ := hs.inc_ok e
  have hc₁ := (hc.inc_nil e).allocate (o := .cell v) hs₁ rfl (by simp)
  rw [List.append_nil] at hc₁
  exact ⟨hc₁, (onward_inc e).tame.trans (.allocate hs₁.arena (by simp))⟩

end Heap

end CountedMachine
