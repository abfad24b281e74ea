import CountedMachine.Proofs.Machine.Closures

/-! # Leaving and entering frames

A frame is parked at a call or a yield, and rests again when control comes back. A fresh frame owns
its arguments and its closure, and a frame that is left for good owns no more than these and the
reference that its last instruction consumes. -/

namespace CountedMachine

open Heap

namespace Frame

variable {crowded : Prop} {p : Program} [p.Origin] {h h' : Heap} {w : World} {f f' : Frame} {ρ : Env}
  {i : Instr Nat} {pc : Nat} {r dst : Reg} {v : Value} {κ : Kind}

/-! ## Coming back -/

/-- **A frame is parked** at a call or a yield. -/
theorem Rests.park (hf : f.Rests p h w ρ) (hi : (p.codeOf f.unit)[f.pc]? = some i)
    (hp : i.parks = true) (hc : ρ.Calm) : Parked p h { f with pc := f.pc + 1 } i w f.pc ρ where
  home := hf.home.congr rfl rfl
  parks := hp
  place := rfl
  instr := hi
  reached := hf.reached
  calm := hc
  scope := by
    have hs := hf.scope
    rw [hc.scope] at hs
    exact hs
  stocked := by
    have hv := hf.home.vetted
    refine ⟨fun r => ?_, hf.stocked.within, fun {r q x} hr => ?_⟩
    · rcases hc.regs r with e | ⟨κ, e, -⟩
      · rw [e]
        exact hf.stocked.void e
      · rw [e]
        rintro (hu | ⟨st', hst', hd'⟩)
        · exact hf.stocked.val e (Or.inl hu)
        · by_cases hu : w.Uncounted r
          · exact hf.stocked.val e (Or.inl hu)
          · obtain ⟨st, hst⟩ := hv.walk_of_val hf.reached e
            exact hf.stocked.val e (Or.inr ⟨st, hst, hv.alive_of_step hu hst hi
              (Instr.exits_of_parks hp) hst' hd'⟩)
    · rcases hc.regs r with e | ⟨κ, e, hκ⟩
      · cases e.symm.trans hr
      · cases e.symm.trans hr
        exact absurd rfl hκ

/-- The register that a call fills owns nothing while the frame is parked. -/
theorem Rests.share_fills (hf : f.Rests p h w ρ) (hi : (p.codeOf f.unit)[f.pc]? = some i)
    (hp : i.parks = true) (hr : i.fills = some r) (pc : Nat) :
    Frame.share (p.codeOf f.unit) { f with pc := pc } r = 0 := by
  obtain ⟨i', hi', hs⟩ := hf.home.vetted.safe hf.reached
  obtain rfl := Option.some.inj (hi.symm.trans hi')
  refine share_of_refsOf ?_
  by_cases hu : w.Uncounted r
  · exact hf.stocked.refsOf_uncounted hs.modest hu
  · have hcr : i.creates = some r := by
      cases i <;> first | exact hr | cases hp
    rcases hf.home.vetted.void_of_creates hu hf.reached hi hcr with e | ⟨rfl, -⟩
    · exact (congrArg (refsOf [·]) (hf.stocked.void e)).trans refsOf_nilValue
    · cases hp

/-- What a frame owns does not change when it is parked. -/
theorem Rests.refs_park (hf : f.Rests p h w ρ) (hi : (p.codeOf f.unit)[f.pc]? = some i)
    (hp : i.parks = true) : Frame.refs p { f with pc := f.pc + 1 } = f.refs p := by
  have hv := hf.home.vetted
  obtain ⟨i', hi', hs⟩ := hv.safe hf.reached
  obtain rfl := Option.some.inj (hi.symm.trans hi')
  obtain ⟨ρ', hgo⟩ : ∃ ρ', w.Goes ρ i (some (f.pc + 1)) ρ' (f.pc + 1) := by
    cases i with
    | call dst func nargs checked => exact ⟨_, ⟨.nil, by simp, rfl⟩, rfl⟩
    | yield src => exact ⟨ρ, rfl, rfl⟩
    | _ => cases hp
  show _ + _ = _ + _
  congr 1
  refine regRefs_congr rfl fun r => ?_
  by_cases hr : i.fills = some r
  · rw [hf.share_fills hi hp hr]
    exact (hf.share_fills hi hp hr f.pc).symm
  · exact hf.stocked.share_step hv hf.reached hi hgo hr (Instr.ne_adjust_of_parks hp · r) rfl rfl

/-- **A call has come to a result.** -/
theorem Parked.receive {func : Reg} {nargs : Nat} {checked : Bool}
    (hf : f.Parked p h (.call dst func nargs checked) w pc ρ) (hset : f.Sets f' dst v)
    (hv : Has h v κ) (hκ : κ ≠ .shell) :
    f'.Rests p h w { ρ.set dst (.val κ) with pushed := 0 } ∧ f'.refs p = f.refs p := by
  have hvet := hf.home.vetted
  have hgo : w.Goes ρ (.call dst func nargs checked) (some (pc + 1))
    { ρ.set dst (.val κ) with pushed := 0 } (pc + 1) := ⟨⟨κ, hκ, rfl⟩, rfl⟩
  have hreach := hf.reached.step hf.instr hgo
  obtain ⟨i', -, hs'⟩ := hvet.safe hreach
  obtain ⟨i₀, -, hs₀⟩ := hvet.safe hf.reached
  have hreg : ∀ q, Env.regs { ρ.set dst (.val κ) with pushed := 0 } q =
      if q = dst then .val κ else ρ.regs q := Env.set_eq ρ (.val κ)
  refine ⟨⟨hf.home.congr hset.unit hset.closure, ?_, ⟨fun q => ?_, fun {q} hq => ?_,
    fun {q q' x} hq => ?_⟩, ?_⟩, ?_⟩
  · rw [hset.unit, hset.pc, hf.place]
    exact hreach
  · rw [hreg]
    split_ifs with e
    · intro _
      rw [e, hset.self]
      exact hv
    · have := hf.stocked.sits q
      rcases hf.calm.regs q with hq | ⟨κ', hq, -⟩
      · rw [hq] at this ⊢
        exact (hset.other e).trans this
      · rw [hq] at this ⊢
        intro ha
        rw [hset.other e]
        refine this (ha.imp id fun ha => ?_)
        rw [hset.unit, hset.pc] at ha
        exact ha
  · rw [hreg] at hq
    rw [hset.size]
    split_ifs at hq with e
    · exact e ▸ hset.within
    · exact hf.stocked.within hq
  · rw [hreg] at hq
    split_ifs at hq with e
    · cases hq
      exact absurd rfl hκ
    · rcases hf.calm.regs q with e | ⟨κ', e, hκ'⟩
      · cases e.symm.trans hq
      · cases e.symm.trans hq
        exact absurd rfl hκ'
  · rw [hset.scopes]
    show Opened h ρ.scope f.scopes
    rw [hf.calm.scope]
    exact hf.scope
  · have hwalk : Walk (p.codeOf f.unit) dst (pc + 1) ⟨0, false⟩ :=
      .born hf.instr rfl (by simp [Instr.exits, Instr.isTerminal])
    have hshare : ∀ q, f'.share (p.codeOf f.unit) q = f.share (p.codeOf f.unit) q := by
      intro q
      by_cases e : q = dst
      · subst e
        by_cases hu : w.Uncounted q
        · rw [share_of_refsOf (f := f) (hf.stocked.refsOf_uncounted hs₀.modest hu), share_of_refsOf]
          rw [hset.self]
          exact hv.refsOf_eq (hs'.modest q κ (by rw [hreg, if_pos rfl]; rfl) hu)
        · rw [share, share, hset.pc, hf.place, hvet.owned_of_walk hu hwalk, zero_nsmul, zero_nsmul]
      · rw [share, share, hset.pc, hset.other e]
    rw [refs, refs, hset.unit, hset.args, hset.closure, regRefs_congr hset.size hshare]

/-- **A yield is over.** -/
theorem Parked.wake {src : Reg} (hf : f.Parked p h (.yield src) w pc ρ) : f.Rests p h w ρ where
  home := hf.home
  reached := by
    rw [hf.place]
    exact hf.reached.step hf.instr ⟨rfl, rfl⟩
  stocked := hf.stocked
  scope := by
    rw [hf.calm.scope]
    exact hf.scope

/-! ## Fresh frames -/

theorem regRefs_nil (hf : ∀ r, f.get r = .nil) (code : Array (Instr Nat)) : f.regRefs code = 0 :=
  Finset.sum_eq_zero fun k _ => share_of_refsOf (by rw [hf ⟨k⟩, refsOf_nilValue])

/-- The frame has just been made for a unit. -/
structure New (f : Frame) (unit : UnitId) (args : List Value) (closure : Option Value)
    (ret : Option Reg) : Prop where
  unit : f.unit = unit
  pc : f.pc = 0
  args : f.args = args
  closure : f.closure = closure
  ret : f.ret = ret
  scopes : f.scopes = []
  regs : ∀ r, f.get r = .nil

omit [p.Origin] in
theorem ensures_frame {unit : UnitId} {args : List Value} {closure : Option Value} {ret : Option Reg} :
    Ensures crowded (p.frame unit args closure ret) fun f => f.New unit args closure ret := by
  unfold Program.frame Program.unit
  cases hu : p.units[unit.index]? with
  | none => exact trivial
  | some u =>
    refine .ok ⟨rfl, rfl, rfl, rfl, rfl, rfl, fun r => ?_⟩
    simp only [get, Array.getElem?_replicate]
    split_ifs <;> rfl

omit [p.Origin] in
theorem new_of_frame {unit : UnitId} {args : List Value} {closure : Option Value} {ret : Option Reg}
    (hf : p.frame unit args closure ret = .ok f) : f.New unit args closure ret :=
  have hn : Ensures True (p.frame unit args closure ret) _ := ensures_frame
  hn.result hf

theorem New.refs {unit : UnitId} {args : List Value} {closure : Option Value} {ret : Option Reg}
    (hn : f.New unit args closure ret) (p : Program) :
    f.refs p = refsOf args + refsOf closure.toList := by
  rw [Frame.refs, regRefs_nil hn.regs, zero_add, hn.args, hn.closure]

/-- **A fresh frame** of a unit that works with its captures. -/
theorem New.rests {unit : UnitId} {args : List Value} {closure : Option Value} {ret : Option Reg}
    {cells : List Bool} (hn : f.New unit args closure ret) (hok : UnitOk p.settings p unit cells)
    (hhost : closure = none → cells = [])
    (hclosure : ∀ {v}, closure = some v → ∃ r rc k, v = .obj r ∧
      h.slot? r = some ⟨rc, .closure k⟩ ∧ k.isFinished = true ∧ Furnished h k cells) :
    ∃ w, f.Rests p h w .start := by
  obtain ⟨u, body, hu, hmade, -, hv⟩ := hok.draft
  have hcode : p.codeOf f.unit = u.code := by
    rw [hn.unit, Program.codeOf, hu]
  refine ⟨⟨p, p.settings, p.draft unit cells, cells, UnitOk p.settings p⟩, ⟨rfl, rfl, rfl, hn.unit ▸ rfl,
    ⟨u, body, hn.unit ▸ hu, hmade⟩, hcode ▸ hv, fun hc => hhost (hn.closure ▸ hc),
    fun hc => hclosure (hn.closure ▸ hc)⟩, hn.pc ▸ .start,
    ⟨fun r => hn.regs r, fun hr => ?_, fun hr => ?_⟩, hn.scopes⟩
  · exact absurd rfl hr
  · cases hr

theorem shells_start (f : Frame) : f.shells .start = ∅ := shells_of_calm Env.calm_start

/-! ## Leaving for good -/

/-- **At the end of a path** a register owns what the last instruction consumes. -/
theorem Rests.share_terminal (hf : f.Rests p h w ρ) (hi : (p.codeOf f.unit)[f.pc]? = some i)
    (ht : i.isTerminal = true) (hc : ρ.Calm) (r : Reg) :
    f.share (p.codeOf f.unit) r = if i.consumes r = true then refsOf [f.get r] else 0 := by
  have hv := hf.home.vetted
  obtain ⟨i', hi', hs⟩ := hv.safe hf.reached
  obtain rfl := Option.some.inj (hi.symm.trans hi')
  by_cases h0 : refsOf [f.get r] = 0
  · rw [share_of_refsOf h0, h0, ite_self]
  have hu : ¬ w.Uncounted r := fun hu => h0 (hf.stocked.refsOf_uncounted hs.modest hu)
  rcases hc.regs r with e | ⟨κ, e, -⟩
  · exact absurd (by rw [hf.stocked.void e, refsOf_nilValue]) h0
  obtain ⟨st, hst⟩ := hv.walk_of_val hf.reached e
  obtain ⟨st', hobs, hend⟩ := hv.balanced hu hst hi
  have hst' := hend ht
  rw [share, hv.owned_of_walk hu hst]
  rcases Holding.observe_cases hobs with ⟨hread, -, rfl⟩ | ⟨hd, ⟨op, e, -⟩ | ⟨-, hcons, hcount, rfl⟩ |
    ⟨-, -, rfl⟩⟩
  · rw [hst', if_neg, zero_nsmul]
    intro hcons
    rw [Instr.reads_placed] at hread
    cases i <;> simp_all [Instr.consumes, Instr.reads, Instr.inputs]
  · rw [Instr.placed_eq_adjust.mp e] at ht
    cases ht
  · rw [Instr.consumes_placed] at hcons
    have hone : st.count = 1 := by
      have := congrArg Holding.count hst'
      simp only at this
      omega
    rw [if_pos hcons, hone, one_nsmul]
  · rw [hst'] at hd
    cases hd

/-- The references of the registers at the end of a path that consumes a register. -/
theorem Rests.regRefs_terminal (hf : f.Rests p h w ρ) (hi : (p.codeOf f.unit)[f.pc]? = some i)
    (ht : i.isTerminal = true) (hc : ρ.Calm) (hr : ∀ q, i.consumes q = true ↔ q = r) :
    f.regRefs (p.codeOf f.unit) = refsOf [f.get r] := by
  have hshare := hf.share_terminal hi ht hc
  have hself : f.share (p.codeOf f.unit) r = refsOf [f.get r] := by
    rw [hshare, if_pos ((hr r).mpr rfl)]
  rw [← hself]
  rcases Nat.lt_or_ge r.index f.regs.size with hlt | hge
  · refine Finset.sum_eq_single_of_mem r.index (Finset.mem_range.mpr hlt) fun k _ hk => ?_
    rw [hshare, if_neg fun e => hk (by rw [← (hr ⟨k⟩).mp e])]
  · rw [share_of_ge hge]
    refine Finset.sum_eq_zero fun k hk => ?_
    rw [hshare, if_neg fun e => ?_]
    rw [← (hr ⟨k⟩).mp e] at hge
    exact absurd (Finset.mem_range.mp hk) (by simpa using hge)

/-- The references of the registers at the end of a path that consumes nothing. -/
theorem Rests.regRefs_done (hf : f.Rests p h w ρ) (hi : (p.codeOf f.unit)[f.pc]? = some .done)
    (hc : ρ.Calm) : f.regRefs (p.codeOf f.unit) = 0 :=
  Finset.sum_eq_zero fun k _ => by
    rw [hf.share_terminal hi rfl hc]
    exact if_neg (by simp [Instr.consumes])

end Frame

end CountedMachine
