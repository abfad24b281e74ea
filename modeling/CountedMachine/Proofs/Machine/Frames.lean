import CountedMachine.Proofs.Machine.Holdings
import CountedMachine.Proofs.Machine.Values

/-! # Frames and what they own

A frame owns references to its arguments and its closure, and for each register as many as the
ownership analysis counts at the place the frame has reached (`Frame.refs`). A frame is `Stocked` for
an environment when its registers hold what the environment says, as far as they are alive.

One step of control changes at most the register that the instruction fills or adjusts: all others
own what they owned (`Stocked.share_step`), and what they hold is still of the same kind when the heap
preserves the objects that the frame holds (`Stocked.step`). -/

namespace CountedMachine

open Heap

/-- The code of a unit, empty where there is no such unit. -/
def Program.codeOf (p : Program) (id : UnitId) : Array (Instr Nat) :=
  match p.units[id.index]? with
  | some u => u.code
  | none => #[]

namespace Frame

/-- The value in a register, nil where there is no such register. -/
def get (f : Frame) (r : Reg) : Value := f.regs[r.index]?.getD .nil

/-- The references a register owns. -/
noncomputable def share (code : Array (Instr Nat)) (f : Frame) (r : Reg) : Multiset ObjId :=
  owned code f.pc r • refsOf [f.get r]

/-- The references that the registers own. -/
noncomputable def regRefs (code : Array (Instr Nat)) (f : Frame) : Multiset ObjId :=
  ∑ k ∈ Finset.range f.regs.size, f.share code ⟨k⟩

/-- **The references a frame owns.** -/
noncomputable def refs (p : Program) (f : Frame) : Multiset ObjId :=
  f.regRefs (p.codeOf f.unit) + (refsOf f.args + refsOf f.closure.toList)

section
variable {crowded : Prop} {code : Array (Instr Nat)} {f f' : Frame} {r d : Reg} {v : Value}

theorem share_of_ge (h : f.regs.size ≤ r.index) : f.share code r = 0 := by
  simp [share, get, Array.getElem?_eq_none h]

theorem share_of_refsOf (h : refsOf [f.get r] = 0) : f.share code r = 0 := by
  rw [share, h, smul_zero]

theorem share_le_regRefs (code : Array (Instr Nat)) (f : Frame) (r : Reg) :
    f.share code r ≤ f.regRefs code := by
  rcases Nat.lt_or_ge r.index f.regs.size with h | h
  · exact Finset.single_le_sum (f := fun k => f.share code ⟨k⟩) (fun _ _ => Multiset.zero_le _)
      (Finset.mem_range.mpr h)
  · rw [share_of_ge h]
    exact Multiset.zero_le _

/-- When one register changes, the references change by its share. -/
theorem regRefs_change (code : Array (Instr Nat)) (d : Reg) (hsize : f'.regs.size = f.regs.size)
    (h : ∀ r, r ≠ d → f'.share code r = f.share code r) :
    f'.regRefs code + f.share code d = f.regRefs code + f'.share code d := by
  unfold regRefs
  rw [hsize]
  rcases Nat.lt_or_ge d.index f.regs.size with hd | hd
  · have hmem : d.index ∈ Finset.range f.regs.size := Finset.mem_range.mpr hd
    rw [← Finset.add_sum_erase _ _ hmem, ← Finset.add_sum_erase _ (fun k => f.share code ⟨k⟩) hmem]
    have hrest : ∑ k ∈ (Finset.range f.regs.size).erase d.index, f'.share code ⟨k⟩ =
        ∑ k ∈ (Finset.range f.regs.size).erase d.index, f.share code ⟨k⟩ :=
      Finset.sum_congr rfl fun k hk => h ⟨k⟩ fun e => (Finset.mem_erase.mp hk).1 (by rw [← e])
    rw [hrest]
    show f'.share code d + _ + f.share code d = f.share code d + _ + f'.share code d
    abel
  · rw [share_of_ge hd, share_of_ge (hsize ▸ hd), add_zero, add_zero]
    exact Finset.sum_congr rfl fun k hk => h ⟨k⟩ fun e => by
      rw [← e] at hd
      exact absurd (Finset.mem_range.mp hk) (by simpa using hd)

theorem regRefs_congr (hsize : f'.regs.size = f.regs.size)
    (h : ∀ r, f'.share code r = f.share code r) : f'.regRefs code = f.regRefs code := by
  unfold regRefs
  rw [hsize]
  exact Finset.sum_congr rfl fun k _ => h ⟨k⟩

/-! ## Reading and writing -/

theorem ensures_read (f : Frame) (r : Reg) : Ensures crowded (f.read r) fun v => v = f.get r := by
  unfold read
  cases h : f.regs[r.index]? with
  | none => exact trivial
  | some v => exact .ok (by simp [get, h])

theorem read_ok {f : Frame} {r : Reg} {v : Value} (e : f.read r = .ok v) : v = f.get r :=
  have he : Ensures True (f.read r) _ := f.ensures_read r
  he.result e

theorem ensures_readAll (f : Frame) : ∀ rs : List Reg,
    Ensures crowded (f.readAll rs) fun vs => vs = rs.map f.get
  | [] => .ok rfl
  | r :: rs => by
    rw [readAll, List.mapM_cons]
    refine (f.ensures_read r).bind fun v hv => ?_
    refine (ensures_readAll f rs).bind fun vs hvs => .ok ?_
    rw [hv, hvs, List.map_cons]

/-- The second frame is the first with a value put into a register. -/
structure Sets (f f' : Frame) (r : Reg) (v : Value) : Prop where
  unit : f'.unit = f.unit
  pc : f'.pc = f.pc
  args : f'.args = f.args
  closure : f'.closure = f.closure
  ret : f'.ret = f.ret
  scopes : f'.scopes = f.scopes
  size : f'.regs.size = f.regs.size
  within : r.index < f.regs.size
  self : f'.get r = v
  other : ∀ {q}, q ≠ r → f'.get q = f.get q

theorem ensures_write (f : Frame) (r : Reg) (v : Value) :
    Ensures crowded (f.write r v) fun f' => f.Sets f' r v := by
  unfold write
  split_ifs with h
  · refine .ok ⟨rfl, rfl, rfl, rfl, rfl, rfl, by simp, h, by simp [get, h], fun {q} hq => ?_⟩
    have : r.index ≠ q.index := fun e => hq (by cases q; cases r; cases e; rfl)
    simp [get, this]
  · exact trivial

end

/-! ## What registers hold -/

/-- The register holds what its status says, as far as it is alive. -/
def Sits (w : World) (h : Heap) (code : Array (Instr Nat)) (f : Frame) (r : Reg) : Status → Prop
  | .void => f.get r = .nil
  | .held κ => Has h (f.get r) κ
  | .val κ => w.Uncounted r ∨ Alive code f.pc r → Has h (f.get r) κ

/-- The register holds a value that may still be used, or one on its way to a merge. -/
def InUse (code : Array (Instr Nat)) (f : Frame) (ρ : Env) (r : Reg) : Prop :=
  (∃ κ, ρ.regs r = .held κ) ∨ ∃ κ, ρ.regs r = .val κ ∧ Alive code f.pc r

/-- **The registers hold what the environment says.** Those that have been filled exist, and a closure
without code is in no other register that is in use. -/
structure Stocked (w : World) (h : Heap) (code : Array (Instr Nat)) (f : Frame) (ρ : Env) : Prop where
  sits : ∀ r, f.Sits w h code r (ρ.regs r)
  within : ∀ {r}, ρ.regs r ≠ .void → r.index < f.regs.size
  apart : ∀ {r q x}, ρ.regs r = .val .shell → f.InUse code ρ q → f.get r = .obj x →
    f.get q = .obj x → r = q

/-- The closures that have no code yet. -/
def shells (f : Frame) (ρ : Env) : Set ObjId := {x | ∃ r, ρ.regs r = .val .shell ∧ f.get r = .obj x}

theorem shells_of_calm {f : Frame} {ρ : Env} (h : ρ.Calm) : f.shells ρ = ∅ := by
  refine Set.eq_empty_of_forall_notMem fun x hx => ?_
  obtain ⟨r, hr, -⟩ := hx
  rcases h.regs r with e | ⟨κ, e, hκ⟩
  · cases e.symm.trans hr
  · cases e.symm.trans hr
    exact hκ rfl

/-- A value on its way to a merge is owned once. -/
theorem share_of_held {w : World} {h : Heap} {code : Array (Instr Nat)} {f : Frame} {ρ : Env} {r : Reg}
    {κ : Kind} (hv : w.Vetted code) (hreach : w.Reached code f.pc ρ) (hr : ρ.regs r = .held κ)
    (hh : Has h (f.get r) κ) : f.share code r = refsOf [f.get r] := by
  by_cases hu : w.Uncounted r
  · obtain ⟨i, -, hs⟩ := hv.safe hreach
    have h0 := hh.refsOf_eq (hs.modest r κ (by rw [hr]; rfl) hu)
    rw [h0, share_of_refsOf h0]
  · rw [share, hv.owned_of_held hu hreach hr, one_nsmul]

namespace Stocked

variable {w : World} {h h' : Heap} {code : Array (Instr Nat)} {f f' : Frame} {ρ ρ' : Env} {r : Reg}
  {i : Instr Nat} {pc' : Nat} {κ : Kind} {S : Multiset ObjId}

theorem void (hf : f.Stocked w h code ρ) (hr : ρ.regs r = .void) : f.get r = .nil := by
  have := hf.sits r
  rw [hr] at this
  exact this

theorem held (hf : f.Stocked w h code ρ) (hr : ρ.regs r = .held κ) : Has h (f.get r) κ := by
  have := hf.sits r
  rw [hr] at this
  exact this

theorem val (hf : f.Stocked w h code ρ) (hr : ρ.regs r = .val κ)
    (ha : w.Uncounted r ∨ Alive code f.pc r) : Has h (f.get r) κ := by
  have := hf.sits r
  rw [hr] at this
  exact this ha

/-- Registers whose ownership is not managed hold no references. -/
theorem refsOf_uncounted (hf : f.Stocked w h code ρ) (hm : w.Modest ρ) (hu : w.Uncounted r) :
    refsOf [f.get r] = 0 := by
  cases hr : ρ.regs r with
  | void => rw [hf.void hr, refsOf_nilValue]
  | held κ => exact (hf.held hr).refsOf_eq (hm r κ (by rw [hr]; rfl) hu)
  | val κ => exact (hf.val hr (Or.inl hu)).refsOf_eq (hm r κ (by rw [hr]; rfl) hu)

/-- What is in use is live. -/
theorem live_of_inUse (hf : f.Stocked w h code ρ) (hr : f.InUse code ρ r) : h.Live (f.get r) := by
  rcases hr with ⟨κ, hκ⟩ | ⟨κ, hκ, ha⟩
  · exact (hf.held hκ).live
  · exact (hf.val hκ (Or.inr ha)).live

variable (hv : w.Vetted code) (hf : f.Stocked w h code ρ) (hreach : w.Reached code f.pc ρ)
include hv hreach

omit hf in
/-- A closure without code is in use. -/
theorem inUse_of_shell (hr : ρ.regs r = .val .shell) : f.InUse code ρ r := by
  obtain ⟨st, hst⟩ := hv.walk_of_val hreach hr
  exact Or.inr ⟨.shell, hr, st, hst, hv.shell_alive hreach hr hst⟩

variable (hi : code[f.pc]? = some i)
include hf hi

/-- A register that is in use and has not been filled was in use before. -/
theorem inUse_back (hgo : w.Goes ρ i (some (f.pc + 1)) ρ' pc') (hpc : f'.pc = pc')
    (hget : f'.get r = f.get r) (hfill : i.fills ≠ some r) {x : ObjId} (hx : f'.get r = .obj x)
    (hr : f'.InUse code ρ' r) : f.InUse code ρ r := by
  rcases hr with ⟨κ, hκ⟩ | ⟨κ, hκ, st', hst', hd⟩
  · exact Or.inl ⟨κ, (hgo.regs_of_ne hfill).symm.trans hκ⟩
  · have hκ' := (hgo.regs_of_ne hfill).symm.trans hκ
    have hu : ¬ w.Uncounted r := fun hu => by
      obtain ⟨i', -, hs⟩ := hv.safe hreach
      have h0 := hf.refsOf_uncounted hs.modest hu
      rw [← hget, hx] at h0
      simp [refsOf_obj] at h0
    obtain ⟨st, hst⟩ := hv.walk_of_val hreach hκ'
    exact Or.inr ⟨κ, hκ', st, hst, hv.alive_of_step hu hst hi hgo.mem_exits (hpc ▸ hst') hd⟩

omit hf in
/-- What an instruction reads is alive. -/
theorem alive_input (hr : r ∈ i.inputs) : ∃ κ, ρ.regs r = .val κ ∧ (κ = .shell → i.finishes = true) ∧
    (w.Uncounted r ∨ Alive code f.pc r) := by
  obtain ⟨i', hi', hs⟩ := hv.safe hreach
  obtain rfl := Option.some.inj (hi.symm.trans hi')
  obtain ⟨κ, hκ, hw⟩ := hs.reads r hr
  refine ⟨κ, hκ, hw, ?_⟩
  by_cases hu : w.Uncounted r
  · exact Or.inl hu
  · obtain ⟨st, hst⟩ := hv.walk_of_val hreach hκ
    rcases Holding.observe_cases (hv.walk_observe hu hst hi) with ⟨hread, -⟩ | ⟨hd, -⟩
    · rw [Instr.reads_placed] at hread
      simp [Instr.reads, hr] at hread
    · exact Or.inr ⟨st, hst, hd⟩

/-- **What an instruction reads** is there. -/
theorem input (hr : r ∈ i.inputs) :
    ∃ κ, ρ.regs r = .val κ ∧ Has h (f.get r) κ ∧ (κ = .shell → i.finishes = true) := by
  obtain ⟨κ, hκ, hw, ha⟩ := alive_input hv hreach hi hr
  exact ⟨κ, hκ, hf.val hκ ha, hw⟩

/-- A closure without code is read from its own register only. -/
theorem apart_input {q : Reg} {x : ObjId} (hr : r ∈ i.inputs) (hq : ρ.regs q = .val .shell)
    (hx : f.get q = .obj x) (hrx : f.get r = .obj x) : q = r := by
  obtain ⟨κ, hκ, -, ha⟩ := alive_input hv hreach hi hr
  obtain ⟨i', -, hs⟩ := hv.safe hreach
  refine hf.apart hq (Or.inr ⟨κ, hκ, ha.resolve_left fun hu => ?_⟩) hx hrx
  have h0 := hf.refsOf_uncounted hs.modest hu
  rw [hrx] at h0
  simp [refsOf_obj] at h0

theorem input_of (hr : r ∈ i.inputs) (hκ : ρ.regs r = .val κ) : Has h (f.get r) κ := by
  obtain ⟨κ', hκ', hh, -⟩ := hf.input hv hreach hi hr
  cases hκ.symm.trans hκ'
  exact hh

/-- Registers that are not touched own what they owned. -/
theorem share_step (hgo : w.Goes ρ i (some (f.pc + 1)) ρ' pc') (hfill : i.fills ≠ some r)
    (hadj : ∀ op, i ≠ .adjust op r) (hget : f'.get r = f.get r) (hpc : f'.pc = pc') :
    f'.share code r = f.share code r := by
  obtain ⟨i', hi', hs⟩ := hv.safe hreach
  by_cases hu : w.Uncounted r
  · have h0 := hf.refsOf_uncounted hs.modest hu
    rw [share_of_refsOf h0, share_of_refsOf (hget ▸ h0)]
  · by_cases hr : ρ.regs r = .void
    · have h0 : refsOf [f.get r] = 0 := by rw [hf.void hr, refsOf_nilValue]
      rw [share_of_refsOf h0, share_of_refsOf (hget ▸ h0)]
    · rw [share, share, hget, hpc, hv.owned_step hu hreach hi hgo hfill hadj hr]

/-- The register that is created owned nothing before. -/
theorem share_created (hcr : i.creates = some r) (hm : ∀ q, i ≠ .merge q) : f.share code r = 0 := by
  obtain ⟨i', hi', hs⟩ := hv.safe hreach
  by_cases hu : w.Uncounted r
  · exact share_of_refsOf (hf.refsOf_uncounted hs.modest hu)
  · rcases hv.void_of_creates hu hreach hi hcr with e | ⟨e, -⟩
    · exact share_of_refsOf (by rw [hf.void e, refsOf_nilValue])
    · exact absurd e (hm r)

omit hf in
/-- Closures without code are neither allocated nor completed by most instructions. -/
theorem shells_step (hgo : w.Goes ρ i (some (f.pc + 1)) ρ' pc') (ha : ∀ q, i ≠ .allocClosure q)
    (hc : ∀ q unit caps, i ≠ .finishClosure q unit caps)
    (hget : ∀ q, i.fills ≠ some q → f'.get q = f.get q) : f'.shells ρ' = f.shells ρ := by
  ext x
  constructor
  · rintro ⟨q, hq, hx⟩
    rcases hv.shell_back hreach hgo hq with e | ⟨hfill, hq'⟩
    · exact absurd e (ha q)
    · exact ⟨q, hq', (hget q hfill).symm.trans hx⟩
  · rintro ⟨q, hq, hx⟩
    have hfill : i.fills ≠ some q := fun e => by
      obtain ⟨unit, caps, rfl⟩ := hv.fills_shell hreach hi e hq
      exact hc q unit caps rfl
    exact ⟨q, (hgo.regs_of_ne hfill).trans hq, (hget q hfill).trans hx⟩

/-- **A step of control**: registers that are not touched hold what they held. -/
theorem step (hgo : w.Goes ρ i (some (f.pc + 1)) ρ' pc') (hpc : f'.pc = pc')
    (hsize : f'.regs.size = f.regs.size)
    (hget : ∀ q, i.fills ≠ some q → f'.get q = f.get q)
    (hS : f.regRefs code ≤ S ∨ f'.regRefs code ≤ S)
    (hkeep : ∀ {q κ}, i.fills ≠ some q → refsOf [f.get q] ≤ S → Has h (f.get q) κ →
      (κ = .shell → ρ.regs q = .val .shell) → Has h' (f.get q) κ)
    (hfill : ∀ q, i.fills = some q → q.index < f.regs.size ∧ f'.Sits w h' code q (ρ'.regs q))
    (hadj : ∀ op q, i = .adjust op q → f'.Sits w h' code q (ρ'.regs q))
    (hnew : ∀ q x, i = .allocClosure q → f'.get q = .obj x → h.slot? x = none)
    (hapart : ∀ {q r x}, i.fills = some q → ρ.regs r = .val .shell → r ≠ q → f.get r = .obj x →
      f'.get q ≠ .obj x) :
    f'.Stocked w h' code ρ' := by
  obtain ⟨i', hi', hs⟩ := hv.safe hreach
  refine ⟨fun q => ?_, fun {q} hq => ?_, fun {q q' x} hq hq' hx hx' => ?_⟩
  · by_cases hq : i.fills = some q
    · exact (hfill q hq).2
    by_cases ha : ∃ op, i = .adjust op q
    · obtain ⟨op, ha⟩ := ha
      exact hadj op q ha
    simp only [not_exists] at ha
    have hshare := hf.share_step hv hreach hi hgo hq ha (hget q hq) hpc
    have hle : owned code f.pc q = 1 → refsOf [f.get q] ≤ S := by
      intro h1
      have h1' : f.share code q = refsOf [f.get q] := by rw [share, h1, one_nsmul]
      rcases hS with hS | hS
      · exact h1' ▸ (share_le_regRefs code f q).trans hS
      · exact h1' ▸ hshare ▸ (share_le_regRefs code f' q).trans hS
    have hzero : w.Uncounted q → refsOf [f.get q] ≤ S := fun hu => by
      rw [hf.refsOf_uncounted hs.modest hu]
      exact Multiset.zero_le _
    rw [hgo.regs_of_ne hq]
    cases hst : ρ.regs q with
    | void =>
      show f'.get q = .nil
      rw [hget q hq, hf.void hst]
    | held κ =>
      show Has h' (f'.get q) κ
      rw [hget q hq]
      refine hkeep hq ?_ (hf.held hst) fun e => absurd e (hv.held_whole hreach hst)
      by_cases hu : w.Uncounted q
      · exact hzero hu
      · exact hle (hv.owned_of_held hu hreach hst)
    | val κ =>
      intro halive
      rw [hpc] at halive
      rw [hget q hq]
      by_cases hu : w.Uncounted q
      · exact hkeep hq (hzero hu) (hf.val hst (Or.inl hu)) fun e => e ▸ hst
      · obtain ⟨st', hw', hd'⟩ := halive.resolve_left hu
        obtain ⟨st, hw⟩ := hv.walk_of_val hreach hst
        obtain ⟨rfl, -⟩ := hv.walk_alive hu hw hi hgo.mem_exits ha hw' hd'
        exact hkeep hq (hle (hv.owned_of_walk hu hw)) (hf.val hst (Or.inr ⟨_, hw, rfl⟩))
          fun e => e ▸ hst
  · rw [hsize]
    by_cases hf' : i.fills = some q
    · exact (hfill q hf').1
    · exact hf.within (hgo.regs_of_ne hf' ▸ hq)
  · by_cases hqq : q = q'
    · exact hqq
    rcases hv.shell_back hreach hgo hq with rfl | ⟨hfq, hst⟩
    · -- a closure that has just been allocated is not one that was there
      have hfq' : (Instr.allocClosure q : Instr Nat).fills ≠ some q' := fun e => hqq (Option.some.inj e)
      have huse := hf.inUse_back hv hreach hi hgo hpc (hget q' hfq') hfq' hx' hq'
      obtain ⟨c, hc⟩ := hf.live_of_inUse huse x ((hget q' hfq').symm.trans hx')
      rw [hnew q x rfl hx] at hc
      cases hc
    · have hgq := (hget q hfq).symm.trans hx
      by_cases hfq' : i.fills = some q'
      · exact absurd hx' (hapart hfq' hst hqq hgq)
      · exact hf.apart hst (hf.inUse_back hv hreach hi hgo hpc (hget q' hfq') hfq' hx' hq') hgq
          ((hget q' hfq').symm.trans hx')

end Stocked

/-! ## Frames at rest -/

end Frame

/-- Control leaves the frame with the instruction, and may come back. -/
def Instr.parks : Instr Nat → Bool
  | .call _ _ _ _ => true
  | .yield _ => true
  | _ => false

theorem Instr.exits_of_parks {i : Instr Nat} {pc : Nat} (h : i.parks = true) : pc + 1 ∈ i.exits pc := by
  cases i <;> first | (cases h; done) | simp [exits, isTerminal]

theorem Instr.ne_adjust_of_parks {i : Instr Nat} (h : i.parks = true) (op : CountOp) (r : Reg) :
    i ≠ .adjust op r := by
  rintro rfl
  cases h

namespace Frame

/-- **The frame's unit**: its code has come from a body and is vetted, and its closure has the captures
that the code expects. -/
structure Home (p : Program) [p.Origin] (h : Heap) (w : World) (f : Frame) : Prop where
  program : w.program = p
  settings : w.settings = p.settings
  ok : w.ok = UnitOk p.settings p
  drafted : w.drafted = p.draft f.unit w.caps
  made : ∃ u body, p.units[f.unit.index]? = some u ∧
    Gen.MadeFrom ⟨p.settings, p.types⟩ u w.caps body w.drafted
  vetted : w.Vetted (p.codeOf f.unit)
  host : f.closure = none → w.caps = []
  closure : ∀ {v}, f.closure = some v → ∃ r rc k, v = .obj r ∧ h.slot? r = some ⟨rc, .closure k⟩ ∧
    k.isFinished = true ∧ Furnished h k w.caps

/-- The scope that is open, for so many closures, of which so many have joined. -/
def Opened (h : Heap) : Option (Nat × Nat) → List ScopeId → Prop
  | none, gs => gs = []
  | some (n, k), gs => ∃ g s, gs = [g] ∧ h.scopeAt g = some s ∧ s.isSealed = false ∧ s.size = n ∧
    s.members.length = k

theorem Opened.preserves {h h' : Heap} {o : Option (Nat × Nat)} {gs : List ScopeId}
    {E : Multiset ObjId} (ho : Opened h o gs) (hp : Preserves E h h') : Opened h' o gs := by
  rcases o with _ | ⟨n, k⟩
  · exact ho
  · obtain ⟨g, s, e, hg, hs, hrest⟩ := ho
    exact ⟨g, s, e, hp.scopes hg hs, hs, hrest⟩

/-- **A frame at work.** -/
structure Rests (p : Program) [p.Origin] (h : Heap) (w : World) (f : Frame) (ρ : Env) : Prop where
  home : f.Home p h w
  reached : w.Reached (p.codeOf f.unit) f.pc ρ
  stocked : f.Stocked w h (p.codeOf f.unit) ρ
  scope : Opened h ρ.scope f.scopes

/-- **A frame that has been left** at a call or a yield, `i`, until control comes back. -/
structure Parked (p : Program) [p.Origin] (h : Heap) (f : Frame) (i : Instr Nat) (w : World) (pc : Nat)
    (ρ : Env) : Prop where
  home : f.Home p h w
  parks : i.parks = true
  place : f.pc = pc + 1
  instr : (p.codeOf f.unit)[pc]? = some i
  reached : w.Reached (p.codeOf f.unit) pc ρ
  calm : ρ.Calm
  stocked : f.Stocked w h (p.codeOf f.unit) ρ
  scope : f.scopes = []

section
variable {p : Program} [p.Origin] {h h' : Heap} {w : World} {f : Frame} {i : Instr Nat} {pc : Nat} {ρ : Env}
  {E : Multiset ObjId}

theorem refsOf_closure_le (p : Program) (f : Frame) : refsOf f.closure.toList ≤ f.refs p :=
  (Multiset.le_add_left _ _).trans (Multiset.le_add_left _ _)

theorem regRefs_le_refs (p : Program) (f : Frame) : f.regRefs (p.codeOf f.unit) ≤ f.refs p :=
  Multiset.le_add_right _ _

theorem Home.congr {f' : Frame} (hf : f.Home p h w) (hunit : f'.unit = f.unit)
    (hclosure : f'.closure = f.closure) : f'.Home p h w where
  program := hf.program
  settings := hf.settings
  ok := hf.ok
  drafted := hunit ▸ hf.drafted
  made := hunit ▸ hf.made
  vetted := hunit ▸ hf.vetted
  host hc := hf.host (hclosure ▸ hc)
  closure hc := hf.closure (hclosure ▸ hc)

theorem Home.respects (hf : f.Home p h w) (hr : Respects E h h')
    (hE : refsOf f.closure.toList ≤ E) : f.Home p h' w where
  program := hf.program
  settings := hf.settings
  ok := hf.ok
  drafted := hf.drafted
  made := hf.made
  vetted := hf.vetted
  host := hf.host
  closure {v} hc := by
    obtain ⟨r, rc, k, rfl, hr₀, hfin, hfur⟩ := hf.closure hc
    have hmem : r ∈ E := Multiset.mem_of_le hE (by rw [hc]; simp [refsOf_obj])
    obtain ⟨rc', k', hr', hu, hcaps, hkeep⟩ := hr.closures hmem hr₀ hfin
    refine ⟨r, rc', k', rfl, hr', by rwa [Closure.isFinished, hu], ?_, fun hm hv => ?_⟩
    · rw [hcaps, hfur.length]
    · rw [hcaps] at hv
      exact hkeep _ (List.mem_of_getElem? hv) _ (by simp) (hfur.cell hm hv)

/-- **What is parked stays as it is** while the heap respects what it owns. -/
theorem Parked.respects (hf : f.Parked p h i w pc ρ) (hr : Respects E h h')
    (hE : f.refs p ≤ E) : f.Parked p h' i w pc ρ := by
  have hv := hf.home.vetted
  refine ⟨hf.home.respects hr ((refsOf_closure_le p f).trans hE), hf.parks, hf.place, hf.instr, hf.reached,
    hf.calm, ⟨fun r => ?_,
    hf.stocked.within, fun {r q x} hq => ?_⟩, hf.scope⟩
  · rcases hf.calm.regs r with e | ⟨κ, e, hκ⟩
    · rw [e]
      exact hf.stocked.void e
    · rw [e]
      intro ha
      refine hr.has ?_ (hf.stocked.val e ha) hκ
      obtain ⟨i', hi', hs⟩ := hv.safe hf.reached
      by_cases hu : w.Uncounted r
      · rw [hf.stocked.refsOf_uncounted hs.modest hu]
        exact Multiset.zero_le _
      · obtain ⟨st', hw', hd'⟩ := ha.resolve_left hu
        obtain ⟨st, hw⟩ := hv.walk_of_val hf.reached e
        obtain ⟨-, rfl⟩ := hv.walk_alive hu hw hf.instr (hf.place ▸ Instr.exits_of_parks hf.parks)
          (Instr.ne_adjust_of_parks hf.parks · r) hw' hd'
        have hshare : f.share (p.codeOf f.unit) r = refsOf [f.get r] := by
          rw [share, hv.owned_of_walk hu hw', one_nsmul]
        rw [← hshare]
        exact (share_le_regRefs _ f r).trans ((regRefs_le_refs p f).trans hE)
  · rcases hf.calm.regs r with e | ⟨κ, e, hκ⟩
    · cases e.symm.trans hq
    · cases e.symm.trans hq
      exact absurd rfl hκ

/-! ## Going on in the same frame -/

/-- The second frame is the first after the instruction `i`, as far as the machine's registers go. -/
structure Follows (i : Instr Nat) (pc' : Nat) (f f' : Frame) : Prop where
  unit : f'.unit = f.unit
  args : f'.args = f.args
  closure : f'.closure = f.closure
  ret : f'.ret = f.ret
  size : f'.regs.size = f.regs.size
  place : f'.pc = pc'
  get : ∀ q, i.fills ≠ some q → f'.get q = f.get q

variable {f' : Frame} {ρ' : Env} {pc' : Nat} {d : Reg} {v : Value} {gs : List ScopeId}

/-- Control goes on, the registers stay as they are. -/
theorem follows_of_regs (i : Instr Nat) (pc' : Nat) (f : Frame) (gs : List ScopeId) :
    Follows i pc' f { f with pc := pc', scopes := gs } :=
  ⟨rfl, rfl, rfl, rfl, rfl, rfl, fun _ _ => rfl⟩

theorem Sets.follows (hs : Sets { f with pc := pc' } f' d v) (hd : i.fills = some d) :
    Follows i pc' f f' :=
  ⟨hs.unit, hs.args, hs.closure, hs.ret, hs.size, hs.pc, fun _ hq => hs.other fun e => hq (e ▸ hd)⟩

section
variable (hf : f.Rests p h w ρ) (hi : (p.codeOf f.unit)[f.pc]? = some i)
  (hgo : w.Goes ρ i (some (f.pc + 1)) ρ' pc') (hfol : Follows i pc' f f')
include hf hi hgo hfol

/-- What a frame owns changes by the register that is touched. -/
theorem Rests.refs_touch
    (hd : ∀ q, i.fills = some q ∨ (∃ op, i = .adjust op q) → q = d) :
    f'.refs p + f.share (p.codeOf f.unit) d = f.refs p + f'.share (p.codeOf f.unit) d := by
  have hchange := regRefs_change (p.codeOf f.unit) d hfol.size fun r hr =>
    hf.stocked.share_step hf.home.vetted hf.reached hi hgo (fun e => hr (hd r (Or.inl e)))
      (fun op e => hr (hd r (Or.inr ⟨op, e⟩))) (hfol.get r fun e => hr (hd r (Or.inl e))) hfol.place
  rw [refs, refs, hfol.unit, hfol.args, hfol.closure, add_right_comm, hchange, add_right_comm]

theorem Rests.refs_same (hfill : i.fills = none) (hadj : ∀ op q, i ≠ .adjust op q) :
    f'.refs p = f.refs p := by
  rw [refs, refs, hfol.unit, hfol.args, hfol.closure, regRefs_congr hfol.size fun r =>
    hf.stocked.share_step hf.home.vetted hf.reached hi hgo (by simp [hfill]) (fun op => hadj op r)
      (hfol.get r (by simp [hfill])) hfol.place]

end

end

end Frame

end CountedMachine
