import CountedMachine.Proofs.Generation.Completion
import CountedMachine.Proofs.Machine.Untraced

/-! # Traces and what the host sees

A program and the program without its traces run side by side. Every step of the first is a step of
the second or notes a place (`Running.step_told`, `Running.notes`), so a chain ends in one when it
ends in the other, and then in the same way (`Running.Ends.untraced`, `Running.ends_of_untraced`).
The host gets the same answers, one after the other (`Host.replies_alike`).

Two things may differ: the text of a value, where it shows a trace, and the text that a failed guard
gives of a value. Where counts are wrong because the host has given a value back twice, there is a third:
the fault when an error value has been freed by the time its place is noted. A machine in order never gets
there, since the value that a register holds is live (`Running.live_of_fetch`). -/

namespace CountedMachine

/-! ## Texts and faults -/

namespace Heap

theorem mapM_shown {α : Type} {f g : α → Except Fault String}
    (h : ∀ a, tell (fun _ => ()) (f a) = tell (fun _ => ()) (g a)) :
    ∀ as : List α, tell (fun _ => ()) (as.mapM f) = tell (fun _ => ()) (as.mapM g)
  | [] => rfl
  | a :: as => by
    have ha := h a
    have ih := mapM_shown h as
    rw [List.mapM_cons, List.mapM_cons]
    cases hf : f a <;> cases hg : g a <;> rw [hf, hg] at ha <;> cases ha
    · rfl
    · cases hfs : as.mapM f <;> cases hgs : as.mapM g <;> rw [hfs, hgs] at ih <;> cases ih <;> rfl

/-- A value is shown without its traces when it is shown with them. -/
theorem displayWithin_shown (h : Heap) (types : Array StructType) : ∀ (fuel : Nat) (v : Value),
    tell (fun _ => ()) (h.untraced.displayWithin types fuel v) =
      tell (fun _ => ()) (h.displayWithin types fuel v)
  | 0, _ => rfl
  | _ + 1, .nil => rfl
  | _ + 1, .bool _ => rfl
  | _ + 1, .num _ => rfl
  | fuel + 1, .obj r => by
    have ih := displayWithin_shown h types fuel
    rw [displayWithin, displayWithin, get_untraced]
    rcases h.get r with e | obj
    · rfl
    · cases obj with
      | cons a b =>
        have ha := ih a
        have hb := ih b
        simp only [Object.untraced, bind, Except.bind, Except.map]
        cases h₁ : h.untraced.displayWithin types fuel a <;> cases h₂ : h.displayWithin types fuel a <;>
          rw [h₁, h₂] at ha <;> cases ha
        · rfl
        · cases h₃ : h.untraced.displayWithin types fuel b <;> cases h₄ : h.displayWithin types fuel b <;>
            rw [h₃, h₄] at hb <;> cases hb <;> rfl
      | struct ty fields =>
        have hs := mapM_shown ih fields
        simp only [Object.untraced, bind, Except.bind, Except.map]
        cases h₁ : fields.mapM (h.untraced.displayWithin types fuel) <;>
          cases h₂ : fields.mapM (h.displayWithin types fuel) <;> rw [h₁, h₂] at hs <;> cases hs <;> rfl
      | cell v =>
        have hv := ih v
        simp only [Object.untraced, bind, Except.bind, Except.map]
        cases h₁ : h.untraced.displayWithin types fuel v <;> cases h₂ : h.displayWithin types fuel v <;>
          rw [h₁, h₂] at hv <;> cases hv <;> rfl
      | _ => rfl

end Heap

/-- **Texts of one value**, the second one without its traces. -/
def SameText (types : Array StructType) (text text' : String) : Prop :=
  ∃ (h : Heap) (v : Value), h.display types v = .ok text ∧ h.untraced.display types v = .ok text'

/-- The text of a value, with its traces and without. -/
theorem Heap.display_untraced (h : Heap) (types : Array StructType) (v : Value) :
    (∃ f, h.display types v = .error f ∧ h.untraced.display types v = .error f) ∨
      ∃ t t', h.display types v = .ok t ∧ h.untraced.display types v = .ok t' := by
  have hsame := h.displayWithin_shown types (h.slots.size + 1) v
  rw [display, display, size_untraced]
  cases h₁ : h.displayWithin types (h.slots.size + 1) v <;>
    cases h₂ : h.untraced.displayWithin types (h.slots.size + 1) v <;> rw [h₁, h₂] at hsame <;> cases hsame
  · exact Or.inl ⟨_, rfl, rfl⟩
  · exact Or.inr ⟨_, _, rfl, rfl⟩

/-- **Faults of a program with and without traces**: the same one, but the text of a value may be
without its traces. Where the machine may be in disorder, a place cannot be noted on an error value that
has been freed, whatever fault follows when it is not noted. -/
inductive Fault.Alike (types : Array StructType) (disorder : Prop) : Fault → Fault → Prop
  | same (f : Fault) : Alike types disorder f f
  | guard {unit : UnitId} {ty : ObjType} {text text' : String} : SameText types text text' →
    Alike types disorder (.guardFailed unit ty text) (.guardFailed unit ty text')
  | freed (object : Nat) (f : Fault) : disorder → Alike types disorder (.freedObject object) f

/-- Outcomes of a computation with and without traces. -/
def Told {α β : Type} (types : Array StructType) (disorder : Prop) (g : α → β) :
    Except Fault α → Except Fault β → Prop
  | .ok a, .ok b => b = g a
  | .error f, .error f' => f.Alike types disorder f'
  | _, _ => False

theorem told_of_tell {α β : Type} {types : Array StructType} {disorder : Prop} {g : α → β}
    {x : Except Fault α} {x' : Except Fault β} (h : x' = tell g x) : Told types disorder g x x' := by
  subst h
  cases x with
  | error f => exact .same f
  | ok a => exact rfl

/-! ## Freed objects stay freed -/

namespace Heap

variable {h h' : Heap} {r x : ObjId} {v : Value}

theorem freed_decObj {n : Nat} (hx : h.slot? x = none) (e : h.decObj r = .ok (h', n)) :
    h'.slot? x = none := by
  rw [decObj] at e
  obtain ⟨c, hc, e⟩ := bind_ok e
  split_ifs at e with h0
  cases e
  have hr : h.slot? r = some c := by
    rw [slot] at hc
    cases hs : h.slot? r with
    | none => rw [hs] at hc; cases hc
    | some d => rw [hs] at hc; exact congrArg some (Except.ok.inj hc)
  rw [slot?_setSlot _ _ _ _ (lt_size_of_slot? hr)]
  split_ifs with hxr
  · rw [hxr, hr] at hx
    cases hx
  · exact hx

theorem freed_letGo {s s' : Heap × List ObjId} (hx : s.1.slot? x = none) (e : letGo s v = .ok s') :
    s'.1.slot? x = none := by
  obtain ⟨h, work⟩ := s
  cases v with
  | obj r =>
    rw [letGo] at e
    obtain ⟨⟨h₁, n⟩, hd, e⟩ := bind_ok e
    cases e
    exact freed_decObj hx hd
  | _ => cases e; exact hx

theorem freed_dissolve {s s' : Heap × List ObjId} (hx : s.1.slot? x = none)
    (e : dissolve s r = .ok s') : s'.1.slot? x = none := by
  obtain ⟨h, work⟩ := s
  rw [dissolve] at e
  obtain ⟨⟨h₁, obj⟩, hev, e⟩ := bind_ok e
  refine foldlM_ok (P := fun s => s.1.slot? x = none) (fun v _ s s' hs e => freed_letGo hs e) ?_ e
  rw [evict] at hev
  split at hev
  · cases hev
  · cases hev
  · cases hev
    show ((h.slots.setIfInBounds r.index none)[x.index]?).join = none
    rw [Array.getElem?_setIfInBounds]
    split_ifs
    · rfl
    · rfl
    · exact hx

theorem freed_dismantle {g : ScopeId} {work : List ObjId} {s' : Heap × List ObjId}
    (hx : h.slot? x = none) (e : h.dismantle g work = .ok s') : s'.1.slot? x = none := by
  rw [dismantle] at e
  obtain ⟨s, -, e⟩ := bind_ok e
  exact foldlM_ok (P := fun s => s.1.slot? x = none) (fun r _ s s' hs e => freed_dissolve hs e) hx e

theorem freed_reclaimOne {work : List ObjId} {s' : Heap × List ObjId} (hx : h.slot? x = none)
    (e : h.reclaimOne r work = .ok s') : s'.1.slot? x = none := by
  rw [reclaimOne] at e
  obtain ⟨o, -, e⟩ := bind_ok e
  cases o with
  | none => exact freed_dissolve hx e
  | some g =>
    change h.noteZero g work = _ at e
    rw [noteZero] at e
    obtain ⟨s, -, e⟩ := bind_ok e
    split at e
    · cases e
      exact hx
    · exact freed_dismantle (h := h.setScope g _) hx e

theorem freed_reclaimLoop : ∀ (fuel : Nat) {h h' : Heap} {work : List ObjId}, h.slot? x = none →
    reclaimLoop fuel h work = .ok h' → h'.slot? x = none
  | 0, _, _, [], hx, e => by cases e; exact hx
  | _ + 1, _, _, [], hx, e => by cases e; exact hx
  | fuel + 1, h, h', r :: work, hx, e => by
    rw [reclaimLoop] at e
    obtain ⟨s, hs, e⟩ := bind_ok e
    exact freed_reclaimLoop fuel (freed_reclaimOne hx hs) e

theorem freed_unref (hx : h.slot? x = none) (e : h.unref v = .ok h') : h'.slot? x = none := by
  cases v with
  | obj r =>
    rw [unref] at e
    obtain ⟨⟨h₁, n⟩, hd, e⟩ := bind_ok e
    have hx₁ := freed_decObj hx hd
    dsimp only at e
    split_ifs at e
    · exact freed_reclaimLoop _ hx₁ e
    · cases e
      exact hx₁
  | _ => cases e; exact hx

/-- **What is freed stays freed** while references are given up. -/
theorem freed_unrefAll {vs : List Value} (hx : h.slot? x = none) (e : h.unrefAll vs = .ok h') :
    h'.slot? x = none :=
  foldlM_ok (P := fun h => h.slot? x = none) (fun _ _ _ _ hh e => freed_unref hh e) hx e

end Heap

/-! ## One step -/

namespace Running

variable {p : Program} {s : Running} {limit : Nat} {i : Instr Nat} {r : Reg} {loc : Location}
  {disorder : Prop}

theorem guard_told (src : Reg) (ty : ObjType) :
    Told p.types disorder (Progress.untraced p) (s.guard p src ty)
      ((s.untraced p).guard p.untraced src ty) := by
  unfold guard
  change Told _ _ _ _ (s.cur.read src >>= _)
  cases s.cur.read src with
  | error f => exact .same f
  | ok v =>
    change Told _ _ _ (s.machine.heap.isOfType v ty >>= _)
      (s.machine.heap.untraced.isOfType v ty >>= _)
    rw [Heap.isOfType_untraced]
    rcases s.machine.heap.isOfType v ty with f | _ | _
    · exact .same f
    · change Told _ _ _ (s.machine.heap.display p.types v >>= _)
        (s.machine.heap.untraced.display p.types v >>= _)
      rcases s.machine.heap.display_untraced p.types v with ⟨f, h, h'⟩ | ⟨t, t', h, h'⟩
      · rw [h, h']
        exact .same f
      · rw [h, h']
        exact .guard ⟨_, _, h, h'⟩
    · exact rfl

/-- **One step**, of an instruction that is no trace. -/
theorem step_told (disorder : Prop) (limit : Nat) (h : s.fetch p = .ok i) (hi : i.isTrace = false) :
    Told p.types disorder (Progress.untraced p) (s.step p limit) ((s.untraced p).step p.untraced limit) := by
  have hadv : (s.untraced p).advance = s.advance.untraced p := by
    rw [advance_untraced h, hi]
    rfl
  rw [step, step, h, fetch_untraced h hi]
  change Told _ _ _ (s.advance.exec p limit i) ((s.untraced p).advance.exec p.untraced limit _)
  rw [hadv]
  by_cases hg : ∃ src ty, i = .guard src ty
  · obtain ⟨src, ty, rfl⟩ := hg
    exact guard_told src ty
  · exact told_of_tell (exec_untraced (s := s.advance) limit hi fun src ty e => hg ⟨src, ty, e⟩)

/-- Nothing is fetched, with traces or without. -/
theorem step_told_error (limit : Nat) {f : Fault} (h : s.fetch p = .error f) :
    s.step p limit = .error f ∧ (s.untraced p).step p.untraced limit = .error f := by
  rw [step, step, h, fetch_untraced_error h]
  exact ⟨rfl, rfl⟩

/-- Noting a place changes nothing but the trace. -/
theorem put_noted {h : Heap} {x : ObjId} {tag : String} {places : List Location}
    (hx : h.get x = .ok (.undefined tag places)) (loc : Location) :
    ∃ h', h.put x (.undefined tag (places ++ [loc])) = .ok h' ∧ h'.untraced = h.untraced := by
  rw [Heap.get, Heap.slot] at hx
  cases hslot : h.slot? x with
  | none => rw [hslot] at hx; cases hx
  | some c =>
    rw [hslot] at hx
    have hobj : c.obj = .undefined tag places := Except.ok.inj hx
    refine ⟨h.setSlot x (some { c with obj := .undefined tag (places ++ [loc]) }), ?_, ?_⟩
    · rw [Heap.put, Heap.slot, hslot]
      rfl
    · rw [← Heap.setSlot_untraced]
      have hsame : (some { c with obj := .undefined tag (places ++ [loc]) } : Option Slot).map Slot.untraced =
          h.untraced.slots[x.index]?.join := by
        have : h.untraced.slots[x.index]?.join = h.untraced.slot? x := rfl
        rw [this, Heap.slot?_untraced, hslot]
        simp [Slot.untraced, hobj, Object.untraced]
      rw [hsame]
      have hlt : x.index < h.untraced.slots.size := by
        rw [Heap.size_untraced]
        exact Heap.lt_size_of_slot? hslot
      simp only [Heap.setSlot, Array.getElem?_eq_getElem hlt, Option.join_some]
      congr 1
      rw [Array.setIfInBounds_def, dif_pos hlt, Array.set_getElem_self]
      rfl

/-- **Noting a place** is no step of the program without traces; it fails when the register is not
there or its value has been freed. -/
theorem notes (limit : Nat) (h : s.fetch p = .ok (.trace r loc)) :
    (∃ s₁, s.step p limit = .ok (.more s₁) ∧ s₁.untraced p = s.untraced p ∧
        s₁.cur = s.advance.cur) ∨
      (∃ f, s.cur.read r = .error f ∧ s.step p limit = .error f) ∨
      ∃ x, s.cur.read r = .ok (.obj x) ∧ s.machine.heap.slot? x = none ∧
        s.step p limit = .error (.freedObject x.index) := by
  have hadv : s.advance.untraced p = s.untraced p := advance_untraced h
  have hself : ∀ {x : Except Fault Progress}, x = .ok (.more s.advance) →
      ∃ s₁, x = .ok (.more s₁) ∧ s₁.untraced p = s.untraced p ∧ s₁.cur = s.advance.cur :=
    fun hx => ⟨s.advance, hx, hadv, rfl⟩
  have hcur : s.advance.cur.read r = s.cur.read r := rfl
  rw [show s.step p limit = s.advance.trace r loc by rw [step, h]; rfl, trace, hcur]
  cases s.cur.read r with
  | error f => exact Or.inr (Or.inl ⟨f, rfl, rfl⟩)
  | ok v =>
    cases v with
    | obj x =>
      change (∃ s₁, (s.machine.heap.get x >>= _) = _ ∧ _) ∨ _ ∨
        ∃ y, _ ∧ _ ∧ (s.machine.heap.get x >>= _) = _
      cases hslot : s.machine.heap.slot? x with
      | none =>
        refine Or.inr (Or.inr ⟨x, rfl, hslot, ?_⟩)
        rw [Heap.get, Heap.slot, hslot]
        rfl
      | some c =>
        have hget : s.machine.heap.get x = .ok c.obj := by
          rw [Heap.get, Heap.slot, hslot]
          rfl
        rw [hget]
        refine Or.inl ?_
        cases hobj : c.obj with
        | undefined tag places =>
          rw [hobj] at hget
          obtain ⟨h', hput, hsame⟩ := put_noted hget loc
          obtain ⟨⟨heap, consts, stack, stats⟩, callers, cur⟩ := s
          refine ⟨⟨⟨h', consts, stack, stats⟩, callers, { cur with pc := cur.pc + 1 }⟩, ?_, ?_, rfl⟩
          · change (heap.put x _ >>= _ >>= _ >>= _) = _
            rw [hput]
            rfl
          · rw [← hadv]
            simp only [untraced, Machine.untraced, hsame]
            rfl
        | _ => exact hself rfl
    | _ => exact Or.inl (hself rfl)

/-! ## Chains -/

/-- **A chain of frames ends**: with a fault, or back at the host. -/
inductive Ends (p : Program) (limit : Nat) : Running → Except Fault (Machine × Outcome) → Prop
  | fault {s f} : s.step p limit = .error f → Ends p limit s (.error f)
  | stop {s m o} : s.step p limit = .ok (.stop m o) → Ends p limit s (.ok (m, o))
  | more {s s' out} : s.step p limit = .ok (.more s') → Ends p limit s' out → Ends p limit s out

/-- **How a chain ends with and without traces.** Where the machine may be in disorder and the error value
was freed before its place was noted, the chain without traces may return it, and nothing can be done
with it. -/
inductive Closes (p : Program) (disorder : Prop) :
    Except Fault (Machine × Outcome) → Except Fault (Machine × Outcome) → Prop
  | ends (m : Machine) (o : Outcome) : Closes p disorder (.ok (m, o)) (.ok (m.untraced, o.untraced p))
  | fails {f f' : Fault} : f.Alike p.types disorder f' → Closes p disorder (.error f) (.error f')
  | lost {m : Machine} {x : ObjId} : disorder → m.heap.slot? x = none →
    Closes p disorder (.error (.freedObject x.index)) (.ok (m, .returned (.obj x)))

/-- In a machine that is in order, the value in a register is live when its place is noted. -/
theorem live_of_fetch [p.Origin] {B : Multiset ObjId} {w : World} {ρ : Env} {x : ObjId} (hw : Working p B s w ρ)
    (hf : s.fetch p = .ok (.trace r loc)) (hread : s.cur.read r = .ok (.obj x)) :
    s.machine.heap.slot? x ≠ none := by
  obtain ⟨κ, -, hv, -⟩ := hw.input (fetch_eq.mp hf) (r := r) (by simp [Instr.inputs])
  rw [← Frame.read_ok hread] at hv
  obtain ⟨c, hc⟩ := hv.live x rfl
  rw [hc]
  exact Option.some_ne_none c

/-- After a place is noted the error value is returned. -/
theorem fetch_advance (hp : p.Returning) (h : s.fetch p = .ok (.trace r loc)) :
    s.advance.fetch p = .ok (.ret r) := by
  have hunit : s.advance.cur.unit = s.cur.unit := rfl
  have hpc : s.advance.cur.pc = s.cur.pc + 1 := rfl
  rw [fetch_eq, Program.codeOf] at h ⊢
  rw [hunit, hpc]
  cases hu : p.units[s.cur.unit.index]? with
  | none =>
    rw [hu] at h
    simp at h
  | some u =>
    rw [hu] at h
    have := hp hu (by simpa using h)
    simpa using this

theorem freed_overHeap {m m' : Machine} {vs : List Value} {x : ObjId} (hx : m.heap.slot? x = none)
    (e : m.overHeap (·.unrefAll vs) = .ok m') : m'.heap.slot? x = none := by
  obtain ⟨heap, consts, stack, stats⟩ := m
  rw [Machine.overHeap] at e
  obtain ⟨h', hh, e⟩ := bind_ok e
  cases e
  exact Heap.freed_unrefAll hx hh

/-- A value that has been freed cannot be returned to a caller. -/
theorem step_freed (limit : Nat) {x : ObjId} (h : s.fetch p = .ok (.ret r)) (hr : s.cur.read r = .ok (.obj x))
    (hx : s.machine.heap.slot? x = none) : (∃ f, s.step p limit = .error f) ∨
      ∃ m, s.step p limit = .ok (.stop m (.returned (.obj x))) ∧ m.heap.slot? x = none := by
  have hstep : s.step p limit = s.advance.returnWith (.obj x) := by
    rw [step, h]
    change (s.cur.read r >>= fun v => s.advance.returnWith v) = _
    rw [hr]
    rfl
  obtain ⟨m, callers, cur⟩ := s
  rw [hstep, advance, returnWith]
  cases h₁ : m.overHeap (·.unrefAll cur.args) with
  | error f => exact Or.inl ⟨f, rfl⟩
  | ok m₁ =>
    cases h₂ : m₁.overHeap (·.unrefAll cur.closure.toList) with
    | error f => exact Or.inl ⟨f, by simp only [bind, Except.bind, h₂]⟩
    | ok m₂ =>
      have hx₂ := freed_overHeap (freed_overHeap hx h₁) h₂
      simp only [bind, Except.bind, h₂]
      cases callers.back? with
      | none => exact Or.inr ⟨m₂, rfl, hx₂⟩
      | some caller =>
        refine Or.inl ⟨.freedObject x.index, ?_⟩
        obtain ⟨heap, consts, stack, stats⟩ := m₂
        have hx₂ : heap.slot? x = none := hx₂
        simp [Machine.overHeap, Heap.release, Heap.decObj, Heap.slot, hx₂, bind, Except.bind]

/-- **A chain that ends, ends without traces.** -/
theorem Ends.untraced [p.Origin] (hp : p.Returning) {out : Except Fault (Machine × Outcome)}
    (h : Ends p limit s out) (hs : ¬ disorder → ∃ B w ρ, Working p B s w ρ) :
    ∃ out', Ends p.untraced limit (s.untraced p) out' ∧ Closes p disorder out out' := by
  induction h with
  | @fault s f e =>
    cases hf : s.fetch p with
    | error f' =>
      obtain ⟨h₁, h₂⟩ := step_told_error limit hf
      obtain rfl := Except.error.inj (h₁.symm.trans e)
      exact ⟨_, .fault h₂, .fails (.same _)⟩
    | ok i =>
      cases hi : i.isTrace with
      | false =>
        have ht := step_told disorder limit hf hi
        rw [e] at ht
        cases h' : (s.untraced p).step p.untraced limit with
        | error f' => exact ⟨_, .fault h', .fails (by rw [h'] at ht; exact ht)⟩
        | ok q => rw [h'] at ht; exact ht.elim
      | true =>
        -- the fault is met again where the error value is returned
        obtain ⟨r, loc, rfl⟩ := Instr.exists_of_isTrace hi
        have hret : (s.untraced p).fetch p.untraced = .ok (.ret r) := by
          have := fetch_untraced (fetch_advance hp hf) rfl
          rwa [show s.advance.untraced p = s.untraced p from advance_untraced hf] at this
        rcases notes limit hf with ⟨s₁, h₁, -⟩ | ⟨f', hread, h₁⟩ | ⟨x, hread, hx, h₁⟩
        · cases h₁.symm.trans e
        · obtain rfl := Except.error.inj (h₁.symm.trans e)
          refine ⟨_, .fault ?_, .fails (.same f')⟩
          rw [step, hret]
          change (s.cur.read r >>= fun v => (s.untraced p).advance.returnWith v) = _
          rw [hread]
          rfl
        · obtain rfl := Except.error.inj (h₁.symm.trans e)
          have hd : disorder := by
            by_contra hd
            obtain ⟨B, w, ρ, hw⟩ := hs hd
            exact live_of_fetch hw hf hread hx
          have hx' : (s.untraced p).machine.heap.slot? x = none := by
            change s.machine.heap.untraced.slot? x = none
            rw [Heap.slot?_untraced, hx]
            rfl
          rcases step_freed limit hret hread hx' with ⟨f', h'⟩ | ⟨m, h', hm⟩
          · exact ⟨_, .fault h', .fails (.freed _ _ hd)⟩
          · exact ⟨_, .stop h', .lost hd hm⟩
  | @stop s m o e =>
    cases hf : s.fetch p with
    | error f => cases (step_told_error limit hf).1.symm.trans e
    | ok i =>
      cases hi : i.isTrace with
      | false =>
        have ht := step_told disorder limit hf hi
        rw [e] at ht
        cases h' : (s.untraced p).step p.untraced limit with
        | error f' => rw [h'] at ht; exact ht.elim
        | ok q =>
          rw [h'] at ht
          obtain rfl : q = _ := ht
          exact ⟨_, .stop h', .ends m o⟩
      | true =>
        obtain ⟨r, loc, rfl⟩ := Instr.exists_of_isTrace hi
        rcases notes limit hf with ⟨s₁, h₁, -⟩ | ⟨f', -, h₁⟩ | ⟨x, -, -, h₁⟩ <;>
          cases h₁.symm.trans e
  | @more s s' out e _ ih =>
    obtain ⟨out', he, hm⟩ := ih fun hd => by
      obtain ⟨B, w, ρ, hw⟩ := hs hd
      exact ⟨B, (hw.holds_of_step e).1⟩
    refine ⟨out', ?_, hm⟩
    cases hf : s.fetch p with
    | error f => cases (step_told_error limit hf).1.symm.trans e
    | ok i =>
      cases hi : i.isTrace with
      | false =>
        have ht := step_told disorder limit hf hi
        rw [e] at ht
        cases h' : (s.untraced p).step p.untraced limit with
        | error f' => rw [h'] at ht; exact ht.elim
        | ok q =>
          rw [h'] at ht
          obtain rfl : q = _ := ht
          exact .more h' he
      | true =>
        obtain ⟨r, loc, rfl⟩ := Instr.exists_of_isTrace hi
        rcases notes limit hf with ⟨s₁, h₁, hsame, -⟩ | ⟨f', -, h₁⟩ | ⟨x, -, -, h₁⟩
        · cases h₁.symm.trans e
          rwa [← hsame]
        · cases h₁.symm.trans e
        · cases h₁.symm.trans e

/-- **A chain that ends without traces, ends.** -/
theorem ends_of_untraced (hp : p.Returning) {t : Running} {out' : Except Fault (Machine × Outcome)}
    (h : Ends p.untraced limit t out') : ∀ s, t = s.untraced p → ∃ out, Ends p limit s out := by
  -- a step of the chain without traces, where the next instruction is no trace
  have hplain : ∀ {s : Running} {i : Instr Nat}, s.fetch p = .ok i → i.isTrace = false →
      (∀ s', (s.untraced p).step p.untraced limit = .ok (.more (s'.untraced p)) →
        ∃ out, Ends p limit s' out) → ∃ out, Ends p limit s out := by
    intro s i hf hi hmore
    have ht := step_told False limit hf hi
    cases e : s.step p limit with
    | error f => exact ⟨_, .fault e⟩
    | ok q =>
      rw [e] at ht
      cases q with
      | stop m o => exact ⟨_, .stop e⟩
      | more s' =>
        cases h' : (s.untraced p).step p.untraced limit with
        | error f' => rw [h'] at ht; exact ht.elim
        | ok q' =>
          rw [h'] at ht
          obtain rfl : q' = _ := ht
          obtain ⟨out, ho⟩ := hmore s' h'
          exact ⟨out, .more e ho⟩
  -- at most one place is noted before it
  have hnext : ∀ {s : Running}, (∀ s', (s.untraced p).step p.untraced limit =
      .ok (.more (s'.untraced p)) → ∃ out, Ends p limit s' out) → ∃ out, Ends p limit s out := by
    intro s hmore
    cases hf : s.fetch p with
    | error f => exact ⟨_, .fault (step_told_error limit hf).1⟩
    | ok i =>
      cases hi : i.isTrace with
      | false => exact hplain hf hi hmore
      | true =>
        obtain ⟨r, loc, rfl⟩ := Instr.exists_of_isTrace hi
        rcases notes limit hf with ⟨s₁, h₁, hsame, hcur⟩ | ⟨f', -, h₁⟩ | ⟨x, -, -, h₁⟩
        · have hret : s₁.fetch p = .ok (.ret r) := by
            have := fetch_advance hp hf
            rwa [fetch_eq, ← hcur, ← fetch_eq] at this
          obtain ⟨out, ho⟩ := hplain hret rfl fun s' hs' => hmore s' (hsame ▸ hs')
          exact ⟨out, .more h₁ ho⟩
        · exact ⟨_, .fault h₁⟩
        · exact ⟨_, .fault h₁⟩
  induction h with
  | fault e =>
    rintro s rfl
    exact hnext fun s' hs' => by cases hs'.symm.trans e
  | stop e =>
    rintro s rfl
    exact hnext fun s' hs' => by cases hs'.symm.trans e
  | more e _ ih =>
    rintro s rfl
    exact hnext fun s' hs' => ih s' (Progress.more.inj (Except.ok.inj (e.symm.trans hs')))

end Running

end CountedMachine
