import CountedMachine.Proofs.Kinds.Exits
import CountedMachine.Proofs.Machine.Assembled
import CountedMachine.Proofs.Machine.Lockstep
import CountedMachine.Proofs.Machine.Routes

/-! # Runs through a stretch of code

A frame goes on (`Running.Continues`) when a step that does not end it leaves it current, or the host
resumes the chain that it has yielded from, or a call that it has entered comes back. All that this does to
the frame is known from the instruction (`Continues.proceeds`): control gets to one of its exits, and one
register is set at most.

So a frame that runs through a stretch of code whose labels stand in it is in the stretch or at its end, and
registers that the stretch does not set are as they were (`Stage.through`). -/

namespace CountedMachine

open Listing

variable {p : Program} {limit : Nat}

/-! ## The frame goes on -/

namespace Running

/-- **The frame goes on** after a step that does not end it: at once, when the host resumes the chain, or when
a call has come back. -/
def Continues (p : Program) (limit : Nat) (s t : Running) : Prop :=
  ∃ i, s.fetch p = .ok i ∧ i.isTerminal = false ∧
    ((s.Onward p limit t ∧ t.callers.size = s.callers.size) ∨ s.Calls p limit t)

/-- **What becomes of a frame** that goes on after an instruction. -/
structure Proceeds (i : Instr Nat) (s t : Running) : Prop where
  callers : t.callers = s.callers
  unit : t.cur.unit = s.cur.unit
  pc : t.cur.pc ∈ i.exits s.cur.pc
  size : t.cur.regs.size = s.cur.regs.size
  regs : ∀ q : Reg, i.sets ≠ some q → t.cur.regs[q.index]? = s.cur.regs[q.index]?

variable {s t : Running} {i : Instr Nat} {v : Value} {m : Machine}

theorem AgreeOn.refl (rs : List Reg) (s : Running) : s.AgreeOn rs s := ⟨rfl, rfl, rfl, rfl, fun _ _ => rfl⟩

/-- A step that goes well has an effect of its instruction. -/
theorem exists_effect {q : Progress} (hi : s.fetch p = .ok i) (hq : s.step p limit = .ok q) :
    ∃ e : Effect, e.Of i s.advance.cur.ret ∧ q = e.on s.callers s.advance.cur := by
  have hsame : SameEffect i s.callers s.callers s.advance.cur s.advance.cur (s.step p limit) (s.step p limit) :=
    sameEffect_step hi rfl (Peers.refl s.callers) rfl rfl (fun _ _ => rfl) fun _ _ _ => rfl
  obtain ⟨e, he, hon, -⟩ := hsame.of_ok hq
  exact ⟨e, he, hon⟩

/-- A register of the frame has received a value. -/
theorem proceeds_receive {r : Reg} (hi : i.sets = some r) (hpc : s.cur.pc + 1 ∈ i.exits s.cur.pc) :
    Proceeds i s ⟨m, s.callers, s.advance.cur.receive (some r) v⟩ where
  callers := rfl
  unit := rfl
  pc := hpc
  size := Array.size_setIfInBounds
  regs q hq := by
    have hne : r.index ≠ q.index := fun e => hq (hi.trans (congrArg (fun k => some (Reg.mk k)) e))
    exact Array.getElem?_setIfInBounds_ne hne

theorem Continues.proceeds (h : s.Continues p limit t) :
    ∃ i, s.fetch p = .ok i ∧ i.isTerminal = false ∧ Proceeds i s t := by
  obtain ⟨i, hi, hterm, ⟨⟨q, hq, hlead⟩, hsize⟩ | hcalls⟩ := h
  · refine ⟨i, hi, hterm, ?_⟩
    obtain ⟨e, he, hon⟩ := exists_effect hi hq
    obtain ⟨f, hf, -, hpc⟩ := exists_goesOn hi hterm hq
    cases e with
    | goes m pc scopes =>
      subst hon
      cases hlead
      obtain rfl := (hf _).mp .stays
      exact ⟨rfl, rfl, hpc, rfl, fun _ _ => rfl⟩
    | sets m r v =>
      subst hon
      cases hlead
      obtain rfl := (hf _).mp .stays
      exact proceeds_receive he.2 hpc
    | enters m callee =>
      subst hon
      cases hlead
      simp at hsize
    | replaces m callee =>
      obtain ⟨⟨func, nargs, rfl⟩, -⟩ := he
      cases hterm
    | leaves m v => exact absurd (hterm.symm.trans he) (by simp)
    | yields m v =>
      subst hon
      obtain rfl := (hf s.advance.cur).mp .yields
      cases hlead with
      | resumed m' hback =>
        obtain rfl := Option.some.inj ((Array.back?_push).symm.trans hback)
        rw [Array.pop_push]
        exact ⟨rfl, rfl, hpc, rfl, fun _ _ => rfl⟩
  · have hown : ∀ op r, i ≠ .adjust op r := by
      rintro op r rfl
      obtain ⟨a, b, ha, hb, -⟩ := hcalls
      obtain ⟨e, he, hon⟩ := exists_effect hi ha
      obtain ⟨m, callee, rfl⟩ := Effect.enters_of_size hon.symm hb.size
      obtain ⟨⟨dst, func, nargs, checked, e⟩, -⟩ := he
      cases e
    obtain ⟨dst, v, hcr, ht, -⟩ := (AgreeOn.refl i.inputs s).calls hi hown hcalls
    refine ⟨i, hi, hterm, ?_⟩
    rw [ht]
    refine proceeds_receive ?_ ?_
    · cases i <;> first | exact hcr | cases hcr
    · cases i <;> first | exact List.mem_singleton.mpr rfl | cases hcr

/-- **The frame runs through places in `A`**, and goes on from each. -/
inductive Through (p : Program) (limit : Nat) (A : Nat → Prop) (s : Running) : Running → Prop
  | refl : Through p limit A s s
  | step {t u : Running} : Through p limit A s t → A t.cur.pc → t.Continues p limit u → Through p limit A s u

end Running

/-! ## Exits within a stretch -/

namespace Listing

variable {xs ys us pre post : Code} {a b c : NodeId} {i : Instr NodeId}

/-- A stretch of code with a node behind it. -/
def ended (us : Code) (c : NodeId) : Code := us ++ [(c, Instr.nop)]

theorem exists_notMem_ids (us : Code) : ∃ c, c ∉ ids us := by
  refine ⟨⟨((ids us).map (·.index)).sum + 1⟩, fun h => ?_⟩
  have hle := List.le_sum_of_mem (List.mem_map_of_mem (f := (·.index)) h)
  simp only at hle
  omega

theorem exists_firstId_ended (us : Code) (c : NodeId) : ∃ a ∈ ids (ended us c),
    (ids (ended us c)).idxOf a = 0 ∧ ∀ a', firstId us none = some a' → a' = a := by
  cases us with
  | nil => exact ⟨c, by simp [ended], by simp [ended], fun a' ha' => by cases ha'⟩
  | cons x us => exact ⟨x.1, by simp [ended], by simp [ended], fun a' ha' => (Option.some.inj ha').symm⟩

theorem exits_shift (f : NodeId → Nat) (n pc : Nat) :
    (i.relabel fun b => n + f b).exits (n + pc) = ((i.relabel f).exits pc).map (n + ·) := by
  cases i <;> simp [Instr.relabel, Instr.exits, Instr.isTerminal, Nat.add_assoc]

end Listing

/-! ## Running through a stretch -/

/-- **Code that sets registers from `n` on only.** -/
def Listing.SetsFrom (n : Nat) (us : Code) : Prop := ∀ x ∈ us, ∀ r, x.2.sets = some r → n ≤ r.index

namespace Stage

variable {S : Stage} {pre us post : Code} {m : Memory} {s t u : Running} {n : Nat} {a c : NodeId}

/-- A place in a stretch of code that begins at the place `k`. -/
def In (k : Nat) (us : Code) (pc : Nat) : Prop := k ≤ pc ∧ pc < k + us.length

/-- **A frame in the middle of a stretch of code**, at a node that control can get to, or at its end. -/
structure Amid (S : Stage) (k : Nat) (us : Code) (a c : NodeId) (n : Nat) (m : Memory) (t : Running) : Prop where
  callers : t.callers = S.start.callers
  unit : t.cur.unit = S.start.cur.unit
  size : t.cur.regs.size = m.regs.size
  regs : ∀ q : Reg, q.index < n → t.cur.regs[q.index]? = m.reg? q
  node : ∃ b ∈ ids (ended us c), Reach (ended us c) a b ∧ t.cur.pc = k + (ids (ended us c)).idxOf b

theorem fetch_in (hcode : S.code = pre ++ (us ++ post)) (hunit : t.cur.unit = S.start.cur.unit) {k : Nat}
    {b : NodeId} {j : Instr NodeId} (hpc : t.cur.pc = pre.length + k) (hj : us[k]? = some (b, j)) :
    t.fetch S.program = .ok (j.relabel (ids S.code).idxOf) := by
  obtain ⟨v, hv, hlayout⟩ := S.hosts
  have hget : (layout S.code)[t.cur.pc]? = some (j.relabel (ids S.code).idxOf) := by
    have hlt := (List.getElem?_eq_some_iff.mp hj).1
    rw [getElem?_layout, hpc, hcode, List.getElem?_append_right (by omega), Nat.add_sub_cancel_left,
      List.getElem?_append_left hlt, hj]
    rfl
  rw [Running.fetch, hunit, hv]
  simp only [bind, Except.bind, hlayout, hget]
  rfl

/-- Labels in a stretch of code are where they are in the code. -/
theorem idxOf_in (hcode : S.code = pre ++ (us ++ post)) {b : NodeId} (hb : b ∈ ids us) (c : NodeId) :
    (ids S.code).idxOf b = pre.length + (ids (ended us c)).idxOf b := by
  have hnd := S.nodup
  rw [hcode, ids_append, ids_append, List.nodup_append] at hnd
  have hpre : b ∉ ids pre := fun h => hnd.2.2 b h b (by simp [hb]) rfl
  rw [hcode, ids_append, ids_append, List.idxOf_append_of_notMem hpre, List.idxOf_append_of_mem hb, ended,
    ids_append, List.idxOf_append_of_mem hb]
  simp [ids]

theorem nodup_ended (hcode : S.code = pre ++ (us ++ post)) (hc : c ∉ ids us) : (ids (ended us c)).Nodup := by
  have hnd := S.nodup
  rw [hcode, ids_append, ids_append, List.nodup_append, List.nodup_append] at hnd
  rw [ended, ids_append, List.nodup_append]
  refine ⟨hnd.2.1.1, by simp [ids], fun x hx y hy e => hc ?_⟩
  obtain rfl : y = c := by simpa [ids] using hy
  exact e ▸ hx

theorem Amid.step (h : S.Amid pre.length us a c n m t) (hcode : S.code = pre ++ (us ++ post)) (hin : Inner us)
    (hsets : SetsFrom n us) (hc : c ∉ ids us) (hA : In pre.length us t.cur.pc)
    (hu : t.Continues S.program S.limit u) : S.Amid pre.length us a c n m u := by
  obtain ⟨b, hb, hreach, hpc⟩ := h.node
  obtain ⟨j, hj⟩ := getElem?_idxOf hb
  have hlt : (ids (ended us c)).idxOf b < us.length := by
    have := hA.2
    omega
  have hj' : us[(ids (ended us c)).idxOf b]? = some (b, j) := (List.getElem?_append_left hlt).symm.trans hj
  have hmem : (b, j) ∈ us := List.mem_of_getElem? hj'
  obtain ⟨i, hi, hterm, hgo⟩ := hu.proceeds
  obtain rfl := Except.ok.inj ((fetch_in hcode h.unit hpc hj').symm.trans hi)
  obtain ⟨xs, ys, e, hlen⟩ := split_of_getElem? hj
  have hnd := nodup_ended hcode hc
  obtain ⟨b', hb'⟩ : ∃ b', firstId ys none = some b' := by
    cases ys with
    | nil =>
      have := congrArg List.length e
      simp [ended] at this
      omega
    | cons y ys => exact ⟨y.1, rfl⟩
  have hexits : (j.relabel (ids S.code).idxOf).exits t.cur.pc =
      ((targets j (firstId ys none)).map (ids (ended us c)).idxOf).map (pre.length + ·) := by
    rw [← exits_relabel hnd e hb' (by simpa using hterm), hlen, ← exits_shift, hpc]
    exact congrArg (Instr.exits _) (relabel_congr fun x hx => idxOf_in hcode (hin b j x hmem hx) c)
  refine ⟨hgo.callers.trans h.callers, hgo.unit.trans h.unit, hgo.size.trans h.size, fun q hq => ?_, ?_⟩
  · refine (hgo.regs q fun e => ?_).trans (h.regs q hq)
    rw [Instr.sets_relabel] at e
    exact absurd hq (Nat.not_lt.mpr (hsets _ hmem q e))
  · have hpc' := hgo.pc
    rw [hexits] at hpc'
    simp only [List.mem_map] at hpc'
    obtain ⟨_, ⟨b'', hb'', rfl⟩, hpc'⟩ := hpc'
    have hstep : Step (ended us c) b b'' := ⟨xs, j, ys, e, hb''⟩
    refine ⟨b'', ?_, hreach.tail hstep, hpc'.symm⟩
    obtain ⟨-, hnext⟩ | hlabel := mem_targets_iff.mp hb''
    · rw [e, ids_append, ids_cons]
      simp [firstId_mem hnext rfl]
    · rw [ended, ids_append]
      exact List.mem_append_left _ (hin b j b'' hmem hlabel)

/-- **What a run through a stretch of code comes to**: the frame is in the stretch, or at its end if the
stretch can be left, and registers before `n` are as they were. -/
structure Passing (S : Stage) (us post : Code) (n : Nat) (m : Memory) (t : Running) : Prop where
  callers : t.callers = S.start.callers
  unit : t.cur.unit = S.start.cur.unit
  size : t.cur.regs.size = m.regs.size
  regs : ∀ q : Reg, q.index < n → t.cur.regs[q.index]? = m.reg? q
  place : In (S.place (us ++ post)) us t.cur.pc ∨ ¬ NotLeft us ∧ t.cur.pc = S.place post

/-- **A frame that runs through a stretch of code**, the labels of which stand in it. -/
theorem through (hcode : S.code = pre ++ (us ++ post)) (hin : Inner us) (hsets : SetsFrom n us)
    (ht : Running.Through S.program S.limit (In (S.place (us ++ post)) us) (S.spot (us ++ post) m) t) :
    S.Passing us post n m t := by
  obtain ⟨c, hc⟩ := exists_notMem_ids us
  have hplace : S.place (us ++ post) = pre.length := S.place_eq hcode
  have hend : S.place post = pre.length + us.length := by
    rw [S.place_eq (show S.code = (pre ++ us) ++ post by rw [hcode]; simp), List.length_append]
  obtain ⟨a, ha, hfirst, hsame⟩ := exists_firstId_ended us c
  have hamid : S.Amid pre.length us a c n m t := by
    rw [hplace] at ht
    induction ht with
    | refl =>
      exact ⟨rfl, rfl, rfl, fun _ _ => rfl, a, ha, .refl, by rw [hfirst, ← hplace]; rfl⟩
    | step _ hA hu ih => exact ih.step hcode hin hsets hc hA hu
  refine ⟨hamid.callers, hamid.unit, hamid.size, hamid.regs, ?_⟩
  obtain ⟨b, hb, hreach, hpc⟩ := hamid.node
  by_cases hmem : b ∈ ids us
  · refine .inl ⟨by omega, ?_⟩
    have hlt := List.idxOf_lt_length_of_mem hmem
    rw [hpc, hplace, ended, ids_append, List.idxOf_append_of_mem hmem]
    simpa [ids] using hlt
  · refine .inr ⟨fun hleft => ?_, ?_⟩
    · obtain ⟨a', ha', hleft⟩ := hleft
      obtain rfl := hsame a' ha'
      exact hmem (hleft (show ended us c = [] ++ (us ++ [(c, Instr.nop)]) from rfl) (nodup_ended hcode hc) hreach)
    · obtain rfl : b = c := by
        rw [ended, ids_append, List.mem_append] at hb
        exact List.mem_singleton.mp (hb.resolve_left hmem)
      rw [hpc, hend, ended, ids_append, List.idxOf_append_of_notMem hmem]
      simp [ids]

/-- The stage with another machine in the same unit. -/
def on (S : Stage) (t : Running) (h : t.cur.unit = S.start.cur.unit) : Stage :=
  { S with start := t, hosts := h ▸ S.hosts }

theorem spot_on {xs : Code} (h : t.cur.unit = S.start.cur.unit) (hpc : t.cur.pc = S.place xs) :
    (S.on t h).spot xs ⟨t.machine.heap, t.cur.regs⟩ = t := by
  obtain ⟨m, callers, cur⟩ := t
  simp only [spot, on, place] at hpc ⊢
  rw [← hpc]

end Stage

end CountedMachine
