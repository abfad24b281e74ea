import CountedMachine.Proofs.Heap.Blurred
import CountedMachine.Proofs.Heap.Estimates

/-! # Heaps that differ in estimates only

Two steady heaps with the same objects and scopes may estimate differently. A cascade consults the
estimates, but when it ends in both heaps, scopes are discarded alike: where one heap discards a scope and
the other one waits, a member has yet to report, and the first cascade fails on it
(`Backlog.discards_alike`).

`SameButEstimates` is the relation between such heaps. Every operation that returns on both keeps it. -/

namespace CountedMachine.Heap

variable {h h' k k' : Heap} {r : ObjId} {v : Value} {vs : List Value} {work work' due due' : List ObjId}
  {g : ScopeId} {s t : Scope}

/-! ## The same objects and scopes -/

theorem slots_of_blurred (e : k.blurred = h.blurred) : k.slots = h.slots :=
  show k.blurred.slots = h.blurred.slots by rw [e]

theorem slot?_of_blurred (e : k.blurred = h.blurred) : k.slot? = h.slot? := by
  funext x
  rw [slot?, slot?, slots_of_blurred e]

theorem rcOrZero_of_blurred (e : k.blurred = h.blurred) : k.rcOrZero = h.rcOrZero := by
  funext x
  rw [rcOrZero, rcOrZero, slot?_of_blurred e]

theorem scopes_size_of_blurred (e : k.blurred = h.blurred) : k.scopes.size = h.scopes.size := by
  simpa [blurred] using congrArg (fun h => h.scopes.size) e

theorem scope_of_blurred (e : k.blurred = h.blurred) (hs : h.scope g = .ok s) :
    ∃ t, k.scope g = .ok t ∧ t.blurred = s.blurred := by
  have h₁ := h.scope_blurred g
  rw [hs, ← e, k.scope_blurred] at h₁
  cases ht : k.scope g with
  | error f => rw [ht] at h₁; cases h₁
  | ok t => exact ⟨t, rfl, by rw [ht] at h₁; exact Except.ok.inj h₁⟩

theorem members_of_blurred (e : t.blurred = s.blurred) : t.members = s.members :=
  show t.blurred.members = s.blurred.members by rw [e]

theorem isSealed_of_blurred (e : t.blurred = s.blurred) : t.isSealed = s.isSealed :=
  show t.blurred.isSealed = s.blurred.isSealed by rw [e]

theorem setScope_of_blurred (e : k.blurred = h.blurred) (hst : t.blurred = s.blurred) (g : ScopeId) :
    (k.setScope g (some t)).blurred = (h.setScope g (some s)).blurred := by
  rw [← setScope_blurred, ← setScope_blurred, e, Option.map_some, Option.map_some, hst]

/-- What consults no estimate has the same result. -/
theorem told_alike {α β : Type} {q : α → β} {x y : Except Fault α} {x' y' : Except Fault β} {a b : α}
    (hx : x' = tell q x) (hy : y' = tell q y) (e : y' = x') (ha : x = .ok a) (hb : y = .ok b) :
    q b = q a := by
  subst ha hb
  exact Except.ok.inj (hy.symm.trans (e.trans hx))

/-! ## Cascades -/

/-- **The scopes are discarded alike**: if the first heap discards the scope of `r` and loses no object that
waits, the second one discards it too. -/
theorem Backlog.discards_alike {D new : List ObjId} (hk : Backlog k (r :: work))
    (e : k.blurred = h.blurred) (hg : h.scopeAt g = some s) (hg' : k.scopeAt g = some t)
    (hst : t.blurred = s.blurred) (hsc : h.scopeOf r = .ok (some g)) (hre : Reclaims h h' r D new)
    (hlive : ∀ x ∈ work, h'.slot? x ≠ none) (hd : (s.noteZero h.rcOrZero).2 = .discard) :
    (t.noteZero k.rcOrZero).2 = .discard := by
  obtain ⟨hsealed, -, h0⟩ := (noteZero_discard_iff s _).mp hd
  have hmem := members_of_blurred hst
  have hsealed' : t.isSealed = true := (isSealed_of_blurred hst).trans hsealed
  have h0' : t.referenced k.rcOrZero = 0 := by
    rw [Scope.referenced, hmem, rcOrZero_of_blurred e]
    exact h0
  refine (noteZero_discard_iff t _).mpr ⟨hsealed', ?_, h0'⟩
  -- another member that has yet to report would be lost with the scope
  have hle := hk.within hg' hsealed'
  have hcons := hk.expected_cons hg'
  have hnone : k.expected work t = 0 := by
    rw [expected, List.countP_eq_zero]
    intro m hm
    rw [hmem] at hm
    have hrc : k.rcOrZero m = 0 := by
      rw [rcOrZero_of_blurred e]
      exact (referenced_eq_zero_iff s _).mp h0 m hm
    simp only [hrc, lt_irrefl, false_or, decide_eq_true_eq]
    exact fun hw => hlive m hw (hre.gone (hre.discarded ⟨g, hsc, hg, hd⟩ hm))
  split_ifs at hcons <;> omega

/-- What is left to do after an object has reported. -/
theorem noteZero_alike (e : k.blurred = h.blurred) (hg : h.scopeAt g = some s)
    (hg' : k.scopeAt g = some t) (hst : t.blurred = s.blurred)
    (hd : (t.noteZero k.rcOrZero).2 = (s.noteZero h.rcOrZero).2)
    {h' k' : Heap} {wh wk : List ObjId} (eh : h.noteZero g work = .ok (h', wh))
    (ek : k.noteZero g work = .ok (k', wk)) : k'.blurred = h'.blurred ∧ wk = wh := by
  rw [noteZero, scope_eq hg] at eh
  rw [noteZero, scope_eq hg'] at ek
  have hs' := s.noteZero_blurred h.rcOrZero
  have ht' := t.noteZero_blurred k.rcOrZero
  rcases hs : s.noteZero h.rcOrZero with ⟨s', d⟩
  rcases ht : t.noteZero k.rcOrZero with ⟨t', d'⟩
  rw [hs] at hs' hd
  rw [ht] at ht' hd
  obtain rfl : d' = d := hd
  simp only [hs, bind, Except.bind] at eh
  simp only [ht, bind, Except.bind] at ek
  have hset := setScope_of_blurred e (ht'.trans (hst.trans hs'.symm)) g
  cases d' with
  | keep =>
    obtain ⟨rfl, rfl⟩ := Prod.mk.inj (Except.ok.inj eh)
    obtain ⟨rfl, rfl⟩ := Prod.mk.inj (Except.ok.inj ek)
    exact ⟨hset, rfl⟩
  | discard =>
    have := told_alike (dismantle_blurred _ g work) (dismantle_blurred _ g work) (by rw [hset]) eh ek
    exact Prod.mk.inj this

/-- One round of two cascades. -/
theorem Backlog.round_alike {rest wh wk : List ObjId} (hh : Backlog h (r :: (work ++ rest)))
    (hk : Backlog k (r :: (work ++ rest))) (e : k.blurred = h.blurred)
    (eh : h.reclaimOne r work = .ok (h', wh)) (ek : k.reclaimOne r work = .ok (k', wk))
    (lh : ∀ x ∈ wh ++ rest, h'.slot? x ≠ none) (lk : ∀ x ∈ wk ++ rest, k'.slot? x ≠ none) :
    k'.blurred = h'.blurred ∧ wk = wh := by
  obtain ⟨D, new, rfl, -, hre⟩ := hh.round eh
  obtain ⟨D', new', rfl, -, hre'⟩ := hk.round ek
  have hscope : k.scopeOf r = h.scopeOf r := by
    rw [scopeOf, scopeOf, get, get, slot, slot, slot?_of_blurred e]
  obtain ⟨o, ho, eh⟩ := bind_ok eh
  obtain ⟨o', ho', ek⟩ := bind_ok ek
  obtain rfl : o' = o := by
    rw [hscope, ho] at ho'
    exact (Except.ok.inj ho').symm
  cases o' with
  | none =>
    have := told_alike (dissolve_blurred r (h, work)) (dissolve_blurred r (k, work))
      (by simp only [blurredBeside, e]) eh ek
    exact Prod.mk.inj this
  | some g =>
    obtain ⟨s, hs, -⟩ := bind_ok eh
    obtain ⟨t, ht, hst⟩ := scope_of_blurred e hs
    have hg := scopeAt_of_scope hs
    have hg' := scopeAt_of_scope ht
    have hin : ∀ {l n : List ObjId}, ∀ x ∈ l ++ rest, x ∈ n ++ l ++ rest := fun x hx => by
      rcases List.mem_append.mp hx with hx | hx <;> simp [hx]
    have hd : (t.noteZero k.rcOrZero).2 = (s.noteZero h.rcOrZero).2 := by
      have h₁ := hk.discards_alike e hg hg' hst ho hre fun x hx => lh x (hin x hx)
      have h₂ := hh.discards_alike e.symm hg' hg hst.symm ho' hre' fun x hx => lk x (hin x hx)
      cases hd : (s.noteZero h.rcOrZero).2 with
      | discard => exact h₁ hd
      | keep =>
        cases hd' : (t.noteZero k.rcOrZero).2 with
        | keep => rfl
        | discard => exact (h₂ hd').symm.trans hd
    exact noteZero_alike e hg hg' hst hd eh ek

/-- **Two cascades that end** leave the same objects and scopes. -/
theorem Backlog.run_alike : ∀ (fuel : Nat) {h k : Heap} {work rest : List ObjId}, Backlog h (work ++ rest) →
    Backlog k (work ++ rest) → k.blurred = h.blurred → reclaimLoop fuel h work = .ok h' →
      reclaimLoop fuel k work = .ok k' → (∀ x ∈ rest, h'.slot? x ≠ none) →
      (∀ x ∈ rest, k'.slot? x ≠ none) → k'.blurred = h'.blurred
  | fuel, h, k, [], rest, _, _, e, eh, ek, _, _ => by
    obtain rfl : h = h' := by simpa [reclaimLoop] using eh
    obtain rfl : k = k' := by simpa [reclaimLoop] using ek
    exact e
  | 0, h, k, r :: work, rest, _, _, _, eh, _, _, _ => by simp [reclaimLoop] at eh
  | fuel + 1, h, k, r :: work, rest, hh, hk, e, eh, ek, lh, lk => by
    rw [reclaimLoop] at eh ek
    obtain ⟨⟨h₁, wh⟩, eh₁, eh⟩ := bind_ok eh
    obtain ⟨⟨k₁, wk⟩, ek₁, ek⟩ := bind_ok ek
    obtain ⟨-, -, -, hh₁, -⟩ := hh.round eh₁
    obtain ⟨-, -, -, hk₁, -⟩ := hk.round ek₁
    obtain ⟨e₁, rfl⟩ := hh.round_alike hk e eh₁ ek₁ (hh₁.live fuel eh lh) (hk₁.live fuel ek lk)
    exact Backlog.run_alike fuel hh₁ hk₁ e₁ eh ek lh lk

theorem Backlog.reclaim_alike {rest : List ObjId} (hh : Backlog h ([r] ++ rest)) (hk : Backlog k ([r] ++ rest))
    (e : k.blurred = h.blurred) (eh : h.reclaim [r] = .ok h') (ek : k.reclaim [r] = .ok k')
    (lh : ∀ x ∈ rest, h'.slot? x ≠ none) (lk : ∀ x ∈ rest, k'.slot? x ≠ none) :
    k'.blurred = h'.blurred := by
  rw [Heap.reclaim, slots_of_blurred e] at ek
  exact Backlog.run_alike _ hh hk e eh ek lh lk

theorem Backlog.each_alike : ∀ {h k : Heap} {work : List ObjId}, Backlog h work → Backlog k work →
    k.blurred = h.blurred → work.foldlM (fun h r => h.reclaim [r]) h = .ok h' →
      work.foldlM (fun h r => h.reclaim [r]) k = .ok k' → k'.blurred = h'.blurred
  | h, k, [], _, _, e, eh, ek => by
    obtain rfl : h = h' := Except.ok.inj eh
    obtain rfl : k = k' := Except.ok.inj ek
    exact e
  | h, k, r :: work, hh, hk, e, eh, ek => by
    rw [List.foldlM_cons] at eh ek
    obtain ⟨h₁, eh₁, eh⟩ := bind_ok eh
    obtain ⟨k₁, ek₁, ek⟩ := bind_ok ek
    have hh₁ : Backlog h₁ work := Backlog.reclaim hh eh₁
    have hk₁ : Backlog k₁ work := Backlog.reclaim hk ek₁
    exact Backlog.each_alike hh₁ hk₁
      (Backlog.reclaim_alike hh hk e eh₁ ek₁ (hh₁.each_live eh) (hk₁.each_live ek)) eh ek

/-! ## Reading fields and computing -/

theorem Steady.field {n : Nat} {x : Heap × Value} (hs : Steady h due) (e : h.field v n = .ok x) :
    Steady x.1 due := by
  cases v with
  | obj r =>
    obtain ⟨o, -, e⟩ := bind_ok e
    cases o with
    | cons a b =>
      dsimp only at e
      split at e
      · obtain rfl := Except.ok.inj e
        exact hs
      · obtain rfl := Except.ok.inj e
        exact hs
      · cases e
    | struct ty fields =>
      dsimp only at e
      split at e
      · obtain rfl := Except.ok.inj e
        exact hs
      · cases e
    | undefined tag places =>
      obtain rfl := Except.ok.inj e
      exact hs.allocate rfl
    | _ => cases e
  | _ => cases e

/-- What is no pair of numbers is taken for texts. -/
theorem Steady.onOthers {op : Operator} {a b : Value} {checked : Bool} {x : Heap × Value}
    (hs : Steady h due) (e : (do
      if !checked then throw (.uncheckedOperator op)
      let s ← h.textOf? a
      let t ← h.textOf? b
      match s, t with
      | some s, some t => return op.onTexts h s t
      | _, _ => return h.undefined "type-error" : Except Fault (Heap × Value)) = .ok x) :
    Steady x.1 due := by
  have htexts : ∀ s t, Steady (op.onTexts h s t).1 due := by
    intro s t
    cases op <;> first | exact hs | exact hs.allocate rfl
  cases checked with
  | false => cases e
  | true =>
    obtain ⟨s, -, e⟩ := bind_ok e
    obtain ⟨t, -, e⟩ := bind_ok e
    split at e
    · obtain rfl := Except.ok.inj e
      exact htexts _ _
    · obtain rfl := Except.ok.inj e
      exact hs.allocate rfl

theorem Steady.arithmetic {op : Operator} {a b : Value} {checked : Bool} {x : Heap × Value}
    (hs : Steady h due) (e : op.arithmetic h a b checked = .ok x) : Steady x.1 due := by
  unfold Operator.arithmetic at e
  dsimp only at e
  split at e
  · split at e
    · obtain rfl := Except.ok.inj e
      exact hs
    · exact hs.onOthers e
  · exact hs.onOthers e

theorem Steady.eval {op : Operator} {a b : Value} {checked : Bool} {x : Heap × Value} (hs : Steady h [])
    (e : op.eval h a b checked = .ok x) : Steady x.1 [] := by
  have harith : op.arithmetic h a b checked = .ok x → Steady x.1 [] := hs.arithmetic
  cases op with
  | cons =>
    obtain ⟨h₁, e₁, e⟩ := bind_ok e
    obtain ⟨h₂, e₂, e⟩ := bind_ok e
    obtain rfl := Except.ok.inj e
    have hs₁ : Steady h₁ [] := hs.inc (by simp) e₁
    have hs₂ : Steady h₂ [] := hs₁.inc (by simp) e₂
    exact hs₂.allocate rfl
  | eq | ne =>
    obtain ⟨_, -, e⟩ := bind_ok e
    obtain rfl := Except.ok.inj e
    exact hs
  | _ => exact harith e

/-! ## The relation -/

/-- **Steady heaps that differ in estimates only**; `due` are the objects that have yet to report. -/
structure SameButEstimates (due : List ObjId) (h k : Heap) : Prop where
  left : Steady h due
  right : Steady k due
  same : k.blurred = h.blurred

namespace SameButEstimates

theorem slots (t : SameButEstimates due h k) : k.slots = h.slots := slots_of_blurred t.same

theorem stats (t : SameButEstimates due h k) : k.stats = h.stats :=
  show k.blurred.stats = h.blurred.stats by rw [t.same]

theorem refl (hs : Steady h due) : SameButEstimates due h h := ⟨hs, hs, rfl⟩

theorem inc (t : SameButEstimates due h k) (hd : ∀ x ∈ due, v = .obj x ∨ x ∈ due') (eh : h.inc v = .ok h')
    (ek : k.inc v = .ok k') : SameButEstimates due' h' k' :=
  ⟨t.left.inc hd eh, t.right.inc hd ek, told_alike (h.inc_blurred v) (k.inc_blurred v) (by rw [t.same]) eh ek⟩

theorem incAll (t : SameButEstimates [] h k) (eh : h.incAll vs = .ok h') (ek : k.incAll vs = .ok k') :
    SameButEstimates [] h' k' :=
  ⟨t.left.incAll eh, t.right.incAll ek, told_alike (h.incAll_blurred vs) (k.incAll_blurred vs) (by rw [t.same]) eh ek⟩

theorem release (t : SameButEstimates [] h k) (eh : h.release v = .ok h') (ek : k.release v = .ok k') :
    SameButEstimates v.asObj?.toList h' k' :=
  ⟨t.left.release eh, t.right.release ek, told_alike (h.release_blurred v) (k.release_blurred v) (by rw [t.same]) eh ek⟩

theorem put {o : Object} {c : Slot} (t : SameButEstimates due h k) (hr : h.slot? r = some c)
    (ho : o.scope? = c.obj.scope?) (eh : h.put r o = .ok h') (ek : k.put r o = .ok k') :
    SameButEstimates due h' k' :=
  ⟨t.left.put hr ho eh, t.right.put ((slot?_of_blurred t.same).symm ▸ hr) ho ek,
    told_alike (h.put_blurred r o) (k.put_blurred r o) (by rw [t.same]) eh ek⟩

theorem allocate {o : Object} (t : SameButEstimates due h k) (ho : o.scope? = none) :
    SameButEstimates due (h.allocate o).1 (k.allocate o).1 ∧ (k.allocate o).2 = (h.allocate o).2 := by
  have hh := h.allocate_blurred o
  rw [← t.same, k.allocate_blurred o] at hh
  obtain ⟨e₁, e₂⟩ := Prod.mk.inj hh
  exact ⟨⟨t.left.allocate ho, t.right.allocate ho, e₁⟩, e₂⟩

theorem unref (t : SameButEstimates [] h k) (eh : h.unref v = .ok h') (ek : k.unref v = .ok k') :
    SameButEstimates [] h' k' := by
  refine ⟨t.left.unref eh, t.right.unref ek, ?_⟩
  cases v with
  | obj r =>
    obtain ⟨⟨h₁, n⟩, dh, eh⟩ := bind_ok eh
    obtain ⟨⟨k₁, n'⟩, dk, ek⟩ := bind_ok ek
    have hdec := told_alike (h.decObj_blurred r) (k.decObj_blurred r) (by rw [t.same]) dh dk
    obtain ⟨hsame, rfl⟩ : k₁.blurred = h₁.blurred ∧ n' = n := Prod.mk.inj hdec
    obtain ⟨hs, c, hr, hc⟩ := t.left.dec dh
    obtain ⟨ks, d, kr, hd⟩ := t.right.dec dk
    dsimp only at eh ek
    split_ifs at eh ek hs ks with h0
    · exact (hs.backlog hr (hc.trans h0)).reclaim_alike (ks.backlog kr (hd.trans h0)) hsame eh ek
        (by simp) (by simp)
    · obtain rfl := Except.ok.inj eh
      obtain rfl := Except.ok.inj ek
      exact hsame
  | _ =>
    obtain rfl := Except.ok.inj eh
    obtain rfl := Except.ok.inj ek
    exact t.same

theorem unrefAll : ∀ {vs : List Value} {h k : Heap}, SameButEstimates [] h k → h.unrefAll vs = .ok h' →
    k.unrefAll vs = .ok k' → SameButEstimates [] h' k'
  | [], h, k, t, eh, ek => by
    obtain rfl : h = h' := Except.ok.inj eh
    obtain rfl : k = k' := Except.ok.inj ek
    exact t
  | v :: vs, h, k, t, eh, ek => by
    rw [Heap.unrefAll, List.foldlM_cons] at eh ek
    obtain ⟨h₁, eh₁, eh⟩ := bind_ok eh
    obtain ⟨k₁, ek₁, ek⟩ := bind_ok ek
    exact unrefAll (t.unref eh₁ ek₁) eh ek

theorem drop (t : SameButEstimates due h k) (hd : ∀ x ∈ due, v = .obj x) (eh : h.drop v = .ok h')
    (ek : k.drop v = .ok k') : SameButEstimates [] h' k' := by
  refine ⟨t.left.drop hd eh, t.right.drop hd ek, ?_⟩
  cases v with
  | obj r =>
    obtain ⟨n, hn, eh⟩ := bind_ok eh
    obtain ⟨n', hn', ek⟩ := bind_ok ek
    obtain rfl : n' = n := by
      rw [rc, slot, slot?_of_blurred t.same] at hn'
      exact Except.ok.inj (hn'.symm.trans hn)
    split_ifs at eh ek with h0
    · have hr : ∃ c, h.slot? r = some c ∧ c.rc = 0 := by
        cases hr : h.slot? r with
        | none => simp [rc, slot, hr, Except.map] at hn
        | some c =>
          simp only [rc, slot, hr, Except.map, Except.ok.injEq] at hn
          exact ⟨c, rfl, hn.trans h0⟩
      obtain ⟨c, hr, hc⟩ := hr
      have hmono : ∀ {h : Heap}, Steady h due → Steady h [r] := fun hs =>
        hs.keeps (.refl _) fun _ _ _ hx => hx.imp_right fun hx => by simp [Value.obj.inj (hd _ hx)]
      exact ((hmono t.left).backlog hr hc).reclaim_alike
        ((hmono t.right).backlog ((slot?_of_blurred t.same).symm ▸ hr) hc) t.same eh ek (by simp) (by simp)
    · obtain rfl := Except.ok.inj eh
      obtain rfl := Except.ok.inj ek
      exact t.same
  | _ =>
    obtain rfl := Except.ok.inj eh
    obtain rfl := Except.ok.inj ek
    exact t.same

/-- **A field**, where a tag is made into a text. -/
theorem field {n : Nat} {x y : Heap × Value} (t : SameButEstimates [] h k) (ex : h.field v n = .ok x)
    (ey : k.field v n = .ok y) : SameButEstimates [] x.1 y.1 ∧ y.2 = x.2 := by
  have hsame := told_alike (h.field_blurred v n) (k.field_blurred v n) (by rw [t.same]) ex ey
  obtain ⟨hsame, hv⟩ := Prod.mk.inj hsame
  exact ⟨⟨t.left.field ex, t.right.field ey, hsame⟩, hv⟩

/-- **An operator.** -/
theorem eval {op : Operator} {a b : Value} {checked : Bool} {x y : Heap × Value} (t : SameButEstimates [] h k)
    (ex : op.eval h a b checked = .ok x) (ey : op.eval k a b checked = .ok y) :
    SameButEstimates [] x.1 y.1 ∧ y.2 = x.2 := by
  have hsame := told_alike (op.eval_blurred h a b checked) (op.eval_blurred k a b checked)
    (by rw [t.same]) ex ey
  obtain ⟨hsame, hv⟩ := Prod.mk.inj hsame
  exact ⟨⟨t.left.eval ex, t.right.eval ey, hsame⟩, hv⟩

theorem openScope (t : SameButEstimates due h k) (n : Nat) :
    SameButEstimates due (h.openScope n).1 (k.openScope n).1 ∧ (k.openScope n).2 = (h.openScope n).2 := by
  refine ⟨⟨t.left.openScope n, t.right.openScope n, ?_⟩, ?_⟩
  · have := t.same
    simp only [blurred, Heap.mk.injEq] at this
    simp [blurred, Heap.openScope, this]
  · simp [Heap.openScope, scopes_size_of_blurred t.same]

theorem enrol {n : Nat} {c : Closure} (t : SameButEstimates due h k) (hr : h.slot? r = some ⟨n, .closure c⟩)
    (hc : c.scope = none) (eh : h.enrol g r = .ok h') (ek : k.enrol g r = .ok k') : SameButEstimates due h' k' :=
  ⟨t.left.enrol hr hc eh, t.right.enrol ((slot?_of_blurred t.same).symm ▸ hr) hc ek,
    told_alike (h.enrol_blurred r g) (k.enrol_blurred r g) (by rw [t.same]) eh ek⟩

theorem sealScope (t : SameButEstimates [] h k) (eh : h.sealScope g = .ok h') (ek : k.sealScope g = .ok k') :
    SameButEstimates [] h' k' := by
  refine ⟨t.left.sealScope eh, t.right.sealScope ek, ?_⟩
  obtain ⟨s, h₁, s', d, hs, ew, hs₁, hcl, hcases⟩ := t.left.sealScope_cases eh
  obtain ⟨u, k₁, u', d', hu, ew', hu₁, hcl', hcases'⟩ := t.right.sealScope_cases ek
  obtain ⟨u₀, hu₀, hsu⟩ := scope_of_blurred t.same hs
  obtain rfl : u₀ = u := Except.ok.inj (hu₀.symm.trans hu)
  rw [members_of_blurred hsu] at ew'
  have hweaken := fun h => tell_foldlM (fun (h : Heap) m => h.weaken_blurred m s.members) s.members h
  have hsame := told_alike (hweaken h) (hweaken k) (by rw [t.same]) ew ew'
  rw [Scope.close_congr hsu, rcOrZero_of_blurred hsame, hcl] at hcl'
  obtain ⟨rfl, rfl⟩ := Prod.mk.inj (Except.ok.inj hcl')
  have hset := setScope_of_blurred hsame (rfl : s'.blurred = s'.blurred) g
  rcases hcases with ⟨hd, rfl, -⟩ | ⟨hd, h₂, w, eh₂, hb, eh₃⟩
  · rcases hcases' with ⟨-, rfl, -⟩ | ⟨hd', -⟩
    · exact hset
    · cases hd.symm.trans hd'
  · rcases hcases' with ⟨hd', -⟩ | ⟨-, k₂, w', ek₂, hb', ek₃⟩
    · cases hd.symm.trans hd'
    · have := told_alike (dismantle_blurred _ g []) (dismantle_blurred _ g []) (by rw [hset]) eh₂ ek₂
      obtain ⟨hsame₂, rfl⟩ : k₂.blurred = h₂.blurred ∧ w' = w := Prod.mk.inj this
      exact hb.each_alike hb' hsame₂ eh₃ ek₃

/-! ## Dropping a value on one side -/

/-- **Dropping the value frees nothing:** it has a reference, or a member of its scope has one. -/
def Harmless (h : Heap) (v : Value) : Prop := ∀ x, v = .obj x → ∃ c, h.slot? x = some c ∧
  (0 < c.rc ∨ ∃ g s, c.obj.scope? = some g ∧ h.scopeAt g = some s ∧ ∃ m ∈ s.members, 0 < h.rcOrZero m)

theorem setScope_blurred_self (hg : h.scopeAt g = some s) (ht : t.blurred = s.blurred) :
    (h.setScope g (some t)).blurred = h.blurred := by
  have hlt := lt_size_of_scopeAt hg
  have hself : h.scopes[g.index] = some s := by
    simpa [scopeAt, Array.getElem?_eq_getElem hlt] using hg
  rw [← setScope_blurred]
  simp only [setScope, blurred, Option.map_some, ht]
  congr 1
  refine Array.ext (by simp) fun i hi hi' => ?_
  rw [Array.getElem_setIfInBounds (by simpa using hi')]
  split_ifs with e
  · subst e
    simp [hself]
  · rfl

/-- **A harmless drop** changes no more than an estimate. -/
theorem drop_left (t : SameButEstimates [] h k) (hv : Harmless h v) (e : h.drop v = .ok h') :
    SameButEstimates [] h' k := by
  refine ⟨t.left.drop (by simp) e, t.right, t.same.trans ?_⟩
  cases v with
  | obj x =>
    obtain ⟨c, hc, hsafe⟩ := hv x rfl
    simp only [Heap.drop, rc, slot, hc, Except.map, bind, Except.bind] at e
    split_ifs at e with h0
    · obtain hpos | ⟨g, s, hcg, hg, m, hm, hpos⟩ := hsafe
      · omega
      · have hkeep : (s.noteZero h.rcOrZero).2 = .keep := by
          cases hd : (s.noteZero h.rcOrZero).2 with
          | keep => rfl
          | discard =>
            have hzero := ((noteZero_discard_iff s _).mp hd).2.2
            have := (referenced_eq_zero_iff s _).mp hzero m hm
            omega
        have hs' := s.noteZero_blurred h.rcOrZero
        rcases hn : s.noteZero h.rcOrZero with ⟨s', d⟩
        rw [hn] at hkeep hs'
        obtain rfl : d = .keep := hkeep
        have hone : h.reclaimOne x [] = .ok (h.setScope g (some s'), []) := by
          rw [reclaimOne, scopeOf_eq hc, hcg]
          change h.noteZero g [] = _
          rw [noteZero, scope_eq hg]
          simp only [bind, Except.bind, hn]
          rfl
        rw [reclaim, List.length_singleton, reclaimLoop, hone] at e
        change reclaimLoop _ (h.setScope g (some s')) [] = _ at e
        rw [reclaimLoop] at e
        obtain rfl := Except.ok.inj e
        exact (setScope_blurred_self hg hs').symm
    · obtain rfl := Except.ok.inj e
      rfl
  | _ =>
    obtain rfl := Except.ok.inj e
    rfl

end SameButEstimates

end CountedMachine.Heap
