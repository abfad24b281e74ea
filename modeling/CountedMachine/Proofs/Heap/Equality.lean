import CountedMachine.Heap.Inspect
import CountedMachine.Proofs.Heap.Effects
import CountedMachine.Proofs.Number.Equality

/-! # Equality of values is well behaved

Values are compared by identity or by what they are made of, and numbers among their parts may differ
from themselves. Whatever the heap is, an answer does not depend on the order of the two values
(`equalWithin_comm`), and equality is transitive (`equalWithin_trans`): both are inductions over the
bound on the depth, with one lemma for two objects whose parts are compared (`sameObjects`).

The bound is no restriction where no pair or struct is part of itself (`Heap.Layered`): the objects on
the way down are different ones, so there are no more of them than slots (`equalWithin_ok`). The laws
together are `Heap.equal_laws`. -/

namespace CountedMachine

/-- The values that a pair or a struct is made of. -/
def Object.components : Object → List Value
  | .cons a b => [a, b]
  | .struct _ fields => fields
  | _ => []

/-- The value is a number that is none. -/
def Value.isNaN : Value → Bool
  | .num x => x.isNaN
  | _ => false

namespace Heap

/-- An object is part of a pair or struct. -/
def Contains (h : Heap) (r s : ObjId) : Prop := ∃ c, h.slot? r = some c ∧ .obj s ∈ c.obj.components

/-- **Pairs and structs are made of live values**, and none is part of itself. -/
structure Layered (h : Heap) : Prop where
  live : ∀ {r c}, h.slot? r = some c → ∀ v ∈ c.obj.components, h.Live v
  acyclic : ∀ r, ¬ Relation.TransGen h.Contains r r

/-! ## Objects whose parts are compared -/

/-- A test of values. -/
abbrev Test := Value → Value → Except Fault Bool

/-- Two objects, compared with a test for what they are made of. -/
def sameObjects (test : Test) : Object → Object → Except Fault Bool
  | .str s, .str t => .ok (s == t)
  | .cons a b, .cons c d => do if ← test a c then test b d else return false
  | .struct t fs, .struct u gs =>
    if t = u && fs.length = gs.length then allPairs test fs gs else .ok false
  | _, _ => .ok false

section
variable {test : Test} {o p q : Object} {v : Bool}

theorem allPairs_ok : ∀ {as bs : List Value}, (∀ a ∈ as, ∀ b ∈ bs, ∃ v, test a b = .ok v) →
    ∃ v, allPairs test as bs = .ok v
  | [], _, _ => ⟨true, by simp [allPairs]⟩
  | _ :: _, [], _ => ⟨true, by simp [allPairs]⟩
  | a :: as, b :: bs, h => by
    obtain ⟨v, hv⟩ := h a (by simp) b (by simp)
    rw [allPairs, hv]
    cases v with
    | false => exact ⟨false, rfl⟩
    | true => exact allPairs_ok fun a ha b hb => h a (by simp [ha]) b (by simp [hb])

theorem allPairs_mono {test' : Test} (h : ∀ a b v, test a b = .ok v → test' a b = .ok v) :
    ∀ {as bs : List Value}, allPairs test as bs = .ok v → allPairs test' as bs = .ok v
  | [], _, e => e
  | _ :: _, [], e => e
  | a :: as, b :: bs, e => by
    rw [allPairs] at e ⊢
    obtain ⟨w, hw, e⟩ := bind_ok e
    rw [h _ _ _ hw]
    cases w with
    | false => exact e
    | true => exact allPairs_mono h e

theorem allPairs_comm (h : ∀ a b v, test a b = .ok v → test b a = .ok v) :
    ∀ {as bs : List Value}, allPairs test as bs = .ok v → allPairs test bs as = .ok v
  | [], [], e => e
  | [], _ :: _, e => e
  | _ :: _, [], e => e
  | a :: as, b :: bs, e => by
    rw [allPairs] at e ⊢
    obtain ⟨w, hw, e⟩ := bind_ok e
    rw [h _ _ _ hw]
    cases w with
    | false => exact e
    | true => exact allPairs_comm h e

theorem allPairs_trans
    (h : ∀ a b c, test a b = .ok true → test b c = .ok true → test a c = .ok true) :
    ∀ {as bs cs : List Value}, as.length = bs.length → allPairs test as bs = .ok true →
      allPairs test bs cs = .ok true → allPairs test as cs = .ok true
  | [], _, _, _, _, _ => by simp [allPairs]
  | _ :: _, _, [], _, _, _ => by simp [allPairs]
  | a :: as, b :: bs, c :: cs, hlen, e, e' => by
    rw [allPairs] at e e' ⊢
    obtain ⟨w, hw, e⟩ := bind_ok e
    obtain ⟨w', hw', e'⟩ := bind_ok e'
    cases w with
    | false => cases e
    | true =>
      cases w' with
      | false => cases e'
      | true =>
        rw [h _ _ _ hw hw']
        exact allPairs_trans h (Nat.succ.inj hlen) e e'

theorem sameObjects_ok
    (h : ∀ a ∈ o.components, ∀ b ∈ p.components, ∃ v, test a b = .ok v) :
    ∃ v, sameObjects test o p = .ok v := by
  cases o with
  | cons a b =>
    cases p with
    | cons c d =>
      obtain ⟨v, hv⟩ := h a (by simp [Object.components]) c (by simp [Object.components])
      rw [sameObjects, hv]
      cases v with
      | false => exact ⟨false, rfl⟩
      | true => exact h b (by simp [Object.components]) d (by simp [Object.components])
    | _ => exact ⟨false, rfl⟩
  | struct t fs =>
    cases p with
    | struct u gs =>
      rw [sameObjects]
      split_ifs
      · exact allPairs_ok h
      · exact ⟨false, rfl⟩
    | _ => exact ⟨false, rfl⟩
  | str s => cases p <;> exact ⟨_, rfl⟩
  | _ => exact ⟨false, rfl⟩

theorem sameObjects_mono {test' : Test} (h : ∀ a b v, test a b = .ok v → test' a b = .ok v)
    (e : sameObjects test o p = .ok v) : sameObjects test' o p = .ok v := by
  cases o with
  | cons a b =>
    cases p with
    | cons c d =>
      rw [sameObjects] at e ⊢
      obtain ⟨w, hw, e⟩ := bind_ok e
      rw [h _ _ _ hw]
      cases w with
      | false => exact e
      | true => exact h _ _ _ e
    | _ => exact e
  | struct t fs =>
    cases p with
    | struct u gs =>
      rw [sameObjects] at e ⊢
      split_ifs at e ⊢
      · exact allPairs_mono h e
      · exact e
    | _ => exact e
  | str s => cases p <;> exact e
  | _ => exact e

theorem sameObjects_comm (h : ∀ a b v, test a b = .ok v → test b a = .ok v)
    (e : sameObjects test o p = .ok v) : sameObjects test p o = .ok v := by
  cases o with
  | cons a b =>
    cases p with
    | cons c d =>
      rw [sameObjects] at e ⊢
      obtain ⟨w, hw, e⟩ := bind_ok e
      rw [h _ _ _ hw]
      cases w with
      | false => exact e
      | true => exact h _ _ _ e
    | _ => exact e
  | struct t fs =>
    cases p with
    | struct u gs =>
      have hsame : (u = t && gs.length = fs.length) = (t = u && fs.length = gs.length) := by
        simp only [eq_comm]
      rw [sameObjects] at e ⊢
      rw [hsame]
      split_ifs at e ⊢
      · exact allPairs_comm h e
      · exact e
    | _ => exact e
  | str s =>
    cases p with
    | str t =>
      rw [sameObjects] at e ⊢
      rw [← e, Bool.beq_comm]
    | _ => exact e
  | _ => cases p <;> exact e

theorem sameObjects_trans
    (h : ∀ a b c, test a b = .ok true → test b c = .ok true → test a c = .ok true)
    (e : sameObjects test o p = .ok true) (e' : sameObjects test p q = .ok true) :
    sameObjects test o q = .ok true := by
  cases o with
  | cons a b =>
    cases p with
    | cons c d =>
      cases q with
      | cons x y =>
        rw [sameObjects] at e e' ⊢
        obtain ⟨w, hw, e⟩ := bind_ok e
        obtain ⟨w', hw', e'⟩ := bind_ok e'
        cases w with
        | false => cases e
        | true =>
          cases w' with
          | false => cases e'
          | true =>
            rw [h _ _ _ hw hw']
            exact h _ _ _ e e'
      | _ => cases e'
    | _ => cases e
  | struct t fs =>
    cases p with
    | struct u gs =>
      cases q with
      | struct x hs =>
        rw [sameObjects] at e e' ⊢
        split_ifs at e with htu
        · split_ifs at e' with hux
          · simp only [Bool.and_eq_true, decide_eq_true_eq] at htu hux
            rw [if_pos (by simp [htu, hux])]
            exact allPairs_trans h htu.2 e e'
          · cases e'
        · cases e
      | _ => cases e'
    | _ => cases e
  | str s =>
    cases p with
    | str t =>
      cases q with
      | str u =>
        simp only [sameObjects, Except.ok.injEq, beq_iff_eq] at e e' ⊢
        exact e.trans e'
      | _ => cases e'
    | _ => cases e
  | _ => cases e

end

/-! ## Immediate values -/

section
variable {a b c : Value}

theorem sameImmediate_comm (a b : Value) : sameImmediate a b = sameImmediate b a := by
  cases a <;> cases b <;> first | rfl | exact Bool.beq_comm | exact float_beq_comm

theorem sameImmediate_trans (h : sameImmediate a b = true) (h' : sameImmediate b c = true) :
    sameImmediate a c = true := by
  cases a with
  | num x =>
    cases b with
    | num y =>
      cases c with
      | num z => exact float_beq_trans h h'
      | _ => cases h'
    | _ => cases h
  | bool x => cases b <;> cases c <;> simp_all [sameImmediate]
  | _ => cases b <;> cases c <;> simp_all [sameImmediate]

theorem not_obj_of_sameImmediate (h : sameImmediate a b = true) :
    (∀ x, a ≠ .obj x) ∧ ∀ y, b ≠ .obj y := by
  cases a <;> cases b <;> first | cases h; done | simp

end

/-! ## Values -/

section
variable {h : Heap} {n m : Nat} {a b c : Value} {x y : ObjId} {v : Bool}

theorem equalWithin_self (h : Heap) (n : Nat) (x : ObjId) :
    h.equalWithin (n + 1) (.obj x) (.obj x) = .ok true := by
  simp [equalWithin]

theorem equalWithin_objects {k k' : Slot} (hne : x ≠ y) (hx : h.slot? x = some k)
    (hy : h.slot? y = some k') : h.equalWithin (n + 1) (.obj x) (.obj y) =
      sameObjects (h.equalWithin n) k.obj k'.obj := by
  rw [equalWithin, if_neg hne, get_eq hx, get_eq hy]
  cases k.obj <;> cases k'.obj <;> rfl

theorem equalWithin_immediate (hab : (∀ x, a ≠ .obj x) ∨ ∀ y, b ≠ .obj y) :
    h.equalWithin (n + 1) a b = .ok (sameImmediate a b) := by
  cases a <;> cases b <;> first | rfl | simp at hab

/-- An answer about two different objects is one about live objects. -/
theorem slots_of_equalWithin (hne : x ≠ y) (e : h.equalWithin (n + 1) (.obj x) (.obj y) = .ok v) :
    ∃ k k', h.slot? x = some k ∧ h.slot? y = some k' := by
  rw [equalWithin, if_neg hne] at e
  obtain ⟨o, hx, e⟩ := bind_ok e
  obtain ⟨o', hy, -⟩ := bind_ok e
  obtain ⟨k, hk, -⟩ := get_cases hx
  obtain ⟨k', hk', -⟩ := get_cases hy
  exact ⟨k, k', hk, hk'⟩

/-- **How two values are compared**: they are the same object, two live objects whose parts are
compared, or not both objects. -/
theorem equalWithin_cases (e : h.equalWithin (n + 1) a b = .ok v) :
    (∃ x, a = .obj x ∧ b = .obj x ∧ v = true) ∨
    (∃ x y k k', a = .obj x ∧ b = .obj y ∧ x ≠ y ∧ h.slot? x = some k ∧ h.slot? y = some k' ∧
      sameObjects (h.equalWithin n) k.obj k'.obj = .ok v) ∨
    (((∀ x, a ≠ .obj x) ∨ ∀ y, b ≠ .obj y) ∧ v = sameImmediate a b) := by
  by_cases hab : (∀ x, a ≠ .obj x) ∨ ∀ y, b ≠ .obj y
  · rw [equalWithin_immediate hab, Except.ok.injEq] at e
    exact .inr (.inr ⟨hab, e.symm⟩)
  · push Not at hab
    obtain ⟨⟨x, rfl⟩, y, rfl⟩ := hab
    by_cases hne : x = y
    · subst hne
      rw [equalWithin_self, Except.ok.injEq] at e
      exact .inl ⟨x, rfl, rfl, e.symm⟩
    · obtain ⟨k, k', hk, hk'⟩ := slots_of_equalWithin hne e
      rw [equalWithin_objects hne hk hk'] at e
      exact .inr (.inl ⟨x, y, k, k', rfl, rfl, hne, hk, hk', e⟩)

theorem equalWithin_comm : ∀ {n : Nat} {a b : Value} {v : Bool},
    h.equalWithin n a b = .ok v → h.equalWithin n b a = .ok v
  | 0, _, _, _, e => by cases e
  | n + 1, a, b, v, e => by
    obtain ⟨x, rfl, rfl, rfl⟩ | ⟨x, y, k, k', rfl, rfl, hne, hk, hk', e⟩ | ⟨hab, rfl⟩ :=
      equalWithin_cases e
    · exact equalWithin_self h n x
    · rw [equalWithin_objects hne.symm hk' hk]
      exact sameObjects_comm (fun _ _ _ => equalWithin_comm) e
    · rw [equalWithin_immediate hab.symm, sameImmediate_comm]

theorem equalWithin_trans : ∀ {n : Nat} {a b c : Value}, h.equalWithin n a b = .ok true →
    h.equalWithin n b c = .ok true → h.equalWithin n a c = .ok true
  | 0, _, _, _, e, _ => by cases e
  | n + 1, a, b, c, e, e' => by
    obtain ⟨x, rfl, rfl, -⟩ | ⟨x, y, k, k', rfl, rfl, hne, hk, hk', e⟩ | ⟨-, hv⟩ :=
      equalWithin_cases e
    · exact e'
    · obtain ⟨z, hz, rfl, -⟩ | ⟨y', z, l, l', hy, rfl, -, hl, hl', e'⟩ | ⟨-, hv'⟩ :=
        equalWithin_cases e'
      · rwa [← hz]
      · obtain rfl : y = y' := Value.obj.inj hy
        obtain rfl : k' = l := Option.some.inj (hk'.symm.trans hl)
        by_cases hxz : x = z
        · rw [hxz, equalWithin_self]
        · rw [equalWithin_objects hxz hk hl']
          exact sameObjects_trans (fun _ _ _ => equalWithin_trans) e e'
      · exact absurd rfl ((not_obj_of_sameImmediate hv'.symm).1 y)
    · obtain ⟨ha, hb⟩ := not_obj_of_sameImmediate hv.symm
      rw [equalWithin_immediate (.inl hb), Except.ok.injEq] at e'
      rw [equalWithin_immediate (.inl ha), sameImmediate_trans hv.symm e']

/-- A larger bound does not change an answer. -/
theorem equalWithin_succ : ∀ {n : Nat} {a b : Value} {v : Bool},
    h.equalWithin n a b = .ok v → h.equalWithin (n + 1) a b = .ok v
  | 0, _, _, _, e => by cases e
  | n + 1, a, b, v, e => by
    obtain ⟨x, rfl, rfl, rfl⟩ | ⟨x, y, k, k', rfl, rfl, hne, hk, hk', e⟩ | ⟨hab, rfl⟩ :=
      equalWithin_cases e
    · exact equalWithin_self h _ x
    · rw [equalWithin_objects hne hk hk']
      exact sameObjects_mono (fun _ _ _ => equalWithin_succ) e
    · exact equalWithin_immediate hab

theorem equalWithin_mono (e : h.equalWithin n a b = .ok v) (hnm : n ≤ m) :
    h.equalWithin m a b = .ok v := by
  induction hnm with
  | refl => exact e
  | step _ ih => exact equalWithin_succ ih

/-- A freed object among two different values is found out at once. -/
theorem equalWithin_freed (hne : x ≠ y) (hxy : h.slot? x = none ∨ h.slot? y = none) :
    ∃ r, (x = r ∨ y = r) ∧ h.slot? r = none ∧
      ∀ n, h.equalWithin (n + 1) (.obj x) (.obj y) = .error (.freedObject r.index) := by
  have hget : ∀ {r}, h.slot? r = none → h.get r = .error (.freedObject r.index) := fun hr => by
    simp [get, slot, hr, Except.map]
  cases hx : h.slot? x with
  | none =>
    refine ⟨x, .inl rfl, hx, fun n => ?_⟩
    rw [equalWithin, if_neg hne, hget hx]
    rfl
  | some k =>
    have hy : h.slot? y = none := hxy.resolve_left (by simp [hx])
    refine ⟨y, .inr rfl, hy, fun n => ?_⟩
    rw [equalWithin, if_neg hne, get_eq hx, hget hy]
    rfl

/-- There are no more different live objects than slots. -/
theorem length_le_size {path : List ObjId} (hnd : path.Nodup)
    (hlt : ∀ x ∈ path, x.index < h.slots.size) : path.length ≤ h.slots.size := by
  have hinj : Function.Injective ObjId.index := fun x y e => by
    cases x
    cases y
    exact congrArg ObjId.mk e
  have hsub : path.map ObjId.index ⊆ List.range h.slots.size := fun i hi => by
    obtain ⟨x, hx, rfl⟩ := List.mem_map.mp hi
    exact List.mem_range.mpr (hlt x hx)
  simpa using ((hnd.map hinj).subperm hsub).length_le

/-- **The bound suffices where nothing is part of itself**: the objects on the way down, each part of
the one before, are different ones, and there are no more of them than slots. -/
theorem equalWithin_ok (hl : h.Layered) : ∀ {n : Nat} {a b : Value} (path : List ObjId),
    path.Nodup → (∀ x ∈ path, x.index < h.slots.size) →
    (∀ r, a = .obj r → ∀ x ∈ path, Relation.TransGen h.Contains x r) → h.Live a → h.Live b →
    h.slots.size + 1 ≤ n + path.length → ∃ v, h.equalWithin n a b = .ok v
  | 0, a, b, path, hnd, hlt, _, _, _, hn => by
    have hle : path.length ≤ h.slots.size := length_le_size hnd hlt
    omega
  | n + 1, a, b, path, hnd, hlt, hpath, ha, hb, hn => by
    by_cases hab : (∀ x, a ≠ .obj x) ∨ ∀ y, b ≠ .obj y
    · exact ⟨_, equalWithin_immediate hab⟩
    push Not at hab
    obtain ⟨⟨x, rfl⟩, y, rfl⟩ := hab
    by_cases hne : x = y
    · exact ⟨true, hne ▸ equalWithin_self h n x⟩
    obtain ⟨k, hk⟩ := ha x rfl
    obtain ⟨k', hk'⟩ := hb y rfl
    rw [equalWithin_objects hne hk hk']
    refine sameObjects_ok fun c hc d hd => equalWithin_ok hl (x :: path) ?_ ?_ ?_
      (hl.live hk c hc) (hl.live hk' d hd) (by rw [List.length_cons]; omega)
    · exact List.nodup_cons.mpr ⟨fun hx => hl.acyclic x (hpath x rfl x hx), hnd⟩
    · exact List.forall_mem_cons.mpr ⟨lt_size_of_slot? hk, hlt⟩
    · rintro r rfl z hz
      have hxr : h.Contains x r := ⟨k, hk, hc⟩
      obtain rfl | hz := List.mem_cons.mp hz
      · exact .single hxr
      · exact (hpath x rfl z hz).tail hxr

end

/-! ## Laws of equality -/

section
variable {h : Heap}

/-- Two values have one answer, however large the bound is: values that are live are compared, and a
freed object is found out. -/
theorem equalWithin_answers (hl : h.Layered) (a b : Value) :
    ∃ v, (∀ n, h.slots.size < n → h.equalWithin n a b = v) ∧
      ((∃ t, v = .ok t) ∨
        ∃ r, (a = .obj r ∨ b = .obj r) ∧ h.slot? r = none ∧ v = .error (.freedObject r.index)) := by
  have hans : (∃ t, h.equalWithin (h.slots.size + 1) a b = .ok t) →
      ∃ v, (∀ n, h.slots.size < n → h.equalWithin n a b = v) ∧
        ((∃ t, v = .ok t) ∨
          ∃ r, (a = .obj r ∨ b = .obj r) ∧ h.slot? r = none ∧ v = .error (.freedObject r.index)) :=
    fun ⟨t, e⟩ => ⟨.ok t, fun _ hn => equalWithin_mono e hn, .inl ⟨t, rfl⟩⟩
  by_cases hab : (∀ x, a ≠ .obj x) ∨ ∀ y, b ≠ .obj y
  · exact hans ⟨_, equalWithin_immediate hab⟩
  push Not at hab
  obtain ⟨⟨x, rfl⟩, y, rfl⟩ := hab
  by_cases hne : x = y
  · exact hans ⟨true, hne ▸ equalWithin_self h _ x⟩
  by_cases hxy : h.slot? x = none ∨ h.slot? y = none
  · obtain ⟨r, hr, hdead, e⟩ := equalWithin_freed hne hxy
    refine ⟨.error (.freedObject r.index), fun n hn => ?_, .inr ⟨r, by simpa using hr, hdead, rfl⟩⟩
    obtain ⟨m, rfl⟩ := Nat.exists_eq_add_one_of_ne_zero (Nat.ne_zero_of_lt hn)
    exact e m
  · push Not at hxy
    obtain ⟨k, hk⟩ := Option.ne_none_iff_exists'.mp hxy.1
    obtain ⟨k', hk'⟩ := Option.ne_none_iff_exists'.mp hxy.2
    refine hans (equalWithin_ok hl [] List.nodup_nil (by simp) (by simp) ?_ ?_ (by simp))
    · rintro r ⟨⟩
      exact ⟨k, hk⟩
    · rintro r ⟨⟩
      exact ⟨k', hk'⟩

/-- A value is equal to itself unless it is no number. -/
theorem equal_self (h : Heap) (a : Value) : h.equal a a = .ok !a.isNaN := by
  cases a with
  | obj x => exact equalWithin_self h _ x
  | num x => exact congrArg Except.ok float_beq_self
  | bool b => exact congrArg Except.ok (beq_self_eq_true b)
  | nil => rfl

/-- **Equality is well behaved** on a heap whose pairs and structs are made of live values and not of
themselves. It is decided, and a larger bound on the depth would not change an answer; only an object
that was freed is a fault. It is symmetric and transitive, and reflexive on all values but numbers that
are none. -/
theorem equal_laws (hl : h.Layered) :
    (∀ a b, (∃ v, h.equal a b = .ok v) ∨
      ∃ r, (a = .obj r ∨ b = .obj r) ∧ h.slot? r = none ∧
        h.equal a b = .error (.freedObject r.index)) ∧
    (∀ a b n, h.slots.size < n → h.equalWithin n a b = h.equal a b) ∧
    (∀ a b v, h.equal a b = .ok v → h.equal b a = .ok v) ∧
    (∀ a b c, h.equal a b = .ok true → h.equal b c = .ok true → h.equal a c = .ok true) ∧
    ∀ a, h.equal a a = .ok !a.isNaN := by
  refine ⟨fun a b => ?_, fun a b n hn => ?_, fun _ _ _ => equalWithin_comm,
    fun _ _ _ => equalWithin_trans, equal_self h⟩
  · obtain ⟨v, e, hv⟩ := equalWithin_answers hl a b
    rwa [equal, e _ (Nat.lt_succ_self _)]
  · obtain ⟨v, e, -⟩ := equalWithin_answers hl a b
    rw [equal, e n hn, e _ (Nat.lt_succ_self _)]

/-- Nothing is part of itself where parts lie in earlier slots than the whole. -/
theorem acyclic_of_index (hlt : ∀ r s, h.Contains r s → s.index < r.index) (r : ObjId) :
    ¬ Relation.TransGen h.Contains r r := by
  have htrans : ∀ {r s}, Relation.TransGen h.Contains r s → s.index < r.index := fun hrs => by
    induction hrs with
    | single hc => exact hlt _ _ hc
    | tail _ hc ih => exact (hlt _ _ hc).trans ih
  exact fun hr => Nat.lt_irrefl _ (htrans hr)

/-- Two pairs whose halves are all one pair, which holds a number that is none. -/
def sharedHalves : Heap where
  slots := #[some ⟨4, .cons (.num (0 / 0)) .nil⟩, some ⟨0, .cons (.obj ⟨0⟩) (.obj ⟨0⟩)⟩,
    some ⟨0, .cons (.obj ⟨0⟩) (.obj ⟨0⟩)⟩]

theorem sharedHalves_layered : sharedHalves.Layered := by
  have hparts : ∀ {r c}, sharedHalves.slot? r = some c → ∀ {s}, .obj s ∈ c.obj.components →
      s = ⟨0⟩ ∧ 0 < r.index := fun {r c} hr {s} hs => by
    obtain ⟨_ | _ | _ | i⟩ := r <;> simp [slot?, sharedHalves] at hr <;> subst hr <;>
      simp_all [Object.components]
  refine ⟨fun hr v hv s hs => ?_, acyclic_of_index fun r s hedge => ?_⟩
  · obtain ⟨rfl, -⟩ := hparts hr (hs ▸ hv)
    exact ⟨_, rfl⟩
  · obtain ⟨c, hr, hs⟩ := hedge
    obtain ⟨rfl, hpos⟩ := hparts hr hs
    exact hpos

theorem equal_laws_sharedHalves : sharedHalves.Layered ∧
    sharedHalves.equal (.obj ⟨1⟩) (.obj ⟨2⟩) = .ok true ∧
    sharedHalves.equal (.obj ⟨2⟩) (.obj ⟨1⟩) = .ok true ∧
    sharedHalves.equal (.num (0 / 0)) (.num (0 / 0)) = .ok !Float.isNaN (0 / 0) := by
  have hlaws := equal_laws sharedHalves_layered
  have h₁₂ : sharedHalves.equal (.obj ⟨1⟩) (.obj ⟨2⟩) = .ok true := rfl
  exact ⟨sharedHalves_layered, h₁₂, hlaws.2.2.1 _ _ _ h₁₂, hlaws.2.2.2.2 _⟩

end

end Heap

end CountedMachine
