import CountedMachine.Machine.Step
import CountedMachine.Proofs.Generation.Steps
import CountedMachine.Proofs.Heap.Histories
import CountedMachine.Proofs.Number.Equality

/-! # The pool of constants

During code generation constants are asked for one after the other (`Gen.Asked`). The answer to each
is an index of the pool, and the entry there is the first constant asked for that is interchangeable
with it; entries never change, and no two are interchangeable (`Gen.Pooled`).

Interchangeable constants are equal, with one exception: numbers are compared as numbers, and the two
zeros compare equal (`Constant.same_iff`). So each constant stands for itself, unless it is a zero and
the other zero was asked for before (`Gen.Asked.faithful`, `Gen.pooled_merges_zeros`). -/

namespace CountedMachine

/-! ## Interchangeable constants -/

namespace Constant

variable {c d e : Constant}

/-- The constant is no number, though it is written as one. -/
def isNaN : Constant → Bool
  | .num x => x.isNaN
  | _ => false

/-- The constants are the two zeros. -/
def Opposite (c d : Constant) : Prop := ∃ x y, c = .num x ∧ d = .num y ∧ OppositeZeros x y

/-- **Interchangeable constants** are equal, or they are the two zeros. -/
theorem same_iff : c.same d = true ↔
    c.isNaN = false ∧ d.isNaN = false ∧ (c = d ∨ c.Opposite d) := by
  cases c <;> cases d <;> simp [same, isNaN, Opposite, float_beq_iff]

theorem same_self (h : c.isNaN = false) : c.same c = true := same_iff.mpr ⟨h, h, Or.inl rfl⟩

theorem same_trans (h : c.same d = true) (h' : d.same e = true) : c.same e = true := by
  cases c with
  | num x =>
    cases d with
    | num y =>
      cases e with
      | num z => exact float_beq_trans h h'
      | _ => cases h'
    | _ => cases h
  | _ =>
    obtain ⟨-, -, rfl | ⟨x, y, e, -⟩⟩ := same_iff.mp h
    · exact h'
    · cases e

end Constant

namespace Gen

variable {log : List (Constant × ConstId)} {pool : Array Constant} {s s' : GenState}
  {c d : Constant} {k : ConstId}

/-! ## Asking for constants -/

/-- What the pool holds that is interchangeable with a constant. -/
theorem find?_of_findIdx? {n : Nat} (h : pool.findIdx? (·.same c) = some n) :
    ∃ d, pool[n]? = some d ∧ pool.toList.find? (·.same c) = some d := by
  obtain ⟨hn, hsame, hbefore⟩ := Array.findIdx?_eq_some_iff_getElem.mp h
  refine ⟨pool[n], Array.getElem?_eq_getElem hn, ?_⟩
  rw [List.find?_eq_some_iff_getElem]
  exact ⟨hsame, n, by simpa using hn, by simp, fun j hj => by simpa using hbefore j hj⟩

/-- **What asking for a constant does:** it finds the first entry that is interchangeable with it, or
adds it where there is none. -/
theorem pooled_cases (c : Constant) (s : GenState) :
    (∃ n d, (pooled c).run s = .ok (⟨n⟩, s) ∧ s.pool[n]? = some d ∧
      s.pool.toList.find? (·.same c) = some d) ∨
    ((pooled c).run s = .ok (⟨s.pool.size⟩, { s with pool := s.pool.push c }) ∧
      s.pool.toList.find? (·.same c) = none) := by
  rw [pooled_run]
  cases hfind : s.pool.findIdx? (·.same c) with
  | some n =>
    obtain ⟨d, hd, hd'⟩ := find?_of_findIdx? hfind
    exact Or.inl ⟨n, d, rfl, hd, hd'⟩
  | none =>
    refine Or.inr ⟨rfl, ?_⟩
    rw [List.find?_eq_none]
    intro d hd
    rw [Array.findIdx?_eq_none_iff] at hfind
    simpa using hfind d (by simpa using hd)

/-- **Constants asked for during code generation**, with the answers: whatever else happens in between
leaves the pool alone. -/
inductive Asked : List (Constant × ConstId) → GenState → Prop
  | start {s : GenState} : s.pool = #[] → Asked [] s
  | ask {log : List (Constant × ConstId)} {s s' : GenState} {c : Constant} {k : ConstId} :
      Asked log s → (pooled c).run s = .ok (k, s') → Asked (log ++ [(c, k)]) s'
  | other {log : List (Constant × ConstId)} {s s' : GenState} :
      Asked log s → s'.pool = s.pool → Asked log s'

/-- The first constant asked for that is interchangeable with the given one. -/
def firstAsked (log : List (Constant × ConstId)) (c : Constant) : Option Constant :=
  (log.map (·.1)).find? (·.same c)

theorem firstAsked_append (log : List (Constant × ConstId)) (c d : Constant) (k : ConstId) :
    firstAsked (log ++ [(d, k)]) c = (firstAsked log c).or (if d.same c then some d else none) := by
  unfold firstAsked
  rw [List.map_append, List.find?_append]
  congr 1
  simp only [List.map_cons, List.map_nil, List.find?_cons, List.find?_nil]
  cases d.same c <;> rfl

/-- **The pool of a log:** it holds the first of the constants that are interchangeable, once. -/
structure Pooled (log : List (Constant × ConstId)) (pool : Array Constant) : Prop where
  find : ∀ c, pool.toList.find? (·.same c) = firstAsked log c
  entry : ∀ {c k}, (c, k) ∈ log → c.isNaN = false →
    ∃ d, pool[k.index]? = some d ∧ firstAsked log c = some d
  apart : ∀ {i j : Nat} {c d : Constant}, i < j → pool[i]? = some c → pool[j]? = some d →
    c.same d = false
  asked : ∀ {j : Nat} {d : Constant}, pool[j]? = some d → d ∈ log.map (·.1)

/-- An answer is kept when more is asked. -/
theorem firstAsked_of_append {e : Constant} (h : firstAsked log c = some e) :
    firstAsked (log ++ [(d, k)]) c = some e := by
  rw [firstAsked_append, h]
  rfl

/-- Asking for a constant that has an interchangeable entry. -/
theorem Pooled.found {n : Nat} (hp : Pooled log pool) (hd : pool[n]? = some d)
    (hfind : pool.toList.find? (·.same c) = some d) : Pooled (log ++ [(c, ⟨n⟩)]) pool where
  find x := by
    rw [hp.find x, firstAsked_append]
    by_cases hx : c.same x = true
    · -- what stands for the constant stands for all that are interchangeable with it
      have hdc : d.same c = true := by simpa using List.find?_some hfind
      have hsome : (firstAsked log x).isSome = true := by
        rw [← hp.find x, List.find?_isSome]
        exact ⟨d, List.mem_of_find?_eq_some hfind, Constant.same_trans hdc hx⟩
      obtain ⟨e, he⟩ := Option.isSome_iff_exists.mp hsome
      rw [he]
      rfl
    · rw [if_neg hx, Option.or_none]
  entry {x k} hmem hx := by
    rcases List.mem_append.mp hmem with hold | hnew
    · obtain ⟨e, he, hfirst⟩ := hp.entry hold hx
      exact ⟨e, he, firstAsked_of_append hfirst⟩
    · obtain ⟨rfl, rfl⟩ := Prod.mk.inj (List.mem_singleton.mp hnew)
      exact ⟨d, hd, firstAsked_of_append ((hp.find x).symm.trans hfind)⟩
  apart := hp.apart
  asked h := by simp [hp.asked h]

/-- Asking for a constant that has no interchangeable entry. -/
theorem Pooled.added (hp : Pooled log pool) (hfind : pool.toList.find? (·.same c) = none) :
    Pooled (log ++ [(c, ⟨pool.size⟩)]) (pool.push c) where
  find x := by
    rw [Array.toList_push, List.find?_append, hp.find x, firstAsked_append]
    congr 1
    rw [List.find?_cons, List.find?_nil]
    cases c.same x <;> rfl
  entry {x k} hmem hx := by
    rcases List.mem_append.mp hmem with hold | hnew
    · obtain ⟨e, he, hfirst⟩ := hp.entry hold hx
      refine ⟨e, ?_, firstAsked_of_append hfirst⟩
      obtain ⟨hlt, -⟩ := Array.getElem?_eq_some_iff.mp he
      rw [Array.getElem?_push, if_neg (by omega)]
      exact he
    · obtain ⟨rfl, rfl⟩ := Prod.mk.inj (List.mem_singleton.mp hnew)
      refine ⟨x, by simp, ?_⟩
      rw [firstAsked_append, ← hp.find x, hfind, Constant.same_self hx]
      rfl
  apart {i j a b} hij ha hb := by
    obtain ⟨hlt, -⟩ := Array.getElem?_eq_some_iff.mp hb
    rw [Array.size_push] at hlt
    rw [Array.getElem?_push, if_neg (by omega)] at ha
    rw [Array.getElem?_push] at hb
    split_ifs at hb with hj
    · cases hb
      have hmem : a ∈ pool.toList := by simpa using Array.mem_of_getElem? ha
      simpa using List.find?_eq_none.mp hfind a hmem
    · exact hp.apart hij ha hb
  asked {j d} h := by
    rw [Array.getElem?_push] at h
    split_ifs at h with hj
    · cases h
      simp
    · simp [hp.asked h]

/-- **The pool during code generation** is the pool of the log. -/
theorem Asked.pooled (h : Asked log s) : Pooled log s.pool := by
  induction h with
  | start hs =>
    rw [hs]
    exact ⟨fun c => rfl, fun h => by simp at h, fun _ h => by simp at h, fun h => by simp at h⟩
  | @ask log s s' c k _ hrun ih =>
    rcases pooled_cases c s with ⟨n, d, hrun', hd, hfind⟩ | ⟨hrun', hfind⟩
    · rw [hrun] at hrun'
      cases hrun'
      exact ih.found hd hfind
    · rw [hrun] at hrun'
      cases hrun'
      exact ih.added hfind
  | other _ hpool ih =>
    rw [hpool]
    exact ih

/-- Asking for a constant always gives an index. -/
theorem exists_pooled (c : Constant) (s : GenState) :
    ∃ k s', (Gen.pooled c).run s = .ok (k, s') := by
  rcases pooled_cases c s with ⟨n, d, hrun, -⟩ | ⟨hrun, -⟩
  · exact ⟨_, _, hrun⟩
  · exact ⟨_, _, hrun⟩

/-- Asking for a constant changes no entry. -/
theorem getElem?_of_pooled (hrun : (Gen.pooled c).run s = .ok (k, s')) {j : Nat}
    (hj : s.pool[j]? = some d) : s'.pool[j]? = some d := by
  rcases pooled_cases c s with ⟨n, e, hrun', -⟩ | ⟨hrun', -⟩
  · rw [hrun] at hrun'
    cases hrun'
    exact hj
  · rw [hrun] at hrun'
    cases hrun'
    obtain ⟨hlt, -⟩ := Array.getElem?_eq_some_iff.mp hj
    rw [Array.getElem?_push, if_neg (by omega)]
    exact hj

end Gen

/-! ## Loading constants -/

open Heap

/-- **What stands for a constant once it is loaded:** the value itself, or an object with its content. An
error value is made anew whenever it is asked for, so nothing stands for it. -/
def Constant.LoadedAs (h : Heap) : Constant → Value → Prop
  | .nil, v => v = .nil
  | .undefined _, v => v = .nil
  | .bool b, v => v = .bool b
  | .num x, v => v = .num x
  | .str s, v => ∃ r n, v = .obj r ∧ h.slot? r = some ⟨n, .str s⟩
  | .closure unit, v => ∃ r n, v = .obj r ∧ h.slot? r = some ⟨n, .closure (.plain unit)⟩

theorem Constant.LoadedAs.extends {h h' : Heap} {c : Constant} {v : Value} (hv : c.LoadedAs h v)
    (hk : h.Extends h') : c.LoadedAs h' v := by
  cases c with
  | str s =>
    obtain ⟨r, n, rfl, hr⟩ := hv
    obtain ⟨n', hr'⟩ := hk r _ hr
    exact ⟨r, n', rfl, hr'⟩
  | closure unit =>
    obtain ⟨r, n, rfl, hr⟩ := hv
    obtain ⟨n', hr'⟩ := hk r _ hr
    exact ⟨r, n', rfl, hr'⟩
  | _ => exact hv

namespace Machine

/-- **One more constant is loaded**, and what there was is still there. -/
theorem loadStep_spec {h h' : Heap} {consts consts' : Array Value} {c : Constant} (ha : Arena h)
    (e : loadStep (h, consts) c = .ok (h', consts')) :
    ∃ v, consts' = consts.push v ∧ c.LoadedAs h' v ∧ h.Extends h' ∧ Arena h' := by
  obtain ⟨h₂, hinc, e⟩ := bind_ok e
  cases e
  have hloaded : c.LoadedAs (loadConst h c).1 (loadConst h c).2 ∧ h.Extends (loadConst h c).1 ∧
      Arena (loadConst h c).1 := by
    have hobject (obj : Object) : (∃ r n, (h.allocate obj).2 = .obj r ∧
        (h.allocate obj).1.slot? r = some ⟨n, obj⟩) ∧ h.Extends (h.allocate obj).1 ∧
          Arena (h.allocate obj).1 := by
      obtain ⟨r, -, hv, hslot, -, -, ha'⟩ := allocate_spec ha obj
      exact ⟨⟨r, 0, hv, by rw [hslot, if_pos rfl]⟩, extends_allocate ha obj, ha'⟩
    cases c with
    | str s => exact hobject (.str s)
    | closure unit => exact hobject (.closure (.plain unit))
    | _ => exact ⟨rfl, .refl h, ha⟩
  obtain ⟨hv, hk, ha₁⟩ := hloaded
  obtain ⟨hk', ha'⟩ := extends_inc ha₁ hinc
  exact ⟨_, rfl, hv.extends hk', hk.trans hk', ha'⟩

/-- The constants that have been loaded are in place. -/
structure Loads (done : List Constant) (q : Heap × Array Value) : Prop where
  arena : Arena q.1
  size : q.2.size = done.length
  entry : ∀ (n : Nat) (c : Constant), done[n]? = some c → ∃ v, q.2[n]? = some v ∧ c.LoadedAs q.1 v

theorem Loads.foldlM : ∀ {todo : List Constant} {done : List Constant} {q q' : Heap × Array Value},
    Loads done q → todo.foldlM loadStep q = .ok q' → Loads (done ++ todo) q'
  | [], done, q, q', hq, e => by
    cases e
    simpa using hq
  | c :: todo, done, ⟨h, consts⟩, q', hq, e => by
    rw [List.foldlM_cons] at e
    obtain ⟨⟨h₁, consts₁⟩, hstep, e⟩ := bind_ok e
    obtain ⟨v, rfl, hv, hk, ha⟩ := loadStep_spec hq.arena hstep
    have hsize : consts.size = done.length := hq.size
    have hnext : Loads (done ++ [c]) (h₁, consts.push v) := by
      refine ⟨ha, by simp [hsize], fun n d hn => ?_⟩
      dsimp only
      rw [List.getElem?_append] at hn
      rw [Array.getElem?_push]
      split_ifs at hn with hlt
      · obtain ⟨w, hw, hd⟩ := hq.entry n d hn
        exact ⟨w, by rw [if_neg (by omega)]; exact hw, hd.extends hk⟩
      · obtain ⟨hzero, rfl⟩ : n - done.length = 0 ∧ d = c := by
          rw [List.getElem?_singleton] at hn
          split_ifs at hn with hzero
          exact ⟨hzero, (Option.some.inj hn).symm⟩
        exact ⟨v, by rw [if_pos (by omega)], hv⟩
    simpa using hnext.foldlM e

/-- **Each constant of the pool is loaded** at its place. -/
theorem getElem?_load {p : Program} {m : Machine} (e : Machine.load p = .ok m) {n : Nat} {c : Constant}
    (hn : p.consts[n]? = some c) : ∃ v, m.consts[n]? = some v ∧ c.LoadedAs m.heap v := by
  obtain ⟨⟨h, consts⟩, hq, e⟩ := bind_ok e
  cases e
  rw [← Array.foldlM_toList] at hq
  have hstart : Loads [] (Heap.empty, #[]) := ⟨sound_empty.arena, rfl, by simp⟩
  exact (hstart.foldlM hq).entry n c (by simpa using hn)

end Machine

namespace Gen

variable {log : List (Constant × ConstId)} {s : GenState}

/-- **The pool is faithful but for the sign of zeros.** Asking for a constant gives an index and
changes no entry, and no entry stands twice in the pool. The entry at the index that was given for a
constant is the first one asked for that is interchangeable with it, which is the constant itself, or
the other zero. It is loaded into a machine as it stands in the pool, and is read from there; an error
value is made anew then, with its tag. -/
theorem Asked.faithful (h : Asked log s) (hnum : ∀ a ∈ log, a.1.isNaN = false) :
    (∀ c, ∃ k s', (Gen.pooled c).run s = .ok (k, s') ∧
      ∀ (j : Nat) (d : Constant), s.pool[j]? = some d → s'.pool[j]? = some d) ∧
    (∀ (i j : Nat) (d : Constant), s.pool[i]? = some d → s.pool[j]? = some d → i = j) ∧
    ∀ c k, (c, k) ∈ log → ∃ d, s.pool[k.index]? = some d ∧ firstAsked log c = some d ∧
      (d = c ∨ d.Opposite c) ∧
      (∀ (p : Program) (m : Machine), p.consts = s.pool → Machine.load p = .ok m →
        ∃ v, m.consts[k.index]? = some v ∧ d.LoadedAs m.heap v ∧
          ∀ (t : Running) (dst : Reg), t.machine.consts = m.consts →
            ((∀ tag, d ≠ .undefined tag) → t.loadConst p dst k = t.store dst v) ∧
            ∀ tag, d = .undefined tag →
              t.loadConst p dst k = t.storeFrom (fun h => .ok (h.undefined tag)) dst) ∧
      ∀ x, c = .num x → ∃ y, (y = x ∨ OppositeZeros y x) ∧
        ∀ (p : Program) (m : Machine) (t : Running) (dst : Reg), p.consts = s.pool →
          Machine.load p = .ok m → t.machine.consts = m.consts →
            t.loadConst p dst k = t.store dst (.num y) := by
  have hp := h.pooled
  refine ⟨fun c => ?_, fun i j d hi hj => ?_, fun c k hmem => ?_⟩
  · obtain ⟨k, s', hrun⟩ := exists_pooled c s
    exact ⟨k, s', hrun, fun j d hj => getElem?_of_pooled hrun hj⟩
  · have hself : d.same d = true := by
      obtain ⟨a, ha, rfl⟩ := List.mem_map.mp (hp.asked hi)
      exact Constant.same_self (hnum a ha)
    rcases Nat.lt_trichotomy i j with hlt | heq | hlt
    · rw [hp.apart hlt hi hj] at hself
      cases hself
    · exact heq
    · rw [hp.apart hlt hj hi] at hself
      cases hself
  · obtain ⟨d, hd, hfirst⟩ := hp.entry hmem (hnum _ hmem)
    have hsame : d.same c = true := by simpa using List.find?_some hfirst
    obtain ⟨-, -, hdc⟩ := Constant.same_iff.mp hsame
    have hloaded (p : Program) (m : Machine) (hconsts : p.consts = s.pool) (hload : Machine.load p = .ok m) :
        ∃ v, m.consts[k.index]? = some v ∧ d.LoadedAs m.heap v ∧
          ∀ (t : Running) (dst : Reg), t.machine.consts = m.consts →
            ((∀ tag, d ≠ .undefined tag) → t.loadConst p dst k = t.store dst v) ∧
            ∀ tag, d = .undefined tag →
              t.loadConst p dst k = t.storeFrom (fun h => .ok (h.undefined tag)) dst := by
      rw [← hconsts] at hd
      obtain ⟨v, hv, hdv⟩ := Machine.getElem?_load hload hd
      refine ⟨v, hv, hdv, fun t dst ht => ⟨fun htag => ?_, fun tag htag => ?_⟩⟩
      · unfold Running.loadConst
        rw [hd, ht, hv]
        cases d with
        | undefined tag => exact absurd rfl (htag tag)
        | _ => rfl
      · unfold Running.loadConst
        rw [hd, htag]
    refine ⟨d, hd, hfirst, hdc, hloaded, fun x hx => ?_⟩
    obtain ⟨y, rfl, hy⟩ : ∃ y, d = .num y ∧ (y = x ∨ OppositeZeros y x) := by
      subst hx
      rcases hdc with rfl | ⟨y, x', rfl, hx', hy⟩
      · exact ⟨x, rfl, Or.inl rfl⟩
      · cases hx'
        exact ⟨y, rfl, Or.inr hy⟩
    refine ⟨y, hy, fun p m t dst hconsts hload ht => ?_⟩
    obtain ⟨v, -, rfl, hread⟩ := hloaded p m hconsts hload
    exact (hread t dst ht).1 nofun

/-- The zero asked for first is kept with its sign, and it stands for the other one. -/
theorem faithful_first_zero : ∃ k₁ k₂ s, Asked [(.num (-0), k₁), (.num 0, k₂)] s ∧
    s.pool[k₁.index]? = some (.num (-0)) ∧ s.pool[k₂.index]? = some (.num (-0)) := by
  obtain ⟨k₁, s₁, h₁⟩ := exists_pooled (.num (-0)) {}
  obtain ⟨k₂, s₂, h₂⟩ := exists_pooled (.num 0) s₁
  have h : Asked [(.num (-0), k₁), (.num 0, k₂)] s₂ := ((Asked.start rfl).ask h₁).ask h₂
  have hnum : ∀ a ∈ [((.num (-0) : Constant), k₁), (.num 0, k₂)], a.1.isNaN = false := by
    simp only [List.mem_cons, List.not_mem_nil, or_false]
    rintro a (rfl | rfl) <;> rfl
  obtain ⟨-, -, hentry⟩ := h.faithful hnum
  refine ⟨k₁, k₂, s₂, h, ?_, ?_⟩
  · obtain ⟨d, hd, hfirst, -⟩ := hentry (.num (-0)) k₁ (by simp)
    cases hfirst
    exact hd
  · obtain ⟨d, hd, hfirst, -⟩ := hentry (.num 0) k₂ (by simp)
    cases hfirst
    exact hd

/-- **A zero with a sign is lost** where a zero without one was asked for before. -/
theorem pooled_merges_zeros : ¬ ∀ log s, Asked log s → (∀ a ∈ log, a.1.isNaN = false) →
    ∀ c k, (c, k) ∈ log → s.pool[k.index]? = some c := by
  intro hall
  obtain ⟨k₁, s₁, h₁⟩ := exists_pooled (.num 0) {}
  obtain ⟨k₂, s₂, h₂⟩ := exists_pooled (.num (-0)) s₁
  have h : Asked [(.num 0, k₁), (.num (-0), k₂)] s₂ := ((Asked.start rfl).ask h₁).ask h₂
  have hnum : ∀ a ∈ [((.num 0 : Constant), k₁), (.num (-0), k₂)], a.1.isNaN = false := by
    simp only [List.mem_cons, List.not_mem_nil, or_false]
    rintro a (rfl | rfl) <;> rfl
  have hclaimed := hall _ _ h hnum (.num (-0)) k₂ (by simp)
  obtain ⟨d, hd, hfirst⟩ := h.pooled.entry (c := .num (-0)) (k := k₂) (by simp) (by decide)
  obtain rfl : Constant.num 0 = d := Option.some.inj hfirst
  have hzero : (0 : Float) = -0 := by
    rw [hd] at hclaimed
    simpa using hclaimed
  have hbits : (0 : Float).toModel.toBits = (-0 : Float).toModel.toBits :=
    congrArg (·.toModel.toBits) hzero
  exact absurd hbits (by decide)

end Gen

end CountedMachine
