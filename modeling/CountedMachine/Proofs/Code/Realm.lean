import CountedMachine.Code.Program
import Mathlib.Data.List.Basic

/-! # What instructions name, and what calls are passed

An instruction names registers, constants, parameters, captures, units and structs. A `Realm` says
what there is of each, and an instruction is `Apt` for it when it names nothing else.

Arguments are pushed one after the other right before their call, with nothing but ownership
instructions in between. `Instr.feed` follows the registers that have been pushed and are waiting for
their call, and has no answer where another instruction comes in between; `argumentsAt` says which
registers wait at a place of finished code, whether or not it is in order there. -/

namespace CountedMachine

variable {L M : Type}

/-- The type is built in, or a struct that is declared. -/
def ObjType.Declared (types : Array StructType) : ObjType → Prop
  | .struct id => id < types.size
  | _ => True

/-- **What code may name**: how many registers, parameters, captures and constants there are, how
many captures each unit has, which structs are declared, whether there may be calls other than tail
calls, and whether cells may be made and assigned to. -/
structure Realm where
  nregs : Nat
  arity : Nat
  ncaps : Nat
  nconsts : Nat
  capsOf : Nat → Option Nat
  types : Array StructType
  calls : Prop
  cells : Prop

namespace Instr

/-- **The registers an instruction names.** -/
def operands : Instr L → List Reg
  | .nop => []
  | .done => []
  | .const dst _ => [dst]
  | .param dst _ => [dst]
  | .capture dst _ => [dst]
  | .box dst src => [dst, src]
  | .unbox dst cell => [dst, cell]
  | .assign cell src => [cell, src]
  | .operate _ dst lhs rhs _ => [dst, lhs, rhs]
  | .test dst src => [dst, src]
  | .testType dst src _ => [dst, src]
  | .flag dst _ => [dst]
  | .field dst src _ => [dst, src]
  | .make dst _ fields => dst :: fields
  | .guard src _ => [src]
  | .branch cond _ => [cond]
  | .jump _ => []
  | .merge dst => [dst]
  | .move dst src => [dst, src]
  | .push src => [src]
  | .call dst func _ _ => [dst, func]
  | .tailCall func _ => [func]
  | .ret src => [src]
  | .yield src => [src]
  | .trace src _ => [src]
  | .adjust _ reg => [reg]
  | .allocClosure dst => [dst]
  | .finishClosure dst _ caps => dst :: caps
  | .beginScope _ => []
  | .endScope _ => []

/-- What an instruction names besides registers is there. -/
def Names (R : Realm) : Instr L → Prop
  | .const _ k => k.index < R.nconsts
  | .param _ idx => idx < R.arity
  | .capture _ idx => idx < R.ncaps
  | .testType _ _ ty => ty.Declared R.types
  | .guard _ ty => ty.Declared R.types
  | .make _ ty fields => ∃ d, R.types[ty]? = some d ∧ d.fields.length = fields.length
  | .finishClosure _ unit caps => R.capsOf unit.index = some caps.length
  | .call _ _ _ _ => R.calls
  | .box _ _ => R.cells
  | .assign _ _ => R.cells
  | _ => True

/-- **The instruction names nothing but what is there.** -/
structure Apt (R : Realm) (i : Instr L) : Prop where
  operands : ∀ r ∈ i.operands, r.index < R.nregs
  names : i.Names R

@[simp] theorem operands_relabel (f : L → M) (i : Instr L) :
    (i.relabel f).operands = i.operands := by
  cases i <;> rfl

@[simp] theorem names_relabel (R : Realm) (f : L → M) (i : Instr L) :
    (i.relabel f).Names R ↔ i.Names R := by
  cases i <;> rfl

@[simp] theorem isLabel_relabel (f : L → M) (i : Instr L) : (i.relabel f).isLabel = i.isLabel := by
  cases i <;> rfl

theorem Apt.relabel {R : Realm} {i : Instr L} (h : i.Apt R) (f : L → M) : (i.relabel f).Apt R :=
  ⟨by simpa using h.operands, by simpa using h.names⟩

end Instr

/-- There is more of everything, and the rest is the same. -/
structure Realm.Le (R S : Realm) : Prop where
  nregs : R.nregs ≤ S.nregs
  arity : R.arity = S.arity
  ncaps : R.ncaps = S.ncaps
  nconsts : R.nconsts ≤ S.nconsts
  capsOf : ∀ {k n}, R.capsOf k = some n → S.capsOf k = some n
  types : R.types = S.types
  calls : R.calls = S.calls
  cells : R.cells = S.cells

theorem Instr.Apt.mono {R S : Realm} {i : Instr L} (h : i.Apt R) (hle : R.Le S) : i.Apt S where
  operands r hr := Nat.lt_of_lt_of_le (h.operands r hr) hle.nregs
  names := by
    have hn := h.names
    cases i with
    | const dst k => exact Nat.lt_of_lt_of_le hn hle.nconsts
    | param dst idx => exact Nat.lt_of_lt_of_eq hn hle.arity
    | capture dst idx => exact Nat.lt_of_lt_of_eq hn hle.ncaps
    | testType dst src ty => rwa [Names, ← hle.types]
    | guard src ty => rwa [Names, ← hle.types]
    | make dst ty fields => rwa [Names, ← hle.types]
    | finishClosure dst unit caps => exact hle.capsOf hn
    | call dst func nargs checked => rwa [Names, ← hle.calls]
    | box dst src => rwa [Names, ← hle.cells]
    | assign cell src => rwa [Names, ← hle.cells]
    | _ => trivial

/-! ## Arguments -/

namespace Instr

/-- The registers that wait for a call after an instruction, given those before it. A call takes all
of them, which are as many as it has arguments; no other instruction may come in between. -/
def feed (rs : List Reg) : Instr L → Option (List Reg)
  | .push src => some (rs ++ [src])
  | .adjust _ _ => some rs
  | .call _ _ nargs _ => if rs.length = nargs then some [] else none
  | .tailCall _ nargs => if rs.length = nargs then some [] else none
  | _ => if rs = [] then some [] else none

/-- The registers pushed without interruption, after one more instruction. -/
def pile (rs : List Reg) : Instr L → List Reg
  | .push src => rs ++ [src]
  | .adjust _ _ => rs
  | _ => []

@[simp] theorem feed_relabel (f : L → M) (rs : List Reg) (i : Instr L) :
    (i.relabel f).feed rs = i.feed rs := by
  cases i <;> rfl

/-- What waits is what has been pushed without interruption. -/
theorem pile_of_feed {rs rs' : List Reg} {i : Instr L} (h : i.feed rs = some rs') :
    i.pile rs = rs' := by
  cases i <;> simp_all [feed, pile]

/-- The instruction has no part in passing arguments. -/
def stands : Instr L → Bool
  | .push _ => false
  | .adjust _ _ => false
  | .call _ _ _ _ => false
  | .tailCall _ _ => false
  | _ => true

theorem feed_of_stands {i : Instr L} (hi : i.stands = true) {rs rs' : List Reg} :
    i.feed rs = some rs' ↔ rs = [] ∧ rs' = [] := by
  cases i <;> simp_all [feed, stands, eq_comm]

theorem stands_of_isLabel {i : Instr L} (hi : i.isLabel = true) : i.stands = true := by
  cases i <;> simp_all [isLabel, stands]

end Instr

/-- The registers that wait at the end of some code, when it is in order. -/
def feeds (is : List (Instr L)) : Option (List Reg) := is.foldlM Instr.feed []

/-- **The registers that wait at a place**: those pushed last, up to there, with at most ownership
instructions in between. -/
def argumentsAt (code : Array (Instr L)) (pc : Nat) : List Reg :=
  (code.toList.take pc).foldl Instr.pile []

theorem feeds_relabel (f : L → M) (is : List (Instr L)) :
    feeds (is.map (Instr.relabel f)) = feeds is := by
  simp [feeds, List.foldlM_map]

theorem feeds_append {is js : List (Instr L)} {rs : List Reg} (h : feeds is = some rs) :
    feeds (is ++ js) = js.foldlM Instr.feed rs := by
  rw [feeds, List.foldlM_append]
  rw [feeds] at h
  rw [h]
  rfl

theorem feeds_snoc {is : List (Instr L)} {i : Instr L} {rs : List Reg} (h : feeds is = some rs) :
    feeds (is ++ [i]) = i.feed rs := by
  rw [feeds_append h, List.foldlM_cons]
  exact bind_pure _

/-- Code that is in order is in order up to each of its instructions. -/
theorem exists_feeds {is js : List (Instr L)} {i : Instr L} {rs : List Reg}
    (h : feeds (is ++ i :: js) = some rs) : ∃ ps qs, feeds is = some ps ∧ i.feed ps = some qs ∧
      js.foldlM Instr.feed qs = some rs := by
  rw [feeds, List.foldlM_append, Option.bind_eq_bind, Option.bind_eq_some_iff] at h
  obtain ⟨ps, hps, h⟩ := h
  rw [List.foldlM_cons, Option.bind_eq_bind, Option.bind_eq_some_iff] at h
  obtain ⟨qs, hqs, h⟩ := h
  exact ⟨ps, qs, hps, hqs, h⟩

theorem feeds_insert {is js : List (Instr L)} {i : Instr L} (hi : ∀ ps, i.feed ps = some ps) :
    feeds (is ++ i :: js) = feeds (is ++ js) := by
  simp [feeds, List.foldlM_append, List.foldlM_cons, hi]

/-- An instruction that leaves what waits as it is can be left out. -/
theorem feeds_idle {is js : List (Instr L)} {i : Instr L} {rs : List Reg}
    (hi : ∀ ps qs, i.feed ps = some qs → qs = ps) (h : feeds (is ++ i :: js) = some rs) :
    feeds (is ++ js) = some rs := by
  obtain ⟨ps, qs, hps, hqs, h⟩ := exists_feeds h
  obtain rfl := hi ps qs hqs
  rw [feeds_append hps]
  exact h

theorem foldl_pile_of_feed : ∀ {is : List (Instr L)} {ps rs : List Reg},
    is.foldlM Instr.feed ps = some rs → is.foldl Instr.pile ps = rs
  | [], ps, rs, h => Option.some.inj h
  | i :: is, ps, rs, h => by
    rw [List.foldlM_cons, Option.bind_eq_bind, Option.bind_eq_some_iff] at h
    obtain ⟨qs, hqs, h⟩ := h
    rw [List.foldl_cons, Instr.pile_of_feed hqs]
    exact foldl_pile_of_feed h

/-- **What waits at a place of code that is in order.** -/
theorem feed_argumentsAt {code : Array (Instr L)} {rs : List Reg} {pc : Nat} {i : Instr L}
    (h : feeds code.toList = some rs) (hi : code[pc]? = some i) :
    i.feed (argumentsAt code pc) = some (argumentsAt code (pc + 1)) := by
  have hlt : pc < code.toList.length := by simpa using (Array.getElem?_eq_some_iff.mp hi).1
  have hget : code.toList[pc] = i := by simpa using (Array.getElem?_eq_some_iff.mp hi).2
  have hsplit : code.toList = code.toList.take pc ++ i :: code.toList.drop (pc + 1) := by
    rw [← hget, ← List.drop_eq_getElem_cons hlt, List.take_append_drop]
  rw [hsplit] at h
  obtain ⟨ps, qs, hps, hqs, -⟩ := exists_feeds h
  have hbefore : argumentsAt code pc = ps := foldl_pile_of_feed hps
  have hafter : argumentsAt code (pc + 1) = i.pile (argumentsAt code pc) := by
    rw [argumentsAt, List.take_succ_eq_append_getElem hlt, List.foldl_append]
    rw [hget]
    rfl
  rw [hafter, hbefore, Instr.pile_of_feed hqs]
  exact hqs

end CountedMachine
