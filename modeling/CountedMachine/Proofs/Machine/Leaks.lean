import CountedMachine.Proofs.Generation.Closed
import CountedMachine.Proofs.Heap.Emptied
import CountedMachine.Proofs.Machine.Custody
import CountedMachine.Proofs.Machine.Making
import CountedMachine.Proofs.Machine.Soundness
import CountedMachine.Proofs.Machine.IdleLoads.Hosts

/-! # No leaks

A session forgets nothing (`Session.Upkept`): while the machine is at work each of its steps keeps its heap
clean (`Working.upkept_step`), and what the host does between runs does too, as long as it makes no values of
its own. In the code of a module without mutable bindings there is no assignment (`Program.Celless`), which is
what the steps ask for: an assignment could close a circle of references.

So when the host has released what it was handed and every chain has come to its end, the objects that are
left are those of the constants (`Session.no_leaks`). -/

namespace CountedMachine

open Heap

/-! ## Code without cells -/

/-- No unit makes a cell or assigns to one. -/
def Program.Celless (p : Program) : Prop :=
  ∀ u ∈ p.units, ∀ i ∈ u.code, (∀ dst src, i ≠ .box dst src) ∧ ∀ cell src, i ≠ .assign cell src

/-- **Without mutable bindings there are no cells.** -/
theorem SourceModule.compile_celless {m : SourceModule} {settings : Settings} {p : Program}
    (hp : m.compile settings = .ok p) (him : m.body.immutable = true) : p.Celless := by
  obtain ⟨hunits, -⟩ := compile_ordered True False hp (Or.inl trivial) (Or.inr him)
  intro u hu i hi
  have hnames := ((hunits u hu).apt i hi).names
  refine ⟨?_, ?_⟩ <;> rintro _ _ rfl <;> exact hnames

theorem Program.Celless.getElem? {p : Program} (hp : p.Celless) {unit : UnitId} {pc : Nat} {i : Instr Nat}
    (hi : (p.codeOf unit)[pc]? = some i) : (∀ dst src, i ≠ .box dst src) ∧ ∀ cell src, i ≠ .assign cell src := by
  unfold Program.codeOf at hi
  split at hi
  · next u hu => exact hp u (Array.mem_of_getElem? hu) i (Array.mem_of_getElem? hi)
  · simp at hi

/-! ## What the host does -/

/-- The value is immediate, or has been handed out before. -/
def HostValue.Known : HostValue → Prop
  | .fresh _ => False
  | _ => True

/-- **The host makes no values of its own.** -/
def Event.Known : Event → Prop
  | .call f args => f.Known ∧ ∀ a ∈ args, a.Known
  | _ => True

namespace Host

variable {values : Array Value} {m m' : Machine} {v : Value}

theorem pass_known {a : HostValue} (ha : a.Known) (e : pass values m a = .ok (m', v)) : m' = m := by
  cases a with
  | fresh s => exact ha.elim
  | held handle =>
    obtain ⟨w, -, e⟩ := bind_ok e
    cases e
    rfl
  | _ =>
    cases e
    rfl

theorem passAll_known : ∀ {as : List HostValue} {m : Machine} {vs : List Value}, (∀ a ∈ as, a.Known) →
    passAll values m as = .ok (m', vs) → m' = m
  | [], m, vs, _, e => by
    cases e
    rfl
  | a :: as, m, vs, ha, e => by
    obtain ⟨⟨m₁, w⟩, h₁, e⟩ := bind_ok e
    obtain ⟨⟨m₂, ws⟩, h₂, e⟩ := bind_ok e
    cases e
    obtain rfl := pass_known (ha a (by simp)) h₁
    exact passAll_known (fun x hx => ha x (by simp [hx])) h₂

end Host

/-! ## Between runs -/

namespace Machine.Upkept

variable {p : Program} {K : Array Value} {m m' : Machine} {n : Nat} {h' : Heap}

/-- Another heap, in which closures are left alone. -/
theorem setHeap (hm : m.Upkept K n) (hc : Clean h' [] ∅ [] n) (ht : Tame m.heap h') (stack : List Value)
    (stats : CallCounts) : Machine.Upkept K ⟨h', m.consts, stack, stats⟩ n :=
  ⟨hc, hm.consts, fun {x rc k} hx hslot => by
    obtain ⟨rc₀, hslot₀⟩ := ht.closures hslot
    exact hm.plain hx hslot₀⟩

theorem incAll (hm : m.Upkept K n) {vs : List Value} (e : m.overHeap (·.incAll vs) = .ok m') :
    m'.Upkept K n := by
  obtain ⟨h, consts, stack, stats⟩ := m
  obtain ⟨h', hinc, rfl⟩ := Machine.overHeap_ok e
  exact hm.setHeap (hm.clean.incAll hinc) (onward_incAll hinc).tame stack stats

theorem release (hm : m.Upkept K n) {v : Value} (e : m.release v = .ok m') : m'.Upkept K n := by
  obtain ⟨h, consts, stack, stats⟩ := m
  obtain ⟨h', hunref, rfl⟩ := Machine.overHeap_ok e
  exact hm.setHeap (hm.clean.unref hunref) (hm.clean.swept.toSteady.onward_unref hunref).tame stack stats

/-- **The machine starts to work on a frame** that has nothing in the making. -/
theorem starts [p.Origin] {s : Running} {ρ : Env} (hm : m.Upkept K n) (hheap : s.machine.heap = m.heap)
    (hconsts : s.machine.consts = m.consts) (hshells : s.cur.shells ρ = ∅) (hscopes : s.cur.scopes = []) :
    s.Upkept p K ρ n := by
  have hmaking : s.making ρ = ∅ := by
    unfold Running.making
    rw [hshells, hscopes]
    simp
  refine ⟨?_, hconsts.trans hm.consts, hheap ▸ hm.plain, fun x _ hx => ?_⟩
  · rw [hmaking, hscopes, hheap]
    exact hm.clean.grow _
  · rw [hshells] at hx
    exact hx

end Machine.Upkept

/-- A fresh frame has no closures without code. -/
theorem Frame.New.shells_eq {f : Frame} {unit : UnitId} {args : List Value} {closure : Option Value}
    {ret : Option Reg} (hf : f.New unit args closure ret) (ρ : Env) : f.shells ρ = ∅ := by
  refine Set.eq_empty_of_forall_notMem ?_
  rintro x ⟨r, -, hget⟩
  rw [hf.regs r] at hget
  cases hget

/-! ## Sessions -/

/-- Nothing has been forgotten; `B` are the references of the host. -/
def Scene.Upkept (p : Program) [p.Origin] (B : Multiset ObjId) (K : Array Value) (n : Nat) : Scene → Prop
  | .idle m => m.Upkept K n
  | .busy s => ∃ w ρ, Working p B s w ρ ∧ s.Upkept p K ρ n

namespace Session

/-- **Nothing has been forgotten in the session**, in which `n` scopes with room for members have been
opened. -/
structure Upkept (p : Program) [p.Origin] (K : Array Value) (n : Nat) (S : Session) : Prop where
  ok : S.Ok p
  scene : S.scene.Upkept p (S.hostRefs p) K n

/-- The number of scopes with room for members that are opened when an event takes place. -/
def opening (p : Program) : Session → Event → Nat
  | ⟨.busy s, _, _⟩, .tick => s.opening p
  | _, _ => 0

/-- **The number of scopes with room for members that are opened** in the course of some events. -/
def opened (p : Program) (limits : Limits) : Session → List Event → Nat
  | _, [] => 0
  | S, e :: events => S.opening p e + match S.act p limits e with
    | .ok S' => opened p limits S' events
    | .error _ => 0

section
variable {p : Program} {limits : Limits} {S S' : Session} {K : Array Value} {n : Nat} {m : Machine}
  {values : Array Value} {chains : Array Suspension}

theorem upkept_run [p.Origin] (hm : m.Upkept K n) (hS' : S'.Ok p)
    (e : act p limits ⟨.idle m, values, chains⟩ .run = .ok S') :
    S'.scene.Upkept p (S'.hostRefs p) K n := by
  obtain ⟨cur, hcur, e⟩ := bind_ok e
  cases e
  have hn := Frame.new_of_frame (Host.faulting_ok hcur)
  obtain ⟨w, ρ, hw⟩ := hS'.scene
  exact ⟨w, ρ, hw, hm.starts rfl rfl (hn.shells_eq ρ) hn.scopes⟩

theorem upkept_call [p.Origin] (hm : m.Upkept K n) (hS' : S'.Ok p) {f : HostValue} {args : List HostValue}
    (hknown : (Event.call f args).Known) (e : act p limits ⟨.idle m, values, chains⟩ (.call f args) = .ok S') :
    S'.scene.Upkept p (S'.hostRefs p) K n := by
  obtain ⟨⟨m₁, v⟩, h₁, e₁⟩ := bind_ok e
  obtain ⟨⟨m₂, vs⟩, h₂, e₂⟩ := bind_ok e₁
  obtain rfl := Host.pass_known hknown.1 h₁
  obtain rfl := Host.passAll_known hknown.2 h₂
  obtain ⟨out, -, e₃⟩ := bind_ok e₂
  cases out with
  | error reason =>
    cases e₃
    exact hm
  | ok unit =>
    obtain ⟨m₃, h₃, e₄⟩ := bind_ok e₃
    obtain ⟨cur, hcur, e₅⟩ := bind_ok e₄
    cases e₅
    have hn := Frame.new_of_frame (Host.faulting_ok hcur)
    obtain ⟨w, ρ, hw⟩ := hS'.scene
    exact ⟨w, ρ, hw, (hm.incAll (Host.faulting_ok h₃)).starts rfl rfl (hn.shells_eq ρ) hn.scopes⟩

theorem upkept_resume [p.Origin] (hm : m.Upkept K n) (hS : Ok p ⟨.idle m, values, chains⟩) {handle : Nat}
    (e : act p limits ⟨.idle m, values, chains⟩ (.resume handle) = .ok S') :
    S'.scene.Upkept p (S'.hostRefs p) K n := by
  simp only [act] at e
  split at e
  · cases e
  · next c hc =>
    split at e
    · cases e
    · next cur hback =>
      cases e
      obtain ⟨w, ρ, hcalm, hw⟩ := wakes hS hc hback
      exact ⟨w, ρ, hw, hm.starts rfl rfl (Frame.shells_of_calm hcalm) (hw.making_of_whole hcalm.whole).2⟩

theorem upkept_tick [p.Origin] {s : Running} {w : World} {ρ : Env} (hp : p.Celless)
    (hw : Working p (refsOf values.toList + chainsRefs p chains.toList) s w ρ) (hu : s.Upkept p K ρ n)
    (e : act p limits ⟨.busy s, values, chains⟩ .tick = .ok S') :
    S'.scene.Upkept p (S'.hostRefs p) K (n + s.opening p) := by
  obtain ⟨q, hq, e⟩ := bind_ok e
  have hstep := hw.upkept_step hu (hw.carried fun _ => trivial)
    (fun cell src hi => (hp.getElem? hi).2 cell src rfl) (Host.faulting_ok hq)
  cases q with
  | more s' =>
    cases e
    exact hstep
  | stop m' o =>
    cases e
    cases o <;> exact hstep

/-- **One event forgets nothing.** -/
theorem Upkept.act [p.Origin] (hp : p.Celless) (hentry : UnitOk p.settings p p.entry []) (hS : S.Upkept p K n)
    {event : Event}
    (hknown : event.Known) (e : S.act p limits event = .ok S') : S'.Upkept p K (n + S.opening p event) := by
  have hS' : S'.Ok p := by
    have hact : Assures True (S.act p limits event) (Ok p) := hS.ok.act hentry (fun _ => trivial) event
    rw [e] at hact
    exact hact
  refine ⟨hS', ?_⟩
  obtain ⟨hok, hscene⟩ := hS
  obtain ⟨scene, values, chains⟩ := S
  cases scene with
  | idle m =>
    have hm : m.Upkept K n := hscene
    cases event with
    | run => exact upkept_run hm hS' e
    | call f args => exact upkept_call hm hS' hknown e
    | resume handle => exact upkept_resume hm hok e
    | release handle =>
      obtain ⟨v, -, e⟩ := bind_ok e
      obtain ⟨m', hm', e⟩ := bind_ok e
      cases e
      exact hm.release (Host.faulting_ok hm')
    | tick => cases e
  | busy s =>
    obtain ⟨w, ρ, hw, hu⟩ := hscene
    cases event with
    | tick => exact upkept_tick hp hw hu e
    | _ => cases e

/-- **A session forgets nothing.** -/
theorem Upkept.acts [p.Origin] (hp : p.Celless) (hentry : UnitOk p.settings p p.entry []) :
    ∀ (events : List Event) {S : Session} {n : Nat}, S.Upkept p K n → (∀ e ∈ events, e.Known) →
    S.acts p limits events = .ok S' → S'.Upkept p K (n + S.opened p limits events)
  | [], S, n, hS, _, e => by
    obtain rfl := Except.ok.inj e
    exact hS
  | event :: events, S, n, hS, hknown, e => by
    rw [Session.acts, List.foldlM_cons] at e
    obtain ⟨S₁, h₁, e⟩ := bind_ok e
    have hone := hS.act hp hentry (hknown event (by simp)) h₁
    have hall := Upkept.acts hp hentry events hone (fun x hx => hknown x (by simp [hx])) e
    rwa [opened, h₁, ← Nat.add_assoc]

end

end Session

/-! ## Loading -/

/-- A text or a closure, which is an object of the heap when it has been loaded. -/
def Constant.isObject : Constant → Bool
  | .str _ => true
  | .closure _ => true
  | _ => false

/-- **The constants that have been loaded**: texts and closures are objects, each one of its own. -/
structure Stored (cs : List Constant) (K : Array Value) : Prop where
  nodup : (refsOf K.toList).Nodup
  card : Multiset.card (refsOf K.toList) = cs.countP Constant.isObject
  objects : ∀ {k : Nat} {x : ObjId}, K[k]? = some (.obj x) → ∃ c, cs[k]? = some c ∧ c.isObject = true

/-- What is known of the heap and the constants loaded so far. -/
structure Storing (cs : List Constant) (q : Heap × Array Value) : Prop where
  stored : Stored cs q.2
  clean : Clean q.1 [] ∅ [] 0
  plain : Plain q.1 q.2

section
variable {p : Program} {cs : List Constant} {c : Constant} {q q' : Heap × Array Value}

/-- One more constant. -/
theorem Stored.push {K : Array Value} {v : Value} (hK : Stored cs K) (hsize : K.size = cs.length)
    (hfresh : ∀ x, v = .obj x → x ∉ refsOf K.toList) (hv : v.asObj?.isSome = c.isObject) :
    Stored (cs ++ [c]) (K.push v) := by
  have hrefs : refsOf (K.push v).toList = refsOf [v] + refsOf K.toList := by
    rw [Array.toList_push, Session.refsOf_append, add_comm]
  refine ⟨?_, ?_, fun {k x} hk => ?_⟩
  · rw [hrefs]
    cases v with
    | obj x =>
      rw [refsOf_obj, Multiset.singleton_add, Multiset.nodup_cons]
      exact ⟨hfresh x rfl, hK.nodup⟩
    | _ => exact hK.nodup
  · rw [hrefs, Multiset.card_add, hK.card, List.countP_append, add_comm]
    congr 1
    cases v <;> simp_all [refsOf, Value.asObj?]
  · rw [Array.getElem?_push] at hk
    split at hk
    · next hlast =>
      obtain rfl := Option.some.inj hk
      exact ⟨c, by rw [hlast, hsize]; simp, hv.symm⟩
    · obtain ⟨c', hc', hobj⟩ := hK.objects hk
      exact ⟨c', by rw [List.getElem?_append_left (List.getElem?_eq_some_iff.mp hc').1, hc'], hobj⟩

/-- **An object is loaded.** -/
theorem Storing.object [p.Origin] {o : Object} {h h₂ : Heap} {K : Array Value} (hq : Storing cs (h, K))
    (hl : Session.Loading p cs (h, K)) (hc : c.isObject = true) (howned : o.owned = [])
    (hscope : o.scope? = none) (hcaps : ∀ k, o = .closure k → k.caps = [] ∧ k.scope = none)
    (e : (h.allocate o).1.inc (h.allocate o).2 = .ok h₂) :
    Storing (cs ++ [c]) (h₂, K.push (h.allocate o).2) := by
  have hclean : Clean h [] ∅ [] 0 := hq.clean
  obtain ⟨r, hr, hg⟩ := hclean.gains_of o
  have hnew : r ∉ refsOf K.toList := fun hmem => by
    obtain ⟨c', hc'⟩ := live_of_mem hl.good.sound hmem
    cases hg.free.symm.trans hc'
  have hallocated := hclean.allocate_plain hl.good.sound (by rw [Object.refs, howned]; rfl) hscope
  refine ⟨hq.stored.push hl.size (fun x hx => ?_) (by rw [hr]; exact hc.symm), ?_, fun {x rc k} hx hslot => ?_⟩
  · cases hr.symm.trans hx
    exact hnew
  · refine hallocated.inc (fun x hx => Or.inl (Value.eq_of_mem_asObj? ?_)) e
    simpa using hx
  · obtain ⟨⟨rc₁, o₁⟩, hslot₁, ho⟩ := (onward_inc e).objs hslot
    obtain rfl : Object.closure k = o₁ := ho
    rw [hg.slot] at hslot₁
    split_ifs at hslot₁ with hxr
    · exact hcaps k (congrArg Slot.obj (Option.some.inj hslot₁))
    · refine hq.plain (mem_refsOf.mpr ?_) hslot₁
      have hmem := mem_refsOf.mp hx
      rw [Array.toList_push, List.mem_append, List.mem_singleton, hr] at hmem
      exact hmem.resolve_right fun hxr' => hxr (Value.obj.inj hxr')

theorem Storing.step [p.Origin] (hq : Storing cs q) (hl : Session.Loading p cs q) (e : Machine.loadStep q c = .ok q') :
    Storing (cs ++ [c]) q' := by
  obtain ⟨h, K⟩ := q
  obtain ⟨h₂, hinc, e⟩ := bind_ok e
  cases e
  have himmediate : ∀ {v : Value}, v.asObj? = none → c.isObject = false → Storing (cs ++ [c]) (h, K.push v) := by
    intro v hv hc
    refine ⟨hq.stored.push hl.size (fun x hx => ?_) (by rw [hv, hc]; rfl), hq.clean, fun {x rc k} hx hslot => ?_⟩
    · rw [hx] at hv
      cases hv
    · refine hq.plain (mem_refsOf.mpr ?_) hslot
      have hmem := mem_refsOf.mp hx
      rw [Array.toList_push, List.mem_append, List.mem_singleton] at hmem
      refine hmem.resolve_right fun hxv => ?_
      rw [← hxv] at hv
      cases hv
  cases c with
  | str s => exact hq.object hl rfl rfl rfl nofun hinc
  | closure u =>
    refine hq.object hl rfl rfl rfl (fun k hk => ?_) hinc
    cases hk
    exact ⟨rfl, rfl⟩
  | _ =>
    cases hinc
    exact himmediate rfl rfl

theorem Storing.foldlM [p.Origin] : ∀ (todo : List Constant) {cs : List Constant} {q : Heap × Array Value},
    Storing cs q → Session.Loading p cs q → (∀ u, .closure u ∈ todo → UnitOk p.settings p u []) →
    todo.foldlM Machine.loadStep q = .ok q' → Storing (cs ++ todo) q'
  | [], cs, q, hq, _, _, e => by
    cases e
    simpa using hq
  | c :: todo, cs, q, hq, hl, hc, e => by
    rw [List.foldlM_cons] at e
    obtain ⟨q₁, e₁, e⟩ := bind_ok e
    obtain ⟨q₂, e₂, hl₂⟩ := Session.loading_step hl c fun u hu => hc u (by simp [hu])
    cases e₁.symm.trans e₂
    have hall := Storing.foldlM todo (hq.step hl e₁) hl₂ (fun u hu => hc u (by simp [hu])) e
    simpa using hall

/-- **Loading forgets nothing.** -/
theorem Machine.load_stored [p.Origin]
    (hplain : ∀ {k : Nat} {u : UnitId}, p.consts[k]? = some (.closure u) → UnitOk p.settings p u [])
    {machine : Machine} (e : Machine.load p = .ok machine) :
    Stored p.consts.toList machine.consts ∧ machine.Upkept machine.consts 0 := by
  obtain ⟨q, hq, e⟩ := bind_ok e
  cases e
  have hempty : Session.Loading p [] (Heap.empty, #[]) :=
    ⟨⟨sound_empty, fun hr => by simp [Heap.empty, Heap.slot?] at hr,
      fun hr => by simp [Heap.empty, Heap.slot?] at hr⟩, by simp, rfl⟩
  have hstart : Storing [] (Heap.empty, #[]) :=
    ⟨⟨by simp [refsOf], by simp [refsOf], by simp⟩, clean_empty, fun {x rc k} hx => by simp [refsOf] at hx⟩
  rw [← Array.foldlM_toList] at hq
  have hall := Storing.foldlM p.consts.toList hstart hempty (fun u hu => by
    obtain ⟨k, hk⟩ := List.mem_iff_getElem?.mp hu
    exact hplain (k := k) (by simpa using hk)) hq
  exact ⟨hall.stored, hall.clean, rfl, hall.plain⟩

end

/-! ## The end of a session -/

/-- The constants refer to nothing, and are in no scope. -/
theorem Machine.Upkept.simple {p : Program} [p.Origin] {B : Multiset ObjId} {K : Array Value} {m : Machine} {n : Nat}
    (hm : m.Upkept K n) (hidle : Idle p B m) (hK : Stored p.consts.toList K) :
    Simple m.heap (refsOf K.toList) := by
  intro x slot hx hslot
  obtain ⟨k, hk⟩ := List.mem_iff_getElem?.mp (mem_refsOf.mp hx)
  obtain ⟨c, hc, hobj⟩ := hK.objects (k := k) (x := x) (by simpa using hk)
  obtain ⟨v, hv, hhas⟩ := hidle.loaded k c (by simpa using hc)
  rw [hm.consts, ← Array.getElem?_toList, hk] at hv
  obtain rfl := Option.some.inj hv
  obtain ⟨slot', hslot', hfits⟩ := hhas (by rintro tag rfl; cases hobj)
  obtain rfl := Option.some.inj (hslot.symm.trans hslot')
  obtain ⟨rc, o⟩ := slot
  cases o with
  | str s => exact ⟨rfl, rfl⟩
  | undefined tag trace => exact ⟨rfl, rfl⟩
  | closure k =>
    obtain ⟨hcaps, hscope⟩ := hm.plain hx hslot
    exact ⟨by simp [Object.owned, Closure.ownedCaps, hcaps], hscope⟩
  | _ => cases c <;> simp_all [Object.Fits, Kind.ofConstant, Constant.isObject]

/-- **No leaks.** Let a module have no mutable bindings, and let the host pass only values that it holds to
calls. When all chains have come to their ends and every value that was handed out has been released, there
are as many live objects as there are texts and closures among the constants; the scopes collected are all
those with room for members that have been opened; and unloading the machine leaves nothing. -/
theorem Session.no_leaks {m : SourceModule} {settings : Settings} {p : Program} {machine machine' : Machine}
    {limits : Limits} {events : List Event} (him : m.body.immutable = true) (hp : m.compile settings = .ok p)
    (hload : Machine.load p = .ok machine) (hknown : ∀ e ∈ events, e.Known)
    (hacts : (fresh machine).acts p limits events = .ok ⟨.idle machine', #[], #[]⟩) :
    machine'.heap.stats.live = p.consts.countP Constant.isObject ∧
      machine'.heap.stats.scopesCollected = (fresh machine).opened p limits events ∧
      ∃ h, machine'.unload = .ok h ∧ h.stats.live = 0 := by
  let : p.Origin := ⟨settings⟩
  obtain ⟨hentry, hplain⟩ := SourceModule.compile_sound hp
  obtain ⟨hK, hloaded⟩ := Machine.load_stored hplain hload
  obtain ⟨machine₀, hload₀, hok⟩ := Session.ok_load hplain
  cases hload.symm.trans hload₀
  have hstart : (fresh machine).Upkept p machine.consts 0 := ⟨hok, hloaded⟩
  have hend := hstart.acts (SourceModule.compile_celless hp him) hentry events hknown hacts
  rw [Nat.zero_add] at hend
  have hm : machine'.Upkept machine.consts _ := hend.scene
  have hidle : Idle p 0 machine' := by
    have hidle : Idle p (Session.hostRefs p _) machine' := hend.ok.scene
    simpa [Session.hostRefs, refsOf_nil] using hidle
  have hs : Sound machine'.heap (refsOf machine.consts.toList) [] := by
    have := hidle.good.sound
    rwa [add_zero, hm.consts] at this
  have hsimple : Simple machine'.heap (refsOf machine.consts.toList) := hm.simple hidle hK
  refine ⟨?_, hm.clean.scopesCollected_eq hs hsimple, ?_⟩
  · rw [hm.clean.live_eq hs hsimple hK.nodup, hK.card, Array.countP_toList]
  · obtain ⟨h, e, hlive⟩ := hm.clean.unrefAll_simple hs hsimple
    refine ⟨h, ?_, hlive⟩
    rw [Machine.unload, hidle.stack, hm.consts]
    exact e

namespace Keeper

/-- The host takes the error value and gives it back, goes on, and gives back the function that has captured
it. -/
def returning : List Event :=
  Event.run :: List.replicate 4 .tick ++ [Event.release 0, Event.resume 0] ++ List.replicate 5 .tick ++
    [Event.release 0]

/-- The machine afterwards. -/
def drained : Machine := ⟨⟨#[none, none], [⟨0⟩, ⟨1⟩], #[], ⟨2, 2, 0, 0⟩⟩, #[.nil, .nil], [], ⟨0, 0, 1⟩⟩

theorem acts_returning : (Session.fresh machine).acts (program mainCode keeperCode) {} returning =
    .ok ⟨.idle drained, #[], #[]⟩ := by
  unfold returning machine program mainCode keeperCode drained
  cbv

/-- Neither the error value nor the function is left. -/
theorem no_leaks_returning : (∀ e ∈ returning, e.Known) ∧ drained.heap.stats.live = 0 ∧
    drained.heap.stats.scopesCollected =
      (Session.fresh machine).opened (program mainCode keeperCode) {} returning ∧
    ∃ h, drained.unload = .ok h ∧ h.stats.live = 0 := by
  have hknown : ∀ e ∈ returning, e.Known := by simp [returning, Event.Known, or_imp, forall_and]
  exact ⟨hknown, Session.no_leaks rfl compile_source rfl hknown acts_returning⟩

end Keeper

end CountedMachine
