import RetroScript.Proofs.Arena
import RetroScript.Proofs.Builtins
import RetroScript.Proofs.Host

/-!
# The values that an interpreter works with

`Carries D V it` says that a set `V` of values has all that the scopes in `D`, the constants and the
host can lead to. Then what a program looks up, reads or computes is in `V`, and `V` stays such a set
when values of it are stored.
-/

namespace RetroScript

namespace Interpreter

structure Carries (D : ScopeId → Prop) (V : Value → Prop) (it : Interpreter) : Prop where
  heap : it.heap.Closed V
  active : D it.active
  global : D Arena.globalScope
  parent : ∀ {id p}, D id → (it.arena.get id).parent = some p → D p
  var : ∀ {id v}, D id → v ∈ (it.arena.get id).vars.values → V v
  defn : ∀ {id ref}, D id → ref ∈ (it.arena.get id).defs.values → V (.closure ref)
  outside : ∀ {v}, v ∈ it.outside → V v

variable {D : ScopeId → Prop} {V : Value → Prop} {it it' : Interpreter}

theorem Carries.transfer (carries : it.Carries D V) (arena : it'.arena = it.arena)
    (active : it'.active = it.active) (outside : it'.outside = it.outside)
    (closed : it'.heap.Closed V) : it'.Carries D V where
  heap := closed
  active := active ▸ carries.active
  global := carries.global
  parent := arena ▸ carries.parent
  var := arena ▸ carries.var
  defn := arena ▸ carries.defn
  outside := outside ▸ carries.outside

/-! ### Reading -/

theorem Carries.lookupFrom (carries : it.Carries D V) {id : ScopeId} (start : D id) {name : String}
    {v : Value} (found : it.arena.lookup id name = some v) : V v := by
  obtain ⟨⟨other, s⟩, member, known⟩ := List.exists_of_findSome?_eq_some found
  obtain ⟨inside, rfl⟩ := Arena.mem_chainUpTo carries.parent start member
  rcases Option.or_eq_some_iff.mp known with isVar | ⟨_, isDef⟩
  · exact carries.var inside (Dict.mem_values_of_find? isVar)
  · obtain ⟨ref, first, rfl⟩ := Option.map_eq_some_iff.mp isDef
    exact carries.defn inside (Dict.mem_values_of_find? first)

theorem Carries.lookup (carries : it.Carries D V) {name : String} {v : Value}
    (found : it.lookup name = .ok v) : V v := by
  unfold Interpreter.lookup at found
  split at found
  · next known =>
    cases found
    rcases Option.or_eq_some_iff.mp known with constant | ⟨_, known⟩
    · exact carries.outside (List.mem_append_left _ (Dict.mem_values_of_find? constant))
    · exact carries.lookupFrom carries.active known
  · cases found

theorem Carries.findClosure (carries : it.Carries D V) {name : String} {ref : Nat}
    (found : it.arena.findClosure it.active name = some ref) : V (.closure ref) := by
  obtain ⟨⟨other, s⟩, member, known⟩ := List.exists_of_findSome?_eq_some found
  obtain ⟨inside, rfl⟩ := Arena.mem_chainUpTo carries.parent carries.active member
  replace known : (it.arena.get other).callable name = some ref := known
  unfold Scope.callable at known
  split at known
  · next isDef =>
    cases known
    exact carries.defn inside (Dict.mem_values_of_find? isDef)
  · split at known
    · next isVar =>
      cases known
      exact carries.var inside (Dict.mem_values_of_find? isVar)
    · cases known

/-- The scope that an assignment goes to. -/
theorem Carries.binding (carries : it.Carries D V) (name : String) :
    D ((it.arena.findBinding it.active name).getD it.active) := by
  cases found : it.arena.findBinding it.active name with
  | none => exact carries.active
  | some id =>
    obtain ⟨⟨other, s⟩, first, rfl⟩ := Option.map_eq_some_iff.mp found
    exact (Arena.mem_chainUpTo carries.parent carries.active (List.mem_of_find?_eq_some first)).1

/-! ### Storing -/

theorem Carries.modify (carries : it.Carries D V) (id : ScopeId) {f : Scope → Scope}
    (parent : ∀ s, (f s).parent = s.parent)
    (var : ∀ {s : Scope} {v}, v ∈ (f s).vars.values → v ∈ s.vars.values ∨ V v)
    (defn : ∀ {s : Scope} {ref}, ref ∈ (f s).defs.values → ref ∈ s.defs.values ∨ V (.closure ref)) :
    Carries D V { it with arena := it.arena.modify id f } where
  heap := carries.heap
  active := carries.active
  global := carries.global
  parent {other p} inside up := by
    refine carries.parent inside (Eq.trans ?_ up)
    exact Arena.get_modify_elim (P := fun _ s => (it.arena.get other).parent = s.parent) rfl
      fun _ => (parent _).symm
  var {other v} inside member := by
    have before : v ∈ (it.arena.get other).vars.values → V v := carries.var inside
    exact Arena.get_modify_elim (P := fun _ s => v ∈ s.vars.values → V v) before
      (fun _ member => (var member).elim before fun valid => valid) member
  defn {other ref} inside member := by
    have before : ref ∈ (it.arena.get other).defs.values → V (.closure ref) := carries.defn inside
    exact Arena.get_modify_elim (P := fun _ s => ref ∈ s.defs.values → V (.closure ref)) before
      (fun _ member => (defn member).elim before fun valid => valid) member
  outside := carries.outside

theorem Carries.makeClosure (carries : it.Carries D V) (name : String) (params : List String)
    (body : List Syntax.Command) : (it.makeClosure name params body).2.Carries D V := by
  have captured : Carries D V { it with arena := it.arena.capture it.active } :=
    carries.modify _ (fun _ => rfl) Or.inl Or.inl
  exact captured.transfer rfl rfl rfl (carries.heap.newClosure _)

theorem Carries.constant (carries : it.Carries D V) (name : String) {v : Value} (valid : V v) :
    Carries D V { it with consts := it.consts.insert name v } where
  heap := carries.heap
  active := carries.active
  global := carries.global
  parent := carries.parent
  var := carries.var
  defn := carries.defn
  outside {w} member := by
    rcases List.mem_append.mp member with constant | kept
    · rcases Dict.mem_values_insert constant with rfl | old
      · exact valid
      · exact carries.outside (List.mem_append_left _ old)
    · exact carries.outside (List.mem_append_right _ kept)

theorem Carries.keep (carries : it.Carries D V) (slot : Nat) {v : Value} (valid : V v) :
    (it.keep slot v).Carries D V := by
  refine ⟨carries.heap, carries.active, carries.global, carries.parent, carries.var, carries.defn, ?_⟩
  intro w member
  rcases List.mem_append.mp member with constant | kept
  · exact carries.outside (List.mem_append_left _ constant)
  · obtain ⟨e, entry, rfl⟩ := List.mem_map.mp kept
    rcases List.mem_cons.mp entry with rfl | old
    · exact valid
    · exact carries.outside
        (List.mem_append_right _ (List.mem_map_of_mem (List.mem_filter.mp old).1))

theorem Carries.drop (carries : it.Carries D V) (slot : Nat) : (it.drop slot).Carries D V := by
  refine ⟨carries.heap, carries.active, carries.global, carries.parent, carries.var, carries.defn, ?_⟩
  intro w member
  rcases List.mem_append.mp member with constant | kept
  · exact carries.outside (List.mem_append_left _ constant)
  · obtain ⟨e, entry, rfl⟩ := List.mem_map.mp kept
    exact carries.outside
      (List.mem_append_right _ (List.mem_map_of_mem (List.mem_filter.mp entry).1))

theorem Carries.kept (carries : it.Carries D V) {slot : Nat} {v : Value}
    (found : it.kept? slot = some v) : V v := by
  obtain ⟨before, after, same, _⟩ := List.lookup_eq_some_iff.mp found
  refine carries.outside (List.mem_append_right _ ?_)
  rw [same]
  simp

/-! ### New scopes -/

/-- The arena inside a call: a new scope that holds the arguments. -/
theorem arena_enter (it : Interpreter) (c : Closure) (args : List Value) (pos : Position) :
    (it.enter c args pos).2.arena =
      (it.arena.push c.name c.scope).2.modify (it.arena.push c.name c.scope).1
        fun s => { s with vars := s.vars.insertAll (c.params.zip args) } :=
  Arena.foldl_setVar _ _ _

theorem inUse_enter (wellFormed : it.arena.WellFormed) (c : Closure) (args : List Value)
    (pos : Position) (other : ScopeId) :
    (it.enter c args pos).2.arena.InUse other ↔
      it.arena.InUse other ∨ other = (it.enter c args pos).1 := by
  rw [arena_enter, Arena.inUse_modify]
  exact Arena.inUse_push wellFormed c.name c.scope other

theorem get_enter_new (wellFormed : it.arena.WellFormed) (c : Closure) (args : List Value)
    (pos : Position) :
    (it.enter c args pos).2.arena.get (it.enter c args pos).1 =
      { function := c.name, vars := Dict.empty.insertAll (c.params.zip args),
        parent := some c.scope } := by
  have inside := ((Arena.inUse_push wellFormed c.name c.scope _).mpr (Or.inr rfl)).1
  rw [arena_enter]
  refine (Arena.get_modify_same _ _ inside).trans ?_
  rw [Arena.get_push_new wellFormed]

theorem get_enter_old {c : Closure} {args : List Value} {pos : Position} {other : ScopeId}
    (differs : other ≠ (it.enter c args pos).1) :
    (it.enter c args pos).2.arena.get other = it.arena.get other := by
  rw [arena_enter]
  exact (Arena.get_modify_other _ _ differs).trans (Arena.get_push_old differs)

/-- A scope in use is not the new one. -/
theorem get_enter_inUse {c : Closure} {args : List Value} {pos : Position} {other : ScopeId}
    (inUse : it.arena.InUse other) :
    (it.enter c args pos).2.arena.get other = it.arena.get other :=
  get_enter_old fun same => Arena.push_fresh it.arena c.name c.scope (same ▸ inUse)

theorem lasting_enter (wellFormed : it.arena.WellFormed) (c : Closure) (args : List Value)
    (pos : Position) {other : ScopeId} (lasting : it.arena.Lasting other) :
    (it.enter c args pos).2.arena.Lasting other := by
  refine ⟨(inUse_enter wellFormed c args pos other).mpr (Or.inl lasting.1), ?_⟩
  rw [get_enter_inUse lasting.1]
  exact lasting.2

theorem wellFormed_enter (wellFormed : it.arena.WellFormed) {c : Closure}
    (lasting : it.arena.Lasting c.scope) (args : List Value) (pos : Position) :
    (it.enter c args pos).2.arena.WellFormed := by
  have pushed : (it.arena.push c.name c.scope).2.WellFormed := wellFormed.push lasting
  rw [arena_enter]
  exact pushed.modify ((Arena.inUse_push wellFormed _ _ _).mpr (Or.inr rfl)) (fun _ => rfl)
    fun _ before => before

theorem roots_enter (it : Interpreter) (c : Closure) (args : List Value) (pos : Position) :
    (it.enter c args pos).2.roots.Perm ((it.enter c args pos).1 :: it.roots) := by
  have callers : (it.enter c args pos).2.roots =
      (it.enter c args pos).1 :: (it.frames.toList.map Frame.caller ++ [it.active]) := by
    simp [roots, enter]
  rw [callers]
  exact (List.perm_append_singleton it.active _).cons _

theorem leave_frames (scope : ScopeId) {below : List Frame} {last : Frame}
    (frames : it.frames.toList = below ++ [last]) :
    (it.leave scope).active = last.caller ∧ (it.leave scope).frames.toList = below := by
  have back : it.frames.back? = some last := by
    rw [← Array.getLast?_toList, frames]
    simp
  simp [leave, frames, back]

theorem roots_leave {scope : ScopeId} {below : List Frame} {last : Frame}
    (frames : it.frames.toList = below ++ [last]) :
    it.roots.Perm (it.active :: (it.leave scope).roots) := by
  obtain ⟨active, popped⟩ := leave_frames scope frames
  rw [roots, roots, active, popped, frames, List.map_append]
  exact (List.perm_append_singleton last.caller _).cons _

/-- The scopes that the end of a call leaves alone: all but its own, and that too if it may outlive
the call. -/
def Stays (it : Interpreter) (id : ScopeId) : Prop := id ≠ it.active ∨ it.arena.Lasting it.active

theorem stays_of_lasting {id : ScopeId} (lasting : it.arena.Lasting id) : it.Stays id := by
  by_cases same : id = it.active
  · exact Or.inr (same ▸ lasting)
  · exact Or.inl same

/-- The arena after a call: as before, or without the scope of the call. -/
theorem arena_leave (inUse : it.arena.InUse it.active) :
    it.arena.Lasting it.active ∧ (it.leave it.active).arena = it.arena ∨
    it.active ≠ Arena.globalScope ∧ (it.arena.get it.active).captured = false ∧
      (it.leave it.active).arena =
        { it.arena.modify it.active Scope.reset with free := it.active :: it.arena.free } := by
  rcases it.arena.release_cases it.active with ⟨lasts, same⟩ | ⟨notGlobal, uncaptured, freed⟩
  · exact Or.inl ⟨⟨inUse, lasts⟩, congrArg Prod.snd same⟩
  · exact Or.inr ⟨notGlobal, uncaptured, congrArg Prod.snd freed⟩

theorem inUse_leave (inUse : it.arena.InUse it.active) {id : ScopeId} :
    (it.leave it.active).arena.InUse id ↔ it.arena.InUse id ∧ it.Stays id := by
  rcases arena_leave inUse with ⟨lasting, same⟩ | ⟨notGlobal, uncaptured, freed⟩
  · rw [same]
    exact ⟨fun before => ⟨before, Or.inr lasting⟩, And.left⟩
  · rw [freed, Arena.inUse_freed]
    refine and_congr_right fun _ => ⟨Or.inl, ?_⟩
    rintro (differs | lasting)
    · exact differs
    · exact absurd rfl (lasting.ne notGlobal uncaptured)

theorem get_leave (inUse : it.arena.InUse it.active) {id : ScopeId} (stays : it.Stays id) :
    (it.leave it.active).arena.get id = it.arena.get id := by
  rcases arena_leave inUse with ⟨_, same⟩ | ⟨notGlobal, uncaptured, freed⟩
  · rw [same]
  · rw [freed]
    refine Arena.get_freed_other (stays.elim (fun differs => differs) fun lasting => ?_)
    exact absurd rfl (lasting.ne notGlobal uncaptured)

theorem wellFormed_leave (wellFormed : it.arena.WellFormed) (inUse : it.arena.InUse it.active) :
    (it.leave it.active).arena.WellFormed := by
  rcases arena_leave inUse with ⟨_, same⟩ | ⟨notGlobal, uncaptured, freed⟩
  · rw [same]
    exact wellFormed
  · rw [freed]
    exact wellFormed.freed inUse notGlobal uncaptured

/-! ### Collections -/

/-- A value that a collection leaves intact: whatever it leads to can be reached. -/
def Survives (it : Interpreter) (held : List Value) (v : Value) : Prop :=
  ∀ n, v.Leads it.heap n → n.Inside it.arena it.heap →
    Reachable it.arena it.heap it.roots (held ++ it.outside) n

theorem survives_of_held {held : List Value} {v : Value} (member : v ∈ held) :
    it.Survives held v := fun _ leads _ => .held (List.mem_append_left _ member) leads

theorem closed_collect (closed : it.heap.Closed V) (held : List Value) :
    it.heap.Closed fun v => V v ∧ it.Survives held v where
  plain {v} isPlain := by
    refine ⟨closed.plain isPlain, fun n leads => ?_⟩
    cases leads <;> exact isPlain.elim
  item {ref v} valid member := by
    refine ⟨closed.item valid.1 member, fun n leads inside => ?_⟩
    have link : Link it.arena it.heap (.array ref) n := .item member leads
    exact .link (valid.2 _ (.array ref) link.inside) link
  entry {ref v} valid member := by
    refine ⟨closed.entry valid.1 member, fun n leads inside => ?_⟩
    obtain ⟨name, found⟩ := ((it.heap.map ref).mem_values_iff v).mp member
    have link : Link it.arena it.heap (.map ref) n := .entry found leads
    exact .link (valid.2 _ (.map ref) link.inside) link
  newArrays bound := by
    refine ⟨closed.newArrays bound, fun n leads inside => ?_⟩
    cases leads
    exact absurd inside (Nat.not_lt.mpr bound)
  newMaps bound := by
    refine ⟨closed.newMaps bound, fun n leads inside => ?_⟩
    cases leads
    exact absurd inside (Nat.not_lt.mpr bound)
  newClosures bound := by
    refine ⟨closed.newClosures bound, fun n leads _ => ?_⟩
    cases leads
    rw [Heap.closure_outside bound]
    exact .global

theorem Carries.collect (carries : it.Carries D V) (held : List Value) :
    (it.collect held).2.Carries
      (fun id => D id ∧ Reachable it.arena it.heap it.roots (held ++ it.outside) (.scope id))
      fun v => V v ∧ it.Survives held v where
  heap := closed_collect carries.heap held
  active := ⟨carries.active, .root List.mem_cons_self⟩
  global := ⟨carries.global, .global⟩
  parent {id p} inside up := by
    have same := Arena.get_collect_reachable inside.2
    have up := (congrArg Scope.parent same).symm.trans up
    exact ⟨carries.parent inside.1 up, .link inside.2 (.parent up)⟩
  var {id v} inside member := by
    have same := congrArg Scope.vars (Arena.get_collect_reachable inside.2)
    replace member : v ∈ (it.arena.get id).vars.values := same ▸ member
    refine ⟨carries.var inside.1 member, fun n leads _ => ?_⟩
    obtain ⟨name, found⟩ := (Dict.mem_values_iff _ v).mp member
    exact .link inside.2 (.var found leads)
  defn {id ref} inside member := by
    have same := congrArg Scope.defs (Arena.get_collect_reachable inside.2)
    replace member : ref ∈ (it.arena.get id).defs.values := same ▸ member
    refine ⟨carries.defn inside.1 member, fun n leads _ => ?_⟩
    obtain ⟨name, found⟩ := (Dict.mem_values_iff _ ref).mp member
    cases leads
    exact .link inside.2 (.defn found)
  outside {v} member :=
    ⟨carries.outside member, fun _ leads _ => .held (List.mem_append_right _ member) leads⟩

end Interpreter

/-! ### Operators and builtins -/

namespace Syntax.Operator

theorem onNumbers_plain {op : Operator} {l r v : Value} {f : Float → Float → Except Fault Value}
    (plain : ∀ {a b v}, f a b = .ok v → v.Plain) (found : op.onNumbers l r f = .ok v) : v.Plain := by
  unfold onNumbers at found
  split at found
  · exact plain found
  all_goals cases found

theorem onBooleans_plain {op : Operator} {l r v : Value} {f : Bool → Bool → Bool}
    (found : op.onBooleans l r f = .ok v) : v.Plain := by
  unfold onBooleans at found
  split at found
  all_goals cases found
  trivial

theorem compareValues_plain {op : Operator} {l r v : Value} (found : op.compareValues l r = .ok v) :
    v.Plain := by
  unfold compareValues compareBooleans at found
  repeat' split at found
  all_goals cases found
  all_goals trivial

theorem apply_plain {h : Heap} {op : Operator} {l r v : Value} (found : op.apply h l r = .ok v) :
    v.Plain := by
  cases op with
  | add =>
    simp only [apply] at found
    split at found <;> cases found <;> trivial
  | sub | mul | div | pow => exact onNumbers_plain (fun same => by cases same; trivial) found
  | mod =>
    refine onNumbers_plain (fun same => ?_) found
    split at same
    · cases same; trivial
    · cases same
  | and | or => exact onBooleans_plain found
  | _ => exact compareValues_plain found

end Syntax.Operator

namespace Builtin

variable {D : ScopeId → Prop} {V : Value → Prop} {it : Interpreter} {answer : Answer}

theorem Answers.closed (answers : Answers it answer) (closed : it.heap.Closed V) :
    answer.2.heap.Closed V ∧ ∀ v, answer.1 = .ok v → V v := by
  rcases answers.result with ⟨same, plain⟩ | ⟨names, made⟩
  · exact ⟨same ▸ closed, fun v found => closed.plain (plain v found)⟩
  · obtain ⟨value, heap⟩ := Prod.mk.inj made
    rw [value, heap]
    refine ⟨closed.newArray fun v member => ?_, fun v found => ?_⟩
    · obtain ⟨name, _, rfl⟩ := List.mem_map.mp (List.mem_toArray.mp member)
      exact closed.plain trivial
    · cases found
      exact closed.newArrays (Nat.le_refl _)

theorem Answers.closures (answers : Answers it answer) :
    answer.2.heap.closures = it.heap.closures := by
  rcases answers.result with ⟨same, _⟩ | ⟨names, made⟩
  · rw [same]
  · rw [(Prod.mk.inj made).2]
    rfl

end Builtin

/-! ### Values of the host -/

namespace Host

variable {D : ScopeId → Prop} {V : Value → Prop} {it : Interpreter}

mutual

theorem closed_build (carries : it.Carries D V) {h : Heap} (closed : h.Closed V) (g : Given) :
    V (g.build it h).1 ∧ (g.build it h).2.Closed V := by
  cases g with
  | array items =>
    obtain ⟨valid, after⟩ := closed_buildAll carries closed items
    have items' : ∀ v ∈ (buildAll it h items).1.toArray, V v := by simpa using valid
    exact ⟨after.newArrays (Nat.le_refl _), after.newArray items'⟩
  | map entries =>
    have none : ∀ v ∈ (Dict.empty : Dict Value).values, V v := fun v member => by cases member
    obtain ⟨valid, after⟩ := closed_buildEntries carries closed none entries
    exact ⟨after.newMaps (Nat.le_refl _), after.newMap valid⟩
  | slot k =>
    refine ⟨?_, closed⟩
    show V ((it.kept? k).getD .null)
    exact closed.getD fun v found => carries.kept found
  | global name =>
    refine ⟨?_, closed⟩
    show V ((it.global? name).getD .null)
    exact closed.getD fun v found => carries.lookupFrom carries.global found
  | constant name =>
    refine ⟨?_, closed⟩
    show V ((it.constant? name).getD .null)
    exact closed.getD fun v found =>
      carries.outside (List.mem_append_left _ (Dict.mem_values_of_find? found))
  | _ => exact ⟨closed.plain trivial, closed⟩

theorem closed_buildAll (carries : it.Carries D V) {h : Heap} (closed : h.Closed V)
    (gs : List Given) :
    (∀ v ∈ (buildAll it h gs).1, V v) ∧ (buildAll it h gs).2.Closed V := by
  cases gs with
  | nil => exact ⟨fun v member => (by cases member), closed⟩
  | cons g gs =>
    obtain ⟨first, after⟩ := closed_build carries closed g
    obtain ⟨others, last⟩ := closed_buildAll carries after gs
    exact ⟨List.forall_mem_cons.mpr ⟨first, others⟩, last⟩

theorem closed_buildEntries (carries : it.Carries D V) {h : Heap} (closed : h.Closed V)
    {done : Dict Value} (valid : ∀ v ∈ done.values, V v) (es : List (String × Given)) :
    (∀ v ∈ (buildEntries it h done es).1.values, V v) ∧ (buildEntries it h done es).2.Closed V := by
  cases es with
  | nil => exact ⟨valid, closed⟩
  | cons e es =>
    obtain ⟨name, g⟩ := e
    obtain ⟨first, after⟩ := closed_build carries closed g
    refine closed_buildEntries carries after (fun v member => ?_) es
    rcases Dict.mem_values_insert member with rfl | old
    · exact first
    · exact valid v old

end

mutual

theorem closures_build (it : Interpreter) (h : Heap) (g : Given) :
    (g.build it h).2.closures = h.closures := by
  cases g with
  | array items => exact closures_buildAll it h items
  | map entries => exact closures_buildEntries it h Dict.empty entries
  | _ => rfl

theorem closures_buildAll (it : Interpreter) (h : Heap) (gs : List Given) :
    (buildAll it h gs).2.closures = h.closures := by
  cases gs with
  | nil => rfl
  | cons g gs => exact (closures_buildAll it (g.build it h).2 gs).trans (closures_build it h g)

theorem closures_buildEntries (it : Interpreter) (h : Heap) (done : Dict Value)
    (es : List (String × Given)) : (buildEntries it h done es).2.closures = h.closures := by
  cases es with
  | nil => rfl
  | cons e es =>
    obtain ⟨name, g⟩ := e
    exact (closures_buildEntries it (g.build it h).2 _ es).trans (closures_build it h g)

end

end Host

end RetroScript
