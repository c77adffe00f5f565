import RetroScript.Proofs.Soundness

/-!
# What an assignment changes

An assignment without an index writes to the nearest scope of the active chain that has a variable of
this name, and reading finds variables and definitions, so a definition that stands nearer still hides
what was written. `assignment_effect` says which binding changes and what every name stands for then.
-/

namespace RetroScript

/-! ### One scope -/

namespace Scope

def setVar (s : Scope) (name : String) (v : Value) : Scope := { s with vars := s.vars.insert name v }

theorem lookup_setVar_same (s : Scope) (name : String) (v : Value) : (s.setVar name v).lookup name = some v := by
  simp [lookup, setVar, Dict.find?_insert]

theorem lookup_setVar_other (s : Scope) {name other : String} (v : Value) (differs : other ≠ name) :
    (s.setVar name v).lookup other = s.lookup other := by
  simp [lookup, setVar, Dict.find?_insert, differs]

theorem callable_setVar_other (s : Scope) {name other : String} (v : Value) (differs : other ≠ name) :
    (s.setVar name v).callable other = s.callable other := by
  simp [callable, setVar, Dict.find?_insert, differs]

theorem lookup_of_no_var {s : Scope} {name : String} (none : s.vars.contains name = false) :
    s.lookup name = (s.defs.find? name).map .closure := by
  have absent : s.vars.find? name = .none := by simpa [Dict.contains] using none
  rw [lookup, absent, Option.none_or]

end Scope

/-! ### Chains -/

namespace Arena

variable {a : Arena} {target : ScopeId}

theorem get_setVar (inside : target < a.slots.size) (name : String) (v : Value) (id : ScopeId) :
    (a.setVar target name v).get id = if id = target then (a.get id).setVar name v else a.get id := by
  split
  · next same =>
    subst same
    exact get_modify_same a _ inside
  · next differs => exact get_modify_other a _ differs

/-- A scope of a chain after an assignment in `target`. -/
def written (target : ScopeId) (name : String) (v : Value) (e : ScopeId × Scope) : ScopeId × Scope :=
  (e.1, if e.1 = target then e.2.setVar name v else e.2)

theorem chainUpTo_setVar (inside : target < a.slots.size) (name : String) (v : Value) (n : Nat) (id : ScopeId) :
    (a.setVar target name v).chainUpTo n id = (a.chainUpTo n id).map (written target name v) := by
  induction n generalizing id with
  | zero => rfl
  | succ n ih =>
    have parent : ((a.setVar target name v).get id).parent = (a.get id).parent := by
      rw [get_setVar inside]
      split <;> rfl
    simp only [chainUpTo, List.map_cons, parent]
    rw [get_setVar inside]
    congr 1
    cases (a.get id).parent with
    | none => rfl
    | some p => exact ih p

theorem chain_setVar (inside : target < a.slots.size) (name : String) (v : Value) (id : ScopeId) :
    (a.setVar target name v).chain id = (a.chain id).map (written target name v) := by
  have size : (a.setVar target name v).slots.size = a.slots.size := slots_modify ..
  rw [chain, size]
  exact chainUpTo_setVar inside name v _ id

/-- What does not tell two scopes apart by one variable finds the same along a chain. -/
theorem findSome?_chain_setVar {β : Type} (inside : target < a.slots.size) (name : String) (v : Value)
    (f : Scope → Option β) (blind : ∀ s : Scope, f (s.setVar name v) = f s) (id : ScopeId) :
    ((a.setVar target name v).chain id).findSome? (fun e => f e.2) = (a.chain id).findSome? (fun e => f e.2) := by
  rw [chain_setVar inside, List.findSome?_map]
  congr 1
  funext e
  dsimp only [Function.comp, written]
  split
  · exact blind e.2
  · rfl

theorem lookup_setVar_other (inside : target < a.slots.size) {name other : String} (v : Value)
    (differs : other ≠ name) (id : ScopeId) : (a.setVar target name v).lookup id other = a.lookup id other :=
  findSome?_chain_setVar inside name v (·.lookup other) (fun s => s.lookup_setVar_other v differs) id

theorem findClosure_setVar_other (inside : target < a.slots.size) {name other : String} (v : Value)
    (differs : other ≠ name) (id : ScopeId) :
    (a.setVar target name v).findClosure id other = a.findClosure id other :=
  findSome?_chain_setVar inside name v (·.callable other) (fun s => s.callable_setVar_other v differs) id

/-- The scope that an assignment to `name` goes to, and the scopes of the chain that stand before it. -/
inductive Target (a : Arena) (start : ScopeId) (name : String) : List (ScopeId × Scope) → ScopeId → Prop where
  /-- The nearest scope with a variable of this name. -/
  | held {nearer rest : List (ScopeId × Scope)} {target : ScopeId}
      (chain : a.chain start = nearer ++ (target, a.get target) :: rest)
      (holds : (a.get target).vars.contains name = true)
      (first : ∀ e ∈ nearer, e.2.vars.contains name = false) : Target a start name nearer target
  /-- No scope has one, and the first scope gets it. -/
  | fresh (none : ∀ e ∈ a.chain start, e.2.vars.contains name = false) : Target a start name [] start

theorem exists_target (a : Arena) (start : ScopeId) (name : String) :
    ∃ nearer, a.Target start name nearer ((a.findBinding start name).getD start) := by
  unfold findBinding
  cases found : (a.chain start).find? fun e => e.2.vars.contains name with
  | none => exact ⟨[], .fresh fun e member => by simpa using List.find?_eq_none.mp found e member⟩
  | some e =>
    obtain ⟨id, s⟩ := e
    obtain ⟨holds, nearer, rest, chain, first⟩ := List.find?_eq_some_iff_append.mp found
    have member : (id, s) ∈ a.chain start := by rw [chain]; simp
    obtain ⟨-, rfl⟩ := mem_chainUpTo (K := fun _ => True) (fun _ _ => trivial) trivial member
    exact ⟨nearer, .held chain holds fun e member => by simpa using first e member⟩

/-- Scopes without a variable of this name have only definitions to offer. -/
theorem findSome?_lookup_of_no_vars {name : String} {es : List (ScopeId × Scope)}
    (none : ∀ e ∈ es, e.2.vars.contains name = false) :
    (es.findSome? fun e => e.2.lookup name) = (es.findSome? fun e => e.2.defs.find? name).map .closure := by
  induction es with
  | nil => rfl
  | cons e es ih =>
    rw [List.findSome?_cons, List.findSome?_cons, Scope.lookup_of_no_var (none e List.mem_cons_self)]
    cases e.2.defs.find? name with
    | none => exact ih fun e member => none e (List.mem_cons_of_mem _ member)
    | some ref => rfl

namespace Target

variable {start : ScopeId} {name : String} {nearer : List (ScopeId × Scope)}

theorem no_vars (goes : a.Target start name nearer target) : ∀ e ∈ nearer, e.2.vars.contains name = false := by
  cases goes with
  | held _ _ first => exact first
  | fresh _ => exact fun e member => by cases member

/-- The target comes after the scopes before it, in a chain where it alone differs. -/
theorem chain_setVar (wellFormed : a.WellFormed) (inUse : a.InUse start) (goes : a.Target start name nearer target)
    (inside : target < a.slots.size) (v : Value) :
    ∃ rest, (a.setVar target name v).chain start = nearer ++ (target, (a.get target).setVar name v) :: rest := by
  rw [Arena.chain_setVar inside]
  cases goes with
  | @held _ rest _ chain holds first =>
    have before : nearer.map (written target name v) = nearer := by
      refine (List.map_congr_left fun e member => ?_).trans (List.map_id nearer)
      have whole : e ∈ a.chain start := by rw [chain]; exact List.mem_append_left _ member
      obtain ⟨id, s⟩ := e
      obtain ⟨-, rfl⟩ := mem_chainUpTo (K := fun _ => True) (fun _ _ => trivial) trivial whole
      have differs : id ≠ target := by
        rintro rfl
        rw [first _ member] at holds
        cases holds
      simp [written, differs]
    refine ⟨rest.map (written target name v), ?_⟩
    rw [chain, List.map_append, before, List.map_cons, written, if_pos rfl]
  | fresh _ =>
    rw [chain_eq wellFormed inUse, List.map_cons, written, if_pos rfl]
    exact ⟨_, rfl⟩

/-- Along the scopes before the target only definitions are found, and at the target the new value. -/
theorem lookup_setVar (wellFormed : a.WellFormed) (inUse : a.InUse start) (goes : a.Target start name nearer target)
    (inside : target < a.slots.size) (v : Value) :
    (a.setVar target name v).lookup start name =
      ((nearer.findSome? fun e => e.2.defs.find? name).map .closure).or (some v) := by
  obtain ⟨rest, chain⟩ := goes.chain_setVar wellFormed inUse inside v
  unfold Arena.lookup
  rw [chain, List.findSome?_append, findSome?_lookup_of_no_vars goes.no_vars, List.findSome?_cons]
  simp only [Scope.lookup_setVar_same]

theorem lookup_of_shadow (goes : a.Target start name nearer target) {ref : Nat}
    (shadow : (nearer.findSome? fun e => e.2.defs.find? name) = some ref) :
    a.lookup start name = some (.closure ref) := by
  cases goes with
  | held chain _ first =>
    unfold Arena.lookup
    rw [chain, List.findSome?_append, findSome?_lookup_of_no_vars first, shadow]
    rfl
  | fresh _ => cases shadow

end Target

end Arena

/-! ### Assignments -/

namespace Interpreter

/-- One binding differs: the variable `name` of the scope `target`, which has the value `v` now. -/
structure Rebinds (before after : Interpreter) (target : ScopeId) (name : String) (v : Value) : Prop where
  rest : after = { before with arena := after.arena }
  slots : after.arena.slots.size = before.arena.slots.size ∧ after.arena.free = before.arena.free
  vars : ∀ id other, (after.arena.get id).vars.find? other =
    if id = target ∧ other = name then some v else (before.arena.get id).vars.find? other
  scopes : ∀ id, after.arena.get id = { before.arena.get id with vars := (after.arena.get id).vars }

/-- What an assignment to `name` comes to. -/
structure Assigned (before after : Interpreter) (name : String) (v : Value) : Prop where
  /-- The changed binding is in the nearest scope with a variable of this name, else in the active one.
  The name stands for the new value, unless a scope before that one has a definition of this name: then it
  stands for this definition, as it did. -/
  written : ∃ nearer target, before.arena.Target before.active name nearer target ∧
    before.arena.InUse target ∧ Rebinds before after target name v ∧
    ((∀ e ∈ nearer, e.2.defs.contains name = false) → after.lookup name = .ok v) ∧
    ((∃ e ∈ nearer, e.2.defs.contains name = true) → ∃ ref,
      (nearer.findSome? fun e => e.2.defs.find? name) = some ref ∧
      before.lookup name = .ok (.closure ref) ∧ after.lookup name = .ok (.closure ref))
  /-- Other names stand for what they stood for, seen from any scope. -/
  others : ∀ id other, other ≠ name → after.arena.lookup id other = before.arena.lookup id other ∧
    after.arena.findClosure id other = before.arena.findClosure id other

theorem rebinds_setVar (it : Interpreter) {target : ScopeId} (inside : target < it.arena.slots.size) (name : String)
    (v : Value) : Rebinds it { it with arena := it.arena.setVar target name v } target name v where
  rest := rfl
  slots := ⟨Arena.slots_modify .., rfl⟩
  vars id other := by
    rw [Arena.get_setVar inside]
    by_cases here : id = target
    · simp only [here, if_true, true_and]
      exact Dict.find?_insert _ name other v
    · simp only [here, if_false, false_and]
  scopes id := by
    rw [Arena.get_setVar inside]
    split <;> rfl

theorem lookup_of_arena {it : Interpreter} {name : String} {v : Value} (noConst : it.consts.contains name = false)
    (found : it.arena.lookup it.active name = some v) : it.lookup name = .ok v := by
  have absent : it.consts.find? name = none := by simpa [Dict.contains] using noConst
  rw [lookup, absent, Option.none_or, found]

theorem assigned {it : Interpreter} {name : String} (wellFormed : it.arena.WellFormed)
    (inUse : it.arena.InUse it.active) (used : it.arena.InUse ((it.arena.findBinding it.active name).getD it.active))
    (noConst : it.consts.contains name = false) (v : Value) : Assigned it (it.assign name v) name v := by
  obtain ⟨nearer, goes⟩ := it.arena.exists_target it.active name
  have now := goes.lookup_setVar wellFormed inUse used.1 v
  refine ⟨⟨nearer, _, goes, used, it.rebinds_setVar used.1 name v, fun clear => ?_, fun shadow => ?_⟩, ?_⟩
  · have nothing : (nearer.findSome? fun e => e.2.defs.find? name) = none :=
      List.findSome?_eq_none_iff.mpr fun e member => by simpa [Dict.contains] using clear e member
    rw [nothing] at now
    exact lookup_of_arena noConst now
  · obtain ⟨e, member, defined⟩ := shadow
    have something : (nearer.findSome? fun e => e.2.defs.find? name).isSome := by
      rw [List.findSome?_isSome_iff]
      exact ⟨e, member, defined⟩
    obtain ⟨ref, found⟩ := Option.isSome_iff_exists.mp something
    rw [found] at now
    exact ⟨ref, found, lookup_of_arena noConst (goes.lookup_of_shadow found), lookup_of_arena noConst now⟩
  · intro id other differs
    exact ⟨Arena.lookup_setVar_other used.1 v differs id, Arena.findClosure_setVar_other used.1 v differs id⟩

end Interpreter

namespace Host

open Machine

/-- Once the value of an assignment without an index is there, in any state of a session: the name of a
constant is refused and nothing changes, and any other name is assigned. -/
theorem assignment_effect {config : Config} {streams : Streams} {s : State} (reached : Reached config streams s)
    (pos : Position) (name : String) (v : Value) (work : List Pending) :
    (s.it.consts.contains name = true →
      step ⟨s.it, .give v, .assign pos name [] :: work⟩ = ⟨s.it, .fail pos (.constAssignment name), work⟩) ∧
    (s.it.consts.contains name = false → ∃ after,
      step ⟨s.it, .give v, .assign pos name [] :: work⟩ = ⟨after, .finish none, work⟩ ∧
      s.it.Assigned after name v) := by
  obtain ⟨V, sound, -⟩ := reached_valid reached
  have next : step ⟨s.it, .give v, .assign pos name [] :: work⟩ =
      if s.it.consts.contains name then ⟨s.it, .fail pos (.constAssignment name), work⟩
      else ⟨s.it.assign name v, .finish none, work⟩ := rfl
  constructor
  · intro isConst
    rw [next, if_pos isConst]
  · intro noConst
    refine ⟨s.it.assign name v, ?_, ?_⟩
    · rw [next, noConst]
      rfl
    · exact Interpreter.assigned sound.arena sound.carries.active (sound.carries.binding name) noConst v

/-- A program that assigns to a global variable while a definition of the same name stands nearer. -/
def hidden : Syntax.Program :=
  ⟨[.assign .none "f" [] (.null .none), .define .none "main" []
    [.define .none "f" [] [], .assign .none "f" [] (.bool .none true)]]⟩

theorem assignment_effect_hidden :
    ∃ s after work, Reached ⟨8, 7⟩ {} s ∧ s = ⟨s.it, .give (.bool true), .assign .none "f" [] :: work⟩ ∧
      step s = ⟨after, .finish none, work⟩ ∧ s.it.Assigned after "f" (.bool true) ∧
      after.global? "f" = some (.bool true) ∧ after.lookup "f" = .ok (.closure 1) := by
  have loading : Reached ⟨8, 7⟩ {} ((Request.load hidden).start (.new ⟨8, 7⟩ {})) :=
    .turn .new rfl none (.load hidden)
  have running := Reached.turn loading.step.step.step.step.step.step.step rfl none .run
  have computed := running.step.step.step
  obtain ⟨after, next, assigned⟩ :=
    (assignment_effect computed .none "f" (.bool true) [.commands [], .call 0 1]).2 rfl
  refine ⟨_, after, _, computed, rfl, next, assigned, ?_, ?_⟩
  all_goals
    obtain rfl := congrArg State.it next
    rfl

end Host

end RetroScript
