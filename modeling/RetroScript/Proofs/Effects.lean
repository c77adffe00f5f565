import RetroScript.Proofs.CallStack
import RetroScript.Proofs.Holding

/-!
# What a step can change

Code gets at scopes and values from the active scope, the constants and the values in flight.
`Encloses D V it` says that this never leads out of the scopes `D` and the values `V`. Then a step that
ends no call changes nothing else, and all it hands on is in `V`: `acts_step`.
-/

namespace RetroScript

namespace Heap

variable {h : Heap}

theorem array_modifyArray_other {ref other : Nat} (f : Array Value → Array Value) (differs : other ≠ ref) :
    (h.modifyArray ref f).array other = h.array other := by
  simp [modifyArray, array, Array.getElem?_modify, differs.symm]

theorem map_modifyMap_other {ref other : Nat} (f : Dict Value → Dict Value) (differs : other ≠ ref) :
    (h.modifyMap ref f).map other = h.map other := by
  simp [modifyMap, map, Array.getElem?_modify, differs.symm]

/-- A heap whose containers outside `V` are those of `h`, and with the same functions. -/
structure Spares (V : Value → Prop) (h h' : Heap) : Prop where
  closures : h'.closures = h.closures
  array : ∀ {ref}, ¬ V (.array ref) → h'.array ref = h.array ref
  map : ∀ {ref}, ¬ V (.map ref) → h'.map ref = h.map ref

variable {V : Value → Prop}

theorem spares_newArray (closed : h.Closed V) (items : Array Value) : h.Spares V (h.newArray items).2 where
  closures := rfl
  array {ref} outside := by
    rw [array_newArray, if_neg]
    rintro rfl
    exact outside (closed.newArrays (Nat.le_refl _))
  map _ := rfl

theorem spares_newMap (closed : h.Closed V) (entries : Dict Value) : h.Spares V (h.newMap entries).2 where
  closures := rfl
  array _ := rfl
  map {ref} outside := by
    rw [map_newMap, if_neg]
    rintro rfl
    exact outside (closed.newMaps (Nat.le_refl _))

/-- A change at a place of a container in `V`. -/
theorem spares_place {room : Nat} {base key : Value} {p : Place} (inside : V base)
    (found : h.place room base key = .ok p) :
    (∀ v, h.Spares V (h.put p v)) ∧ h.Spares V (h.erase p) := by
  rcases place_cases found with ⟨ref, i, rfl, rfl⟩ | ⟨ref, name, rfl, rfl⟩
  · have spares : ∀ f, h.Spares V (h.modifyArray ref f) := fun f =>
      ⟨rfl, fun outside => array_modifyArray_other f fun same => outside (same ▸ inside), fun _ => rfl⟩
    exact ⟨fun v => spares _, spares _⟩
  · have spares : ∀ f, h.Spares V (h.modifyMap ref f) := fun f =>
      ⟨rfl, fun _ => rfl, fun outside => map_modifyMap_other f fun same => outside (same ▸ inside)⟩
    exact ⟨fun v => spares _, spares _⟩

end Heap

namespace Arena

variable {a : Arena}

/-- A slot that is used for a new scope keeps what is in it, apart from its parent. -/
theorem get_push_parts (function : String) (parent other : ScopeId) :
    ((a.push function parent).2.get other).vars = (a.get other).vars ∧
      ((a.push function parent).2.get other).defs = (a.get other).defs ∧
      ∀ p, ((a.push function parent).2.get other).parent = some p →
        p = parent ∨ (a.get other).parent = some p := by
  unfold push
  split
  · exact get_modify_elim (P := fun other s => s.vars = (a.get other).vars ∧ s.defs = (a.get other).defs ∧
      ∀ p, s.parent = some p → p = parent ∨ (a.get other).parent = some p)
      ⟨rfl, rfl, fun _ => Or.inr⟩ fun _ => ⟨rfl, rfl, fun _ up => Or.inl (Option.some.inj up).symm⟩
  · by_cases new : other = a.slots.size
    · subst new
      have before : a.get a.slots.size = default := get_outside (Nat.le_refl _)
      rw [before]
      simp only [get, Array.getD_eq_getD_getElem?, Array.getElem?_push_size, Option.getD_some]
      exact ⟨rfl, rfl, fun _ up => Or.inl (Option.some.inj up).symm⟩
    · have same : Arena.get { a with slots := a.slots.push { function, parent := some parent } } other =
          a.get other := by
        simp only [get, Array.getD_eq_getD_getElem?, Array.getElem?_push, if_neg new]
      rw [same]
      exact ⟨rfl, rfl, fun _ => Or.inr⟩

theorem inUse_push_of_inUse (function : String) (parent : ScopeId) {other : ScopeId}
    (inUse : a.InUse other) : (a.push function parent).2.InUse other := by
  obtain ⟨inside, unused⟩ := inUse
  unfold push
  split
  · next id free list =>
    rw [list] at unused
    exact ⟨by simpa using inside, fun member => unused (List.mem_cons_of_mem _ member)⟩
  · exact ⟨by simpa using Nat.lt_succ_of_lt inside, unused⟩

end Arena

namespace Interpreter

/-- An interpreter without what the host keeps. -/
def alone (it : Interpreter) : Interpreter := { it with kept := [] }

/-- Code in the active scope gets at scopes of `D` and values of `V` only. -/
structure Encloses (D : ScopeId → Prop) (V : Value → Prop) (it : Interpreter) : Prop where
  carries : it.alone.Carries D V
  functions : ∀ {ref}, V (.closure ref) → D (it.heap.closure ref).scope

/-- The scopes `D` are in use, and those of the functions in `V` last. -/
structure Safe (D : ScopeId → Prop) (V : Value → Prop) (it : Interpreter) : Prop where
  arena : it.arena.WellFormed
  inUse : ∀ {id}, D id → it.arena.InUse id
  lasting : ∀ {ref}, V (.closure ref) → it.arena.Lasting (it.heap.closure ref).scope

/-- A change inside `D` and `V` that starts and ends no call. -/
structure Changes (D : ScopeId → Prop) (V : Value → Prop) (it it' : Interpreter) : Prop where
  steady : it.Steady it'
  kept : it'.kept = it.kept
  inUse : ∀ id, it'.arena.InUse id ↔ it.arena.InUse id
  scope : ∀ {id}, ¬ D id → it'.arena.get id = it.arena.get id
  array : ∀ {ref}, ¬ V (.array ref) → it'.heap.array ref = it.heap.array ref
  map : ∀ {ref}, ¬ V (.map ref) → it'.heap.map ref = it.heap.map ref
  closures : it.heap.closures.size ≤ it'.heap.closures.size
  closure : ∀ {ref}, ref < it.heap.closures.size → it'.heap.closure ref = it.heap.closure ref
  encloses : it'.Encloses D V
  safe : it.Safe D V → it'.Safe D V

variable {D : ScopeId → Prop} {V : Value → Prop} {it it' last : Interpreter}

/-- Everything is enclosed by all scopes and all values. -/
theorem encloses_all (it : Interpreter) : it.Encloses (fun _ => True) fun _ => True where
  carries := by
    refine ⟨⟨?_, ?_, ?_, ?_, ?_, ?_⟩, ?_, ?_, ?_, ?_, ?_, ?_⟩
    all_goals intros
    all_goals trivial
  functions _ := trivial

theorem Encloses.refl (encloses : it.Encloses D V) : it.Changes D V it :=
  ⟨.refl it, rfl, fun _ => .rfl, fun _ => rfl, fun _ => rfl, fun _ => rfl, Nat.le_refl _, fun _ => rfl, encloses,
    fun safe => safe⟩

theorem Changes.trans (first : it.Changes D V it') (second : it'.Changes D V last) :
    it.Changes D V last where
  steady := first.steady.trans second.steady
  kept := second.kept.trans first.kept
  inUse id := (second.inUse id).trans (first.inUse id)
  scope outside := (second.scope outside).trans (first.scope outside)
  array outside := (second.array outside).trans (first.array outside)
  map outside := (second.map outside).trans (first.map outside)
  closures := Nat.le_trans first.closures second.closures
  closure inside := (second.closure (Nat.lt_of_lt_of_le inside first.closures)).trans (first.closure inside)
  encloses := second.encloses
  safe before := second.safe (first.safe before)

/-! ### Changes of the interpreter -/

/-- A change that has nothing to do with scopes or values. -/
theorem Encloses.update (encloses : it.Encloses D V) (steady : it.Steady it') (arena : it'.arena = it.arena)
    (heap : it'.heap = it.heap) (consts : it'.consts = it.consts) (kept : it'.kept = it.kept) :
    it.Changes D V it' := by
  have outside : it'.alone.outside = it.alone.outside := by
    simp only [Interpreter.outside, alone, consts]
  have closed : it'.alone.heap.Closed V := by
    show it'.heap.Closed V
    rw [heap]
    exact encloses.carries.heap
  refine ⟨steady, kept, fun id => by rw [arena], fun _ => by rw [arena], fun _ => by rw [heap],
    fun _ => by rw [heap], Nat.le_of_eq (by rw [heap]), fun _ => by rw [heap], ⟨?_, ?_⟩, fun safe => ?_⟩
  · exact encloses.carries.transfer arena steady.active outside closed
  · rw [heap]
    exact encloses.functions
  · refine ⟨arena ▸ safe.arena, arena ▸ safe.inUse, ?_⟩
    rw [arena, heap]
    exact safe.lasting

theorem Encloses.setHeap (encloses : it.Encloses D V) {heap : Heap} (spares : it.heap.Spares V heap)
    (closed : heap.Closed V) : it.Changes D V { it with heap } := by
  have closure : ∀ ref, heap.closure ref = it.heap.closure ref := fun ref => by
    simp only [Heap.closure, spares.closures]
  refine ⟨⟨rfl, rfl, rfl, rfl, .refl _⟩, rfl, fun _ => .rfl, fun _ => rfl, spares.array, spares.map,
    Nat.le_of_eq (by rw [spares.closures]), fun _ => closure _,
    ⟨encloses.carries.transfer rfl rfl rfl closed, fun {ref} valid => ?_⟩,
    fun safe => ⟨safe.arena, safe.inUse, fun {ref} valid => ?_⟩⟩
  · show D (heap.closure ref).scope
    rw [closure]
    exact encloses.functions valid
  · show it.arena.Lasting (heap.closure ref).scope
    rw [closure]
    exact safe.lasting valid

theorem Encloses.modify (encloses : it.Encloses D V) {id : ScopeId} (inside : D id) {f : Scope → Scope}
    (parent : ∀ s, (f s).parent = s.parent) (captured : ∀ s, s.captured = true → (f s).captured = true)
    (var : ∀ {s : Scope} {v}, v ∈ (f s).vars.values → v ∈ s.vars.values ∨ V v)
    (defn : ∀ {s : Scope} {ref}, ref ∈ (f s).defs.values → ref ∈ s.defs.values ∨ V (.closure ref)) :
    it.Changes D V { it with arena := it.arena.modify id f } := by
  have used := fun other => Arena.inUse_modify it.arena id other f
  refine ⟨⟨rfl, rfl, rfl, rfl, .refl _⟩, rfl, used, ?_, fun _ => rfl, fun _ => rfl, Nat.le_refl _, fun _ => rfl,
    ⟨encloses.carries.modify id parent var defn, encloses.functions⟩, fun safe => ?_⟩
  · intro other outside
    exact Arena.get_modify_other it.arena f fun same => outside (same ▸ inside)
  · refine ⟨safe.arena.modify (safe.inUse inside) parent captured,
      fun inside => (used _).mpr (safe.inUse inside), fun valid => ?_⟩
    obtain ⟨inUse, lasts⟩ := safe.lasting valid
    refine ⟨(used _).mpr inUse, lasts.imp_right fun before => ?_⟩
    exact Arena.get_modify_elim (P := fun _ s => s.captured = true) before fun _ => captured _ before

theorem Encloses.assign (encloses : it.Encloses D V) (name : String) {v : Value} (valid : V v) :
    it.Changes D V (it.assign name v) := by
  have target : D ((it.arena.findBinding it.active name).getD it.active) := encloses.carries.binding name
  refine encloses.modify target (fun _ => rfl) (fun _ before => before) (fun member => ?_) Or.inl
  rcases Dict.mem_values_insert member with rfl | old
  · exact Or.inr valid
  · exact Or.inl old

theorem Encloses.makeClosure (encloses : it.Encloses D V) (name : String) (params : List String)
    (body : List Syntax.Command) : it.Changes D V (it.makeClosure name params body).2 := by
  have active : D it.active := encloses.carries.active
  have captured : it.Changes D V { it with arena := it.arena.capture it.active } :=
    encloses.modify active (fun _ => rfl) (fun _ _ => rfl) Or.inl Or.inl
  have size : it.heap.closures.size ≤ (it.heap.newClosure ⟨name, params, body, it.active⟩).2.closures.size := by
    simp [Heap.newClosure]
  refine ⟨⟨rfl, rfl, rfl, rfl, .refl _⟩, rfl, captured.inUse, captured.scope, fun _ => rfl, fun _ => rfl, size,
    fun {ref} inside => ?_, ⟨?_, fun {ref} valid => ?_⟩, fun safe => ?_⟩
  · refine (Heap.closure_newClosure it.heap _ ref).trans (if_neg ?_)
    exact Nat.ne_of_lt inside
  · exact captured.encloses.carries.transfer rfl rfl rfl (encloses.carries.heap.newClosure _)
  · show D ((it.heap.newClosure _).2.closure ref).scope
    rw [Heap.closure_newClosure]
    split
    · exact active
    · exact encloses.functions valid
  · have inUse := safe.inUse active
    obtain ⟨arena, used, lasting⟩ := captured.safe safe
    refine ⟨arena, used, fun {ref} valid => ?_⟩
    show (it.arena.capture it.active).Lasting ((it.heap.newClosure _).2.closure ref).scope
    rw [Heap.closure_newClosure]
    split
    · refine ⟨used active, Or.inr ?_⟩
      exact congrArg Scope.captured (Arena.get_modify_same it.arena _ inUse.1)
    · exact lasting valid

theorem Encloses.define (encloses : it.Encloses D V) (name : String) (params : List String)
    (body : List Syntax.Command) : it.Changes D V (it.define name params body) := by
  have made := encloses.makeClosure name params body
  have active : D (it.makeClosure name params body).2.active := made.encloses.carries.active
  refine made.trans (made.encloses.modify active (fun _ => rfl) (fun _ before => before) Or.inl fun member => ?_)
  rcases Dict.mem_values_insert member with rfl | old
  · exact Or.inr (encloses.carries.heap.newClosures (Nat.le_refl _))
  · exact Or.inl old

theorem Encloses.constant (encloses : it.Encloses D V) (name : String) {v : Value} (valid : V v) :
    it.Changes D V { it with consts := it.consts.insert name v } :=
  ⟨⟨rfl, rfl, rfl, rfl, .refl _⟩, rfl, fun _ => .rfl, fun _ => rfl, fun _ => rfl, fun _ => rfl, Nat.le_refl _,
    fun _ => rfl, ⟨encloses.carries.constant name valid, encloses.functions⟩,
    fun safe => ⟨safe.arena, safe.inUse, safe.lasting⟩⟩

theorem Encloses.answers (encloses : it.Encloses D V) {answer : Builtin.Answer}
    (answers : Builtin.Answers it answer) :
    it.Changes D V answer.2 ∧ ∀ v, answer.1 = .ok v → V v := by
  have frame := answers.frame
  obtain ⟨closed, valid⟩ := answers.closed encloses.carries.heap
  have spares : it.heap.Spares V answer.2.heap := by
    rcases answers.result with ⟨same, _⟩ | ⟨names, made⟩
    · rw [same]
      exact ⟨rfl, fun _ => rfl, fun _ => rfl⟩
    · rw [(Prod.mk.inj made).2]
      exact Heap.spares_newArray encloses.carries.heap _
  have changed := encloses.setHeap spares closed
  have after : Interpreter.Changes D V { it with heap := answer.2.heap } answer.2 := by
    refine changed.encloses.update ⟨?_, ?_, ?_, ?_, answers.diag⟩ ?_ rfl ?_ ?_
    all_goals rw [frame]
  exact ⟨changed.trans after, valid⟩

/-! ### Scopes that come and go -/

/-- A call whose scope, and whose function's scope, are inside. -/
theorem Encloses.enter (encloses : it.Encloses D V) {c : Closure} {args : List Value} (pos : Position)
    (own : D (it.enter c args pos).1) (outer : D c.scope) (valid : ∀ v ∈ args, V v) :
    (it.enter c args pos).2.Encloses D V := by
  have carries := encloses.carries
  let pushed : Interpreter :=
    { it with arena := (it.arena.push c.name c.scope).2, active := (it.enter c args pos).1 }
  have parts := Arena.get_push_parts (a := it.arena) c.name c.scope
  have opened : pushed.Encloses D V := by
    refine ⟨⟨carries.heap, own, carries.global, ?_, ?_, ?_, carries.outside⟩, encloses.functions⟩
    · intro id p inside up
      rcases (parts id).2.2 p up with rfl | old
      · exact outer
      · exact carries.parent inside old
    · intro id v inside member
      exact carries.var inside ((parts id).1 ▸ member)
    · intro id ref inside member
      exact carries.defn inside ((parts id).2.1 ▸ member)
  let fill : Scope → Scope := fun s => { s with vars := s.vars.insertAll (c.params.zip args) }
  have filled : Encloses D V { pushed with arena := pushed.arena.modify pushed.active fill } := by
    refine (opened.modify (f := fill) own (fun _ => rfl) (fun _ before => before) (fun member => ?_) Or.inl).encloses
    rcases Dict.mem_values_insertAll member with argument | old
    · obtain ⟨e, bound, rfl⟩ := List.mem_map.mp argument
      exact Or.inr (valid _ (List.of_mem_zip bound).2)
    · exact Or.inl old
  refine ⟨?_, filled.functions⟩
  exact filled.carries.transfer (arena_enter it c args pos) rfl rfl filled.carries.heap

/-- A change that empties scopes and leaves the others as they are. -/
theorem Encloses.emptied {D' : ScopeId → Prop} (encloses : it.Encloses D V) (grows : ∀ {id}, D id → D' id)
    (arena : ∀ {id}, D' id → D id ∧ it'.arena.get id = it.arena.get id ∨ (it'.arena.get id).Blank)
    (heap : it'.heap = it.heap) (consts : it'.consts = it.consts) (active : D' it'.active) :
    it'.Encloses D' V := by
  have carries := encloses.carries
  refine ⟨⟨?_, active, grows carries.global, ?_, ?_, ?_, ?_⟩, ?_⟩
  · show it'.heap.Closed V
    exact heap ▸ carries.heap
  · intro id p inside up
    rcases arena inside with ⟨old, same⟩ | blank
    · exact grows (carries.parent old ((congrArg Scope.parent same).symm.trans up))
    · cases blank.parent.symm.trans up
  · intro id v inside member
    rcases arena inside with ⟨old, same⟩ | blank
    · exact carries.var old (congrArg Scope.vars same ▸ member)
    · replace member : v ∈ (it'.arena.get id).vars.values := member
      rw [blank.vars] at member
      cases member
  · intro id ref inside member
    rcases arena inside with ⟨old, same⟩ | blank
    · exact carries.defn old (congrArg Scope.defs same ▸ member)
    · replace member : ref ∈ (it'.arena.get id).defs.values := member
      rw [blank.defs] at member
      cases member
  · have outside : it'.alone.outside = it.alone.outside := by
      simp only [Interpreter.outside, alone, consts]
    intro v member
    exact carries.outside (outside ▸ member)
  · intro ref valid
    rw [heap]
    exact grows (encloses.functions valid)

end Interpreter

/-! ### Steps -/

namespace Machine

open Syntax (Expr Command Item)

/-- What a step does that ends no call: it changes what it gets at and goes on with other work above
`base`, or starts a call. The calls in progress above `base` are `calls`. -/
inductive Acts (D : ScopeId → Prop) (V : Value → Prop) (it : Interpreter) (calls : List ScopeId)
    (base : List Pending) : State → Prop where
  | goes {it' : Interpreter} {control : Control} {front : List Pending} (changes : it.Changes D V it')
      (same : callScopes front = calls) (held : ∀ v ∈ heldBy front, V v) (given : ∀ v ∈ control.held, V v)
      (running : control.Running) : Acts D V it calls base ⟨it', control, front ++ base⟩
  | enters {it' : Interpreter} {front : List Pending} (changes : it.Changes D V it')
      (same : callScopes front = calls) (held : ∀ v ∈ heldBy front, V v) (pos : Position) {ref : Nat}
      {args : List Value} (callee : V (.closure ref)) (valid : ∀ v ∈ args, V v) :
      Acts D V it calls base (enter it' pos ref args (front ++ base))

section

variable {D : ScopeId → Prop} {V : Value → Prop} {it it' : Interpreter} {calls : List ScopeId}
  {front base : List Pending} (changes : it.Changes D V it') (same : callScopes front = calls)
  (held : ∀ v ∈ heldBy front, V v)

include changes same held

theorem acts_quiet {control : Control} (none : control.held = []) (running : control.Running) :
    Acts D V it calls base ⟨it', control, front ++ base⟩ :=
  .goes changes same held (by rw [none]; simp) running

theorem acts_give {v : Value} (valid : V v) : Acts D V it calls base ⟨it', .give v, front ++ base⟩ :=
  .goes changes same held (List.forall_mem_cons.mpr ⟨valid, by simp⟩) trivial

theorem acts_waiting {control : Control} {pending : Pending} (none : control.held = [])
    (running : control.Running) (noCall : callScopes (pending :: front) = callScopes front) (own : ∀ v ∈ pending.held, V v) :
    Acts D V it calls base ⟨it', control, pending :: (front ++ base)⟩ :=
  acts_quiet changes (noCall.trans same) (forall_heldBy_cons.mpr ⟨own, held⟩) none running

theorem acts_giveOrFail (pos : Position) {r : Except Fault Value} (valid : ∀ v, r = .ok v → V v) :
    Acts D V it calls base (giveOrFail it' pos r (front ++ base)) := by
  cases r with
  | ok v => exact acts_give changes same held (valid v rfl)
  | error f => exact acts_quiet changes same held rfl trivial

theorem acts_changeOrFail (pos : Position) {r : Except Fault Heap.Place} {change : Heap → Heap.Place → Heap}
    (spares : ∀ p, r = .ok p → it'.heap.Spares V (change it'.heap p))
    (closed : ∀ p, (change it'.heap p).Closed V) :
    Acts D V it calls base (changeOrFail it' pos r change (front ++ base)) := by
  cases r with
  | ok p =>
    have changed := changes.encloses.setHeap (spares p rfl) (closed p)
    exact acts_quiet (changes.trans changed) same held rfl trivial
  | error f => exact acts_quiet changes same held rfl trivial

theorem acts_invoke (pos : Position) (name : String) {args : List Value} (valid : ∀ v ∈ args, V v) :
    Acts D V it calls base (invoke it' pos name args (front ++ base)) := by
  unfold invoke
  split
  · next b _ =>
    obtain ⟨after, result⟩ := changes.encloses.answers (Builtin.answers_call it' b args)
    split
    · next answered =>
      rw [answered] at after result
      exact acts_give (changes.trans after) same held (result _ rfl)
    · next answered =>
      rw [answered] at after
      exact acts_quiet (changes.trans after) same held rfl trivial
  · split
    · next found => exact .enters changes same held pos (changes.encloses.carries.findClosure found) valid
    · exact acts_quiet changes same held rfl trivial

theorem acts_complete {values : List Value} (valid : ∀ v ∈ values, V v) {use : Use}
    (used : ∀ v ∈ use.held, V v) : Acts D V it calls base (complete it' values (front ++ base) use) := by
  have closed := changes.encloses.carries.heap
  have groups : ∀ pos more, ∀ v ∈ heldBy (.groups pos more :: front), V v := fun pos more =>
    forall_heldBy_cons.mpr ⟨fun v member => (by cases member), held⟩
  cases use with
  | array =>
    have made := changes.encloses.setHeap (Heap.spares_newArray closed values.toArray)
      (closed.newArray (by simpa using valid))
    exact acts_give (changes.trans made) same held (closed.newArrays (Nat.le_refl _))
  | invoke pos name more =>
    exact acts_invoke changes (by exact same) (groups pos more) pos name valid
  | apply pos callee more =>
    cases callee with
    | closure ref =>
      exact .enters changes (by exact same) (groups pos more) pos
        (used _ List.mem_cons_self) valid
    | _ => exact acts_quiet changes same held rfl trivial

theorem acts_gather {done : List Value} (valid : ∀ v ∈ done, V v) (rest : List Expr) {use : Use}
    (used : ∀ v ∈ use.held, V v) : Acts D V it calls base (gather it' done rest use (front ++ base)) := by
  cases rest with
  | nil => exact acts_complete changes same held (by simpa using valid) used
  | cons e es =>
    refine acts_waiting changes same held rfl trivial rfl fun v member => ?_
    exact (List.mem_append.mp member).elim (valid v) (used v)

theorem acts_gatherEntries {done : Dict Value} (valid : ∀ v ∈ done.values, V v)
    (rest : List (String × Expr)) : Acts D V it calls base (gatherEntries it' done rest (front ++ base)) := by
  have closed := changes.encloses.carries.heap
  cases rest with
  | nil =>
    have made := changes.encloses.setHeap (Heap.spares_newMap closed done) (closed.newMap valid)
    exact acts_give (changes.trans made) same held (closed.newMaps (Nat.le_refl _))
  | cons e es => exact acts_waiting changes same held rfl trivial rfl valid

theorem acts_reachInto (pos : Position) (name : String) (key : Expr) (rest : List Expr) {touch : Touch}
    (used : ∀ v ∈ touch.held, V v) :
    Acts D V it calls base (reachInto it' pos name key rest touch (front ++ base)) := by
  unfold reachInto
  split
  · next found =>
    exact acts_waiting changes same held rfl trivial rfl
      (List.forall_mem_cons.mpr ⟨changes.encloses.carries.lookup found, used⟩)
  · exact acts_quiet changes same held rfl trivial

theorem acts_reachOn (pos : Position) {container : Value} (inside : V container) (key : Value)
    (rest : List Expr) {touch : Touch} (used : ∀ v ∈ touch.held, V v) :
    Acts D V it calls base (reachOn it' pos container key rest touch (front ++ base)) := by
  have closed : it'.heap.Closed V := changes.encloses.carries.heap
  unfold reachOn
  split
  · split
    · next found =>
      exact acts_waiting changes same held rfl trivial rfl
        (List.forall_mem_cons.mpr ⟨closed.read inside found, used⟩)
    · exact acts_quiet changes same held rfl trivial
  · split
    · exact acts_changeOrFail changes same held pos (fun p found => (Heap.spares_place inside found).1 _)
        fun p => closed.put p (used _ List.mem_cons_self)
    · exact acts_changeOrFail changes same held pos (fun p found => (Heap.spares_place inside found).2)
        fun p => closed.erase p

theorem acts_assignTo (pos : Position) (name : String) (indexes : List Expr) {v : Value} (valid : V v) :
    Acts D V it calls base (assignTo it' pos name indexes v (front ++ base)) := by
  unfold assignTo
  split
  · exact acts_reachInto changes same held _ _ _ _ (List.forall_mem_cons.mpr ⟨valid, by simp⟩)
  · split
    · exact acts_quiet changes same held rfl trivial
    · exact acts_quiet (changes.trans (changes.encloses.assign name valid)) same held rfl trivial

omit same held in
theorem changes_defineItems (items : List Item) : it.Changes D V (defineItems it' items) := by
  fun_induction defineItems it' items with
  | case1 it' => exact changes
  | case2 it' pos name params body rest ih =>
    exact ih (changes.trans (changes.encloses.define name params body))
  | case3 it' item rest _ ih => exact ih changes

theorem acts_finishLoad (items : List Item) : Acts D V it calls base (finishLoad it' items (front ++ base)) := by
  have after := changes_defineItems changes items
  unfold finishLoad
  dsimp only
  split <;> exact acts_quiet after same held rfl trivial

omit same held in
theorem changes_pos (pos : Position) : it.Changes D V { it' with pos } :=
  changes.trans (changes.encloses.update ⟨rfl, rfl, rfl, rfl, .refl _⟩ rfl rfl rfl rfl)

theorem acts_stepLoad (items : List Item) : Acts D V it calls base (stepLoad it' (front ++ base) items) := by
  have nothing : ∀ v ∈ ([] : List Value), V v := fun v member => by cases member
  have next : ∀ rest, ∀ v ∈ heldBy (.items rest :: front), V v := fun rest =>
    forall_heldBy_cons.mpr ⟨nothing, held⟩
  cases items with
  | nil => exact acts_quiet changes same held rfl trivial
  | cons item rest =>
    cases item with
    | const pos name value =>
      exact acts_waiting (changes_pos changes pos) (by exact same) (next rest) rfl trivial
        rfl nothing
    | assign pos name indexes value =>
      exact acts_waiting (changes_pos changes pos) (by exact same) (next rest) rfl trivial
        rfl nothing
    | remark | define => exact acts_quiet changes same held rfl trivial

theorem acts_stepEval (e : Expr) : Acts D V it calls base (stepEval it' (front ++ base) e) := by
  have closed : it'.heap.Closed V := changes.encloses.carries.heap
  have nothing : ∀ v ∈ ([] : List Value), V v := fun v member => by cases member
  cases e with
  | number | bool | null | string => exact acts_give changes same held (closed.plain trivial)
  | array pos items => exact acts_gather changes same held nothing _ nothing
  | map pos entries => exact acts_gatherEntries changes same held (by exact nothing) _
  | «variable» pos name =>
    exact acts_giveOrFail changes same held _ fun v found => changes.encloses.carries.lookup found
  | index pos base key => exact acts_waiting changes same held rfl trivial rfl nothing
  | lambda pos params body =>
    have made := changes.encloses.makeClosure ("_anon_" ++ toString it'.lambdas) params body
    have counted : it'.Changes D V (it'.makeLambda params body).2 :=
      made.trans (made.encloses.update ⟨rfl, rfl, rfl, rfl, .refl _⟩ rfl rfl rfl rfl)
    exact acts_give (changes.trans counted) same held (closed.newClosures (Nat.le_refl _))
  | call pos name args more => exact acts_gather changes same held nothing _ nothing
  | binary pos op left right => exact acts_waiting changes same held rfl trivial rfl nothing

theorem acts_stepCommand (rest : List Command) (c : Command) :
    Acts D V it calls base (stepCommand it' rest (front ++ base) c) := by
  have nothing : ∀ v ∈ ([] : List Value), V v := fun v member => by cases member
  have next : ∀ v ∈ heldBy (.commands rest :: front), V v := forall_heldBy_cons.mpr ⟨nothing, held⟩
  have called : ∀ v ∈ heldBy (.discard :: .commands rest :: front), V v :=
    forall_heldBy_cons.mpr ⟨nothing, next⟩
  cases c with
  | remark pos text => exact acts_quiet changes same held rfl trivial
  | delete pos name indexes =>
    cases indexes with
    | nil => exact acts_quiet changes same held rfl trivial
    | cons key keys =>
      exact acts_reachInto changes (by exact same) next _ _ _ _ nothing
  | define pos name params body =>
    exact acts_quiet (changes.trans (changes.encloses.define name params body)) same held rfl trivial
  | call pos name args more =>
    exact acts_gather changes (by exact same) called nothing _ nothing
  | assign | result | branch | loop =>
    exact acts_waiting changes (by exact same) next rfl trivial rfl nothing

theorem acts_stepGive {v : Value} (valid : V v) {pending : Pending} (own : ∀ w ∈ pending.held, V w)
    (notCall : ∀ callee scope, pending ≠ .call callee scope) :
    Acts D V it calls base (stepGive it' v (front ++ base) pending) := by
  have closed : it'.heap.Closed V := changes.encloses.carries.heap
  have nothing : ∀ w ∈ ([] : List Value), V w := fun w member => by cases member
  have single : ∀ w ∈ [v], V w := List.forall_mem_cons.mpr ⟨valid, nothing⟩
  cases pending with
  | operand pos op right => exact acts_waiting changes same held rfl trivial rfl single
  | operate pos op left =>
    exact acts_giveOrFail changes same held _ fun w found => closed.plain (Syntax.Operator.apply_plain found)
  | subscript pos key => exact acts_waiting changes same held rfl trivial rfl single
  | select pos base =>
    exact acts_giveOrFail changes same held _ fun w found =>
      closed.read (own base List.mem_cons_self) found
  | values done rest use =>
    have before : ∀ w ∈ done, V w := fun w member => own w (List.mem_append_left _ member)
    exact acts_gather changes same held (List.forall_mem_cons.mpr ⟨valid, before⟩) _
      fun w member => own w (List.mem_append_right _ member)
  | entries done name rest =>
    refine acts_gatherEntries changes same held (fun w member => ?_) _
    rcases Dict.mem_values_insert member with rfl | old
    · exact valid
    · exact own w old
  | groups pos more =>
    cases more with
    | nil => exact acts_give changes same held valid
    | cons args more => exact acts_gather changes same held nothing _ single
  | assign pos name indexes => exact acts_assignTo changes same held _ _ _ valid
  | reach pos container rest touch =>
    exact acts_reachOn changes same held _ (own container List.mem_cons_self) _ _
      fun w member => own w (List.mem_cons_of_mem _ member)
  | test condition body =>
    simp only [stepGive]
    split
    · exact acts_waiting changes same held rfl trivial rfl nothing
    · exact acts_quiet changes same held rfl trivial
  | result => exact .goes changes same held single trivial
  | again condition body => exact acts_waiting changes same held rfl trivial rfl nothing
  | call callee scope => exact absurd rfl (notCall callee scope)
  | constant name =>
    exact acts_quiet (changes.trans (changes.encloses.constant name valid)) same held rfl trivial
  | functions items => exact acts_finishLoad changes same held items
  | branch | discard | commands | items => exact acts_quiet changes same held rfl trivial

end

/-- Everything a step can do while there is work `front` above `base`. -/
inductive StepAbove (D : ScopeId → Prop) (V : Value → Prop) (s : State) (front base : List Pending) :
    Prop where
  | acts (running : s.control.Running) (acts : Acts D V s.it (callScopes front) base (step s))
  | leaves (callee : Nat) (scope : ScopeId) (result : Option Value) (control : Control)
      (rest : List Pending) (running : s.control.Running) (waiting : front = .call callee scope :: rest)
      (given : ∀ v ∈ control.held, V v) (goesOn : control.Running)
      (after : step s = ⟨exit s.it callee scope result (rest ++ base), control, rest ++ base⟩)
  | rests (ended : (State.mk s.it s.control front).outcome?.isSome)

theorem step_above {D : ScopeId → Prop} {V : Value → Prop} {s : State} {front base : List Pending}
    (encloses : s.it.Encloses D V) (held : ∀ v ∈ (State.mk s.it s.control front).held, V v)
    (split : s.work = front ++ base) : StepAbove D V s front base := by
  obtain ⟨it, control, work⟩ := s
  obtain rfl : work = front ++ base := split
  have changes := encloses.refl
  have closed : it.heap.Closed V := encloses.carries.heap
  obtain ⟨given, waiting⟩ : (∀ v ∈ control.held, V v) ∧ ∀ v ∈ heldBy front, V v :=
    List.forall_mem_append.mp held
  cases control with
  | load items => exact .acts trivial (acts_stepLoad changes rfl waiting items)
  | eval e => exact .acts trivial (acts_stepEval changes rfl waiting e)
  | exec commands =>
    cases commands with
    | nil => exact .acts trivial (acts_quiet changes rfl waiting rfl trivial)
    | cons c cs => exact .acts trivial (acts_stepCommand (changes_pos changes c.pos) rfl waiting cs c)
  | stop fatal => exact .rests rfl
  | give v =>
    cases front with
    | nil => exact .rests rfl
    | cons pending front =>
      have valid : V v := given v List.mem_cons_self
      obtain ⟨own, rest⟩ := forall_heldBy_cons.mp waiting
      rcases call_or_not pending with ⟨callee, scope, rfl⟩ | notCall
      · exact .leaves callee scope (some v) (.give v) front trivial rfl given trivial rfl
      · have calls := (callScopes_cons_of_not_call front notCall).symm
        exact .acts trivial (acts_stepGive changes calls rest valid own notCall)
  | finish result =>
    cases front with
    | nil => exact .rests rfl
    | cons pending front =>
      have valid : ∀ v, result = some v → V v := fun v same => given v (Option.mem_toList.mpr same)
      obtain ⟨own, rest⟩ := forall_heldBy_cons.mp waiting
      rcases call_or_not pending with ⟨callee, scope, rfl⟩ | notCall
      · have handed : ∀ v ∈ (Control.give (result.getD .null)).held, V v :=
          List.forall_mem_cons.mpr ⟨closed.getD valid, by simp⟩
        exact .leaves callee scope result (.give (result.getD .null)) front trivial rfl handed trivial rfl
      · have calls := (callScopes_cons_of_not_call front notCall).symm
        refine .acts trivial ?_
        show Acts D V it _ base (stepFinish it result (front ++ base) pending)
        rcases stepFinish_eq it result (front ++ base) notCall with same | ⟨v, returned, same⟩
        · rw [same]
          exact acts_stepGive changes calls rest (closed.getD valid) own notCall
        · rw [same]
          exact .goes changes calls rest (returned ▸ given) trivial
  | fail pos fault =>
    cases front with
    | nil => exact .rests rfl
    | cons pending front =>
      obtain ⟨own, rest⟩ := forall_heldBy_cons.mp waiting
      cases pending with
      | call callee scope => exact .leaves callee scope none (.fail pos fault) front trivial rfl given trivial rfl
      | _ => exact .acts trivial (acts_quiet changes rfl rest rfl trivial)

end Machine

end RetroScript
