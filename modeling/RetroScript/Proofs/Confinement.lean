import RetroScript.Proofs.CallRun

/-!
# What a call can change

A call owns what it can reach from the scope of its function, its arguments and the constants, and all
that is new since it began. Whatever happens inside the call happens to what it owns. A collection may
free other scopes as well, but none that could be reached when the call began.
-/

namespace RetroScript

/-- Whether a node is there. -/
def Node.Present (it : Interpreter) : Node → Prop
  | .scope id => it.arena.InUse id
  | .array ref => ref < it.heap.arrays.size
  | .map ref => ref < it.heap.maps.size

namespace Interpreter

/-- What can be reached from the scope of the function `ref`, the arguments and the constants. -/
def CanReach (it : Interpreter) (ref : Nat) (args : List Value) : Node → Prop :=
  Reachable it.arena it.heap [(it.heap.closure ref).scope] (args ++ it.consts.values)

/-- What a call that is about to begin owns: what it can reach, and what is not there yet. -/
def Owns (it : Interpreter) (ref : Nat) (args : List Value) (n : Node) : Prop :=
  it.CanReach ref args n ∨ ¬ n.Present it

/-- A value that leads to what the call owns. -/
def OwnsValue (it : Interpreter) (ref : Nat) (args : List Value) (v : Value) : Prop :=
  ∀ n, v.Leads it.heap n → it.Owns ref args n

section

variable {start : Interpreter} {ref : Nat} {args : List Value}

/-! ### The start of a call -/

theorem present_of_link (wellFormed : start.arena.WellFormed) {m n : Node}
    (link : Link start.arena start.heap m n) : m.Present start := by
  have inside := link.inside
  cases m with
  | array r => exact inside
  | map r => exact inside
  | scope id =>
    refine ⟨inside, fun free => ?_⟩
    have blank := wellFormed.blank free
    cases link with
    | parent up => cases blank.parent.symm.trans up
    | var found leads =>
      rw [blank.vars] at found
      cases found
    | defn found =>
      rw [blank.defs] at found
      cases found

theorem Owns.link (wellFormed : start.arena.WellFormed) {m n : Node} (owns : start.Owns ref args m)
    (link : Link start.arena start.heap m n) : start.Owns ref args n := by
  rcases owns with reachable | absent
  · exact Or.inl (.link reachable link)
  · exact absurd (present_of_link wellFormed link) absent

theorem owns_array {r : Nat} : start.OwnsValue ref args (.array r) ↔ start.Owns ref args (.array r) := by
  constructor
  · intro owns
    exact owns _ (.array r)
  · rintro owns _ ⟨⟩
    exact owns

theorem owns_map {r : Nat} : start.OwnsValue ref args (.map r) ↔ start.Owns ref args (.map r) := by
  constructor
  · intro owns
    exact owns _ (.map r)
  · rintro owns _ ⟨⟩
    exact owns

theorem owns_closure {r : Nat} : start.OwnsValue ref args (.closure r) ↔
    start.Owns ref args (.scope (start.heap.closure r).scope) := by
  constructor
  · intro owns
    exact owns _ (.closure r)
  · rintro owns _ ⟨⟩
    exact owns

theorem closed_ownsValue (wellFormed : start.arena.WellFormed) :
    start.heap.Closed (start.OwnsValue ref args) where
  plain isPlain n leads := by
    cases leads <;> exact isPlain.elim
  item valid member n leads := (owns_array.mp valid).link wellFormed (.item member leads)
  entry {r v} valid member n leads := by
    obtain ⟨name, found⟩ := ((start.heap.map r).mem_values_iff v).mp member
    exact (owns_map.mp valid).link wellFormed (.entry found leads)
  newArrays bound := owns_array.mpr (Or.inr (Nat.not_lt.mpr bound))
  newMaps bound := owns_map.mpr (Or.inr (Nat.not_lt.mpr bound))
  newClosures bound := by
    rw [owns_closure, Heap.closure_outside bound]
    exact Or.inl .global

/-- A call begins inside what it owns. -/
theorem encloses_entered (wellFormed : start.arena.WellFormed) (ref : Nat) (args : List Value)
    (pos : Position) :
    (start.enter (start.heap.closure ref) args pos).2.Encloses
      (fun id => start.Owns ref args (.scope id)) (start.OwnsValue ref args) := by
  have outer : start.Owns ref args (.scope (start.heap.closure ref).scope) := Or.inl (.root List.mem_cons_self)
  have own : start.Owns ref args (.scope (start.enter (start.heap.closure ref) args pos).1) :=
    Or.inr (Arena.push_fresh start.arena _ _)
  have held : ∀ {v}, v ∈ args ++ start.consts.values → start.OwnsValue ref args v :=
    fun member n leads => Or.inl (.held member leads)
  -- Before the call the caller's scope is active, which need not be owned.
  have before : Encloses (fun id => start.Owns ref args (.scope id)) (start.OwnsValue ref args)
      { start with active := (start.heap.closure ref).scope } := by
    refine ⟨⟨closed_ownsValue wellFormed, outer, Or.inl .global, ?_, ?_, ?_, ?_⟩, owns_closure.mp⟩
    · exact fun owns up => owns.link wellFormed (.parent up)
    · intro id v owns member n leads
      obtain ⟨name, found⟩ := (Dict.mem_values_iff _ v).mp member
      exact owns.link wellFormed (.var found leads)
    · intro id r owns member
      obtain ⟨name, found⟩ := (Dict.mem_values_iff _ r).mp member
      exact owns_closure.mpr (owns.link wellFormed (.defn found))
    · intro v member
      rcases List.mem_append.mp member with constant | none
      · exact held (List.mem_append_right _ constant)
      · cases none
  have entered := before.enter pos own outer fun v member => held (List.mem_append_left _ member)
  exact ⟨entered.carries.transfer rfl rfl rfl entered.carries.heap, entered.functions⟩

end

end Interpreter

namespace Machine

open Interpreter

/-! ### What stays as it is -/

/-- An interpreter in a call of `ref` that began in `start`, with `work` waiting for it. All that the call
does not own is as it was, except for scopes that are `gone`, and those could not be reached. -/
structure Spared (start : Interpreter) (ref : Nat) (args : List Value) (work : List Pending)
    (gone : ScopeId → Prop) (it : Interpreter) : Prop where
  kept : it.kept = start.kept
  closures : start.heap.closures.size ≤ it.heap.closures.size
  closure : ∀ {r}, r < start.heap.closures.size → it.heap.closure r = start.heap.closure r
  scope : ∀ {id}, ¬ start.Owns ref args (.scope id) → ¬ gone id →
    it.arena.InUse id ∧ it.arena.get id = start.arena.get id
  array : ∀ {r}, ¬ start.Owns ref args (.array r) → it.heap.array r = start.heap.array r
  map : ∀ {r}, ¬ start.Owns ref args (.map r) → it.heap.map r = start.heap.map r
  lost : ∀ {id}, gone id → start.Owns ref args (.scope id) ∨
    ¬ Reachable start.arena start.heap start.roots (heldBy work ++ start.outside) (.scope id)

/-- The scopes that a call may use. -/
def Usable (start : Interpreter) (ref : Nat) (args : List Value) (gone : ScopeId → Prop) (id : ScopeId) :
    Prop := start.Owns ref args (.scope id) ∨ gone id

variable {start it it' : Interpreter} {ref : Nat} {args : List Value} {work : List Pending}
  {gone : ScopeId → Prop}

theorem spared_start : Spared start ref args work (fun _ => False) start where
  kept := rfl
  closures := Nat.le_refl _
  closure _ := rfl
  scope other _ := ⟨Classical.byContradiction fun unused => other (Or.inr unused), rfl⟩
  array _ := rfl
  map _ := rfl
  lost none := none.elim

theorem Spared.usable_of_unused (spared : Spared start ref args work gone it) {id : ScopeId}
    (unused : ¬ it.arena.InUse id) : Usable start ref args gone id := by
  by_contra other
  rw [Usable, not_or] at other
  exact unused (spared.scope other.1 other.2).1

theorem Spared.changes (spared : Spared start ref args work gone it)
    (changes : it.Changes (Usable start ref args gone) (start.OwnsValue ref args) it') :
    Spared start ref args work gone it' where
  kept := changes.kept.trans spared.kept
  closures := Nat.le_trans spared.closures changes.closures
  closure inside :=
    (changes.closure (Nat.lt_of_lt_of_le inside spared.closures)).trans (spared.closure inside)
  scope {id} other stays := by
    obtain ⟨inUse, same⟩ := spared.scope other stays
    exact ⟨(changes.inUse id).mpr inUse, (changes.scope (not_or.mpr ⟨other, stays⟩)).trans same⟩
  array other := (changes.array fun owns => other (owns_array.mp owns)).trans (spared.array other)
  map other := (changes.map fun owns => other (owns_map.mp owns)).trans (spared.map other)
  lost := spared.lost

/-- A new scope is in a slot that the call may use. -/
theorem Spared.enter (spared : Spared start ref args work gone it) (c : Closure) (values : List Value)
    (pos : Position) : Spared start ref args work gone (it.enter c values pos).2 := by
  refine ⟨spared.kept, spared.closures, spared.closure, fun {id} other stays => ?_, spared.array, spared.map,
    spared.lost⟩
  obtain ⟨inUse, same⟩ := spared.scope other stays
  refine ⟨?_, (get_enter_inUse inUse).trans same⟩
  rw [arena_enter, Arena.inUse_modify]
  exact Arena.inUse_push_of_inUse c.name c.scope inUse

theorem Spared.leave (spared : Spared start ref args work gone it) {scope : ScopeId}
    (usable : Usable start ref args gone scope) : Spared start ref args work gone (it.leave scope) := by
  refine ⟨spared.kept, spared.closures, spared.closure, fun {id} other stays => ?_, spared.array, spared.map,
    spared.lost⟩
  have differs : id ≠ scope := by
    rintro rfl
    exact usable.elim other stays
  obtain ⟨inUse, same⟩ := spared.scope other stays
  rcases it.arena.release_cases scope with ⟨_, released⟩ | ⟨_, _, released⟩
  · show (it.arena.release scope).2.InUse id ∧ (it.arena.release scope).2.get id = _
    rw [released]
    exact ⟨inUse, same⟩
  · show (it.arena.release scope).2.InUse id ∧ (it.arena.release scope).2.get id = _
    rw [released]
    exact ⟨Arena.inUse_freed.mpr ⟨inUse, differs⟩, (Arena.get_freed_other differs).trans same⟩

theorem Spared.closureScope (spared : Spared start ref args work gone it) {r : Nat}
    (other : ¬ start.Owns ref args (.scope (start.heap.closure r).scope)) :
    it.heap.closure r = start.heap.closure r := by
  by_cases old : r < start.heap.closures.size
  · exact spared.closure old
  · rw [Heap.closure_outside (Nat.not_lt.mp old)] at other
    exact absurd (Or.inl .global) other

theorem Spared.leads (spared : Spared start ref args work gone it) {v : Value} {n : Node}
    (leads : v.Leads start.heap n) (other : ¬ start.Owns ref args n) : v.Leads it.heap n := by
  cases leads with
  | array r => exact .array r
  | map r => exact .map r
  | closure r =>
    rw [← spared.closureScope other]
    exact .closure r

/-- What could be reached when the call began can still be reached, link by link, unless the call owns
it. -/
theorem Spared.reachable (spared : Spared start ref args work gone it)
    (wellFormed : start.arena.WellFormed) {held : List Value} (roots : ∀ id ∈ start.roots, id ∈ it.roots)
    (waiting : ∀ v ∈ heldBy work, v ∈ held) {n : Node}
    (reachable : Reachable start.arena start.heap start.roots (heldBy work ++ start.outside) n)
    (other : ¬ start.Owns ref args n) : Reachable it.arena it.heap it.roots (held ++ it.outside) n := by
  induction reachable with
  | global => exact .global
  | root member => exact .root (roots _ member)
  | @held v n member leads =>
    have leads' := spared.leads leads other
    rcases List.mem_append.mp member with waits | outside
    · exact .held (List.mem_append_left _ (waiting v waits)) leads'
    · rcases List.mem_append.mp outside with constant | kept
      · exact absurd (Or.inl (.held (List.mem_append_right _ constant) leads)) other
      · refine .held (List.mem_append_right _ (List.mem_append_right _ ?_)) leads'
        rw [spared.kept]
        exact kept
  | @link m n before link ih =>
    have outer : ¬ start.Owns ref args m := fun owns => other (owns.link wellFormed link)
    have sameScope : ∀ {id}, m = .scope id → it.arena.get id = start.arena.get id := by
      rintro id rfl
      refine (spared.scope outer fun isGone => ?_).2
      exact (spared.lost isGone).elim outer fun lost => lost before
    refine .link (ih outer) ?_
    cases link with
    | parent up => exact .parent (by rw [sameScope rfl]; exact up)
    | var found leads => exact .var (by rw [sameScope rfl]; exact found) (spared.leads leads other)
    | defn found =>
      rw [← spared.closureScope other]
      exact .defn (by rw [sameScope rfl]; exact found)
    | item member leads => exact .item (by rw [spared.array outer]; exact member) (spared.leads leads other)
    | entry found leads => exact .entry (by rw [spared.map outer]; exact found) (spared.leads leads other)

/-- A collection frees what it cannot reach, and so nothing that could be reached when the call began. -/
theorem Spared.collect (spared : Spared start ref args work gone it) (wellFormed : start.arena.WellFormed)
    {held : List Value} (roots : ∀ id ∈ start.roots, id ∈ it.roots) (waiting : ∀ v ∈ heldBy work, v ∈ held) :
    Spared start ref args work (fun id => gone id ∨ ¬ (it.collect held).2.arena.InUse id)
      (it.collect held).2 := by
  refine ⟨spared.kept, spared.closures, spared.closure, fun {id} other stays => ?_, spared.array, spared.map,
    fun {id} lost => ?_⟩
  · rw [not_or, not_not] at stays
    obtain ⟨_, reachable⟩ := Arena.inUse_collect.mp stays.2
    exact ⟨stays.2, (Arena.get_collect_reachable reachable).trans (spared.scope other stays.1).2⟩
  · rcases lost with before | unused
    · exact spared.lost before
    · by_cases other : start.Owns ref args (.scope id)
      · exact Or.inl other
      · by_cases before : gone id
        · exact spared.lost before
        · refine Or.inr fun reachable => unused (Arena.inUse_collect.mpr ⟨(spared.scope other before).1, ?_⟩)
          exact spared.reachable wellFormed roots waiting reachable other

theorem get_leave_or_blank (it : Interpreter) (scope id : ScopeId) :
    (it.leave scope).arena.get id = it.arena.get id ∨ ((it.leave scope).arena.get id).Blank := by
  show (it.arena.release scope).2.get id = _ ∨ ((it.arena.release scope).2.get id).Blank
  rcases it.arena.release_cases scope with ⟨_, released⟩ | ⟨_, _, released⟩
  · rw [released]
    exact Or.inl rfl
  · rw [released]
    exact Arena.get_modify_elim (P := fun id s => s = it.arena.get id ∨ s.Blank) (Or.inl rfl)
      fun _ => Or.inr (Scope.reset_blank _)

theorem get_collect_or_blank (it : Interpreter) (held : List Value) (id : ScopeId) :
    (it.collect held).2.arena.get id = it.arena.get id ∧
        (it.arena.InUse id → (it.collect held).2.arena.InUse id) ∨
      ((it.collect held).2.arena.get id).Blank := by
  by_cases dead : id ∈ it.arena.dead it.heap it.roots (held ++ it.outside)
  · have emptied : (it.collect held).2.arena.get id = (it.arena.get id).reset :=
      (Arena.get_collect id).trans (if_pos dead)
    rw [emptied]
    exact Or.inr (Scope.reset_blank _)
  · refine Or.inl ⟨(Arena.get_collect id).trans (if_neg dead), fun inUse => Arena.inUse_collect.mpr ⟨inUse, ?_⟩⟩
    by_contra lost
    exact dead (Arena.mem_dead_iff.mpr ⟨inUse, lost⟩)

/-- The end of a call in a scope that may be used. Scopes are emptied and nothing else happens to them. -/
theorem Spared.exit (spared : Spared start ref args work gone it) (wellFormed : start.arena.WellFormed)
    {scope : ScopeId} (usable : Usable start ref args gone scope) (callee : Nat) (result : Option Value)
    {pending : List Pending} (roots : ∀ id ∈ start.roots, id ∈ (it.leave scope).roots)
    (waiting : ∀ v ∈ heldBy work, v ∈ heldBy pending) :
    ∃ gone' : ScopeId → Prop, Spared start ref args work gone' (exit it callee scope result pending) ∧
      (∀ {id}, gone id → gone' id) ∧
      (∀ {id}, gone' id → gone id ∨ ¬ (exit it callee scope result pending).arena.InUse id) ∧
      ∀ {id}, Usable start ref args gone' id →
        Usable start ref args gone id ∧
          (exit it callee scope result pending).arena.get id = it.arena.get id ∨
        ((exit it callee scope result pending).arena.get id).Blank := by
  have left := spared.leave usable
  unfold Machine.exit
  dsimp only
  split
  · have holds : ∀ v ∈ heldBy work, v ∈ result.toList ++ .closure callee :: heldBy pending := fun v member =>
      List.mem_append_right _ (List.mem_cons_of_mem _ (waiting v member))
    refine ⟨_, left.collect wellFormed roots holds, Or.inl, fun lost => lost, fun {id} usable' => ?_⟩
    rcases get_collect_or_blank (it.leave scope) _ id with ⟨same, inUse⟩ | blank
    · by_cases before : Usable start ref args gone id
      · rw [same]
        exact (get_leave_or_blank it scope id).imp_left fun same => ⟨before, same⟩
      · -- A scope that only now may be used has been freed by the collection.
        have ⟨other, stays⟩ := not_or.mp before
        have unused := (usable'.resolve_left other).resolve_left stays
        exact absurd (inUse (left.scope other stays).1) unused
    · exact Or.inr blank
  · exact ⟨gone, left, fun before => before, Or.inl,
      fun {id} usable => (get_leave_or_blank it scope id).imp_left fun same => ⟨usable, same⟩⟩

/-! ### Steps of a call -/

/-- A state of a call, without the work below the call. -/
structure Confined (start : Interpreter) (ref : Nat) (args : List Value) (work : List Pending)
    (gone : ScopeId → Prop) (s : State) : Prop where
  encloses : s.it.Encloses (Usable start ref args gone) (start.OwnsValue ref args)
  held : ∀ v ∈ s.held, start.OwnsValue ref args v
  calls : ∀ id ∈ callScopes s.work, Usable start ref args gone id
  spared : Spared start ref args work gone s.it

theorem confined_enter (spared : Spared start ref args work gone it)
    (encloses : it.Encloses (Usable start ref args gone) (start.OwnsValue ref args)) {front : List Pending}
    (held : ∀ v ∈ heldBy front, start.OwnsValue ref args v)
    (calls : ∀ id ∈ callScopes front, Usable start ref args gone id) (pos : Position) {callee : Nat}
    {values : List Value} (owned : start.OwnsValue ref args (.closure callee))
    (valid : ∀ v ∈ values, start.OwnsValue ref args v) :
    Confined start ref args work gone (enter it pos callee values front) := by
  unfold enter
  dsimp only
  split
  · exact ⟨encloses, held, calls, spared⟩
  · split
    · exact ⟨encloses, held, calls, spared⟩
    · split
      · refine ⟨⟨encloses.carries.transfer rfl rfl rfl encloses.carries.heap, encloses.functions⟩, held, calls, ?_⟩
        exact ⟨spared.kept, spared.closures, spared.closure, spared.scope, spared.array, spared.map, spared.lost⟩
      · have own := spared.usable_of_unused
          (Arena.push_fresh it.arena (it.heap.closure callee).name (it.heap.closure callee).scope)
        refine ⟨encloses.enter pos own (encloses.functions owned) valid, ?_, ?_, spared.enter _ values pos⟩
        · exact forall_heldBy_cons.mpr ⟨List.forall_mem_singleton.mpr owned, held⟩
        · exact List.forall_mem_cons.mpr ⟨own, calls⟩

theorem roots_of_steady (steady : it.Steady it') : it'.roots = it.roots := by
  simp only [roots, steady.active, steady.frames]

variable {pos : Position} {front base : List Pending} {s : State}

/-- Inside a call, the scopes of its callers are roots. -/
theorem Amid.roots {c : Closure} (amid : Amid (start.enter c args pos).2 base front s) :
    ∀ id ∈ start.roots, id ∈ s.it.roots := by
  obtain ⟨pushed, frames, _⟩ := amid.within.paired
  intro id member
  have callers : s.it.frames.toList.map Frame.caller =
      start.frames.toList.map Frame.caller ++ start.active :: pushed.map Frame.caller := by
    rw [show s.it.frames.toList = _ from frames]
    simp [Interpreter.enter]
  rw [Interpreter.roots, callers]
  rcases List.mem_cons.mp member with rfl | caller
  · simp
  · exact List.mem_cons_of_mem _ (List.mem_append_left _ caller)

theorem Amid.resplit {origin : Interpreter} (amid : Amid origin base front s) {front' : List Pending}
    (split : s.work = front' ++ base) : Amid origin base front' s := by
  obtain rfl : front = front' := List.append_cancel_right (amid.split.symm.trans split)
  exact amid

/-- A step inside the call. What is gone after it was so before, or has just been freed. -/
theorem confined_step (wellFormed : start.arena.WellFormed) {c : Closure} {callee : Nat} {scope : ScopeId}
    (own : Usable start ref args gone (start.enter c args pos).1)
    (amid : Amid (start.enter c args pos).2 (.call callee scope :: work) front s)
    (confined : Confined start ref args work gone ⟨s.it, s.control, front⟩)
    (going : (State.mk s.it s.control front).outcome? = none) :
    ∃ gone' front', (∀ {id}, gone id → gone' id) ∧
      Amid (start.enter c args pos).2 (.call callee scope :: work) front' (step s) ∧
      Confined start ref args work gone' ⟨(step s).it, (step s).control, front'⟩ ∧
      ∀ {id}, gone' id → gone id ∨ ¬ (step s).it.arena.InUse id := by
  obtain ⟨encloses, held, calls, spared⟩ := confined
  obtain ⟨_, amid'⟩ := amid_step amid (amid.above.symm ▸ going)
  have above : StepAbove (Usable start ref args gone) (start.OwnsValue ref args) s front
      (.call callee scope :: work) := step_above encloses held amid.split
  cases above with
  | rests ended =>
    rw [going] at ended
    cases ended
  | acts running acts =>
    generalize step s = s' at acts amid'
    cases acts with
    | @goes it' control front' changes same held given goesOn =>
      refine ⟨gone, front', fun before => before, amid'.resplit rfl, ?_, Or.inl⟩
      exact ⟨changes.encloses, List.forall_mem_append.mpr ⟨given, held⟩, same ▸ calls, spared.changes changes⟩
    | @enters it' front' changes same held pos r values owned valid =>
      rw [enter_append] at amid' ⊢
      refine ⟨gone, _, fun before => before, amid'.resplit rfl, ?_, Or.inl⟩
      exact confined_enter (spared.changes changes) changes.encloses held (same ▸ calls) pos owned valid
  | leaves inner left result control rest running waiting given goesOn after =>
    subst waiting
    obtain ⟨_, below, last, frames, scopes⟩ := amid.within.innermost rfl
    obtain ⟨active, _⟩ := leave_frames left frames
    have steady := exit_steady s.it inner left result (rest ++ .call callee scope :: work)
    obtain ⟨usable, others⟩ := List.forall_mem_cons.mp calls
    have back : Usable start ref args gone last.caller := by
      have member : last.caller ∈ callScopes rest ++ [(start.enter c args pos).2.active] :=
        scopes ▸ List.mem_cons_self
      rcases List.mem_append.mp member with call | outermost
      · exact others _ call
      · rw [List.mem_singleton.mp outermost]
        exact own
    rw [after] at amid' ⊢
    have roots : ∀ id ∈ start.roots, id ∈ (s.it.leave left).roots := by
      rw [← roots_of_steady steady]
      exact amid'.roots
    have waiting : ∀ v ∈ heldBy work, v ∈ heldBy (rest ++ .call callee scope :: work) := by
      intro v member
      simp only [heldBy, List.flatMap_append, List.flatMap_cons, List.mem_append]
      exact Or.inr (Or.inr member)
    obtain ⟨gone', spared', grows, since, emptied⟩ := spared.exit wellFormed usable inner result roots waiting
    refine ⟨gone', rest, grows, amid'.resplit rfl, ⟨?_, ?_, ?_, spared'⟩, since⟩
    · obtain ⟨heap, consts⟩ := exit_store s.it inner left result (rest ++ .call callee scope :: work)
      refine encloses.emptied (fun before => before.imp_right grows) emptied heap consts ?_
      rw [steady.active, active]
      exact back.imp_right grows
    · exact List.forall_mem_append.mpr ⟨given, (forall_heldBy_cons.mp (List.forall_mem_append.mp held).2).2⟩
    · exact fun id member => (others id member).imp_right grows

/-! ### Runs of a call -/

/-- The last step of the call takes it back to its caller. -/
theorem confined_end (wellFormed : start.arena.WellFormed) {c : Closure} {callee : Nat} {scope : ScopeId}
    (own : Usable start ref args gone scope)
    (amid : Amid (start.enter c args pos).2 (.call callee scope :: work) [] s)
    (spared : Spared start ref args work gone s.it) (returned : Option Value) :
    ∃ gone', Spared start ref args work gone' (exit s.it callee scope returned work) ∧
      (exit s.it callee scope returned work).active = start.active ∧
      ∀ {id}, gone' id → gone id ∨ ¬ (exit s.it callee scope returned work).arena.InUse id := by
  obtain ⟨frames, _⟩ := Host.frames_of_no_calls amid.within rfl
  have pushed : s.it.frames.toList = start.frames.toList ++ [⟨pos, c.name, start.active⟩] := by
    rw [show s.it.frames = _ from frames]
    simp [Interpreter.enter]
  obtain ⟨active, below⟩ := leave_frames scope pushed
  have roots : (s.it.leave scope).roots = start.roots := by
    rw [Interpreter.roots, Interpreter.roots, active, below]
  obtain ⟨gone', spared', _, since, _⟩ := spared.exit wellFormed own callee returned
    (fun id member => roots ▸ member) fun v (member : v ∈ heldBy work) => member
  exact ⟨gone', spared', (exit_steady s.it callee scope returned work).active.trans active, since⟩

theorem confined_run (wellFormed : start.arena.WellFormed) {c : Closure} {callee n : Nat}
    {result : Except Error Value} {last : Interpreter} (survived : ∀ fatal, result ≠ .error (.fatal fatal))
    (own : Usable start ref args gone (start.enter c args pos).1)
    (amid : Amid (start.enter c args pos).2 (.call callee (start.enter c args pos).1 :: work) front s)
    (confined : Confined start ref args work gone ⟨s.it, s.control, front⟩)
    (ran : runCall work.length n s = some (result, last)) :
    ∃ gone', Spared start ref args work gone' last ∧ last.active = start.active ∧
      ∀ {id}, gone' id → gone id ∨
        ∃ k, runCall work.length k s = none ∧ ¬ (step^[k] s).it.arena.InUse id := by
  induction n generalizing s gone front with
  | zero => cases ran
  | succ n ih =>
    cases call_cases amid.split with
    | stopped fatal ended =>
      rw [runCall_ended ended] at ran
      cases ran
      exact absurd rfl (survived fatal)
    | goes within going =>
      rw [runCall_going going] at ran
      obtain ⟨gone', front', grows, amid', confined', freed⟩ :=
        confined_step wellFormed own amid confined within
      obtain ⟨gone'', spared, active, later⟩ := ih (own.imp_right grows) amid' confined' ran
      refine ⟨gone'', spared, active, fun {id} lost => ?_⟩
      rcases later lost with before | ⟨k, going', unused⟩
      · exact (freed before).imp_right fun unused => ⟨1, runCall_going going 0, unused⟩
      · exact Or.inr ⟨k + 1, (runCall_going going k).trans going', unused⟩
    | @ends returned after outcome final exits ended going =>
      subst final
      obtain ⟨gone', spared, active, freed⟩ := confined_end wellFormed own amid confined.spared returned
      obtain ⟨last, final⟩ := runCall_exit amid.split exits ended
      rw [runCall_going going] at ran
      cases n with
      | zero => cases ran
      | succ n =>
        rw [final n] at ran
        cases ran
        refine ⟨gone', spared, active, fun {id} lost => (freed lost).imp_right fun unused => ?_⟩
        exact ⟨1, runCall_going going 0, by rw [Function.iterate_one, last]; exact unused⟩

/-- A call that comes to no fatal stop goes back to its caller and spares what it does not own. -/
theorem call_spares (wellFormed : start.arena.WellFormed) {n : Nat} {result : Except Error Value}
    {last : Interpreter} (ran : runCall work.length n (enter start pos ref args work) = some (result, last))
    (survived : ∀ fatal, result ≠ .error (.fatal fatal)) :
    ∃ gone, Spared start ref args work gone last ∧ last.active = start.active ∧
      ∀ {id}, gone id → ∃ k, runCall work.length k (enter start pos ref args work) = none ∧
        ¬ (step^[k] (enter start pos ref args work)).it.arena.InUse id := by
  have refused : ∀ {it control outcome}, enter start pos ref args work = ⟨it, control, work⟩ →
      (State.mk it control []).outcome? = some outcome → outcome = result ∧ it = last := by
    intro it control outcome same ended
    cases n with
    | zero => cases ran
    | succ n =>
      rw [same, runCall_ended (by rw [above_done]; exact ended)] at ran
      exact Prod.mk.inj (Option.some.inj ran)
  rcases enter_cases start pos ref args work with ⟨it', fatal, stopped⟩ | ⟨fault, failed⟩ | ⟨room, entered⟩
  · obtain ⟨fatally, _⟩ := refused stopped rfl
    exact absurd fatally.symm (survived fatal)
  · obtain ⟨_, rfl⟩ := refused failed rfl
    exact ⟨fun _ => False, spared_start, rfl, fun none => none.elim⟩
  · rw [entered] at ran ⊢
    have amid := amid_entered room (start.heap.closure ref) args pos (start.heap.closure ref).body
      (.call ref (start.enter (start.heap.closure ref) args pos).1 :: work)
    have encloses := encloses_entered wellFormed ref args pos
    have own : Usable start ref args (fun _ => False) (start.enter (start.heap.closure ref) args pos).1 :=
      Or.inl encloses.carries.active
    have usable := encloses.emptied Or.inl (fun usable => Or.inl ⟨usable.resolve_right fun h => h, rfl⟩) rfl rfl own
    have nothing : ∀ v ∈ ([] : List Value), start.OwnsValue ref args v := fun v member => by cases member
    have confined : Confined start ref args work (fun _ => False)
        ⟨(start.enter (start.heap.closure ref) args pos).2, .exec (start.heap.closure ref).body, []⟩ :=
      ⟨usable, nothing, fun id member => (by cases member), spared_start.enter _ args pos⟩
    obtain ⟨gone, spared, active, since⟩ := confined_run wellFormed survived own amid confined ran
    exact ⟨gone, spared, active, fun lost => (since lost).resolve_left fun h => h⟩

end Machine

namespace Host

open Machine

/-- A call that comes to no fatal stop leaves alone what it cannot reach. A scope that is there when the
call begins is the same afterwards, or has been freed, which happens to no scope that a root or a held
value reaches. Arrays and maps are the same. The caller's scope is active again. -/
theorem call_confined {config : Config} {streams : Streams} {it last : Interpreter} {pos : Position}
    {ref n : Nat} {args : List Value} {work : List Pending} {result : Except Error Value}
    (calls : Calls config streams it pos ref args work)
    (ran : runCall work.length n (enter it pos ref args work) = some (result, last))
    (survived : ∀ fatal, result ≠ .error (.fatal fatal)) :
    (∀ id, it.arena.InUse id → ¬ it.CanReach ref args (.scope id) →
      last.arena.InUse id ∧ last.arena.get id = it.arena.get id ∨
      ¬ Reachable it.arena it.heap it.roots (heldBy work ++ it.outside) (.scope id) ∧
        ∃ k, runCall work.length k (enter it pos ref args work) = none ∧
          ¬ (step^[k] (enter it pos ref args work)).it.arena.InUse id) ∧
    (∀ r < it.heap.arrays.size, ¬ it.CanReach ref args (.array r) → last.heap.array r = it.heap.array r) ∧
    (∀ r < it.heap.maps.size, ¬ it.CanReach ref args (.map r) → last.heap.map r = it.heap.map r) ∧
    last.active = it.active ∧
    (¬ it.CanReach ref args (.scope it.active) →
      last.arena.InUse it.active ∧ last.arena.get it.active = it.arena.get it.active) := by
  obtain ⟨wellFormed, inUse⟩ := calls.arena
  obtain ⟨gone, spared, active, since⟩ := call_spares wellFormed ran survived
  have other : ∀ {n : Node}, n.Present it → ¬ it.CanReach ref args n → ¬ it.Owns ref args n :=
    fun present apart => not_or.mpr ⟨apart, not_not.mpr present⟩
  refine ⟨fun id inUse apart => ?_, fun r inside apart => spared.array (other inside apart),
    fun r inside apart => spared.map (other inside apart), active, fun apart => ?_⟩
  · have foreign : ¬ it.Owns ref args (.scope id) := other inUse apart
    by_cases isGone : gone id
    · exact Or.inr ⟨(spared.lost isGone).resolve_left foreign, since isGone⟩
    · exact Or.inl (spared.scope foreign isGone)
  · have foreign : ¬ it.Owns ref args (.scope it.active) := other inUse apart
    refine spared.scope foreign fun isGone => ?_
    exact (spared.lost isGone).elim foreign fun lost => lost (.root List.mem_cons_self)

/-- A function that calls itself while it is told to. -/
def again : Syntax.Program :=
  ⟨[.define .none "f" ["more"]
      [.branch .none (.variable .none "more") [.call .none "f" [.bool .none false] []] [],
        .result .none (.variable .none "more")],
    .define .none "main" [] [.result .none (.call .none "f" [.bool .none true] [])]]⟩

/-- The state in which the function is about to call itself. -/
def recurring : State :=
  step^[9] (Request.run.start (step^[4] ((Request.load again).start (.new ⟨8, 7⟩ {}))).it)

theorem reached_recurring : Reached ⟨8, 7⟩ {} recurring := by
  have loaded := Reached.steps (.turn (.new : Reached ⟨8, 7⟩ {} _) rfl none (.load again)) 4
  exact (Reached.turn loaded rfl none .run).steps 9

theorem recurring_apart : ¬ recurring.it.CanReach 0 [.bool false] (.scope 2) := by
  have marks : recurring.it.arena.reached recurring.it.heap [0] [.bool false] =
      (walk recurring.it.arena recurring.it.heap 12 (Marks.none recurring.it.arena recurring.it.heap)
        [.scope 0, .scope 0]).1 := mark_of_walk (by decide +kernel)
  have inside : Node.Inside recurring.it.arena recurring.it.heap (.scope 2) := by
    show 2 < recurring.it.arena.slots.size
    decide +kernel
  intro reachable
  have marked : (recurring.it.arena.reached recurring.it.heap [0] [.bool false]).has (.scope 2) = true :=
    (Arena.reached_has_iff inside).mpr reachable
  rw [marks] at marked
  exact absurd marked (by decide +kernel)

/-- The work that waits for the inner call. -/
def waiting : List Pending := .groups .none [] :: recurring.work.tail

/-- The inner call has an argument of the same name, and leaves the one of the outer call alone. -/
theorem call_confined_recurring :
    ∃ last, Calls ⟨8, 7⟩ {} recurring.it .none 0 [.bool false] waiting ∧ recurring.it.active = 2 ∧
      runCall waiting.length 16 (enter recurring.it .none 0 [.bool false] waiting) =
        some (.ok (.bool false), last) ∧
      ¬ recurring.it.CanReach 0 [.bool false] (.scope 2) ∧ last.active = 2 ∧
      (last.arena.get 2).vars.find? "more" = some (.bool true) := by
  have calls : Calls ⟨8, 7⟩ {} recurring.it .none 0 [.bool false] waiting := .program reached_recurring rfl rfl
  obtain ⟨last, ran⟩ : ∃ last, runCall waiting.length 16 (enter recurring.it .none 0 [.bool false] waiting) =
      some (.ok (.bool false), last) := ⟨_, rfl⟩
  obtain ⟨_, _, _, active, kept⟩ := call_confined calls ran fun fatal same => by cases same
  refine ⟨last, calls, rfl, ran, recurring_apart, active, ?_⟩
  rw [show last.arena.get 2 = recurring.it.arena.get 2 from (kept recurring_apart).2]
  rfl

end Host

end RetroScript
