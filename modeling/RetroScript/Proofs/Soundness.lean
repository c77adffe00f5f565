import RetroScript.Proofs.CallStack
import RetroScript.Proofs.Holding

/-!
# No dangling scope, no leak

`Interpreter.Sound` holds in every state of a session: what calls in progress, functions and parents
refer to is in use, and a scope in use that no function was made in belongs to a call in progress.
-/

namespace RetroScript

/-- Where a walk from scopes in use and from values of `V` can come to. -/
def Node.Sound (a : Arena) (V : Value → Prop) : Node → Prop
  | .scope id => a.InUse id
  | .array ref => V (.array ref)
  | .map ref => V (.map ref)

namespace Interpreter

/-- The scopes and the values of `V` fit together. -/
structure Sound (V : Value → Prop) (it : Interpreter) : Prop where
  carries : it.Carries it.arena.InUse V
  arena : it.arena.WellFormed
  lasting : ∀ {ref}, V (.closure ref) → it.arena.Lasting (it.heap.closure ref).scope
  distinct : it.roots.Nodup
  roots : ∀ {id}, id ∈ it.roots → it.arena.InUse id
  calls : ∀ {id}, it.arena.InUse id → id ≠ Arena.globalScope →
    (it.arena.get id).captured = false → id ∈ it.roots

variable {V : Value → Prop} {it it' : Interpreter}

theorem sound_new (config : Config) (streams : Streams) :
    (Interpreter.new config streams).Sound fun _ => True where
  carries := by
    refine ⟨⟨?_, ?_, ?_, ?_, ?_, ?_⟩, Arena.wellFormed_new.globalInUse,
      Arena.wellFormed_new.globalInUse, ?_, ?_, ?_, ?_⟩
    all_goals intros
    all_goals first | trivial | exact (Arena.wellFormed_new.parent ‹_› ‹_›).1
  arena := Arena.wellFormed_new
  lasting _ := ⟨Arena.wellFormed_new.globalInUse, Or.inl rfl⟩
  distinct := List.pairwise_singleton _ _
  roots member := by
    cases List.mem_singleton.mp member
    exact Arena.wellFormed_new.globalInUse
  calls {id} inUse notGlobal _ := absurd (Nat.lt_one_iff.mp inUse.1) notGlobal

theorem Sound.transfer (sound : it.Sound V) (arena : it'.arena = it.arena)
    (active : it'.active = it.active) (frames : it'.frames = it.frames)
    (outside : it'.outside = it.outside) (closures : it'.heap.closures = it.heap.closures)
    (closed : it'.heap.Closed V) : it'.Sound V := by
  have roots : it'.roots = it.roots := by simp only [Interpreter.roots, active, frames]
  refine ⟨?_, arena ▸ sound.arena, fun valid => ?_, roots ▸ sound.distinct, ?_, ?_⟩
  · rw [arena]
    exact sound.carries.transfer arena active outside closed
  · rw [arena]
    simpa only [Heap.closure, closures] using sound.lasting valid
  · rw [arena, roots]
    exact sound.roots
  · rw [arena, roots]
    exact sound.calls

theorem Sound.setHeap (sound : it.Sound V) {heap : Heap} (closed : heap.Closed V)
    (closures : heap.closures = it.heap.closures) : Sound V { it with heap } :=
  sound.transfer rfl rfl rfl rfl closures closed

/-! ### Scopes in use -/

theorem Sound.modify (sound : it.Sound V) {id : ScopeId} (inUse : it.arena.InUse id)
    {f : Scope → Scope} (parent : ∀ s, (f s).parent = s.parent)
    (captured : ∀ s, s.captured = true → (f s).captured = true)
    (var : ∀ {s : Scope} {v}, v ∈ (f s).vars.values → v ∈ s.vars.values ∨ V v)
    (defn : ∀ {s : Scope} {ref}, ref ∈ (f s).defs.values → ref ∈ s.defs.values ∨ V (.closure ref)) :
    Sound V { it with arena := it.arena.modify id f } := by
  have same : (it.arena.modify id f).InUse = it.arena.InUse :=
    funext fun other => propext (Arena.inUse_modify it.arena id other f)
  have stays : ∀ {other}, (it.arena.get other).captured = true →
      ((it.arena.modify id f).get other).captured = true := fun before =>
    Arena.get_modify_elim (P := fun _ s => s.captured = true) before fun _ => captured _ before
  refine ⟨?_, sound.arena.modify inUse parent captured, fun valid => ?_, sound.distinct, ?_, ?_⟩
  · rw [same]
    exact sound.carries.modify id parent var defn
  · obtain ⟨used, lasts⟩ := sound.lasting valid
    exact ⟨same ▸ used, lasts.imp_right stays⟩
  · rw [same]
    exact sound.roots
  · rw [same]
    intro other used notGlobal uncaptured
    refine sound.calls used notGlobal (Bool.eq_false_iff.mpr fun before => ?_)
    have after := stays before
    rw [uncaptured] at after
    cases after

theorem Sound.assign (sound : it.Sound V) (name : String) {v : Value} (valid : V v) :
    (it.assign name v).Sound V := by
  refine sound.modify (sound.carries.binding name) (fun _ => rfl) (fun _ before => before)
    (fun member => ?_) Or.inl
  rcases Dict.mem_values_insert member with rfl | old
  · exact Or.inr valid
  · exact Or.inl old

theorem Sound.makeClosure (sound : it.Sound V) (name : String) (params : List String)
    (body : List Syntax.Command) : (it.makeClosure name params body).2.Sound V := by
  have inUse : it.arena.InUse it.active := sound.carries.active
  have captured : Sound V { it with arena := it.arena.capture it.active } :=
    sound.modify inUse (fun _ => rfl) (fun _ _ => rfl) Or.inl Or.inl
  refine ⟨?_, captured.arena, fun {ref} valid => ?_, captured.distinct, captured.roots, captured.calls⟩
  · exact captured.carries.transfer rfl rfl rfl (sound.carries.heap.newClosure _)
  · show (it.arena.capture it.active).Lasting ((it.heap.newClosure _).2.closure ref).scope
    rw [Heap.closure_newClosure]
    split
    · refine ⟨captured.carries.active, Or.inr ?_⟩
      exact congrArg Scope.captured (Arena.get_modify_same it.arena _ inUse.1)
    · exact captured.lasting valid

theorem Sound.define (sound : it.Sound V) (name : String) (params : List String)
    (body : List Syntax.Command) : (it.define name params body).Sound V := by
  have made := sound.makeClosure name params body
  refine made.modify made.carries.active (fun _ => rfl) (fun _ before => before) Or.inl
    fun member => ?_
  rcases Dict.mem_values_insert member with rfl | old
  · exact Or.inr (sound.carries.heap.newClosures (Nat.le_refl _))
  · exact Or.inl old

/-! ### Calls and collections -/

theorem Sound.enter (sound : it.Sound V) {c : Closure} (lasting : it.arena.Lasting c.scope)
    {args : List Value} (valid : ∀ v ∈ args, V v) (pos : Position) :
    (it.enter c args pos).2.Sound V := by
  have used := inUse_enter sound.arena c args pos
  have new := get_enter_new sound.arena c args pos
  have fresh : ¬ it.arena.InUse (it.enter c args pos).1 := Arena.push_fresh it.arena c.name c.scope
  have old : ∀ {id}, it.arena.InUse id →
      (it.enter c args pos).2.arena.get id = it.arena.get id := get_enter_inUse
  have isNew := (used _).mpr (Or.inr rfl)
  have roots := roots_enter it c args pos
  refine ⟨⟨sound.carries.heap, isNew, (used _).mpr (Or.inl sound.arena.globalInUse), ?_, ?_, ?_,
    sound.carries.outside⟩, ?_, fun valid => lasting_enter sound.arena c args pos (sound.lasting valid),
    ?_, ?_, ?_⟩
  · intro id p inUse up
    rcases (used id).mp inUse with before | rfl
    · rw [old before] at up
      exact (used p).mpr (Or.inl (sound.carries.parent before up))
    · rw [new] at up
      cases up
      exact (used _).mpr (Or.inl lasting.1)
  · intro id v inUse member
    rcases (used id).mp inUse with before | rfl
    · exact sound.carries.var before (old before ▸ member)
    · rw [new] at member
      rcases Dict.mem_values_insertAll member with argument | none
      · obtain ⟨e, bound, rfl⟩ := List.mem_map.mp argument
        exact valid _ (List.of_mem_zip bound).2
      · cases none
  · intro id ref inUse member
    rcases (used id).mp inUse with before | rfl
    · exact sound.carries.defn before (old before ▸ member)
    · rw [new] at member
      cases member
  · exact wellFormed_enter sound.arena lasting args pos
  · exact roots.nodup_iff.mpr
      (List.nodup_cons.mpr ⟨fun member => fresh (sound.roots member), sound.distinct⟩)
  · intro id member
    rcases List.mem_cons.mp (roots.mem_iff.mp member) with rfl | before
    · exact isNew
    · exact (used id).mpr (Or.inl (sound.roots before))
  · intro id inUse notGlobal uncaptured
    refine roots.mem_iff.mpr ?_
    rcases (used id).mp inUse with before | rfl
    · exact List.mem_cons_of_mem _ (sound.calls before notGlobal (old before ▸ uncaptured))
    · exact List.mem_cons_self

theorem Sound.leave (sound : it.Sound V) {below : List Frame} {last : Frame}
    (frames : it.frames.toList = below ++ [last]) : (it.leave it.active).Sound V := by
  have perm : it.roots.Perm (it.active :: (it.leave it.active).roots) := roots_leave frames
  obtain ⟨absent, distinct⟩ := List.nodup_cons.mp (perm.nodup_iff.mp sound.distinct)
  have inUse : it.arena.InUse it.active := sound.carries.active
  have used : ∀ {id}, (it.leave it.active).arena.InUse id ↔ it.arena.InUse id ∧ it.Stays id :=
    inUse_leave inUse
  have keeps : ∀ {id}, it.arena.Lasting id → (it.leave it.active).arena.Lasting id := by
    intro id lasting
    have stays := stays_of_lasting lasting
    refine ⟨used.mpr ⟨lasting.1, stays⟩, ?_⟩
    rw [get_leave inUse stays]
    exact lasting.2
  have roots : ∀ {id}, id ∈ (it.leave it.active).roots → (it.leave it.active).arena.InUse id :=
    fun member => used.mpr ⟨sound.roots (perm.mem_iff.mpr (List.mem_cons_of_mem _ member)),
      Or.inl fun same => absent (same ▸ member)⟩
  refine ⟨⟨sound.carries.heap, roots List.mem_cons_self,
    (keeps ⟨sound.arena.globalInUse, Or.inl rfl⟩).1, ?_, ?_, ?_, sound.carries.outside⟩,
    wellFormed_leave sound.arena inUse, fun valid => keeps (sound.lasting valid), distinct, roots, ?_⟩
  · intro id p after up
    obtain ⟨before, stays⟩ := used.mp after
    rw [get_leave inUse stays] at up
    exact (keeps (sound.arena.parent before up)).1
  · intro id v after member
    obtain ⟨before, stays⟩ := used.mp after
    exact sound.carries.var before (get_leave inUse stays ▸ member)
  · intro id ref after member
    obtain ⟨before, stays⟩ := used.mp after
    exact sound.carries.defn before (get_leave inUse stays ▸ member)
  · intro id after notGlobal uncaptured
    obtain ⟨before, stays⟩ := used.mp after
    rw [get_leave inUse stays] at uncaptured
    have member := perm.mem_iff.mp (sound.calls before notGlobal uncaptured)
    refine (List.mem_cons.mp member).resolve_left fun same => ?_
    subst same
    exact absurd rfl ((stays.resolve_left fun differs => differs rfl).ne notGlobal uncaptured)

theorem Sound.collect (sound : it.Sound V) (held : List Value) :
    (it.collect held).2.Sound fun v => V v ∧ it.Survives held v := by
  have used : (it.collect held).2.arena.InUse = fun id => it.arena.InUse id ∧
      Reachable it.arena it.heap it.roots (held ++ it.outside) (.scope id) :=
    funext fun id => propext Arena.inUse_collect
  refine ⟨?_, sound.arena.collect, ?_, sound.distinct, ?_, ?_⟩
  · rw [used]
    exact sound.carries.collect held
  · intro ref valid
    obtain ⟨inUse, lasts⟩ := sound.lasting valid.1
    have reachable := valid.2 _ (.closure ref) inUse.1
    refine ⟨Arena.inUse_collect.mpr ⟨inUse, reachable⟩, lasts.imp_right fun captured => ?_⟩
    exact (congrArg Scope.captured (Arena.get_collect_reachable reachable)).trans captured
  · intro id member
    exact Arena.inUse_collect.mpr ⟨sound.roots member, .root member⟩
  · intro id inUse notGlobal uncaptured
    obtain ⟨before, reachable⟩ := Arena.inUse_collect.mp inUse
    have same := congrArg Scope.captured (Arena.get_collect_reachable reachable)
    exact sound.calls before notGlobal (same.symm.trans uncaptured)

/-! ### Walks -/

theorem Sound.leads (sound : it.Sound V) {v : Value} (valid : V v) {n : Node}
    (leads : v.Leads it.heap n) : Node.Sound it.arena V n := by
  cases leads with
  | array ref => exact valid
  | map ref => exact valid
  | closure ref => exact (sound.lasting valid).1

theorem Sound.reachable (sound : it.Sound V) {roots : List ScopeId} {held : List Value}
    (inUse : ∀ id ∈ roots, it.arena.InUse id) (valid : ∀ v ∈ held, V v) {n : Node}
    (reachable : Reachable it.arena it.heap roots held n) : Node.Sound it.arena V n := by
  induction reachable with
  | global => exact sound.arena.globalInUse
  | root member => exact inUse _ member
  | held member leads => exact sound.leads (valid _ member) leads
  | link before link ih =>
    cases link with
    | parent up => exact sound.carries.parent ih up
    | var found leads =>
      exact sound.leads (sound.carries.var ih (Dict.mem_values_of_find? found)) leads
    | defn found => exact (sound.lasting (sound.carries.defn ih (Dict.mem_values_of_find? found))).1
    | item member leads => exact sound.leads (sound.carries.heap.item ih member) leads
    | entry found leads =>
      exact sound.leads (sound.carries.heap.entry ih (Dict.mem_values_of_find? found)) leads

end Interpreter

/-! ### Steps -/

namespace Machine

open Syntax (Expr Command Item)

/-- A state whose interpreter is sound for a set of values that has all values in flight. -/
structure Valid (V : Value → Prop) (s : State) : Prop where
  sound : s.it.Sound V
  held : ∀ v ∈ s.held, V v

section

variable {V : Value → Prop} {it : Interpreter} {work : List Pending} (sound : it.Sound V)
  (held : ∀ v ∈ heldBy work, V v)

include sound held

theorem valid_quiet {control : Control} (none : control.held = []) : Valid V ⟨it, control, work⟩ :=
  ⟨sound, by unfold State.held; rw [none]; exact held⟩

theorem valid_give {v : Value} (valid : V v) : Valid V ⟨it, .give v, work⟩ :=
  ⟨sound, List.forall_mem_cons.mpr ⟨valid, held⟩⟩

theorem valid_finish {result : Option Value} (valid : ∀ v, result = some v → V v) :
    Valid V ⟨it, .finish result, work⟩ := by
  cases result with
  | none => exact valid_quiet sound held rfl
  | some v => exact ⟨sound, List.forall_mem_cons.mpr ⟨valid v rfl, held⟩⟩

theorem valid_waiting {control : Control} {pending : Pending} (none : control.held = [])
    (own : ∀ v ∈ pending.held, V v) : Valid V ⟨it, control, pending :: work⟩ :=
  valid_quiet sound (forall_heldBy_cons.mpr ⟨own, held⟩) none

theorem valid_giveOrFail (pos : Position) {r : Except Fault Value} (valid : ∀ v, r = .ok v → V v) :
    Valid V (giveOrFail it pos r work) := by
  unfold giveOrFail
  split
  · exact valid_give sound held (valid _ rfl)
  · exact valid_quiet sound held rfl

theorem valid_changeOrFail (pos : Position) (r : Except Fault Heap.Place)
    {change : Heap → Heap.Place → Heap}
    (closures : ∀ h p, (change h p).closures = h.closures)
    (closed : ∀ p, (change it.heap p).Closed V) : Valid V (changeOrFail it pos r change work) := by
  unfold changeOrFail
  split
  · exact valid_quiet (sound.setHeap (closed _) (closures _ _)) held rfl
  · exact valid_quiet sound held rfl

theorem valid_enter (pos : Position) {ref : Nat} {args : List Value} (callee : V (.closure ref))
    (valid : ∀ v ∈ args, V v) : Valid V (enter it pos ref args work) := by
  unfold enter
  dsimp only
  split
  · exact valid_quiet sound held rfl
  · split
    · exact valid_quiet sound held rfl
    · split
      · have stopped : Interpreter.Sound V { it with poisoned := true } :=
          sound.transfer rfl rfl rfl rfl rfl sound.carries.heap
        exact valid_quiet stopped held rfl
      · refine valid_waiting (sound.enter (sound.lasting callee) valid pos) held rfl ?_
        exact fun v member => List.mem_singleton.mp member ▸ callee

theorem valid_invoke (pos : Position) (name : String) {args : List Value} (valid : ∀ v ∈ args, V v) :
    Valid V (invoke it pos name args work) := by
  unfold invoke
  split
  · next b _ =>
    have answers := Builtin.answers_call it b args
    have closed := answers.closed sound.carries.heap
    have after : (b.call it args).2.Sound V := by
      have frame := answers.frame
      exact sound.transfer (by rw [frame]) (by rw [frame]) (by rw [frame]) (by rw [frame]; rfl)
        answers.closures closed.1
    split
    · next same =>
      rw [same] at after closed
      exact valid_give after held (closed.2 _ rfl)
    · next same =>
      rw [same] at after
      exact valid_quiet after held rfl
  · split
    · next found => exact valid_enter sound held pos (sound.carries.findClosure found) valid
    · exact valid_quiet sound held rfl

theorem valid_complete {values : List Value} (valid : ∀ v ∈ values, V v) {use : Use}
    (used : ∀ v ∈ use.held, V v) : Valid V (complete it values work use) := by
  unfold complete
  split
  · have closed : (it.heap.newArray values.toArray).2.Closed V :=
      sound.carries.heap.newArray (by simpa using valid)
    exact valid_give (sound.setHeap closed rfl) held
      (sound.carries.heap.newArrays (Nat.le_refl _))
  · exact valid_invoke sound (forall_heldBy_cons.mpr ⟨fun v member => (by cases member), held⟩) _ _ valid
  · next pos ref more =>
    exact valid_enter sound (forall_heldBy_cons.mpr ⟨fun v member => (by cases member), held⟩) _
      (used _ List.mem_cons_self) valid
  · exact valid_quiet sound held rfl

theorem valid_gather {done : List Value} (valid : ∀ v ∈ done, V v) (rest : List Expr) {use : Use}
    (used : ∀ v ∈ use.held, V v) : Valid V (gather it done rest use work) := by
  unfold gather
  split
  · exact valid_complete sound held (by simpa using valid) used
  · refine valid_waiting sound held rfl fun v member => ?_
    exact (List.mem_append.mp member).elim (valid v) (used v)

theorem valid_gatherEntries {done : Dict Value} (valid : ∀ v ∈ done.values, V v)
    (rest : List (String × Expr)) : Valid V (gatherEntries it done rest work) := by
  unfold gatherEntries
  split
  · exact valid_give (sound.setHeap (sound.carries.heap.newMap valid) rfl) held
      (sound.carries.heap.newMaps (Nat.le_refl _))
  · exact valid_waiting sound held rfl valid

theorem valid_reachInto (pos : Position) (name : String) (key : Expr) (rest : List Expr)
    {touch : Touch} (used : ∀ v ∈ touch.held, V v) :
    Valid V (reachInto it pos name key rest touch work) := by
  unfold reachInto
  split
  · next found =>
    exact valid_waiting sound held rfl
      (List.forall_mem_cons.mpr ⟨sound.carries.lookup found, used⟩)
  · exact valid_quiet sound held rfl

theorem valid_reachOn (pos : Position) {container : Value} (base : V container) (key : Value)
    (rest : List Expr) {touch : Touch} (used : ∀ v ∈ touch.held, V v) :
    Valid V (reachOn it pos container key rest touch work) := by
  unfold reachOn
  split
  · split
    · next found =>
      exact valid_waiting sound held rfl
        (List.forall_mem_cons.mpr ⟨sound.carries.heap.read base found, used⟩)
    · exact valid_quiet sound held rfl
  · split
    · refine valid_changeOrFail sound held _ _ (fun h p => by cases p <;> rfl) fun p => ?_
      exact sound.carries.heap.put p (used _ List.mem_cons_self)
    · exact valid_changeOrFail sound held _ _ (fun h p => by cases p <;> rfl)
        fun p => sound.carries.heap.erase p

theorem valid_assignTo (pos : Position) (name : String) (indexes : List Expr) {v : Value}
    (valid : V v) : Valid V (assignTo it pos name indexes v work) := by
  unfold assignTo
  split
  · exact valid_reachInto sound held _ _ _ _ (List.forall_mem_cons.mpr ⟨valid, by simp⟩)
  · split
    · exact valid_quiet sound held rfl
    · exact valid_quiet (sound.assign name valid) held rfl

omit held in
theorem sound_defineItems (items : List Item) : (defineItems it items).Sound V := by
  fun_induction defineItems it items with
  | case1 it => exact sound
  | case2 it pos name params body rest ih => exact ih (sound.define name params body)
  | case3 it item rest _ ih => exact ih sound

theorem valid_finishLoad (items : List Item) : Valid V (finishLoad it items work) := by
  have after := sound_defineItems sound items
  unfold finishLoad
  dsimp only
  split <;> exact valid_quiet after held rfl

omit held in
theorem sound_pos (pos : Position) : Interpreter.Sound V { it with pos } :=
  sound.transfer rfl rfl rfl rfl rfl sound.carries.heap

theorem valid_stepLoad (items : List Item) : Valid V (stepLoad it work items) := by
  have nothing : ∀ v ∈ ([] : List Value), V v := fun v member => by cases member
  have next : ∀ rest, ∀ v ∈ heldBy (.items rest :: work), V v := fun rest =>
    forall_heldBy_cons.mpr ⟨nothing, held⟩
  unfold stepLoad
  split
  · exact valid_quiet sound held rfl
  · exact valid_waiting (sound_pos sound _) (next _) rfl nothing
  · exact valid_waiting (sound_pos sound _) (next _) rfl nothing
  · exact valid_quiet sound held rfl
  · exact valid_quiet sound held rfl

theorem valid_stepEval (e : Expr) : Valid V (stepEval it work e) := by
  have plain : ∀ {v : Value}, v.Plain → V v := sound.carries.heap.plain
  have nothing : ∀ v ∈ ([] : List Value), V v := fun v member => by cases member
  cases e with
  | number | bool | null | string => exact valid_give sound held (plain trivial)
  | array pos items => exact valid_gather sound held nothing _ nothing
  | map pos entries => exact valid_gatherEntries sound held (by exact nothing) _
  | «variable» pos name => exact valid_giveOrFail sound held _ fun v found => sound.carries.lookup found
  | index pos base key => exact valid_waiting sound held rfl nothing
  | lambda pos params body =>
    have made := sound.makeClosure ("_anon_" ++ toString it.lambdas) params body
    have counted : (it.makeLambda params body).2.Sound V :=
      made.transfer rfl rfl rfl rfl rfl made.carries.heap
    exact valid_give counted held (sound.carries.heap.newClosures (Nat.le_refl _))
  | call pos name args more => exact valid_gather sound held nothing _ nothing
  | binary pos op left right => exact valid_waiting sound held rfl nothing

theorem valid_stepCommand (rest : List Command) (c : Command) :
    Valid V (stepCommand it rest work c) := by
  have nothing : ∀ v ∈ ([] : List Value), V v := fun v member => by cases member
  have next : ∀ v ∈ heldBy (.commands rest :: work), V v := forall_heldBy_cons.mpr ⟨nothing, held⟩
  have called : ∀ v ∈ heldBy (.discard :: .commands rest :: work), V v :=
    forall_heldBy_cons.mpr ⟨nothing, next⟩
  cases c with
  | remark pos text => exact valid_quiet sound held rfl
  | delete pos name indexes =>
    cases indexes with
    | nil => exact valid_quiet sound held rfl
    | cons key keys => exact valid_reachInto sound next _ _ _ _ nothing
  | define pos name params body => exact valid_quiet (sound.define name params body) held rfl
  | call pos name args more => exact valid_gather sound called nothing _ nothing
  | assign | result | branch | loop => exact valid_waiting sound next rfl nothing

theorem valid_stepGive {v : Value} (valid : V v) {pending : Pending}
    (own : ∀ w ∈ pending.held, V w) (notCall : ∀ callee scope, pending ≠ .call callee scope) :
    Valid V (stepGive it v work pending) := by
  have nothing : ∀ w ∈ ([] : List Value), V w := fun w member => by cases member
  have single : ∀ w ∈ [v], V w := List.forall_mem_cons.mpr ⟨valid, nothing⟩
  cases pending with
  | operand pos op right => exact valid_waiting sound held rfl single
  | operate pos op left =>
    exact valid_giveOrFail sound held _ fun w found =>
      sound.carries.heap.plain (Syntax.Operator.apply_plain found)
  | subscript pos key => exact valid_waiting sound held rfl single
  | select pos base =>
    exact valid_giveOrFail sound held _ fun w found =>
      sound.carries.heap.read (own base List.mem_cons_self) found
  | values done rest use =>
    have done' : ∀ w ∈ done, V w := fun w member => own w (List.mem_append_left _ member)
    exact valid_gather sound held (List.forall_mem_cons.mpr ⟨valid, done'⟩) _
      fun w member => own w (List.mem_append_right _ member)
  | entries done name rest =>
    refine valid_gatherEntries sound held (fun w member => ?_) _
    rcases Dict.mem_values_insert member with rfl | old
    · exact valid
    · exact own w old
  | groups pos more =>
    cases more with
    | nil => exact valid_give sound held valid
    | cons args more => exact valid_gather sound held nothing _ single
  | assign pos name indexes => exact valid_assignTo sound held _ _ _ valid
  | reach pos container rest touch =>
    exact valid_reachOn sound held _ (own container List.mem_cons_self) _ _
      fun w member => own w (List.mem_cons_of_mem _ member)
  | test condition body =>
    simp only [stepGive]
    split
    · exact valid_waiting sound held rfl nothing
    · exact valid_quiet sound held rfl
  | result => exact valid_finish sound held fun w same => by cases same; exact valid
  | again condition body => exact valid_waiting sound held rfl nothing
  | call callee scope => exact absurd rfl (notCall callee scope)
  | constant name =>
    have after : Interpreter.Sound V { it with consts := it.consts.insert name v } :=
      ⟨sound.carries.constant name valid, sound.arena, sound.lasting, sound.distinct, sound.roots,
        sound.calls⟩
    exact valid_quiet after held rfl
  | functions items => exact valid_finishLoad sound held items
  | branch | discard | commands | items => exact valid_quiet sound held rfl

end

/-- At the end of a call a collection keeps the result, the function and all work that is left. -/
theorem valid_exit {V : Value → Prop} {origin : Interpreter} {s : State} (sound : s.it.Sound V)
    (within : Within origin s) {callee : Nat} {scope : ScopeId} {work : List Pending}
    (waiting : s.work = .call callee scope :: work) (held : ∀ v ∈ heldBy work, V v)
    {result : Option Value} (valid : ∀ v, result = some v → V v) :
    ∃ V' : Value → Prop, (exit s.it callee scope result work).Sound V' ∧
      (∀ v ∈ heldBy work, V' v) ∧ ∀ v, result = some v → V' v := by
  obtain ⟨rfl, below, last, frames, _⟩ := within.innermost waiting
  have left := sound.leave frames
  unfold exit
  dsimp only
  split
  · refine ⟨_, left.collect _, fun v member => ⟨held v member, ?_⟩, fun v same => ⟨valid v same, ?_⟩⟩
    · exact Interpreter.survives_of_held (List.mem_append_right _ (List.mem_cons_of_mem _ member))
    · exact Interpreter.survives_of_held (List.mem_append_left _ (Option.mem_toList.mpr same))
  · exact ⟨V, left, held, valid⟩

/-- A step keeps a state valid; only a collection can take values out of the set. -/
theorem valid_step {V : Value → Prop} {origin : Interpreter} {s : State} (valid : Valid V s)
    (within : Within origin s) : ∃ V', Valid V' (step s) := by
  obtain ⟨it, control, work⟩ := s
  obtain ⟨sound, held⟩ := valid
  have waiting : ∀ v ∈ heldBy work, V v := fun v member => held v (List.mem_append_right _ member)
  cases control with
  | load items => exact ⟨V, valid_stepLoad sound waiting items⟩
  | eval e => exact ⟨V, valid_stepEval sound waiting e⟩
  | exec commands =>
    cases commands with
    | nil => exact ⟨V, valid_quiet sound waiting rfl⟩
    | cons c cs => exact ⟨V, valid_stepCommand (sound_pos sound c.pos) waiting cs c⟩
  | stop fatal => exact ⟨V, sound, held⟩
  | give v =>
    cases work with
    | nil => exact ⟨V, sound, held⟩
    | cons pending work =>
      have given : V v := held v List.mem_cons_self
      obtain ⟨own, rest⟩ := forall_heldBy_cons.mp waiting
      rcases call_or_not pending with ⟨callee, scope, rfl⟩ | notCall
      · obtain ⟨V', after, kept, result⟩ := valid_exit sound within rfl rest
          fun w (same : some v = some w) => Option.some.inj same ▸ given
        exact ⟨V', valid_give after kept (result v rfl)⟩
      · exact ⟨V, valid_stepGive sound rest given own notCall⟩
  | finish result =>
    cases work with
    | nil => exact ⟨V, sound, held⟩
    | cons pending work =>
      have given : ∀ v, result = some v → V v := fun v same =>
        held v (List.mem_append_left _ (Option.mem_toList.mpr same))
      obtain ⟨own, rest⟩ := forall_heldBy_cons.mp waiting
      rcases call_or_not pending with ⟨callee, scope, rfl⟩ | notCall
      · obtain ⟨V', after, kept, result⟩ := valid_exit sound within rfl rest given
        exact ⟨V', valid_give after kept (after.carries.heap.getD result)⟩
      · show ∃ V', Valid V' (stepFinish it result work pending)
        rcases stepFinish_eq it result work notCall with same | ⟨v, returned, same⟩
        · rw [same]
          exact ⟨V, valid_stepGive sound rest (sound.carries.heap.getD given) own notCall⟩
        · rw [same]
          exact ⟨V, valid_finish sound rest fun w found => given w (returned.trans found)⟩
  | fail pos fault =>
    cases work with
    | nil => exact ⟨V, sound, held⟩
    | cons pending work =>
      obtain ⟨own, rest⟩ := forall_heldBy_cons.mp waiting
      cases pending with
      | call callee scope =>
        obtain ⟨V', after, kept, _⟩ := valid_exit sound within rfl rest
          fun w (same : none = some w) => by cases same
        exact ⟨V', valid_quiet after kept rfl⟩
      | _ => exact ⟨V, valid_quiet sound rest rfl⟩

end Machine

/-! ### Sessions -/

namespace Host

open Machine

variable {V : Value → Prop} {it : Interpreter} {s : State}

theorem sound_settle (sound : it.Sound V) (slot : Option Nat) {result : Except Error Value}
    (valid : ∀ v, result = .ok v → V v) : (settle it slot result).Sound V := by
  unfold settle
  split
  · exact ⟨sound.carries.keep _ (valid _ rfl), sound.arena, sound.lasting, sound.distinct,
      sound.roots, sound.calls⟩
  · exact sound

theorem carried_outcome (closed : s.it.heap.Closed V) (held : ∀ v ∈ s.held, V v)
    {result : Except Error Value} (ended : s.outcome? = some result) : ∀ v, result = .ok v → V v := by
  obtain ⟨it, control, work⟩ := s
  intro v same
  subst same
  unfold State.outcome? at ended
  split at ended
  · cases ended
  · next given _ =>
    cases ended
    cases given
    exact held v List.mem_cons_self
  · next given _ =>
    cases ended
    cases given
    exact closed.getD fun w found => held w (List.mem_append_left _ (Option.mem_toList.mpr found))
  · cases ended
  · cases ended

theorem valid_calling (sound : it.Sound V) (name : String) {args : List Value}
    (valid : ∀ v ∈ args, V v) : Valid V (calling it name args) :=
  valid_invoke sound (fun v member => by cases member) _ _ valid

theorem valid_start (sound : it.Sound V) (request : Request) :
    ∃ V', Valid V' (request.start it) := by
  have nothing : ∀ v ∈ ([] : List Value), V v := fun v member => by cases member
  have idle : ∀ v ∈ heldBy [], V v := nothing
  cases request with
  | load program => exact ⟨V, valid_waiting sound idle rfl nothing⟩
  | run => exact ⟨V, valid_calling sound _ nothing⟩
  | call name args =>
    obtain ⟨valid, closed⟩ := closed_buildAll sound.carries sound.carries.heap args
    exact ⟨V, valid_calling (sound.setHeap closed (closures_buildAll it it.heap args)) _ valid⟩
  | value g =>
    obtain ⟨valid, closed⟩ := closed_build sound.carries sound.carries.heap g
    exact ⟨V, valid_give (sound.setHeap closed (closures_build it it.heap g)) idle valid⟩
  | drop slot =>
    have dropped : (it.drop slot).Sound V :=
      ⟨sound.carries.drop slot, sound.arena, sound.lasting, sound.distinct, sound.roots, sound.calls⟩
    exact ⟨V, valid_quiet dropped idle rfl⟩
  | collect => exact ⟨_, valid_quiet (sound.collect []) (fun v member => by cases member) rfl⟩
  | dump message =>
    have written : (it.dump message).2.Sound V :=
      sound.transfer rfl rfl rfl rfl rfl sound.carries.heap
    exact ⟨V, valid_quiet written idle (Control.held_ofDump _)⟩

theorem reached_valid {config : Config} {streams : Streams} (reached : Reached config streams s) :
    ∃ V, Valid V s := by
  induction reached with
  | new => exact ⟨_, Interpreter.sound_new config streams, fun v member => by cases member⟩
  | step before ih =>
    obtain ⟨V, valid⟩ := ih
    obtain ⟨origin, _, _, within⟩ := reached_within before
    exact valid_step valid within
  | turn before ended slot request ih =>
    obtain ⟨V, valid⟩ := ih
    have result := carried_outcome valid.sound.carries.heap valid.held ended
    exact valid_start (sound_settle valid.sound slot result) request

/-- No scope is lost and none is referred to that is free. -/
structure InOrder (s : State) : Prop where
  /-- Slots for reuse stand on the free list once, are not the global one, and are empty. -/
  free : s.it.arena.free.Nodup ∧ Arena.globalScope ∉ s.it.arena.free ∧
    ∀ id ∈ s.it.arena.free, id < s.it.arena.slots.size ∧ (s.it.arena.get id).Blank
  /-- The active scope and the scopes of callers are in use. -/
  callers : s.it.arena.InUse s.it.active ∧ ∀ f ∈ s.it.frames, s.it.arena.InUse f.caller
  /-- Parents are in use, and are the global scope or captured. -/
  parents : ∀ id p, s.it.arena.InUse id → (s.it.arena.get id).parent = some p →
    s.it.arena.InUse p ∧ (p = Arena.globalScope ∨ (s.it.arena.get p).captured = true)
  /-- Functions that can be reached from scopes in use, from constants or from values held by the
  host or in flight have scopes in use. -/
  functions : ∀ roots id, (∀ root ∈ roots, s.it.arena.InUse root) →
    Reachable s.it.arena s.it.heap roots (s.held ++ s.it.outside) (.scope id) → s.it.arena.InUse id
  /-- Parents lead to the global scope, and chains are cut by no bound. -/
  chains : ∀ id, s.it.arena.InUse id → (∃ n, s.it.arena.Height id n) ∧
    (s.it.arena.chain id).getLast? =
      some (Arena.globalScope, s.it.arena.get Arena.globalScope) ∧
    ∀ n, s.it.arena.slots.size ≤ n → s.it.arena.chainUpTo n id = s.it.arena.chain id
  /-- A scope that no function was made in belongs to a call in progress. -/
  calls : ∀ id, s.it.arena.InUse id → id ≠ Arena.globalScope →
    (s.it.arena.get id).captured = false → id = s.it.active ∨ ∃ f ∈ s.it.frames, f.caller = id
  /-- Nobody refers to the slot of the next new scope. -/
  fresh : ∀ function parent new, (s.it.arena.push function parent).1 = new →
    s.it.active ≠ new ∧ (∀ f ∈ s.it.frames, f.caller ≠ new) ∧
    (∀ id, s.it.arena.InUse id → (s.it.arena.get id).parent ≠ some new) ∧
    ∀ roots, (∀ root ∈ roots, s.it.arena.InUse root) →
      ¬ Reachable s.it.arena s.it.heap roots (s.held ++ s.it.outside) (.scope new)

theorem scopes_in_order {config : Config} {streams : Streams} {s : State}
    (reached : Reached config streams s) : InOrder s := by
  obtain ⟨V, sound, held⟩ := reached_valid reached
  have caller : ∀ f ∈ s.it.frames, s.it.arena.InUse f.caller := fun f member =>
    sound.roots (List.mem_cons_of_mem _ (List.mem_map_of_mem (Array.mem_toList_iff.mpr member)))
  have valid : ∀ v ∈ s.held ++ s.it.outside, V v := fun v member =>
    (List.mem_append.mp member).elim (held v) sound.carries.outside
  have functions : ∀ roots id, (∀ root ∈ roots, s.it.arena.InUse root) →
      Reachable s.it.arena s.it.heap roots (s.held ++ s.it.outside) (.scope id) →
        s.it.arena.InUse id :=
    fun roots id inUse reachable => sound.reachable inUse valid reachable
  refine ⟨⟨sound.arena.distinct, sound.arena.globalInUse.2, fun id member =>
    ⟨sound.arena.inside member, sound.arena.blank member⟩⟩, ⟨sound.carries.active, caller⟩,
    fun id p => sound.arena.parent, functions, fun id inUse => ⟨sound.arena.rooted inUse,
      Arena.chain_getLast? sound.arena inUse, fun n => Arena.chainUpTo_eq_chain sound.arena inUse⟩,
    fun id inUse notGlobal uncaptured => ?_, fun function parent new same => ?_⟩
  · rcases List.mem_cons.mp (sound.calls inUse notGlobal uncaptured) with active | isCaller
    · exact Or.inl active
    · obtain ⟨f, member, rfl⟩ := List.mem_map.mp isCaller
      exact Or.inr ⟨f, Array.mem_toList_iff.mp member, rfl⟩
  · have unused : ¬ s.it.arena.InUse new := same ▸ Arena.push_fresh s.it.arena function parent
    refine ⟨fun same => unused (same ▸ sound.carries.active),
      fun f member same => unused (same ▸ caller f member),
      fun id inUse up => unused (sound.arena.parent inUse up).1,
      fun roots inUse reachable => unused (functions roots new inUse reachable)⟩

/-- A program whose main function returns a function made in it. -/
def counter : Syntax.Program :=
  ⟨[.define .none "main" [] [.define .none "next" [] [], .result .none (.variable .none "next")]]⟩

theorem scopes_in_order_counter :
    ∃ s, Reached ⟨8, 7⟩ {} s ∧ s.outcome? = some (.ok (.closure 1)) ∧
      (s.it.heap.closure 1).scope = 1 ∧ s.it.arena.InUse 1 ∧ InOrder s := by
  have loading : Reached ⟨8, 7⟩ {} ((Request.load counter).start (.new ⟨8, 7⟩ {})) :=
    .turn .new rfl none (.load counter)
  have running := Reached.turn loading.step.step.step rfl none .run
  have ended := running.step.step.step.step.step.step
  have order := scopes_in_order ended
  refine ⟨_, ended, rfl, rfl, ?_, order⟩
  exact order.functions [] 1 (fun root member => by cases member) (.held List.mem_cons_self (.closure 1))

end Host

end RetroScript
