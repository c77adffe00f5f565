import RetroScript.Proofs.Reports

/-!
# The order of entries

A table holds its entries in some order. Nothing that a program can show depends on it: `order_unseen`.
Texts go through names in ascending order, comparisons ask for all entries, and a collection frees what
cannot be reached, whichever way it walks.
-/

namespace RetroScript

/-! ### Tables -/

/-- Sorting forgets the order before, if no two things have the same key. -/
theorem mergeSort_eq_of_perm {β : Type} (key : β → String) {l l' : List β} (permuted : l.Perm l')
    (distinct : ∀ x ∈ l, ∀ y ∈ l, key x = key y → x = y) :
    l.mergeSort (fun x y => decide (key x ≤ key y)) = l'.mergeSort fun x y => decide (key x ≤ key y) := by
  have ascending : ∀ l : List β,
      (l.mergeSort fun x y => decide (key x ≤ key y)).Pairwise fun x y => key x ≤ key y := by
    intro l
    have sorted : (l.mergeSort fun x y => decide (key x ≤ key y)).Pairwise
        fun x y => decide (key x ≤ key y) = true :=
      List.pairwise_mergeSort (fun x y z => by simpa using String.le_trans)
        (fun x y => by simpa using String.le_total (key x) (key y)) l
    simpa using sorted
  have sorted : ∀ l : List β, (l.mergeSort fun x y => decide (key x ≤ key y)).Perm l :=
    fun l => List.mergeSort_perm l _
  apply List.Perm.eq_of_pairwise _ (ascending l) (ascending l')
  · exact (sorted l).trans (permuted.trans (sorted l').symm)
  · intro x y left right le ge
    have right := permuted.symm.mem_iff.mp ((sorted l').mem_iff.mp right)
    exact distinct x ((sorted l).mem_iff.mp left) y right (String.le_antisymm le ge)

namespace Dict

variable {α : Type} {d e : Dict α}

/-- The same entries in another order. -/
def Rearranged (d e : Dict α) : Prop := d.entries.Perm e.entries

theorem Rearranged.symm (same : d.Rearranged e) : e.Rearranged d := List.Perm.symm same

theorem Rearranged.find? (same : d.Rearranged e) (name : String) : d.find? name = e.find? name := by
  apply Option.ext
  intro a
  rw [find?_eq_some_iff, find?_eq_some_iff]
  exact List.Perm.mem_iff same

theorem Rearranged.mem_values (same : d.Rearranged e) (a : α) : a ∈ d.values ↔ a ∈ e.values := by
  simp only [mem_values_iff, same.find?]

theorem eq_of_mem {x y : String × α} (left : x ∈ d.entries) (right : y ∈ d.entries) (name : x.1 = y.1) :
    x = y := by
  have found := (d.find?_eq_some_iff x.1 x.2).mpr left
  rw [name, (d.find?_eq_some_iff y.1 y.2).mpr right] at found
  exact Prod.ext name (Option.some.inj found).symm

theorem Rearranged.sorted (same : d.Rearranged e) : d.sorted = e.sorted :=
  mergeSort_eq_of_perm Prod.fst same fun _ left _ right => eq_of_mem left right

theorem Rearranged.sortedNames (same : d.Rearranged e) : d.sortedNames = e.sortedNames :=
  mergeSort_eq_of_perm id (List.Perm.map Prod.fst same) fun _ _ _ _ equal => equal

end Dict

/-! ### Heaps -/

/-- The same heap with the entries of maps in another order. -/
structure Heap.Rearranged (h h' : Heap) : Prop where
  arrays : h.arrays = h'.arrays
  closures : h.closures = h'.closures
  size : h.maps.size = h'.maps.size
  map : ∀ ref, (h.map ref).Rearranged (h'.map ref)

namespace Heap

variable {h h' : Heap}

theorem Rearranged.symm (same : h.Rearranged h') : h'.Rearranged h :=
  ⟨same.arrays.symm, same.closures.symm, same.size.symm, fun ref => (same.map ref).symm⟩

theorem Rearranged.array (same : h.Rearranged h') (ref : Nat) : h.array ref = h'.array ref := by
  rw [Heap.array, Heap.array, same.arrays]

theorem Rearranged.closure (same : h.Rearranged h') (ref : Nat) : h.closure ref = h'.closure ref := by
  rw [Heap.closure, Heap.closure, same.closures]

theorem Rearranged.text (same : h.Rearranged h') (v : Value) : v.text h = v.text h' := by
  rw [Value.text, Value.text, containers, containers, same.arrays, same.size]
  exact Value.textIn_congr same.array (fun ref => (same.map ref).sorted)
    (fun ref => congrArg Closure.signature (same.closure ref)) _ _ v

/-- Which entry is compared first does not matter, because all of them must be equal. -/
theorem Rearranged.equalIn (same : h.Rearranged h') (n : Nat) (outer : List (Value × Value))
    (a b : Value) : Value.equalIn h n outer a b = Value.equalIn h' n outer a b := by
  induction n generalizing outer a b with
  | zero => cases a <;> cases b <;> simp only [Value.equalIn]
  | succ n ih =>
    cases a with
    | array i => cases b <;> simp only [Value.equalIn, same.array, ih]
    | map i =>
      cases b with
      | map j =>
        have sizes : ∀ ref, (h.map ref).size = (h'.map ref).size := fun ref => (same.map ref).length_eq
        have entries := fun f : String × Value → Bool => List.Perm.all_eq (f := f) (same.map i)
        simp only [Value.equalIn, sizes, entries, (same.map j).find?, ih]
      | _ => simp only [Value.equalIn]
    | _ => cases b <;> simp only [Value.equalIn]

theorem Rearranged.equal (same : h.Rearranged h') (a b : Value) : a.equal h b = a.equal h' b := by
  rw [Value.equal, Value.equal, Value.pairs, Value.pairs, same.arrays, same.size]
  exact same.equalIn _ _ a b

theorem Rearranged.leads (same : h.Rearranged h') {v : Value} {n : Node} (leads : v.Leads h n) :
    v.Leads h' n := by
  cases leads with
  | array ref => exact .array ref
  | map ref => exact .map ref
  | closure ref => exact same.closure ref ▸ .closure ref

end Heap

/-! ### Scopes -/

/-- The same scope with variables and definitions in another order. -/
structure Scope.Rearranged (s s' : Scope) : Prop where
  function : s.function = s'.function
  vars : s.vars.Rearranged s'.vars
  defs : s.defs.Rearranged s'.defs
  parent : s.parent = s'.parent
  captured : s.captured = s'.captured

structure Arena.Rearranged (a a' : Arena) : Prop where
  size : a.slots.size = a'.slots.size
  free : a.free = a'.free
  scope : ∀ id, (a.get id).Rearranged (a'.get id)

theorem Scope.Rearranged.symm {s s' : Scope} (same : s.Rearranged s') : s'.Rearranged s :=
  ⟨same.function.symm, same.vars.symm, same.defs.symm, same.parent.symm, same.captured.symm⟩

theorem Scope.Rearranged.reset {s s' : Scope} (same : s.Rearranged s') : s.reset.Rearranged s'.reset :=
  ⟨same.function, .refl _, .refl _, rfl, rfl⟩

namespace Arena

variable {a a' : Arena} {h h' : Heap} {roots : List ScopeId} {held held' : List Value}

theorem Rearranged.symm (same : a.Rearranged a') : a'.Rearranged a :=
  ⟨same.size.symm, same.free.symm, fun id => (same.scope id).symm⟩

theorem Rearranged.chainUpTo (same : a.Rearranged a') (n : Nat) (id : ScopeId) :
    List.Forall₂ (fun x y => x.1 = y.1 ∧ x.2.Rearranged y.2) (a.chainUpTo n id) (a'.chainUpTo n id) := by
  induction n generalizing id with
  | zero => exact .nil
  | succ n ih =>
    rw [Arena.chainUpTo, Arena.chainUpTo, (same.scope id).parent]
    apply List.Forall₂.cons ⟨rfl, same.scope id⟩
    split
    · exact ih _
    · exact .nil

theorem Rearranged.inUse (same : a.Rearranged a') (id : ScopeId) : a.InUse id ↔ a'.InUse id := by
  rw [InUse, InUse, same.size, same.free]

theorem Rearranged.link (same : a.Rearranged a') (heap : h.Rearranged h') {m n : Node}
    (link : Link a h m n) : Link a' h' m n := by
  cases link with
  | @parent id p up => exact .parent ((same.scope id).parent ▸ up)
  | @var id name v n found leads =>
    exact .var ((same.scope id).vars.find? name ▸ found) (heap.leads leads)
  | @defn id name ref found =>
    rw [heap.closure]
    exact .defn ((same.scope id).defs.find? name ▸ found)
  | item member leads => exact .item (heap.array _ ▸ member) (heap.leads leads)
  | @entry ref name v n found leads =>
    exact .entry ((heap.map ref).find? name ▸ found) (heap.leads leads)

theorem Rearranged.reachable (same : a.Rearranged a') (heap : h.Rearranged h')
    (values : ∀ v ∈ held, v ∈ held') {n : Node} (reachable : Reachable a h roots held n) :
    Reachable a' h' roots held' n := by
  induction reachable with
  | global => exact .global
  | root member => exact .root member
  | held member leads => exact .held (values _ member) (heap.leads leads)
  | link before link ih => exact .link ih (same.link heap link)

/-- The walk may take another way, but it frees the same slots. -/
theorem Rearranged.dead (same : a.Rearranged a') (heap : h.Rearranged h')
    (values : ∀ v, v ∈ held ↔ v ∈ held') : a.dead h roots held = a'.dead h' roots held' := by
  have reachable : ∀ n, Reachable a h roots held n ↔ Reachable a' h' roots held' n := fun n =>
    ⟨same.reachable heap fun v => (values v).mp, same.symm.reachable heap.symm fun v => (values v).mpr⟩
  rw [Arena.dead, Arena.dead, same.size]
  apply List.filter_congr
  intro id _
  rw [Bool.eq_iff_iff, isDead_iff, isDead_iff, same.inUse, reachable]

theorem Rearranged.collect (same : a.Rearranged a') (heap : h.Rearranged h')
    (values : ∀ v, v ∈ held ↔ v ∈ held') :
    (a.collect h roots held).1 = (a'.collect h' roots held').1 ∧
      (a.collect h roots held).2.Rearranged (a'.collect h' roots held').2 := by
  have dead : a.dead h roots held = a'.dead h' roots held' := same.dead heap values
  refine ⟨by rw [freed_collect, freed_collect, dead], ⟨?_, ?_, fun id => ?_⟩⟩
  · rw [size_collect, size_collect, same.size]
  · rw [free_collect, free_collect, dead, same.free]
  · rw [get_collect, get_collect, dead]
    split
    · exact (same.scope id).reset
    · exact same.scope id

end Arena

/-! ### Interpreters -/

/-- The same interpreter with the entries of its tables in another order. -/
structure Interpreter.Rearranged (it it' : Interpreter) : Prop where
  heap : it.heap.Rearranged it'.heap
  arena : it.arena.Rearranged it'.arena
  consts : it.consts.Rearranged it'.consts
  rest : it' = { it with heap := it'.heap, arena := it'.arena, consts := it'.consts }

namespace Interpreter

variable {it it' : Interpreter}

theorem Rearranged.unchanged (same : it.Rearranged it') :
    it.active = it'.active ∧ it.frames = it'.frames ∧ it.pos = it'.pos ∧ it.diag = it'.diag ∧
      it.kept = it'.kept := by
  obtain ⟨_, _, _, rest⟩ := same
  rw [rest]
  exact ⟨rfl, rfl, rfl, rfl, rfl⟩

theorem Rearranged.varsText (same : it.Rearranged it') {vars vars' : Dict Value}
    (entries : vars.Rearranged vars') : varsText it.heap vars = varsText it'.heap vars' := by
  simp only [Interpreter.varsText, entries.sorted, same.heap.text]

theorem Rearranged.scopeText (same : it.Rearranged it') (depth : Nat) (id : ScopeId) {s s' : Scope}
    (scopes : s.Rearranged s') : scopeText it.heap depth id s = scopeText it'.heap depth id s' := by
  have defs : defsText s.defs = defsText s'.defs := by
    simp only [defsText, scopes.defs.sortedNames]
  unfold Interpreter.scopeText
  rw [scopes.function, same.varsText scopes.vars, defs]

theorem Rearranged.report (same : it.Rearranged it') (message : String) :
    it.report message = it'.report message := by
  obtain ⟨active, frames, pos, _⟩ := same.unchanged
  have consts : it.consts.sorted.map (constText it.heap) = it'.consts.sorted.map (constText it'.heap) := by
    have texts : constText it.heap = constText it'.heap := by
      funext e
      rw [constText, constText, same.heap.text]
    rw [same.consts.sorted, texts]
  have chain : (it.arena.chain it.active).mapIdx (fun i x => Interpreter.scopeText it.heap i x.1 x.2) =
      (it'.arena.chain it'.active).mapIdx fun i y => Interpreter.scopeText it'.heap i y.1 y.2 := by
    rw [← List.forall₂_eq_eq_eq, Arena.chain, Arena.chain, same.arena.size, active]
    apply forall₂_mapIdx (same.arena.chainUpTo _ _)
    rintro i ⟨id, s⟩ ⟨_, s'⟩ ⟨rfl, scopes⟩
    exact same.scopeText i id scopes
  have calls : it.frames.toList.mapIdx it.frameText = it'.frames.toList.mapIdx it'.frameText := by
    have texts : it.frameText = it'.frameText := by
      funext depth f
      rw [frameText, frameText, same.varsText (same.arena.scope f.caller).vars]
    rw [frames, texts]
  unfold Interpreter.report
  rw [consts, calls, pos]
  exact congrArg (fun text => _ ++ String.join text ++ _ ++ _ ++ _ ++ _ ++ _ ++ _ ++ _) chain

theorem Rearranged.dump (same : it.Rearranged it') (message : String) :
    (it.dump message).1 = (it'.dump message).1 ∧ (it.dump message).2.diag = (it'.dump message).2.diag := by
  obtain ⟨_, _, _, diag, _⟩ := same.unchanged
  simp only [Interpreter.dump, same.report, diag, and_self]

theorem keys_map (it : Interpreter) (ref : Nat) :
    Builtin.keys.call it [.map ref] =
      (.ok (it.heap.newArray ((it.heap.map ref).sortedNames.map Value.string).toArray).1,
        { it with heap := (it.heap.newArray ((it.heap.map ref).sortedNames.map Value.string).toArray).2 }) :=
  rfl

/-- Other arguments are refused without a look at the heap. -/
theorem keys_refused (args : List Value) (other : ∀ ref, args ≠ [.map ref]) :
    ∃ f, ∀ it, Builtin.keys.call it args = (.error f, it) := by
  by_cases count : args.length = 1
  · obtain ⟨v, rfl⟩ := List.length_eq_one_iff.mp count
    cases v with
    | map ref => exact absurd rfl (other ref)
    | _ => exact ⟨_, fun _ => rfl⟩
  · have wrong : args.length < 1 ∨ 1 < args.length := by omega
    refine ⟨.builtin "keys" (.arity 1 1 args.length), fun it => ?_⟩
    unfold Builtin.call
    exact if_pos wrong

theorem Rearranged.keys (same : it.Rearranged it') (args : List Value) :
    (Builtin.keys.call it args).1 = (Builtin.keys.call it' args).1 ∧
      (Builtin.keys.call it args).2.heap.arrays = (Builtin.keys.call it' args).2.heap.arrays := by
  by_cases map : ∃ ref, args = [.map ref]
  · obtain ⟨ref, rfl⟩ := map
    simp only [keys_map, Heap.newArray, same.heap.arrays, (same.heap.map ref).sortedNames, and_self]
  · obtain ⟨f, refused⟩ := keys_refused args fun ref found => map ⟨ref, found⟩
    rw [refused, refused]
    exact ⟨rfl, same.heap.arrays⟩

theorem Rearranged.collect (same : it.Rearranged it') (held : List Value) :
    (it.collect held).1 = (it'.collect held).1 ∧
      (it.collect held).2.arena.Rearranged (it'.collect held).2.arena := by
  obtain ⟨active, frames, _, _, kept⟩ := same.unchanged
  have roots : it.roots = it'.roots := by rw [Interpreter.roots, Interpreter.roots, active, frames]
  have values : ∀ v, v ∈ held ++ it.outside ↔ v ∈ held ++ it'.outside := by
    intro v
    simp only [outside, List.mem_append, same.consts.mem_values, kept]
  unfold Interpreter.collect
  rw [roots]
  exact same.arena.collect same.heap values

end Interpreter

/-- Nothing tells two interpreters apart: no text, no list of keys, no dump, no comparison, and no
collection. -/
structure Indistinct (it it' : Interpreter) : Prop where
  text : ∀ v : Value, v.text it.heap = v.text it'.heap
  keys : ∀ args, (Builtin.keys.call it args).1 = (Builtin.keys.call it' args).1 ∧
    (Builtin.keys.call it args).2.heap.arrays = (Builtin.keys.call it' args).2.heap.arrays
  dump : ∀ message, it.report message = it'.report message ∧
    (it.dump message).1 = (it'.dump message).1 ∧ (it.dump message).2.diag = (it'.dump message).2.diag
  equal : ∀ a b : Value, a.equal it.heap b = a.equal it'.heap b
  collect : ∀ held, (it.collect held).1 = (it'.collect held).1 ∧
    (it.collect held).2.arena.free = (it'.collect held).2.arena.free
  collectFrom : ∀ roots held held', List.Perm held held' →
    (it.arena.collect it.heap roots held).1 = (it'.arena.collect it'.heap roots held').1 ∧
    (it.arena.collect it.heap roots held).2.free = (it'.arena.collect it'.heap roots held').2.free

/-- The order of entries in maps, scopes and constants cannot be observed. -/
theorem order_unseen {it it' : Interpreter} (same : it.Rearranged it') : Indistinct it it' where
  text := same.heap.text
  keys := same.keys
  dump message := ⟨same.report message, same.dump message⟩
  equal := same.heap.equal
  collect held := by
    obtain ⟨freed, after⟩ := same.collect held
    exact ⟨freed, after.free⟩
  collectFrom roots held held' permuted := by
    have values : ∀ v, v ∈ held ↔ v ∈ held' := fun v => permuted.mem_iff
    have ⟨freed, after⟩ : _ ∧ (it.arena.collect it.heap roots held).2.Rearranged _ :=
      same.arena.collect same.heap values
    exact ⟨freed, after.free⟩

/-- Two entries, in one order or the other. -/
def pair (swapped : Bool) (first second : Value) : Dict Value :=
  if swapped then ⟨[("b", second), ("a", first)], by simp⟩ else ⟨[("a", first), ("b", second)], by simp⟩

theorem rearranged_pair (first second : Value) : (pair false first second).Rearranged (pair true first second) :=
  .swap _ _ _

/-- A map that contains itself, in a variable and in a constant. -/
def looped (swapped : Bool) : Interpreter :=
  { Interpreter.new ⟨8, 7⟩ {} with
    consts := pair swapped (.map 0) .null
    heap := { maps := #[pair swapped (.map 0) (.bool true)] }
    arena := { slots := #[{ function := "global", vars := pair swapped .null (.map 0), parent := none }] } }

theorem order_unseen_looped :
    (looped false).Rearranged (looped true) ∧ (looped false).consts.names ≠ (looped true).consts.names ∧
      Indistinct (looped false) (looped true) := by
  have map : ∀ ref, ((looped false).heap.map ref).Rearranged ((looped true).heap.map ref) := by
    intro ref
    cases ref with
    | zero => exact rearranged_pair _ _
    | succ ref => exact .refl _
  have scope : ∀ id, ((looped false).arena.get id).Rearranged ((looped true).arena.get id) := by
    intro id
    cases id with
    | zero => exact ⟨rfl, rearranged_pair _ _, .refl _, rfl, rfl⟩
    | succ id => exact ⟨rfl, .refl _, .refl _, rfl, rfl⟩
  have same : (looped false).Rearranged (looped true) :=
    ⟨⟨rfl, rfl, rfl, map⟩, ⟨rfl, rfl, scope⟩, rearranged_pair _ _, rfl⟩
  exact ⟨same, by decide, order_unseen same⟩

end RetroScript
