import RetroScript.Proofs.Store

/-!
# What a collection frees

`Reachable` says which nodes can be reached, link by link, without a walk. `collect_exact` shows that
a collection frees the scopes in use that cannot be reached, and no others.
-/

namespace RetroScript

/-- The node that a value refers to. -/
inductive Value.Leads (h : Heap) : Value → Node → Prop where
  | array (ref : Nat) : Leads h (.array ref) (.array ref)
  | map (ref : Nat) : Leads h (.map ref) (.map ref)
  | closure (ref : Nat) : Leads h (.closure ref) (.scope (h.closure ref).scope)

/-- A node refers to another: a scope to its parent, a scope by a variable or a definition, a
container by an element. -/
inductive Link (a : Arena) (h : Heap) : Node → Node → Prop where
  | parent {id p : ScopeId} (up : (a.get id).parent = some p) : Link a h (.scope id) (.scope p)
  | var {id : ScopeId} {name : String} {v : Value} {n : Node}
      (found : (a.get id).vars.find? name = some v) (leads : v.Leads h n) : Link a h (.scope id) n
  | defn {id : ScopeId} {name : String} {ref : Nat}
      (found : (a.get id).defs.find? name = some ref) :
      Link a h (.scope id) (.scope (h.closure ref).scope)
  | item {ref : Nat} {v : Value} {n : Node} (member : v ∈ h.array ref) (leads : v.Leads h n) :
      Link a h (.array ref) n
  | entry {ref : Nat} {name : String} {v : Value} {n : Node}
      (found : (h.map ref).find? name = some v) (leads : v.Leads h n) : Link a h (.map ref) n

/-- What links lead to from the global scope, the scopes `roots` and the values `held`. -/
inductive Reachable (a : Arena) (h : Heap) (roots : List ScopeId) (held : List Value) :
    Node → Prop where
  | global : Reachable a h roots held (.scope Arena.globalScope)
  | root {id : ScopeId} (member : id ∈ roots) : Reachable a h roots held (.scope id)
  | held {v : Value} {n : Node} (member : v ∈ held) (leads : v.Leads h n) : Reachable a h roots held n
  | link {m n : Node} (before : Reachable a h roots held m) (link : Link a h m n) :
      Reachable a h roots held n

variable {a : Arena} {h : Heap}

theorem Value.mem_nodes_iff {v : Value} {n : Node} : n ∈ v.nodes h ↔ v.Leads h n := by
  constructor
  · intro member
    cases v <;> simp only [nodes, List.mem_singleton, List.not_mem_nil] at member
    · subst member; exact .array _
    · subst member; exact .map _
    · subst member; exact .closure _
  · intro leads
    cases leads <;> simp [nodes]

theorem mem_flatMap_nodes {vs : List Value} {n : Node} :
    n ∈ vs.flatMap (·.nodes h) ↔ ∃ v ∈ vs, v.Leads h n := by
  simp only [List.mem_flatMap, Value.mem_nodes_iff]

theorem mem_successors_iff {m n : Node} : n ∈ m.successors a h ↔ Link a h m n := by
  cases m with
  | scope id =>
    simp only [Node.successors, Scope.nodes, List.mem_append, mem_flatMap_nodes, List.mem_map,
      Option.mem_toList, Dict.mem_values_iff]
    constructor
    · rintro ((⟨p, up, rfl⟩ | ⟨v, ⟨name, found⟩, leads⟩) | ⟨ref, ⟨name, found⟩, rfl⟩)
      · exact .parent up
      · exact .var found leads
      · exact .defn found
    · intro link
      cases link with
      | parent up => exact Or.inl (Or.inl ⟨_, up, rfl⟩)
      | var found leads => exact Or.inl (Or.inr ⟨_, ⟨_, found⟩, leads⟩)
      | defn found => exact Or.inr ⟨_, ⟨_, found⟩, rfl⟩
  | array ref =>
    simp only [Node.successors, mem_flatMap_nodes, Array.mem_toList_iff]
    constructor
    · rintro ⟨v, member, leads⟩
      exact .item member leads
    · intro link
      cases link with
      | item member leads => exact ⟨_, member, leads⟩
  | map ref =>
    simp only [Node.successors, mem_flatMap_nodes, Dict.mem_values_iff]
    constructor
    · rintro ⟨v, ⟨name, found⟩, leads⟩
      exact .entry found leads
    · intro link
      cases link with
      | entry found leads => exact ⟨_, ⟨_, found⟩, leads⟩

/-! ### Marks -/

/-- The nodes of the graph; others have no links. -/
def Node.Inside (a : Arena) (h : Heap) : Node → Prop
  | .scope id => id < a.slots.size
  | .array ref => ref < h.arrays.size
  | .map ref => ref < h.maps.size

theorem Arena.get_outside {id : ScopeId} (outside : a.slots.size ≤ id) : a.get id = default := by
  simp [Arena.get, outside]

theorem Link.inside {m n : Node} (link : Link a h m n) : m.Inside a h := by
  cases link with
  | parent up =>
    refine Nat.lt_of_not_le fun outside => ?_
    rw [Arena.get_outside outside] at up
    cases up
  | var found leads =>
    refine Nat.lt_of_not_le fun outside => ?_
    rw [Arena.get_outside outside] at found
    cases found
  | defn found =>
    refine Nat.lt_of_not_le fun outside => ?_
    rw [Arena.get_outside outside] at found
    cases found
  | item member leads =>
    refine Nat.lt_of_not_le fun outside => ?_
    simp [Heap.array, outside] at member
  | entry found leads =>
    refine Nat.lt_of_not_le fun outside => ?_
    simp only [Heap.map, Array.getD_eq_getD_getElem?, Array.getElem?_eq_none outside] at found
    cases found

namespace Marks

theorem has_none (n : Node) : (none a h).has n = true ↔ ¬ n.Inside a h := by
  cases n <;> simp [has, none, Node.Inside, Array.getD, Array.size_replicate]

theorem has_add (m : Marks) (n : Node) : (m.add n).has n = true := by
  cases n <;> simp only [has, add, Array.getD_eq_getD_getElem?, Array.getElem?_setIfInBounds_self] <;>
    split <;> rfl

theorem has_add_of_has {m : Marks} {n other : Node} (marked : m.has other = true) :
    (m.add n).has other = true := by
  cases n <;> cases other <;> simp_all [has, add, Array.getElem?_setIfInBounds] <;> grind

theorem has_of_has_add {m : Marks} {n other : Node} (marked : (m.add n).has other = true)
    (differs : other ≠ n) : m.has other = true := by
  cases n <;> cases other <;> simp_all [has, add, Array.getElem?_setIfInBounds] <;> grind

end Marks

/-! ### The walk -/

theorem mark_keeps {marks : Marks} {work : List Node} {n : Node} (marked : marks.has n = true) :
    (mark a h marks work).has n = true := by
  fun_induction mark a h marks work with
  | case1 marks => exact marked
  | case2 marks m work clear ih => exact ih (Marks.has_add_of_has marked)
  | case3 marks m work met ih => exact ih marked

/-- A walk marks nothing outside a set that holds its start and follows links. -/
theorem mark_sound {P : Node → Prop} (follows : ∀ {m n}, P m → Link a h m n → P n) {marks : Marks}
    {work : List Node} (start : ∀ n ∈ work, P n) (old : ∀ {n}, marks.has n = true → P n) {n : Node}
    (marked : (mark a h marks work).has n = true) : P n := by
  fun_induction mark a h marks work with
  | case1 marks => exact old marked
  | case2 marks m work clear ih =>
    have first : P m := start m List.mem_cons_self
    refine ih ?_ ?_ marked
    · intro k member
      rcases List.mem_append.mp member with next | later
      · exact follows first (mem_successors_iff.mp next)
      · exact start k (List.mem_cons_of_mem _ later)
    · intro k marked
      by_cases same : k = m
      · exact same ▸ first
      · exact old (Marks.has_of_has_add marked same)
  | case3 marks m work met ih =>
    exact ih (fun k member => start k (List.mem_cons_of_mem _ member)) old marked

/-- The links of a marked node lead to marked nodes or to work that is left. -/
def Marks.Followed (a : Arena) (h : Heap) (marks : Marks) (work : List Node) : Prop :=
  ∀ {m n}, marks.has m = true → Link a h m n → marks.has n = true ∨ n ∈ work

/-- A walk marks its start and follows every link. -/
theorem mark_complete {marks : Marks} {work : List Node} (followed : marks.Followed a h work) :
    (∀ n ∈ work, (mark a h marks work).has n = true) ∧ (mark a h marks work).Followed a h [] := by
  fun_induction mark a h marks work with
  | case1 marks => exact ⟨by simp, followed⟩
  | case2 marks m work clear ih =>
    have next : (marks.add m).Followed a h (m.successors a h ++ work) := by
      intro k n marked link
      by_cases same : k = m
      · exact Or.inr (List.mem_append_left _ (mem_successors_iff.mpr (same ▸ link)))
      · rcases followed (Marks.has_of_has_add marked same) link with met | left
        · exact Or.inl (Marks.has_add_of_has met)
        · rcases List.mem_cons.mp left with rfl | left
          · exact Or.inl (Marks.has_add _ _)
          · exact Or.inr (List.mem_append_right _ left)
    obtain ⟨marked, closed⟩ := ih next
    refine ⟨fun n member => ?_, closed⟩
    rcases List.mem_cons.mp member with rfl | member
    · exact mark_keeps (Marks.has_add _ _)
    · exact marked n (List.mem_append_right _ member)
  | case3 marks m work met ih =>
    have met : marks.has m = true := by simpa using met
    have next : marks.Followed a h work := by
      intro k n marked link
      rcases followed marked link with done | left
      · exact Or.inl done
      · rcases List.mem_cons.mp left with rfl | left
        · exact Or.inl met
        · exact Or.inr left
    obtain ⟨marked, closed⟩ := ih next
    refine ⟨fun n member => ?_, closed⟩
    rcases List.mem_cons.mp member with rfl | member
    · exact mark_keeps met
    · exact marked n member

/-- The marks and the work left after `n` steps of a walk. -/
def walk (a : Arena) (h : Heap) : Nat → Marks → List Node → Marks × List Node
  | 0, marks, work => (marks, work)
  | _ + 1, marks, [] => (marks, [])
  | n + 1, marks, m :: work =>
    if marks.has m then walk a h n marks work
    else walk a h n (marks.add m) (m.successors a h ++ work)

theorem mark_walk (n : Nat) (marks : Marks) (work : List Node) :
    mark a h marks work = mark a h (walk a h n marks work).1 (walk a h n marks work).2 := by
  fun_induction walk a h n marks work with
  | case1 marks work => rfl
  | case2 marks n => rfl
  | case3 n marks m work met ih =>
    rw [← ih, mark, dif_neg (by simpa using met)]
  | case4 n marks m work clear ih =>
    rw [← ih, mark, dif_pos (by simpa using clear)]

theorem mark_of_walk {n : Nat} {marks : Marks} {work : List Node}
    (ended : (walk a h n marks work).2 = []) : mark a h marks work = (walk a h n marks work).1 := by
  rw [mark_walk n, ended, mark]

/-! ### Collections -/

namespace Arena

variable {roots : List ScopeId} {held : List Value}

theorem mem_start_iff {n : Node} :
    n ∈ (.scope globalScope :: roots.map .scope ++ held.flatMap (·.nodes h) : List Node) ↔
      n = .scope globalScope ∨ (∃ id ∈ roots, n = .scope id) ∨ ∃ v ∈ held, v.Leads h n := by
  simp only [List.cons_append, List.mem_cons, List.mem_append, List.mem_map, mem_flatMap_nodes,
    eq_comm]

/-- The walk of a collection marks the nodes that can be reached. -/
theorem reached_has_iff {n : Node} (inside : n.Inside a h) :
    (a.reached h roots held).has n = true ↔ Reachable a h roots held n := by
  constructor
  · intro marked
    -- Nodes outside the graph count as marked, so the walk is sound only for those inside.
    have sound : n.Inside a h → Reachable a h roots held n := by
      refine mark_sound (P := fun n => n.Inside a h → Reachable a h roots held n)
        (fun before link _ => .link (before link.inside) link) ?_ ?_ marked
      · intro n member _
        rcases mem_start_iff.mp member with rfl | ⟨id, isRoot, rfl⟩ | ⟨v, isHeld, leads⟩
        · exact .global
        · exact .root isRoot
        · exact .held isHeld leads
      · intro n old inside
        exact absurd inside ((Marks.has_none n).mp old)
    exact sound inside
  · intro reachable
    have fresh : (Marks.none a h).Followed a h
        (.scope globalScope :: roots.map .scope ++ held.flatMap (·.nodes h)) := by
      intro m n marked link
      exact absurd link.inside ((Marks.has_none m).mp marked)
    obtain ⟨started, followed⟩ := mark_complete fresh
    induction reachable with
    | global => exact started _ (mem_start_iff.mpr (Or.inl rfl))
    | root member => exact started _ (mem_start_iff.mpr (Or.inr (Or.inl ⟨_, member, rfl⟩)))
    | held member leads => exact started _ (mem_start_iff.mpr (Or.inr (Or.inr ⟨_, member, leads⟩)))
    | link before link ih => exact (followed (ih link.inside) link).resolve_right (by simp)

theorem getD_flags {ids : List ScopeId} {flags : Array Bool} {id : ScopeId} :
    (ids.foldl (fun flags id => flags.setIfInBounds id true) flags).getD id true = true ↔
      id ∈ ids ∨ flags.getD id true = true := by
  induction ids generalizing flags with
  | nil => simp
  | cons first ids ih =>
    rw [List.foldl_cons, ih, List.mem_cons, or_assoc, or_left_comm]
    refine or_congr_right ?_
    by_cases same : id = first
    · subst same
      simp only [true_or, iff_true, Array.getD_eq_getD_getElem?, Array.getElem?_setIfInBounds_self]
      split <;> rfl
    · simp [Ne.symm same, same]

theorem freeFlags_getD (id : ScopeId) : a.freeFlags.getD id true = false ↔ a.InUse id := by
  rw [← Bool.not_eq_true, freeFlags, getD_flags]
  by_cases inside : id < a.slots.size <;> simp [InUse, inside]

/-- Whether a collection frees a slot. -/
def isDead (a : Arena) (h : Heap) (roots : List ScopeId) (held : List Value) (id : ScopeId) : Bool :=
  !a.freeFlags.getD id true && !(a.reached h roots held).scopes.getD id true

/-- The slots that a collection frees, in ascending order. -/
def dead (a : Arena) (h : Heap) (roots : List ScopeId) (held : List Value) : List ScopeId :=
  (List.range a.slots.size).filter (a.isDead h roots held)

theorem isDead_iff {id : ScopeId} :
    a.isDead h roots held id = true ↔ a.InUse id ∧ ¬ Reachable a h roots held (.scope id) := by
  simp only [isDead, Bool.and_eq_true, Bool.not_eq_true', freeFlags_getD]
  refine and_congr_right fun inUse => ?_
  rw [← reached_has_iff (n := .scope id) inUse.1, Bool.not_eq_true]
  rfl

theorem mem_dead_iff {id : ScopeId} :
    id ∈ a.dead h roots held ↔ a.InUse id ∧ ¬ Reachable a h roots held (.scope id) := by
  simp only [dead, List.mem_filter, List.mem_range, isDead_iff]
  exact ⟨And.right, fun freed => ⟨freed.1.1, freed⟩⟩

theorem sorted_dead : (a.dead h roots held).Pairwise (· < ·) :=
  List.Pairwise.filter _ List.pairwise_lt_range

theorem free_collect : (a.collect h roots held).2.free = (a.dead h roots held).reverse ++ a.free := rfl

theorem freed_collect : (a.collect h roots held).1 = (a.dead h roots held).length := rfl

theorem size_collect : (a.collect h roots held).2.slots.size = a.slots.size := by simp [collect]

theorem get_collect (id : ScopeId) :
    (a.collect h roots held).2.get id =
      if id ∈ a.dead h roots held then (a.get id).reset else a.get id := by
  by_cases inside : id < a.slots.size
  · have read : (a.collect h roots held).2.get id =
        if a.isDead h roots held id then (a.get id).reset else a.get id := by
      simp only [collect, get, Array.getD_eq_getD_getElem?, Array.getElem?_mapIdx,
        Array.getElem?_eq_getElem inside, Option.map_some, Option.getD_some, isDead]
    by_cases freed : id ∈ a.dead h roots held
    · rw [if_pos freed, read, if_pos (isDead_iff.mpr (mem_dead_iff.mp freed))]
    · rw [if_neg freed, read, if_neg fun found => freed (mem_dead_iff.mpr (isDead_iff.mp found))]
  · have absent : id ∉ a.dead h roots held := fun member => inside (mem_dead_iff.mp member).1.1
    rw [if_neg absent, get_outside (Nat.not_lt.mp inside),
      get_outside (by rw [size_collect]; exact Nat.not_lt.mp inside)]

end Arena

end RetroScript
