import RetroScript.Proofs.Reachability

/-!
# Well-formed arenas

Slots for reuse are blank and no scope in use refers to one; the scopes in use form a tree with the
global scope at its top. Every operation of an arena keeps this, and in such an arena a chain of
scopes always ends at the global scope.
-/

namespace RetroScript

/-- A scope as it is kept for reuse. -/
structure Scope.Blank (s : Scope) : Prop where
  vars : s.vars = Dict.empty
  defs : s.defs = Dict.empty
  parent : s.parent = none
  captured : s.captured = false

theorem Scope.reset_blank (s : Scope) : s.reset.Blank := ⟨rfl, rfl, rfl, rfl⟩

theorem Scope.Blank.renew {s : Scope} {function : String} {parent : Option ScopeId}
    (blank : s.Blank) : { s with function, parent } = ({ function, parent } : Scope) := by
  obtain ⟨vars, defs, _, captured⟩ := blank
  simp only [vars, defs, captured]

namespace Arena

/-- The number of parent links from a scope up to the global one. -/
inductive Height (a : Arena) : ScopeId → Nat → Prop where
  | global : Height a globalScope 0
  | up {id p : ScopeId} {n : Nat} (parent : (a.get id).parent = some p) (above : Height a p n) :
      Height a id (n + 1)

/-- The scopes that may outlive their calls: the global one, and those that a function was made in. -/
def Lasting (a : Arena) (id : ScopeId) : Prop :=
  a.InUse id ∧ (id = globalScope ∨ (a.get id).captured = true)

structure WellFormed (a : Arena) : Prop where
  distinct : a.free.Nodup
  inside : ∀ {id}, id ∈ a.free → id < a.slots.size
  blank : ∀ {id}, id ∈ a.free → (a.get id).Blank
  globalInUse : a.InUse globalScope
  globalTop : (a.get globalScope).parent = none
  parent : ∀ {id p}, a.InUse id → (a.get id).parent = some p → a.Lasting p
  rooted : ∀ {id}, a.InUse id → ∃ n, a.Height id n

variable {a b : Arena}

/-- Links that stay in a set of scopes have their height in every arena that agrees on the set. -/
theorem Height.transport {K : ScopeId → Prop}
    (closed : ∀ {id p}, K id → (a.get id).parent = some p → K p)
    (same : ∀ {id}, K id → (b.get id).parent = (a.get id).parent) {id : ScopeId} {n : Nat}
    (height : a.Height id n) (member : K id) : b.Height id n := by
  induction height with
  | global => exact .global
  | up parent above ih => exact .up ((same member).trans parent) (ih (closed member parent))

/-- An arena that keeps some scopes of a well-formed one, with their parents, is well-formed. -/
theorem WellFormed.restrict (wellFormed : a.WellFormed)
    (kept : ∀ {id}, b.InUse id → a.InUse id)
    (closed : ∀ {id p}, b.InUse id → (a.get id).parent = some p → b.InUse p)
    (parent : ∀ {id}, b.InUse id → (b.get id).parent = (a.get id).parent)
    (captured : ∀ {id}, b.InUse id → (a.get id).captured = true → (b.get id).captured = true)
    (globalInUse : b.InUse globalScope) (distinct : b.free.Nodup)
    (free : ∀ {id}, id ∈ b.free → id < b.slots.size ∧ (b.get id).Blank) : b.WellFormed where
  distinct := distinct
  inside member := (free member).1
  blank member := (free member).2
  globalInUse := globalInUse
  globalTop := (parent globalInUse).trans wellFormed.globalTop
  parent {id p} inUse up := by
    rw [parent inUse] at up
    have stays := closed inUse up
    exact ⟨stays, (wellFormed.parent (kept inUse) up).2.imp_right (captured stays)⟩
  rooted inUse := by
    obtain ⟨n, height⟩ := wellFormed.rooted (kept inUse)
    exact ⟨n, height.transport closed parent inUse⟩

theorem wellFormed_new : ({} : Arena).WellFormed where
  distinct := List.nodup_nil
  inside member := by cases member
  blank member := by cases member
  globalInUse := ⟨Nat.one_pos, List.not_mem_nil⟩
  globalTop := rfl
  parent {id p} inUse up := by
    have only : id = 0 := Nat.lt_one_iff.mp inUse.1
    subst only
    cases up
  rooted {id} inUse := by
    have only : id = 0 := Nat.lt_one_iff.mp inUse.1
    subst only
    exact ⟨0, .global⟩

/-! ### Changing one scope -/

theorem WellFormed.modify {id : ScopeId} {f : Scope → Scope} (wellFormed : a.WellFormed)
    (inUse : a.InUse id) (parent : ∀ s, (f s).parent = s.parent)
    (captured : ∀ s, s.captured = true → (f s).captured = true) : (a.modify id f).WellFormed := by
  have sameParent : ∀ {other}, ((a.modify id f).get other).parent = (a.get other).parent := by
    intro other
    exact get_modify_elim (P := fun other s => s.parent = (a.get other).parent) rfl
      fun _ => parent _
  refine wellFormed.restrict (inUse_modify a id _ f).mp ?_ (fun _ => sameParent) ?_
    ((inUse_modify a id _ f).mpr wellFormed.globalInUse) wellFormed.distinct ?_
  · intro other p used up
    exact (inUse_modify a id p f).mpr (wellFormed.parent ((inUse_modify a id other f).mp used) up).1
  · intro other _ before
    exact get_modify_elim (P := fun _ s => s.captured = true) before fun _ => captured _ before
  · intro other member
    have differs : other ≠ id := fun same => inUse.2 (same ▸ member)
    rw [get_modify_other a f differs, slots_modify]
    exact ⟨wellFormed.inside member, wellFormed.blank member⟩

/-! ### New scopes -/

/-- A new scope is in no slot that was in use. -/
theorem push_fresh (a : Arena) (function : String) (parent : ScopeId) :
    ¬ a.InUse (a.push function parent).1 := by
  unfold push
  split
  · next id free list => exact fun inUse => inUse.2 (list ▸ List.mem_cons_self)
  · exact fun inUse => Nat.lt_irrefl _ inUse.1

theorem inUse_push (wellFormed : a.WellFormed) (function : String) (parent other : ScopeId) :
    (a.push function parent).2.InUse other ↔ a.InUse other ∨ other = (a.push function parent).1 := by
  have distinct := wellFormed.distinct
  unfold push
  split
  · next id free list =>
    have inside : id < a.slots.size := wellFormed.inside (list ▸ List.mem_cons_self)
    rw [list, List.nodup_cons] at distinct
    simp only [InUse, Array.size_modify, list, List.mem_cons, not_or]
    constructor
    · rintro ⟨bound, absent⟩
      by_cases same : other = id
      · exact Or.inr same
      · exact Or.inl ⟨bound, same, absent⟩
    · rintro (⟨bound, _, absent⟩ | rfl)
      · exact ⟨bound, absent⟩
      · exact ⟨inside, distinct.1⟩
  · next list =>
    simp only [InUse, Array.size_push, list, List.not_mem_nil, not_false_eq_true, and_true]
    exact Nat.lt_succ_iff_lt_or_eq

theorem get_push_new (wellFormed : a.WellFormed) (function : String) (parent : ScopeId) :
    (a.push function parent).2.get (a.push function parent).1 =
      { function, parent := some parent } := by
  unfold push
  split
  · next id free list =>
    have member : id ∈ a.free := list ▸ List.mem_cons_self
    have read := get_modify_same a (fun s => { s with function, parent := some parent })
      (wellFormed.inside member)
    exact read.trans (wellFormed.blank member).renew
  · simp [get]

theorem get_push_old {function : String} {parent other : ScopeId}
    (differs : other ≠ (a.push function parent).1) :
    (a.push function parent).2.get other = a.get other := by
  revert differs
  unfold push
  split
  · next id free list =>
    intro differs
    exact get_modify_other a _ differs
  · intro differs
    simp only [get, Array.getD_eq_getD_getElem?, Array.getElem?_push, if_neg differs]

theorem WellFormed.push {function : String} {parent : ScopeId} (wellFormed : a.WellFormed)
    (lasting : a.Lasting parent) : (a.push function parent).2.WellFormed := by
  have fresh := push_fresh a function parent
  have used := inUse_push wellFormed function parent
  have new := get_push_new wellFormed function parent
  have old : ∀ {other}, a.InUse other → (a.push function parent).2.get other = a.get other :=
    fun inUse => get_push_old fun same => fresh (same ▸ inUse)
  have height : ∀ {other n}, a.InUse other → a.Height other n →
      (a.push function parent).2.Height other n :=
    fun inUse height => height.transport (fun inUse up => (wellFormed.parent inUse up).1)
      (fun inUse => congrArg Scope.parent (old inUse)) inUse
  have free : ∀ {other}, other ∈ (a.push function parent).2.free →
      other ∈ a.free ∧ other ≠ (a.push function parent).1 := by
    have distinct := wellFormed.distinct
    unfold Arena.push
    split
    · next id rest list =>
      rw [list, List.nodup_cons] at distinct
      intro other member
      refine ⟨list ▸ List.mem_cons_of_mem _ member, ?_⟩
      rintro rfl
      exact distinct.1 member
    · next list =>
      intro other member
      rw [list] at member
      cases member
  refine ⟨?_, ?_, ?_, (used _).mpr (Or.inl wellFormed.globalInUse), ?_, ?_, ?_⟩
  · have distinct := wellFormed.distinct
    unfold Arena.push
    split
    · next id rest list =>
      rw [list, List.nodup_cons] at distinct
      exact distinct.2
    · exact distinct
  · intro other member
    have before := wellFormed.inside (free member).1
    unfold Arena.push
    split
    · simpa using before
    · simpa using Nat.lt_succ_of_lt before
  · intro other member
    rw [get_push_old (free member).2]
    exact wellFormed.blank (free member).1
  · rw [old wellFormed.globalInUse]
    exact wellFormed.globalTop
  · intro other p inUseAfter up
    rcases (used other).mp inUseAfter with before | rfl
    · rw [old before] at up
      obtain ⟨inUse, captured⟩ := wellFormed.parent before up
      exact ⟨(used p).mpr (Or.inl inUse), old inUse ▸ captured⟩
    · rw [new] at up
      cases up
      exact ⟨(used parent).mpr (Or.inl lasting.1), old lasting.1 ▸ lasting.2⟩
  · intro other inUseAfter
    rcases (used other).mp inUseAfter with before | rfl
    · obtain ⟨n, tall⟩ := wellFormed.rooted before
      exact ⟨n, height before tall⟩
    · obtain ⟨n, tall⟩ := wellFormed.rooted lasting.1
      exact ⟨n + 1, .up (congrArg Scope.parent new) (height lasting.1 tall)⟩

/-! ### Freed scopes -/

/-- What ending a call's scope does: nothing, or the slot is freed. -/
theorem release_cases (a : Arena) (id : ScopeId) :
    (id = globalScope ∨ (a.get id).captured = true) ∧ a.release id = (false, a) ∨
    id ≠ globalScope ∧ (a.get id).captured = false ∧
      a.release id = (true, { a.modify id Scope.reset with free := id :: a.free }) := by
  unfold release
  split
  · next stays => exact Or.inl ⟨stays, rfl⟩
  · next goes =>
    rw [not_or, Bool.not_eq_true] at goes
    exact Or.inr ⟨goes.1, goes.2, rfl⟩

theorem inUse_freed {id other : ScopeId} :
    Arena.InUse { a.modify id Scope.reset with free := id :: a.free } other ↔
      a.InUse other ∧ other ≠ id := by
  simp only [InUse, slots_modify, List.mem_cons, not_or]
  constructor
  · rintro ⟨bound, differs, absent⟩
    exact ⟨⟨bound, absent⟩, differs⟩
  · rintro ⟨⟨bound, absent⟩, differs⟩
    exact ⟨bound, differs, absent⟩

theorem get_freed_other {id other : ScopeId} (differs : other ≠ id) :
    Arena.get { a.modify id Scope.reset with free := id :: a.free } other = a.get other :=
  get_modify_other a _ differs

/-- A call's scope that is freed is none of those that last. -/
theorem Lasting.ne {id other : ScopeId} (lasting : a.Lasting other) (notGlobal : id ≠ globalScope)
    (uncaptured : (a.get id).captured = false) : other ≠ id := by
  rintro rfl
  rcases lasting.2 with isGlobal | captured
  · exact notGlobal isGlobal
  · rw [uncaptured] at captured
    cases captured

theorem WellFormed.freed {id : ScopeId} (wellFormed : a.WellFormed) (inUse : a.InUse id)
    (notGlobal : id ≠ globalScope) (uncaptured : (a.get id).captured = false) :
    Arena.WellFormed { a.modify id Scope.reset with free := id :: a.free } := by
  refine wellFormed.restrict (fun used => (inUse_freed.mp used).1) ?_ ?_ ?_
    (inUse_freed.mpr ⟨wellFormed.globalInUse, notGlobal.symm⟩) ?_ ?_
  · -- A parent lasts, so the freed scope is nobody's parent.
    intro other p used up
    have lasting := wellFormed.parent (inUse_freed.mp used).1 up
    exact inUse_freed.mpr ⟨lasting.1, lasting.ne notGlobal uncaptured⟩
  · intro other used
    rw [get_freed_other (inUse_freed.mp used).2]
  · intro other used captured
    rw [get_freed_other (inUse_freed.mp used).2]
    exact captured
  · exact List.nodup_cons.mpr ⟨inUse.2, wellFormed.distinct⟩
  · intro other member
    rcases List.mem_cons.mp member with rfl | member
    · refine ⟨by simpa using inUse.1, ?_⟩
      have emptied : Arena.get { a.modify other Scope.reset with free := other :: a.free } other =
          (a.get other).reset := get_modify_same a _ inUse.1
      rw [emptied]
      exact Scope.reset_blank _
    · have differs : other ≠ id := fun same => inUse.2 (same ▸ member)
      rw [get_freed_other differs]
      exact ⟨by simpa using wellFormed.inside member, wellFormed.blank member⟩

section

variable {h : Heap} {roots : List ScopeId} {held : List Value}

theorem inUse_collect {id : ScopeId} : (a.collect h roots held).2.InUse id ↔
    a.InUse id ∧ Reachable a h roots held (.scope id) := by
  simp only [InUse, size_collect, free_collect, List.mem_append, List.mem_reverse, mem_dead_iff,
    not_or]
  constructor
  · rintro ⟨bound, survives, absent⟩
    exact ⟨⟨bound, absent⟩, Classical.byContradiction fun lost => survives ⟨⟨bound, absent⟩, lost⟩⟩
  · rintro ⟨⟨bound, absent⟩, reachable⟩
    exact ⟨bound, fun dead => dead.2 reachable, absent⟩

theorem get_collect_reachable {id : ScopeId} (reachable : Reachable a h roots held (.scope id)) :
    (a.collect h roots held).2.get id = a.get id := by
  rw [get_collect, if_neg fun dead => (mem_dead_iff.mp dead).2 reachable]

theorem WellFormed.collect (wellFormed : a.WellFormed) : (a.collect h roots held).2.WellFormed := by
  refine wellFormed.restrict (fun used => (inUse_collect.mp used).1) ?_ ?_ ?_
    (inUse_collect.mpr ⟨wellFormed.globalInUse, .global⟩) ?_ ?_
  · intro id p used up
    obtain ⟨inUse, reachable⟩ := inUse_collect.mp used
    exact inUse_collect.mpr ⟨(wellFormed.parent inUse up).1, .link reachable (.parent up)⟩
  · intro id used
    rw [get_collect_reachable (inUse_collect.mp used).2]
  · intro id used captured
    rw [get_collect_reachable (inUse_collect.mp used).2]
    exact captured
  · rw [free_collect, List.nodup_append]
    refine ⟨List.pairwise_reverse.mpr (sorted_dead.imp Nat.ne_of_gt), wellFormed.distinct, ?_⟩
    rintro id dead _ member rfl
    exact (mem_dead_iff.mp (List.mem_reverse.mp dead)).1.2 member
  · intro id member
    rw [free_collect, List.mem_append, List.mem_reverse] at member
    rw [size_collect, get_collect]
    rcases member with dead | free
    · rw [if_pos dead]
      exact ⟨(mem_dead_iff.mp dead).1.1, Scope.reset_blank _⟩
    · rw [if_neg fun dead => (mem_dead_iff.mp dead).1.2 free]
      exact ⟨wellFormed.inside free, wellFormed.blank free⟩

end

/-! ### Chains -/

/-- A chain stays in a set of scopes that holds the parents of its members. -/
theorem mem_chainUpTo {K : ScopeId → Prop}
    (closed : ∀ {id p}, K id → (a.get id).parent = some p → K p) {n : Nat} {id other : ScopeId}
    {s : Scope} (start : K id) (member : (other, s) ∈ a.chainUpTo n id) :
    K other ∧ s = a.get other := by
  induction n generalizing id with
  | zero => cases member
  | succ n ih =>
    rw [chainUpTo] at member
    rcases List.mem_cons.mp member with same | member
    · cases same
      exact ⟨start, rfl⟩
    · split at member
      · next parent up => exact ih (closed start up) member
      · cases member

theorem Height.unique (top : (a.get globalScope).parent = none) {id : ScopeId} {n m : Nat}
    (first : a.Height id n) (second : a.Height id m) : n = m := by
  induction first generalizing m with
  | global =>
    cases second with
    | global => rfl
    | up parent above => rw [top] at parent; cases parent
  | up parent above ih =>
    cases second with
    | global => rw [top] at parent; cases parent
    | up other below =>
      rw [parent] at other
      cases other
      rw [ih below]

/-- The ancestors of a scope have different heights, so there are no more of them than slots. -/
theorem Height.lt_size (wellFormed : a.WellFormed) {id : ScopeId} {n : Nat} (height : a.Height id n)
    (inUse : a.InUse id) : n < a.slots.size := by
  have ancestors : ∃ ids : List ScopeId, ids.length = n + 1 ∧ ids.Nodup ∧
      ∀ other ∈ ids, other < a.slots.size ∧ ∃ m, m ≤ n ∧ a.Height other m := by
    induction height with
    | global =>
      refine ⟨[globalScope], rfl, List.pairwise_singleton _ _, fun other member => ?_⟩
      cases List.mem_singleton.mp member
      exact ⟨wellFormed.globalInUse.1, 0, Nat.le_refl _, .global⟩
    | @up id p n parent above ih =>
      obtain ⟨ids, length, distinct, lower⟩ := ih (wellFormed.parent inUse parent).1
      refine ⟨id :: ids, by rw [List.length_cons, length], List.nodup_cons.mpr ⟨?_, distinct⟩, ?_⟩
      · intro member
        obtain ⟨_, m, bound, again⟩ := lower id member
        have same := Height.unique wellFormed.globalTop (.up parent above) again
        omega
      · intro other member
        rcases List.mem_cons.mp member with rfl | member
        · exact ⟨inUse.1, n + 1, Nat.le_refl _, .up parent above⟩
        · obtain ⟨inside, m, bound, tall⟩ := lower other member
          exact ⟨inside, m, Nat.le_succ_of_le bound, tall⟩
  obtain ⟨ids, length, distinct, lower⟩ := ancestors
  have subset : ids ⊆ List.range a.slots.size := fun other member =>
    List.mem_range.mpr (lower other member).1
  have bound := distinct.length_le_of_subset subset
  rw [length, List.length_range] at bound
  exact bound

/-- A bound above the height of a scope does not cut its chain. -/
theorem Height.chainUpTo_eq (top : (a.get globalScope).parent = none) {id : ScopeId} {n m k : Nat}
    (height : a.Height id n) (first : n < m) (second : n < k) :
    a.chainUpTo m id = a.chainUpTo k id := by
  induction height generalizing m k with
  | global =>
    obtain ⟨m, rfl⟩ := Nat.exists_eq_succ_of_ne_zero (Nat.ne_of_gt first)
    obtain ⟨k, rfl⟩ := Nat.exists_eq_succ_of_ne_zero (Nat.ne_of_gt second)
    simp only [chainUpTo, top]
  | @up id p n parent above ih =>
    obtain ⟨m, rfl⟩ : ∃ j, m = j + 1 := ⟨m - 1, by omega⟩
    obtain ⟨k, rfl⟩ : ∃ j, k = j + 1 := ⟨k - 1, by omega⟩
    simp only [chainUpTo, parent]
    rw [ih (Nat.lt_of_succ_lt_succ first) (Nat.lt_of_succ_lt_succ second)]

theorem chainUpTo_eq_chain (wellFormed : a.WellFormed) {id : ScopeId} (inUse : a.InUse id) {n : Nat}
    (bound : a.slots.size ≤ n) : a.chainUpTo n id = a.chain id := by
  obtain ⟨m, height⟩ := wellFormed.rooted inUse
  have small := height.lt_size wellFormed inUse
  exact height.chainUpTo_eq wellFormed.globalTop (Nat.lt_of_lt_of_le small bound) small

/-- A chain is a scope followed by the chain of its parent. -/
theorem chain_eq (wellFormed : a.WellFormed) {id : ScopeId} (inUse : a.InUse id) :
    a.chain id = (id, a.get id) :: ((a.get id).parent.map a.chain).getD [] := by
  rw [← chainUpTo_eq_chain wellFormed inUse (Nat.le_succ a.slots.size), chainUpTo]
  cases up : (a.get id).parent with
  | none => rfl
  | some p => rfl

theorem chain_getLast? (wellFormed : a.WellFormed) {id : ScopeId} (inUse : a.InUse id) :
    (a.chain id).getLast? = some (globalScope, a.get globalScope) := by
  obtain ⟨n, height⟩ := wellFormed.rooted inUse
  induction height with
  | global => rw [chain_eq wellFormed inUse, wellFormed.globalTop]; rfl
  | @up id p n parent above ih =>
    have last := ih (wellFormed.parent inUse parent).1
    rw [chain_eq wellFormed inUse, parent]
    cases rest : a.chain p with
    | nil => rw [rest] at last; cases last
    | cons e es =>
      rw [rest] at last
      simpa [rest, List.getLast?_cons_cons] using last

end Arena

end RetroScript
