import RetroScript.Scope.Collector
import RetroScript.Value.Element

/-!
# Reading after writing

What tables, heaps and arenas hold after each operation on them. Values that an operation did not
bring in were there before.
-/

namespace RetroScript

/-! ### Tables -/

namespace Dict

variable {α : Type}

theorem find?_eq_some_iff (d : Dict α) (name : String) (a : α) :
    d.find? name = some a ↔ (name, a) ∈ d.entries := by
  unfold find?
  have distinct := d.distinct
  generalize d.entries = es at distinct ⊢
  induction es with
  | nil => simp
  | cons e es ih =>
    obtain ⟨key, b⟩ := e
    simp only [List.map_cons, List.nodup_cons] at distinct
    obtain ⟨fresh, distinct⟩ := distinct
    by_cases same : name = key
    · subst same
      have absent : (name, a) ∉ es := fun member => fresh (List.mem_map_of_mem (f := Prod.fst) member)
      simp [absent, eq_comm]
    · have differs : (name == key) = false := by simpa using same
      simp [List.lookup_cons, differs, same, ih distinct]

theorem mem_values_iff (d : Dict α) (a : α) : a ∈ d.values ↔ ∃ name, d.find? name = some a := by
  simp only [find?_eq_some_iff, values, List.mem_map, Prod.exists, exists_eq_right]

theorem mem_values_of_find? {d : Dict α} {name : String} {a : α} (found : d.find? name = some a) :
    a ∈ d.values := (d.mem_values_iff a).mpr ⟨name, found⟩

theorem mem_values_insert {d : Dict α} {name : String} {a b : α}
    (member : b ∈ (d.insert name a).values) : b = a ∨ b ∈ d.values := by
  simp only [values, List.mem_map] at member ⊢
  obtain ⟨e, present, rfl⟩ := member
  unfold insert at present
  split at present
  · obtain ⟨old, oldPresent, rfl⟩ := List.mem_map.mp present
    unfold replaceEntry
    split
    · exact Or.inl rfl
    · exact Or.inr ⟨old, oldPresent, rfl⟩
  · rcases List.mem_append.mp present with old | new
    · exact Or.inr ⟨e, old, rfl⟩
    · exact Or.inl (by rw [List.mem_singleton.mp new])

theorem mem_values_erase {d : Dict α} {name : String} {b : α}
    (member : b ∈ (d.erase name).values) : b ∈ d.values := by
  simp only [values, erase, List.mem_map] at member ⊢
  obtain ⟨e, present, rfl⟩ := member
  exact ⟨e, (List.mem_filter.mp present).1, rfl⟩

theorem find?_insert (d : Dict α) (name other : String) (a : α) :
    (d.insert name a).find? other = if other = name then some a else d.find? other := by
  apply Option.ext
  intro b
  rw [find?_eq_some_iff]
  by_cases same : other = name
  · subst same
    rw [if_pos rfl]
    unfold insert
    split
    · next present =>
      obtain ⟨⟨key, old⟩, member, rfl⟩ := List.mem_map.mp present
      simp only [List.mem_map, replaceEntry, Option.some.injEq]
      constructor
      · rintro ⟨e, _, replaced⟩
        split at replaced
        · exact (Prod.mk.inj replaced).2
        · next differs => exact absurd (congrArg Prod.fst replaced) differs
      · rintro rfl
        exact ⟨_, member, if_pos rfl⟩
    · next absent =>
      have old : (other, b) ∉ d.entries := fun member => absent (List.mem_map_of_mem (f := Prod.fst) member)
      simp [old, eq_comm]
  · rw [if_neg same, find?_eq_some_iff]
    unfold insert
    split
    · simp only [List.mem_map, replaceEntry]
      constructor
      · rintro ⟨e, member, replaced⟩
        split at replaced
        · exact absurd (congrArg Prod.fst replaced).symm same
        · rwa [replaced] at member
      · intro member
        exact ⟨_, member, if_neg same⟩
    · simp [same]

theorem find?_erase (d : Dict α) (name other : String) :
    (d.erase name).find? other = if other = name then none else d.find? other := by
  apply Option.ext
  intro a
  rw [find?_eq_some_iff]
  by_cases same : other = name
  · simp [erase, same]
  · simp [erase, same, find?_eq_some_iff]

theorem mem_names_iff (d : Dict α) (name : String) : name ∈ d.names ↔ ∃ a, d.find? name = some a := by
  simp only [find?_eq_some_iff, names, List.mem_map, Prod.exists, exists_and_right, exists_eq_right]

theorem size_insert (d : Dict α) (name : String) (a : α) :
    (d.insert name a).size = if d.contains name then d.size else d.size + 1 := by
  have known : name ∈ d.entries.map Prod.fst ↔ d.contains name = true :=
    (d.mem_names_iff name).trans Option.isSome_iff_exists.symm
  unfold insert size
  split
  · next present => rw [if_pos (known.mp present), List.length_map]
  · next absent => rw [if_neg (mt known.mpr absent), List.length_append, List.length_singleton]

theorem erase_of_missing {d : Dict α} {name : String} (missing : d.find? name = none) : d.erase name = d := by
  obtain ⟨entries, distinct⟩ := d
  have kept : entries.filter (·.1 ≠ name) = entries := by
    apply List.filter_eq_self.mpr
    intro e member
    apply decide_eq_true
    rintro rfl
    have found := (find?_eq_some_iff ⟨entries, distinct⟩ e.1 e.2).mpr member
    rw [missing] at found
    cases found
  unfold erase
  congr 1

/-- The table with entries put in one after another. -/
def insertAll (d : Dict α) (es : List (String × α)) : Dict α :=
  es.foldl (fun d e => d.insert e.1 e.2) d

theorem mem_values_insertAll {d : Dict α} {es : List (String × α)} {b : α}
    (member : b ∈ (d.insertAll es).values) : b ∈ es.map Prod.snd ∨ b ∈ d.values := by
  induction es generalizing d with
  | nil => exact Or.inr member
  | cons e es ih =>
    rcases ih (d := d.insert e.1 e.2) member with later | before
    · exact Or.inl (List.mem_cons_of_mem _ later)
    · rcases mem_values_insert before with rfl | old
      · exact Or.inl List.mem_cons_self
      · exact Or.inr old

end Dict

/-! ### Heaps -/

/-- A value that refers to nothing. -/
def Value.Plain : Value → Prop
  | .array _ | .map _ | .closure _ => False
  | _ => True

namespace Heap

/-- A set of values with the elements of its containers. References that are not given out yet belong
to it, so that it need not grow with the heap. -/
structure Closed (h : Heap) (V : Value → Prop) : Prop where
  plain : ∀ {v : Value}, v.Plain → V v
  item : ∀ {ref v}, V (.array ref) → v ∈ h.array ref → V v
  entry : ∀ {ref v}, V (.map ref) → v ∈ (h.map ref).values → V v
  newArrays : ∀ {ref}, h.arrays.size ≤ ref → V (.array ref)
  newMaps : ∀ {ref}, h.maps.size ≤ ref → V (.map ref)
  newClosures : ∀ {ref}, h.closures.size ≤ ref → V (.closure ref)

variable {h : Heap} {V : Value → Prop}

theorem array_newArray (h : Heap) (items : Array Value) (ref : Nat) :
    (h.newArray items).2.array ref = if ref = h.arrays.size then items else h.array ref := by
  simp only [newArray, array, Array.getD_eq_getD_getElem?, Array.getElem?_push]
  split <;> rfl

theorem map_newMap (h : Heap) (entries : Dict Value) (ref : Nat) :
    (h.newMap entries).2.map ref = if ref = h.maps.size then entries else h.map ref := by
  simp only [newMap, map, Array.getD_eq_getD_getElem?, Array.getElem?_push]
  split <;> rfl

theorem closure_newClosure (h : Heap) (c : Closure) (ref : Nat) :
    (h.newClosure c).2.closure ref = if ref = h.closures.size then c else h.closure ref := by
  simp only [newClosure, closure, Array.getD_eq_getD_getElem?, Array.getElem?_push]
  split <;> rfl

theorem closure_outside {ref : Nat} (outside : h.closures.size ≤ ref) : h.closure ref = default := by
  simp [closure, outside]

theorem Closed.newArray (closed : h.Closed V) {items : Array Value} (valid : ∀ v ∈ items, V v) :
    (h.newArray items).2.Closed V where
  plain := closed.plain
  item {ref v} member inside := by
    rw [array_newArray] at inside
    split at inside
    · exact valid v inside
    · exact closed.item member inside
  entry := closed.entry
  newArrays bound := closed.newArrays (Nat.le_of_succ_le (by simpa [Heap.newArray] using bound))
  newMaps := closed.newMaps
  newClosures := closed.newClosures

theorem Closed.newMap (closed : h.Closed V) {entries : Dict Value}
    (valid : ∀ v ∈ entries.values, V v) : (h.newMap entries).2.Closed V where
  plain := closed.plain
  item := closed.item
  entry {ref v} member inside := by
    rw [map_newMap] at inside
    split at inside
    · exact valid v inside
    · exact closed.entry member inside
  newArrays := closed.newArrays
  newMaps bound := closed.newMaps (Nat.le_of_succ_le (by simpa [Heap.newMap] using bound))
  newClosures := closed.newClosures

theorem Closed.newClosure (closed : h.Closed V) (c : Closure) : (h.newClosure c).2.Closed V where
  plain := closed.plain
  item := closed.item
  entry := closed.entry
  newArrays := closed.newArrays
  newMaps := closed.newMaps
  newClosures bound :=
    closed.newClosures (Nat.le_of_succ_le (by simpa [Heap.newClosure] using bound))

theorem array_modifyArray (h : Heap) (ref : Nat) (f : Array Value → Array Value) (other : Nat) :
    (h.modifyArray ref f).array other = h.array other ∨
      (h.modifyArray ref f).array other = f (h.array other) := by
  simp only [modifyArray, array, Array.getD_eq_getD_getElem?, Array.getElem?_modify]
  split
  · cases h.arrays[other]? with
    | none => exact Or.inl rfl
    | some items => exact Or.inr rfl
  · exact Or.inl rfl

theorem map_modifyMap (h : Heap) (ref : Nat) (f : Dict Value → Dict Value) (other : Nat) :
    (h.modifyMap ref f).map other = h.map other ∨
      (h.modifyMap ref f).map other = f (h.map other) := by
  simp only [modifyMap, map, Array.getD_eq_getD_getElem?, Array.getElem?_modify]
  split
  · cases h.maps[other]? with
    | none => exact Or.inl rfl
    | some entries => exact Or.inr rfl
  · exact Or.inl rfl

theorem Closed.modifyArray (closed : h.Closed V) (ref : Nat) {f : Array Value → Array Value}
    (valid : ∀ {items : Array Value} {v}, v ∈ f items → v ∈ items ∨ V v) :
    (h.modifyArray ref f).Closed V where
  plain := closed.plain
  item {other v} member inside := by
    rcases array_modifyArray h ref f other with same | changed
    · exact closed.item member (same ▸ inside)
    · exact (valid (changed ▸ inside)).elim (closed.item member) id
  entry := closed.entry
  newArrays bound := closed.newArrays (by simpa [Heap.modifyArray] using bound)
  newMaps := closed.newMaps
  newClosures := closed.newClosures

theorem Closed.modifyMap (closed : h.Closed V) (ref : Nat) {f : Dict Value → Dict Value}
    (valid : ∀ {entries : Dict Value} {v}, v ∈ (f entries).values → v ∈ entries.values ∨ V v) :
    (h.modifyMap ref f).Closed V where
  plain := closed.plain
  item := closed.item
  entry {other v} member inside := by
    rcases map_modifyMap h ref f other with same | changed
    · exact closed.entry member (same ▸ inside)
    · exact (valid (changed ▸ inside)).elim (closed.entry member) id
  newArrays := closed.newArrays
  newMaps bound := closed.newMaps (by simpa [Heap.modifyMap] using bound)
  newClosures := closed.newClosures

theorem Closed.put (closed : h.Closed V) (p : Place) {v : Value} (valid : V v) :
    (h.put p v).Closed V := by
  cases p with
  | item ref i =>
    refine closed.modifyArray ref fun {items w} member => ?_
    split at member
    · rcases Array.mem_push.mp member with old | rfl
      · exact Or.inl old
      · exact Or.inr valid
    · rcases Array.mem_or_eq_of_mem_setIfInBounds member with old | rfl
      · exact Or.inl old
      · exact Or.inr valid
  | entry ref name =>
    refine closed.modifyMap ref fun {entries w} member => ?_
    rcases Dict.mem_values_insert member with rfl | old
    · exact Or.inr valid
    · exact Or.inl old

theorem Closed.erase (closed : h.Closed V) (p : Place) : (h.erase p).Closed V := by
  cases p with
  | item ref i =>
    refine closed.modifyArray ref fun {items w} member => Or.inl ?_
    unfold Array.eraseIdxIfInBounds at member
    split at member
    · exact Array.mem_of_mem_eraseIdx member
    · exact member
  | entry ref name => exact closed.modifyMap ref fun member => Or.inl (Dict.mem_values_erase member)

/-- The place of an element is in its container. -/
theorem place_cases {room : Nat} {base key : Value} {p : Place} (found : h.place room base key = .ok p) :
    (∃ ref i, base = .array ref ∧ p = .item ref i) ∨
      ∃ ref name, base = .map ref ∧ p = .entry ref name := by
  cases base with
  | array ref =>
    simp only [place, bind, Except.bind] at found
    repeat' split at found
    all_goals cases found
    exact Or.inl ⟨ref, _, rfl, rfl⟩
  | map ref =>
    simp only [place, bind, Except.bind] at found
    split at found
    · cases found
    · cases found
      exact Or.inr ⟨ref, _, rfl, rfl⟩
  | _ => cases found

theorem Closed.getD (closed : h.Closed V) {result : Option Value}
    (valid : ∀ v, result = some v → V v) : V (result.getD .null) := by
  cases result with
  | none => exact closed.plain trivial
  | some v => exact valid v rfl

theorem Closed.read (closed : h.Closed V) {base key v : Value} (valid : V base)
    (found : h.read base key = .ok v) : V v := by
  unfold Heap.read at found
  cases placed : h.place 0 base key with
  | error f => rw [placed] at found; cases found
  | ok p =>
    rw [placed] at found
    cases found
    rcases place_cases placed with ⟨ref, i, rfl, rfl⟩ | ⟨ref, name, rfl, rfl⟩
    · simp only [Heap.get, Array.getD_eq_getD_getElem?]
      cases element : (h.array ref)[i]? with
      | none => exact closed.plain trivial
      | some v => exact closed.item valid (Array.mem_of_getElem? element)
    · simp only [Heap.get]
      cases element : (h.map ref).find? name with
      | none => exact closed.plain trivial
      | some v => exact closed.entry valid (Dict.mem_values_of_find? element)

end Heap

/-! ### Arenas -/

namespace Arena

/-- The slots that hold scopes; the others are kept for reuse. -/
def InUse (a : Arena) (id : ScopeId) : Prop := id < a.slots.size ∧ id ∉ a.free

@[simp] theorem slots_modify (a : Arena) (id : ScopeId) (f : Scope → Scope) :
    (a.modify id f).slots.size = a.slots.size := by simp [modify]

@[simp] theorem free_modify (a : Arena) (id : ScopeId) (f : Scope → Scope) :
    (a.modify id f).free = a.free := rfl

theorem inUse_modify (a : Arena) (id other : ScopeId) (f : Scope → Scope) :
    (a.modify id f).InUse other ↔ a.InUse other := by simp [InUse]

theorem get_modify_same (a : Arena) {id : ScopeId} (f : Scope → Scope) (inside : id < a.slots.size) :
    (a.modify id f).get id = f (a.get id) := by
  simp [get, modify, Array.getElem_modify, inside]

theorem get_modify_other (a : Arena) {id other : ScopeId} (f : Scope → Scope) (differs : other ≠ id) :
    (a.modify id f).get other = a.get other := by
  simp [get, modify, Array.getElem?_modify, differs.symm]

/-- A property that holds of every scope holds after a change that keeps it. -/
theorem get_modify_elim {P : ScopeId → Scope → Prop} {a : Arena} {id : ScopeId} {f : Scope → Scope}
    {other : ScopeId} (before : P other (a.get other))
    (changed : other = id → P other (f (a.get other))) : P other ((a.modify id f).get other) := by
  by_cases same : other = id
  · subst same
    by_cases inside : other < a.slots.size
    · rw [get_modify_same a f inside]
      exact changed rfl
    · have untouched : (a.modify other f).get other = a.get other := by
        simp [get, Nat.not_lt.mp inside]
      rw [untouched]
      exact before
  · rw [get_modify_other a f same]
    exact before

theorem modify_self (a : Arena) (id : ScopeId) : (a.modify id fun s => s) = a := by
  have same : a.slots.modify id (fun s => s) = a.slots := by
    apply Array.ext
    · simp
    · intro i _ _
      simp only [Array.getElem_modify]
      split <;> rfl
  unfold modify
  rw [same]

theorem modify_modify (a : Arena) (id : ScopeId) (f g : Scope → Scope) :
    (a.modify id f).modify id g = a.modify id fun s => g (f s) := by
  unfold modify
  congr 1
  apply Array.ext
  · simp
  · intro i _ _
    simp only [Array.getElem_modify]
    split <;> rfl

theorem foldl_setVar (a : Arena) (id : ScopeId) (es : List (String × Value)) :
    es.foldl (fun a (name, v) => a.setVar id name v) a =
      a.modify id fun s => { s with vars := s.vars.insertAll es } := by
  induction es generalizing a with
  | nil => exact (modify_self a id).symm
  | cons e es ih =>
    rw [List.foldl_cons, ih]
    exact modify_modify a id _ _

end Arena

end RetroScript
