import RetroScript.Proofs.Effects
import RetroScript.Proofs.NumberValue

/-!
# Elements of containers

Reading, storing and removing `base[key]` follow the laws of arrays that grow at their end and of maps.
`element_operations` states them for every heap and all keys, fractions, infinities and what is no number
included.
-/

namespace RetroScript

/-! ### Containers -/

namespace Heap

variable {h : Heap}

/-- The heap has what a value refers to. -/
def Has (h : Heap) : Value → Prop
  | .array ref => ref < h.arrays.size
  | .map ref => ref < h.maps.size
  | .closure ref => ref < h.closures.size
  | _ => True

theorem array_modifyArray_same {ref : Nat} (f : Array Value → Array Value) (present : ref < h.arrays.size) :
    (h.modifyArray ref f).array ref = f (h.array ref) := by
  simp [modifyArray, array, present, Array.getElem_modify]

theorem map_modifyMap_same {ref : Nat} (f : Dict Value → Dict Value) (present : ref < h.maps.size) :
    (h.modifyMap ref f).map ref = f (h.map ref) := by
  simp [modifyMap, map, present, Array.getElem_modify]

/-- Only what `base` refers to differs. -/
structure OnlyAt (base : Value) (h h' : Heap) : Prop where
  arrays : ∀ ref, base ≠ .array ref → h'.array ref = h.array ref
  maps : ∀ ref, base ≠ .map ref → h'.map ref = h.map ref
  closures : h'.closures = h.closures
  sizes : h'.arrays.size = h.arrays.size ∧ h'.maps.size = h.maps.size

theorem onlyAt_modifyArray (h : Heap) (ref : Nat) (f : Array Value → Array Value) :
    OnlyAt (.array ref) h (h.modifyArray ref f) where
  arrays other differs := array_modifyArray_other f fun same => differs (by rw [same])
  maps _ _ := rfl
  closures := rfl
  sizes := ⟨Array.size_modify, rfl⟩

theorem onlyAt_modifyMap (h : Heap) (ref : Nat) (f : Dict Value → Dict Value) :
    OnlyAt (.map ref) h (h.modifyMap ref f) where
  arrays _ _ := rfl
  maps other differs := map_modifyMap_other f fun same => differs (by rw [same])
  closures := rfl
  sizes := ⟨rfl, Array.size_modify⟩

/-! ### Places -/

/-- The index that a number stands for: its integer part toward zero, as far as a word reaches, and zero if
it is no number. -/
def indexOf (x : Float) : Int :=
  if x.isNaN then 0 else Number.clampWord (Number.integerPart (Number.read x).value)

/-- Why `base[key]` is no place, if arrays have `room` places after their last item. -/
inductive Refuses (h : Heap) (room : Nat) : Value → Value → Fault → Prop where
  | notContainer {base key : Value} (noArray : ∀ ref, base ≠ .array ref) (noMap : ∀ ref, base ≠ .map ref) :
      Refuses h room base key (.type (.notContainer base.kind))
  | arrayKey {ref : Nat} {key : Value} (noNumber : ∀ x, key ≠ .number x) :
      Refuses h room (.array ref) key (.type (.arrayIndex key.kind))
  | mapKey {ref : Nat} {key : Value} (noString : ∀ name, key ≠ .string name) :
      Refuses h room (.map ref) key (.type (.mapKey key.kind))
  | outside {ref : Nat} {x : Float} (outside : indexOf x < 0 ∨ (h.array ref).size + room ≤ indexOf x) :
      Refuses h room (.array ref) (.number x) (.indexOutOfBounds (indexOf x) (h.array ref).size)

/-- What place `base[key]` is. -/
inductive Names (h : Heap) (room : Nat) : Value → Value → Place → Prop where
  | item {ref i : Nat} {x : Float} (index : indexOf x = i) (inside : i < (h.array ref).size + room) :
      Names h room (.array ref) (.number x) (.item ref i)
  | entry {ref : Nat} {name : String} : Names h room (.map ref) (.string name) (.entry ref name)

theorem truncate_eq_indexOf (x : Float) : Number.truncate x = indexOf x := Number.truncate_eq x

theorem place_array (h : Heap) (room ref : Nat) (x : Float) :
    h.place room (.array ref) (.number x) =
      if 0 ≤ indexOf x ∧ indexOf x < ((h.array ref).size + room : Nat) then .ok (.item ref (indexOf x).toNat)
      else .error (.indexOutOfBounds (indexOf x) (h.array ref).size) := by
  simp only [place, arrayIndex, checkIndex, truncate_eq_indexOf, bind, Except.bind]
  by_cases inside : 0 ≤ indexOf x ∧ indexOf x < ((h.array ref).size + room : Nat)
  · rw [if_pos inside, if_pos inside]
    rfl
  · rw [if_neg inside, if_neg inside]

theorem place_eq_ok_iff {room : Nat} {base key : Value} {p : Place} :
    h.place room base key = .ok p ↔ h.Names room base key p := by
  constructor
  · intro found
    cases base with
    | array ref =>
      cases key with
      | number x =>
        rw [place_array] at found
        split at found
        · cases found
          exact .item (by omega) (by omega)
        · cases found
      | _ => cases found
    | map ref =>
      cases key with
      | string name =>
        cases found
        exact .entry
      | _ => cases found
    | _ => cases found
  · intro names
    cases names with
    | item index inside => rw [place_array, index, if_pos (by omega), Int.toNat_natCast]
    | entry => rfl

theorem place_eq_error_iff {room : Nat} {base key : Value} {f : Fault} :
    h.place room base key = .error f ↔ h.Refuses room base key f := by
  constructor
  · intro failed
    cases base with
    | array ref =>
      cases key with
      | number x =>
        rw [place_array] at failed
        split at failed
        · cases failed
        · cases failed
          exact .outside (by omega)
      | _ =>
        cases failed
        exact .arrayKey (by simp)
    | map ref =>
      cases key with
      | string name => cases failed
      | _ =>
        cases failed
        exact .mapKey (by simp)
    | _ =>
      cases failed
      exact .notContainer (by simp) (by simp)
  · intro refused
    cases refused with
    | notContainer noArray noMap =>
      cases base with
      | array ref => exact absurd rfl (noArray ref)
      | map ref => exact absurd rfl (noMap ref)
      | _ => rfl
    | arrayKey noNumber =>
      cases key with
      | number x => exact absurd rfl (noNumber x)
      | _ => rfl
    | mapKey noString =>
      cases key with
      | string name => exact absurd rfl (noString name)
      | _ => rfl
    | outside bounds => rw [place_array, if_neg (by omega)]

theorem map_place_eq_error_iff {α : Type} {room : Nat} {base key : Value} {g : Place → α} {f : Fault} :
    (h.place room base key).map g = .error f ↔ h.Refuses room base key f := by
  rw [← place_eq_error_iff]
  cases h.place room base key <;> simp [Except.map]

theorem map_place_eq_ok_iff {α : Type} {room : Nat} {base key : Value} {g : Place → α} {a : α} :
    (h.place room base key).map g = .ok a ↔ ∃ p, h.Names room base key p ∧ g p = a := by
  simp only [← place_eq_ok_iff]
  cases h.place room base key <;> simp [Except.map]

/-! ### Changes at a place -/

/-- `h'` is `h` with `v` at `base[key]`: an array grows if the index is its length, a map if the name is
new in it. -/
inductive Stored (h : Heap) (v : Value) (h' : Heap) : Value → Value → Prop where
  | item {ref i : Nat} {x : Float} (index : indexOf x = i)
      (items : ∀ k : Nat, (h'.array ref)[k]? = if k = i then some v else (h.array ref)[k]?)
      (size : (h'.array ref).size = (h.array ref).size + if i = (h.array ref).size then 1 else 0) :
      Stored h v h' (.array ref) (.number x)
  | entry {ref : Nat} {name : String}
      (entries : ∀ other, (h'.map ref).find? other = if other = name then some v else (h.map ref).find? other)
      (size : (h'.map ref).size = (h.map ref).size + if (h.map ref).contains name then 0 else 1) :
      Stored h v h' (.map ref) (.string name)

/-- `h'` is `h` without `base[key]`: the items after it move up, and a name that a map lacks is no loss. -/
inductive Removed (h h' : Heap) : Value → Value → Prop where
  | item {ref i : Nat} {x : Float} (index : indexOf x = i)
      (items : ∀ k : Nat, (h'.array ref)[k]? = if k < i then (h.array ref)[k]? else (h.array ref)[k + 1]?)
      (size : (h'.array ref).size + 1 = (h.array ref).size) :
      Removed h h' (.array ref) (.number x)
  | entry {ref : Nat} {name : String}
      (entries : ∀ other, (h'.map ref).find? other = if other = name then none else (h.map ref).find? other)
      (missing : (h.map ref).find? name = none → h' = h) :
      Removed h h' (.map ref) (.string name)

theorem getElem?_put_items (items : Array Value) {i : Nat} (inside : i ≤ items.size) (v : Value) (k : Nat) :
    (if i = items.size then items.push v else items.setIfInBounds i v)[k]? = if k = i then some v else items[k]? := by
  split
  · next last => rw [Array.getElem?_push, last]
  · rw [Array.getElem?_setIfInBounds]
    by_cases same : k = i
    · rw [if_pos same.symm, if_pos same, if_pos (by omega)]
    · rw [if_neg (Ne.symm same), if_neg same]

theorem stored_put {base key v : Value} {p : Place} (present : h.Has base) (names : h.Names 1 base key p) :
    Stored h v (h.put p v) base key ∧ OnlyAt base h (h.put p v) := by
  cases names with
  | @item ref i x index inside =>
    have now := h.array_modifyArray_same
      (fun items => if i = items.size then items.push v else items.setIfInBounds i v) present
    refine ⟨.item index ?_ ?_, h.onlyAt_modifyArray ref _⟩
    · intro k
      rw [put, now]
      exact getElem?_put_items _ (by omega) v k
    · rw [put, now]
      split <;> simp
  | @entry ref name =>
    refine ⟨.entry ?_ ?_, h.onlyAt_modifyMap ref _⟩
    · intro other
      rw [put, h.map_modifyMap_same _ present]
      exact Dict.find?_insert _ name other v
    · rw [put, h.map_modifyMap_same _ present, Dict.size_insert]
      split <;> rfl

theorem modifyMap_self (h : Heap) {ref : Nat} {f : Dict Value → Dict Value} (same : f (h.map ref) = h.map ref) :
    h.modifyMap ref f = h := by
  have kept : h.maps.modify ref f = h.maps := by
    apply Array.ext_getElem?
    intro k
    rw [Array.getElem?_modify]
    split
    · next here =>
      subst here
      cases found : h.maps[ref]? with
      | none => rfl
      | some d => simpa [map, found] using same
    · rfl
  unfold modifyMap
  rw [kept]

theorem removed_erase {base key : Value} {p : Place} (present : h.Has base) (names : h.Names 0 base key p) :
    Removed h (h.erase p) base key ∧ OnlyAt base h (h.erase p) := by
  cases names with
  | @item ref i x index inside =>
    have now := h.array_modifyArray_same (·.eraseIdxIfInBounds i) present
    have here : (h.array ref).eraseIdxIfInBounds i = (h.array ref).eraseIdx i inside := dif_pos inside
    refine ⟨.item index ?_ ?_, h.onlyAt_modifyArray ref _⟩
    · intro k
      rw [erase, now, here, Array.getElem?_eraseIdx]
    · rw [erase, now, here, Array.size_eraseIdx]
      omega
  | @entry ref name =>
    refine ⟨.entry ?_ ?_, h.onlyAt_modifyMap ref _⟩
    · intro other
      rw [erase, h.map_modifyMap_same _ present]
      exact Dict.find?_erase _ name other
    · intro missing
      exact h.modifyMap_self (Dict.erase_of_missing missing)

/-! ### Reading after storing -/

/-- What `base[key]` is. -/
inductive Reads (h : Heap) : Value → Value → Value → Prop where
  | item {ref i : Nat} {x : Float} {v : Value} (index : indexOf x = i) (found : (h.array ref)[i]? = some v) :
      Reads h (.array ref) (.number x) v
  | entry {ref : Nat} {name : String} : Reads h (.map ref) (.string name) (((h.map ref).find? name).getD .null)

/-- Two ways to write one element: the indexes may be different numbers with the same integer part. -/
inductive SameElement : Value → Value → Value → Value → Prop where
  | item {ref : Nat} {x y : Float} (index : indexOf x = indexOf y) :
      SameElement (.array ref) (.number x) (.array ref) (.number y)
  | entry {ref : Nat} {name : String} : SameElement (.map ref) (.string name) (.map ref) (.string name)

theorem read_eq_ok_iff {base key v : Value} : h.read base key = .ok v ↔ h.Reads base key v := by
  rw [read, map_place_eq_ok_iff]
  constructor
  · rintro ⟨p, names, rfl⟩
    cases names with
    | item index inside => exact .item index (by simp [get, Array.getElem?_eq_getElem inside])
    | entry => exact .entry
  · intro reads
    cases reads with
    | item index found =>
      obtain ⟨inside, rfl⟩ := Array.getElem?_eq_some_iff.mp found
      exact ⟨_, .item index inside, by simp [get, inside]⟩
    | entry => exact ⟨_, .entry, rfl⟩

theorem Stored.read_same {h' : Heap} {base key v base' key' : Value} (stored : Stored h v h' base key)
    (same : SameElement base key base' key') : h'.read base' key' = .ok v := by
  rw [read_eq_ok_iff]
  cases stored with
  | item index items =>
    cases same with
    | item equal => exact .item (equal ▸ index) (by rw [items, if_pos rfl])
  | @entry ref name entries =>
    cases same with
    | entry =>
      have read : Reads h' (.map ref) (.string name) _ := .entry
      rwa [entries, if_pos rfl] at read

theorem Stored.read_other {h' : Heap} {base key v base' key' w : Value} (stored : Stored h v h' base key)
    (only : OnlyAt base h h') (differs : ¬ SameElement base key base' key') (before : h.read base' key' = .ok w) :
    h'.read base' key' = .ok w := by
  rw [read_eq_ok_iff] at before ⊢
  cases before with
  | @item ref j y _ index' found =>
    by_cases here : base = .array ref
    · subst here
      cases stored with
      | @item _ i x index items size =>
        have apart : j ≠ i := by
          rintro rfl
          exact differs (.item (index.trans index'.symm))
        exact .item index' (by rw [items, if_neg apart, found])
    · exact .item index' (by rw [only.arrays ref here, found])
  | @entry ref other =>
    by_cases here : base = .map ref
    · subst here
      cases stored with
      | @entry _ name entries size =>
        have apart : other ≠ name := by
          rintro rfl
          exact differs .entry
        have kept := entries other
        rw [if_neg apart] at kept
        rw [← kept]
        exact .entry
    · rw [← only.maps ref here]
      exact .entry

/-- When each operation fails, and what reading gives. -/
structure ElementFailures (h : Heap) (base key v : Value) : Prop where
  read : ∀ f, h.read base key = .error f ↔ h.Refuses 0 base key f
  remove : ∀ f, h.remove base key = .error f ↔ h.Refuses 0 base key f
  store : ∀ f, h.store base key v = .error f ↔ h.Refuses 1 base key f
  reads : ∀ w, h.read base key = .ok w ↔ h.Reads base key w

/-- What the heap is after a store and after a removal, and what is read then. -/
structure ElementEffects (h : Heap) (base key v : Value) : Prop where
  store : ∀ h', h.store base key v = .ok h' → Stored h v h' base key ∧ OnlyAt base h h'
  remove : ∀ h', h.remove base key = .ok h' → Removed h h' base key ∧ OnlyAt base h h'
  readBack : ∀ h' base' key', h.store base key v = .ok h' → SameElement base key base' key' →
    h'.read base' key' = .ok v
  readOthers : ∀ h' base' key' w, h.store base key v = .ok h' → ¬ SameElement base key base' key' →
    h.read base' key' = .ok w → h'.read base' key' = .ok w

theorem elementFailures (h : Heap) (base key v : Value) : h.ElementFailures base key v where
  read _ := map_place_eq_error_iff
  remove _ := map_place_eq_error_iff
  store _ := map_place_eq_error_iff
  reads _ := read_eq_ok_iff

theorem elementEffects {base : Value} (present : h.Has base) (key v : Value) : h.ElementEffects base key v := by
  have store : ∀ h', h.store base key v = .ok h' → Stored h v h' base key ∧ OnlyAt base h h' := by
    intro h' stored
    obtain ⟨p, names, rfl⟩ := map_place_eq_ok_iff.mp stored
    exact stored_put present names
  refine ⟨store, ?_, ?_, ?_⟩
  · intro h' removed
    obtain ⟨p, names, rfl⟩ := map_place_eq_ok_iff.mp removed
    exact removed_erase present names
  · intro h' base' key' stored same
    exact (store h' stored).1.read_same same
  · intro h' base' key' w stored differs before
    obtain ⟨changed, only⟩ := store h' stored
    exact changed.read_other only differs before

end Heap

namespace Machine

/-- Steps that have the key of an element: they do what the heap's operation does, change nothing else,
and change nothing at all if it fails. -/
structure ElementSteps (it : Interpreter) (base key v : Value) (pos : Position) (work : List Pending) : Prop where
  select : ∀ w, it.heap.read base key = .ok w →
    step ⟨it, .give key, .select pos base :: work⟩ = ⟨it, .give w, work⟩
  selectFails : ∀ f, it.heap.read base key = .error f →
    step ⟨it, .give key, .select pos base :: work⟩ = ⟨it, .fail pos f, work⟩
  store : ∀ h', it.heap.store base key v = .ok h' →
    step ⟨it, .give key, .reach pos base [] (.store v) :: work⟩ = ⟨{ it with heap := h' }, .finish none, work⟩
  storeFails : ∀ f, it.heap.store base key v = .error f →
    step ⟨it, .give key, .reach pos base [] (.store v) :: work⟩ = ⟨it, .fail pos f, work⟩
  remove : ∀ h', it.heap.remove base key = .ok h' →
    step ⟨it, .give key, .reach pos base [] .remove :: work⟩ = ⟨{ it with heap := h' }, .finish none, work⟩
  removeFails : ∀ f, it.heap.remove base key = .error f →
    step ⟨it, .give key, .reach pos base [] .remove :: work⟩ = ⟨it, .fail pos f, work⟩

theorem elementSteps (it : Interpreter) (base key v : Value) (pos : Position) (work : List Pending) :
    ElementSteps it base key v pos work := by
  have select : step ⟨it, .give key, .select pos base :: work⟩ =
      giveOrFail it pos (it.heap.read base key) work := rfl
  have store : step ⟨it, .give key, .reach pos base [] (.store v) :: work⟩ =
      changeOrFail it pos (it.heap.place 1 base key) (·.put · v) work := rfl
  have remove : step ⟨it, .give key, .reach pos base [] .remove :: work⟩ =
      changeOrFail it pos (it.heap.place 0 base key) Heap.erase work := rfl
  refine ⟨?_, ?_, ?_, ?_, ?_, ?_⟩
  · intro w found
    rw [select, found]
    rfl
  · intro f failed
    rw [select, failed]
    rfl
  · intro h' stored
    obtain ⟨p, names, rfl⟩ := Heap.map_place_eq_ok_iff.mp stored
    rw [store, Heap.place_eq_ok_iff.mpr names]
    rfl
  · intro f failed
    rw [store, Heap.place_eq_error_iff.mpr (Heap.map_place_eq_error_iff.mp failed)]
    rfl
  · intro h' removed
    obtain ⟨p, names, rfl⟩ := Heap.map_place_eq_ok_iff.mp removed
    rw [remove, Heap.place_eq_ok_iff.mpr names]
    rfl
  · intro f failed
    rw [remove, Heap.place_eq_error_iff.mpr (Heap.map_place_eq_error_iff.mp failed)]
    rfl

/-- For every heap, base, key and value: `Refuses` says when the operations fail, and the steps of the machine
follow them. If the heap has the container, they have the effects that arrays and maps have. -/
theorem element_operations (it : Interpreter) (base key v : Value) (pos : Position) (work : List Pending) :
    it.heap.ElementFailures base key v ∧ ElementSteps it base key v pos work ∧
      (it.heap.Has base → it.heap.ElementEffects base key v) :=
  ⟨it.heap.elementFailures base key v, elementSteps it base key v pos work,
    fun present => Heap.elementEffects present key v⟩

/-- An interpreter with an array that holds itself. -/
def knot : Interpreter := { Interpreter.new ⟨8, 7⟩ {} with heap := { arrays := #[#[.array 0]] } }

theorem element_operations_knot : ∃ h', knot.heap.store (.array 0) (.number 1.5) (.array 0) = .ok h' ∧
    h'.array 0 = #[.array 0, .array 0] ∧ h'.read (.array 0) (.number 1) = .ok (.array 0) ∧
    step ⟨knot, .give (.number 1.5), [.reach .none (.array 0) [] (.store (.array 0))]⟩ =
      ⟨{ knot with heap := h' }, .finish none, []⟩ := by
  have present : knot.heap.Has (.array 0) := Nat.zero_lt_one
  obtain ⟨-, steps, effects⟩ := element_operations knot (.array 0) (.number 1.5) (.array 0) .none []
  have stored : knot.heap.store (.array 0) (.number 1.5) (.array 0) = .ok ⟨#[#[.array 0, .array 0]], #[], #[]⟩ := rfl
  have same : Heap.indexOf 1.5 = Heap.indexOf 1 := by
    rw [← Heap.truncate_eq_indexOf, ← Heap.truncate_eq_indexOf]
    rfl
  exact ⟨_, stored, rfl, (effects present).readBack _ _ _ stored (.item same), steps.store _ stored⟩

end Machine

end RetroScript
