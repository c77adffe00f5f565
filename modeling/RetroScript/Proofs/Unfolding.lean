import RetroScript.Proofs.Bisimilarity
import RetroScript.Proofs.EntryOrder

/-!
# Values unfolded into trees

A container can stand in several places, and inside itself. If it does not stand inside itself, a value
unfolds into a finite tree, and what is shown is that tree written out: `text_unfolds`. Whatever the
heap, no more containers are open at once than the value can reach. Equal values unfold into trees with
one text: `text_eq_of_equal`.
-/

namespace RetroScript

/-! ### Tables in ascending order -/

namespace Dict

variable {α : Type} (d : Dict α)

theorem sorted_perm : d.sorted.Perm d.entries := List.mergeSort_perm _ _

theorem sorted_ascending : d.sorted.Pairwise fun x y => x.1 < y.1 := by
  have le : d.sorted.Pairwise fun x y => decide (x.1 ≤ y.1) = true :=
    List.pairwise_mergeSort (fun x y z => by simpa using String.le_trans)
      (fun x y => by simpa using String.le_total x.1 y.1) _
  have ne : d.sorted.Pairwise fun x y => x.1 ≠ y.1 :=
    List.pairwise_map.mp ((d.sorted_perm.map Prod.fst).nodup_iff.mpr d.distinct)
  refine (le.and ne).imp fun both => ?_
  exact lt_of_le_of_ne (of_decide_eq_true both.1) both.2

/-- There is only one way to list a table in ascending order. -/
theorem sorted_eq {es : List (String × α)} (listed : es.Perm d.entries)
    (ascending : es.Pairwise fun x y => x.1 < y.1) : d.sorted = es := by
  have same := mergeSort_eq_of_perm Prod.fst listed fun x left y right =>
    eq_of_mem (listed.mem_iff.mp left) (listed.mem_iff.mp right)
  have already : es.Pairwise fun x y => decide (x.1 ≤ y.1) = true :=
    ascending.imp fun lt => decide_eq_true (le_of_lt lt)
  exact same.symm.trans (List.mergeSort_of_pairwise already)

end Dict

/-! ### Containers inside containers -/

/-- A value stands in a container. -/
inductive Heap.Holds (h : Heap) : Value → Value → Prop where
  | item {ref : Nat} {v : Value} (member : v ∈ (h.array ref).toList) : h.Holds (.array ref) v
  | entry {ref : Nat} {e : String × Value} (member : e ∈ (h.map ref).entries) : h.Holds (.map ref) e.2

namespace Value

open Relation (ReflTransGen TransGen)

inductive IsContainer : Value → Prop where
  | array (ref : Nat) : IsContainer (.array ref)
  | map (ref : Nat) : IsContainer (.map ref)

/-- The containers that a value can reach; a container reaches itself. -/
def containers (h : Heap) (v : Value) : Set Value := {c | c.IsContainer ∧ ReflTransGen h.Holds v c}

/-- No container that a value can reach stands inside itself. -/
def Acyclic (h : Heap) (v : Value) : Prop := ∀ c ∈ v.containers h, ¬ TransGen h.Holds c c

variable {h : Heap} {root v : Value} {outer : List Value}

/-- A value and the containers around it, up to where writing began. -/
inductive Path (h : Heap) (root : Value) : List Value → Value → Prop where
  | start : Path h root [] root
  | inner {outer : List Value} {c v : Value} (path : Path h root outer c) (new : c ∉ outer)
      (holds : h.Holds c v) : Path h root (c :: outer) v

namespace Path

theorem nodup (path : Path h root outer v) : outer.Nodup := by
  induction path with
  | start => exact List.nodup_nil
  | inner _ new _ ih => exact List.nodup_cons.mpr ⟨new, ih⟩

theorem reaches (path : Path h root outer v) : ReflTransGen h.Holds root v := by
  induction path with
  | start => exact .refl
  | inner _ _ holds ih => exact ih.tail holds

/-- What is open is a container that the root can reach and that the value is inside of. -/
theorem mem_outer (path : Path h root outer v) {c : Value} (member : c ∈ outer) :
    (∃ w, h.Holds c w) ∧ ReflTransGen h.Holds root c ∧ TransGen h.Holds c v := by
  induction path with
  | start => cases member
  | inner path _ holds ih =>
    rcases List.mem_cons.mp member with rfl | member
    · exact ⟨⟨_, holds⟩, path.reaches, .single holds⟩
    · obtain ⟨full, reached, inside⟩ := ih member
      exact ⟨full, reached, inside.tail holds⟩

end Path

theorem isContainer_of_holds {c w : Value} (holds : h.Holds c w) : c.IsContainer := by
  cases holds with
  | item member => exact .array _
  | entry member => exact .map _

/-- The containers of a heap. -/
def allContainers (h : Heap) : Finset Value :=
  (Finset.range h.arrays.size).image .array ∪ (Finset.range h.maps.size).image .map

theorem card_allContainers (h : Heap) : (allContainers h).card ≤ h.containers := by
  refine (Finset.card_union_le _ _).trans (Nat.add_le_add ?_ ?_)
  · exact Finset.card_image_le.trans (Finset.card_range _).le
  · exact Finset.card_image_le.trans (Finset.card_range _).le

theorem mem_allContainers {c w : Value} (holds : h.Holds c w) : c ∈ allContainers h := by
  cases holds with
  | item member =>
    exact Finset.mem_union_left _ (Finset.mem_image_of_mem _ (Finset.mem_range.mpr (array_inside member)))
  | entry member =>
    exact Finset.mem_union_right _ (Finset.mem_image_of_mem _ (Finset.mem_range.mpr (map_inside member)))

/-- The values that stand in some container of a heap. -/
def allHeld (h : Heap) : Finset Value :=
  (Finset.range h.arrays.size).biUnion (fun ref => (h.array ref).toList.toFinset) ∪
    (Finset.range h.maps.size).biUnion (fun ref => (h.map ref).values.toFinset)

theorem mem_allHeld {c w : Value} (holds : h.Holds c w) : w ∈ allHeld h := by
  cases holds with
  | item member =>
    refine Finset.mem_union_left _ (Finset.mem_biUnion.mpr ⟨_, Finset.mem_range.mpr (array_inside member), ?_⟩)
    exact List.mem_toFinset.mpr member
  | entry member =>
    refine Finset.mem_union_right _ (Finset.mem_biUnion.mpr ⟨_, Finset.mem_range.mpr (map_inside member), ?_⟩)
    exact List.mem_toFinset.mpr (List.mem_map_of_mem (f := Prod.snd) member)

theorem finite_containers (h : Heap) (v : Value) : (v.containers h).Finite := by
  refine (insert v (allHeld h)).finite_toSet.subset ?_
  rintro c ⟨_, reached⟩
  rcases ReflTransGen.cases_tail reached with same | ⟨b, _, holds⟩
  · simp [same]
  · simp [mem_allHeld holds]

/-- A new container on a path that began at `root`: the others are at most all but one of those that the
root can reach. -/
theorem Path.length_lt_reached (path : Path h root outer v) (container : v.IsContainer) (new : v ∉ outer) :
    outer.length < (root.containers h).ncard := by
  have inside : ((v :: outer).toFinset : Set Value) ⊆ root.containers h := by
    intro c member
    rcases List.mem_cons.mp (List.mem_toFinset.mp member) with rfl | member
    · exact ⟨container, path.reaches⟩
    · obtain ⟨⟨w, holds⟩, reached, _⟩ := path.mem_outer member
      exact ⟨isContainer_of_holds holds, reached⟩
  have counted := Set.ncard_le_ncard inside (finite_containers h root)
  rw [Set.ncard_coe_finset, List.toFinset_card_of_nodup (List.nodup_cons.mpr ⟨new, path.nodup⟩)] at counted
  exact counted

/-- What is open holds something, so it is one of the containers of the heap. -/
theorem Path.length_le_containers (path : Path h root outer v) : outer.length ≤ h.containers := by
  have inside : outer.toFinset ⊆ allContainers h := by
    intro c member
    obtain ⟨⟨w, holds⟩, _⟩ := path.mem_outer (List.mem_toFinset.mp member)
    exact mem_allContainers holds
  have counted := (Finset.card_le_card inside).trans (card_allContainers h)
  rwa [List.toFinset_card_of_nodup path.nodup] at counted

/-! ### The depth of a text -/

/-- Writes as `textIn` does, but gives no text if more than `n` containers would have to be open inside
one another. -/
def textWithin (h : Heap) : Nat → List Value → Value → Option String
  | _, _, .number x => some (Number.text x)
  | _, _, .bool b => some (boolText b)
  | _, _, .null => some "null"
  | _, _, .string s => some s
  | _, _, .closure ref => some (h.closure ref).signature
  | n, outer, .array ref =>
    if outer.contains (.array ref) then some "[...]"
    else match n with
      | 0 => none
      | n + 1 => do
        let items ← (h.array ref).toList.mapM (textWithin h n (.array ref :: outer))
        return "[" ++ ", ".intercalate items ++ "]"
  | n, outer, .map ref =>
    if outer.contains (.map ref) then some "\x7b...\x7d"
    else match n with
      | 0 => none
      | n + 1 => do
        let entries ← (h.map ref).sorted.mapM fun e =>
          (textWithin h n (.map ref :: outer) e.2).map fun text => e.1 ++ ": " ++ text
        return "\x7b" ++ ", ".intercalate entries ++ "\x7d"

theorem mapM_eq_some {α : Type} {f : α → Option String} {g : α → String} {xs : List α}
    (same : ∀ x ∈ xs, f x = some (g x)) : xs.mapM f = some (xs.map g) := by
  induction xs with
  | nil => rfl
  | cons x xs ih =>
    rw [List.mapM_cons, same x List.mem_cons_self, ih fun y member => same y (List.mem_cons_of_mem x member)]
    rfl

/-- A depth that is enough for every path from a root. -/
def Suffices (h : Heap) (root : Value) (depth : Nat) : Prop :=
  ∀ outer v, Path h root outer v → v.IsContainer → v ∉ outer → outer.length < depth

theorem suffices_reached (h : Heap) (root : Value) : Suffices h root (root.containers h).ncard :=
  fun _ _ path container new => path.length_lt_reached container new

theorem suffices_containers (h : Heap) (root : Value) : Suffices h root (h.containers + 1) :=
  fun _ _ path _ _ => Nat.lt_succ_of_le path.length_le_containers

section

variable {depth n m : Nat} (enough : Suffices h root depth) (path : Path h root outer v)

include enough path

theorem Suffices.pos (container : v.IsContainer) (new : v ∉ outer) (room : depth ≤ m + outer.length) :
    ∃ k, m = k + 1 := by
  have short := enough outer v path container new
  exact Nat.exists_eq_succ_of_ne_zero (by omega)

/-- Writing ends before its depth is used up. -/
theorem textWithin_eq (left : depth ≤ n + outer.length) (right : depth ≤ m + outer.length) :
    textWithin h n outer v = some (textIn h m outer v) := by
  induction n generalizing m outer v with
  | zero =>
    cases v with
    | array ref =>
      have known : .array ref ∈ outer := by
        by_contra new
        obtain ⟨k, none⟩ := enough.pos path (.array ref) new left
        cases none
      cases m <;> simp [textWithin, textIn, known]
    | map ref =>
      have known : .map ref ∈ outer := by
        by_contra new
        obtain ⟨k, none⟩ := enough.pos path (.map ref) new left
        cases none
      cases m <;> simp [textWithin, textIn, known]
    | _ => cases m <;> rfl
  | succ n ih =>
    cases v with
    | array ref =>
      by_cases known : .array ref ∈ outer
      · cases m <;> simp [textWithin, textIn, known]
      · obtain ⟨m, rfl⟩ := enough.pos path (.array ref) known right
        have items := mapM_eq_some fun x (member : x ∈ (h.array ref).toList) =>
          ih (m := m) (path.inner known (.item member)) (by grind) (by grind)
        simp [textWithin, textIn, known, items]
    | map ref =>
      by_cases known : .map ref ∈ outer
      · cases m <;> simp [textWithin, textIn, known]
      · obtain ⟨m, rfl⟩ := enough.pos path (.map ref) known right
        have entries := mapM_eq_some fun e (member : e ∈ (h.map ref).sorted) => by
          have inside : e ∈ (h.map ref).entries := (h.map ref).sorted_perm.mem_iff.mp member
          have text := ih (m := m) (path.inner known (.entry inside)) (by grind) (by grind)
          exact congrArg (Option.map fun text => e.1 ++ ": " ++ text) text
        dsimp only at entries
        simp [textWithin, textIn, known, entries]
    | _ => cases m <;> rfl

end

/-! ### Trees -/

/-- A value without references. -/
inductive Tree where
  | number (x : Float)
  | bool (b : Bool)
  | null
  | string (s : String)
  | function (c : Closure)
  | array (items : List Tree)
  | map (entries : List (String × Tree))

theorem Tree.sizeOf_item {t : Tree} {items : List Tree} (member : t ∈ items) : sizeOf t < sizeOf (array items) := by
  have smaller := List.sizeOf_lt_of_mem member
  rw [array.sizeOf_spec]
  omega

theorem Tree.sizeOf_entry {e : String × Tree} {entries : List (String × Tree)} (member : e ∈ entries) :
    sizeOf e.2 < sizeOf (map entries) := by
  have smaller := List.sizeOf_lt_of_mem member
  have part : sizeOf e = 1 + sizeOf e.1 + sizeOf e.2 := rfl
  rw [map.sizeOf_spec]
  omega

/-- A tree written out, part by part. -/
def Tree.text : Tree → String
  | .number x => Number.text x
  | .bool b => boolText b
  | .null => "null"
  | .string s => s
  | .function c => c.signature
  | .array items => "[" ++ ", ".intercalate (items.map text) ++ "]"
  | .map entries => "\x7b" ++ ", ".intercalate (entries.map fun e => e.1 ++ ": " ++ e.2.text) ++ "\x7d"
decreasing_by
  · exact sizeOf_item ‹_›
  · exact sizeOf_entry ‹_›

/-- A value as a tree: containers are replaced by what they hold, maps by ascending name. -/
inductive Unfolds (h : Heap) : Value → Tree → Prop where
  | number (x : Float) : Unfolds h (.number x) (.number x)
  | bool (b : Bool) : Unfolds h (.bool b) (.bool b)
  | null : Unfolds h .null .null
  | string (s : String) : Unfolds h (.string s) (.string s)
  | closure (ref : Nat) : Unfolds h (.closure ref) (.function (h.closure ref))
  | array {ref : Nat} {ts : List Tree} (items : List.Forall₂ (Unfolds h) (h.array ref).toList ts) :
    Unfolds h (.array ref) (.array ts)
  | map {ref : Nat} {es : List (String × Value)} {ts : List (String × Tree)}
      (listed : es.Perm (h.map ref).entries) (ascending : es.Pairwise fun x y => x.1 < y.1)
      (names : es.map Prod.fst = ts.map Prod.fst)
      (values : List.Forall₂ (Unfolds h) (es.map Prod.snd) (ts.map Prod.snd)) :
    Unfolds h (.map ref) (.map ts)

theorem map_eq_of_forall₂ {α β γ : Type} {P : α → β → Prop} {f : α → γ} {g : β → γ} {xs : List α} {ys : List β}
    (related : List.Forall₂ P xs ys) (same : ∀ x ∈ xs, ∀ y, P x y → f x = g y) : xs.map f = ys.map g := by
  induction related with
  | nil => rfl
  | cons first _ ih =>
    rw [List.map_cons, List.map_cons, same _ List.mem_cons_self _ first,
      ih fun x member => same x (List.mem_cons_of_mem _ member)]

theorem exists_forall₂ {α β : Type} {P : α → β → Prop} {xs : List α} (each : ∀ x ∈ xs, ∃ y, P x y) :
    ∃ ys, List.Forall₂ P xs ys := by
  induction xs with
  | nil => exact ⟨[], .nil⟩
  | cons x xs ih =>
    obtain ⟨y, first⟩ := each x List.mem_cons_self
    obtain ⟨ys, rest⟩ := ih fun x member => each x (List.mem_cons_of_mem _ member)
    exact ⟨y :: ys, .cons first rest⟩

/-- Entries by their names and the texts of their values. -/
theorem map_entries {α : Type} (text : α → String) (es : List (String × α)) :
    (es.map fun e => e.1 ++ ": " ++ text e.2) =
      List.zipWith (fun name text => name ++ ": " ++ text) (es.map Prod.fst) ((es.map Prod.snd).map text) := by
  induction es with
  | nil => rfl
  | cons e es ih => simp only [List.map_cons, List.zipWith_cons_cons, ih]

section

variable {depth m : Nat} (acyclic : root.Acyclic h) (enough : Suffices h root depth)
  (path : Path h root outer v)

include acyclic path in
/-- Without cycles nothing is met while it is open. -/
theorem Acyclic.new (container : v.IsContainer) : v ∉ outer := fun known =>
  acyclic v ⟨container, path.reaches⟩ (path.mem_outer known).2.2

include acyclic enough path

theorem exists_unfolds (room : depth ≤ m + outer.length) : ∃ t, Unfolds h v t := by
  induction m generalizing outer v with
  | zero =>
    cases v with
    | array ref =>
      obtain ⟨k, none⟩ := enough.pos path (.array ref) (acyclic.new path (.array ref)) room
      cases none
    | map ref =>
      obtain ⟨k, none⟩ := enough.pos path (.map ref) (acyclic.new path (.map ref)) room
      cases none
    | _ => exact ⟨_, by constructor⟩
  | succ m ih =>
    cases v with
    | array ref =>
      have new := acyclic.new path (.array ref)
      obtain ⟨ts, items⟩ := exists_forall₂ fun x (member : x ∈ (h.array ref).toList) =>
        ih (path.inner new (.item member)) (by grind)
      exact ⟨.array ts, .array items⟩
    | map ref =>
      have new := acyclic.new path (.map ref)
      have each : ∀ x ∈ (h.map ref).sorted.map Prod.snd, ∃ t, Unfolds h x t := by
        intro x member
        obtain ⟨e, listed, rfl⟩ := List.mem_map.mp member
        have inside : e ∈ (h.map ref).entries := (h.map ref).sorted_perm.mem_iff.mp listed
        exact ih (path.inner new (.entry inside)) (by grind)
      obtain ⟨ts, values⟩ := exists_forall₂ each
      have length : ((h.map ref).sorted.map Prod.fst).length = ts.length := by
        rw [← values.length_eq, List.length_map, List.length_map]
      refine ⟨.map (((h.map ref).sorted.map Prod.fst).zip ts), ?_⟩
      refine .map (h.map ref).sorted_perm (h.map ref).sorted_ascending ?_ ?_
      · rw [List.map_fst_zip length.le]
      · rw [List.map_snd_zip length.ge]
        exact values
    | _ => exact ⟨_, by constructor⟩

theorem textIn_unfolds {t : Tree} (unfolds : Unfolds h v t) (room : depth ≤ m + outer.length) :
    textIn h m outer v = t.text := by
  induction m generalizing outer v t with
  | zero =>
    cases unfolds with
    | array items =>
      obtain ⟨k, none⟩ := enough.pos path (.array _) (acyclic.new path (.array _)) room
      cases none
    | map listed ascending names values =>
      obtain ⟨k, none⟩ := enough.pos path (.map _) (acyclic.new path (.map _)) room
      cases none
    | _ => rw [Tree.text, textIn]
  | succ m ih =>
    cases unfolds with
    | @array ref ts items =>
      have new := acyclic.new path (.array ref)
      have texts := map_eq_of_forall₂ items fun x member t unfolds =>
        ih (path.inner new (.item member)) unfolds (by grind)
      simp only [textIn, Tree.text, List.contains_eq_mem, new, decide_false, texts]
      rfl
    | @map ref es ts listed ascending names values =>
      have new := acyclic.new path (.map ref)
      have texts := map_eq_of_forall₂ values fun x member t unfolds => by
        obtain ⟨e, found, rfl⟩ := List.mem_map.mp member
        exact ih (path.inner new (.entry (listed.mem_iff.mp found))) unfolds (by grind)
      simp only [textIn, Tree.text, List.contains_eq_mem, new, decide_false,
        (h.map ref).sorted_eq listed ascending, map_entries, names, texts]
      rfl
    | _ => rw [Tree.text, textIn]

end

theorem Acyclic.unfolds (acyclic : v.Acyclic h) : ∃ t, Unfolds h v t :=
  exists_unfolds acyclic (suffices_containers h v) .start (m := h.containers + 1) le_rfl

theorem Acyclic.text_eq (acyclic : v.Acyclic h) {t : Tree} (unfolds : Unfolds h v t) : v.text h = t.text :=
  textIn_unfolds acyclic (suffices_containers h v) .start unfolds le_rfl

/-- Whatever the heap, a text is finished with no more containers open than can be reached; and without
cycles it is the text of the tree. -/
theorem text_unfolds (h : Heap) (v : Value) :
    (v.containers h).Finite ∧ textWithin h (v.containers h).ncard [] v = some (v.text h) ∧
      (v.Acyclic h → (∃ t, Unfolds h v t) ∧ ∀ t, Unfolds h v t → v.text h = t.text) := by
  have enough : Suffices h v (min (v.containers h).ncard (h.containers + 1)) := fun outer w path container new =>
    lt_min (suffices_reached h v outer w path container new) (suffices_containers h v outer w path container new)
  refine ⟨finite_containers h v, ?_, fun acyclic => ⟨acyclic.unfolds, fun t unfolds => acyclic.text_eq unfolds⟩⟩
  exact textWithin_eq enough .start (min_le_left _ _) (min_le_right _ _)

theorem acyclic_of_rank (rank : Value → Nat) (lower : ∀ c w, h.Holds c w → rank w < rank c) (v : Value) :
    v.Acyclic h := by
  intro c _ cycle
  have lower' : ∀ w, TransGen h.Holds c w → rank w < rank c := by
    intro w inside
    induction inside with
    | single holds => exact lower _ _ holds
    | tail _ holds ih => exact (lower _ _ holds).trans ih
  exact lt_irrefl _ (lower' c cycle)

/-- Two arrays that hold a zero, each with its own sign, and two arrays that hold these. -/
def zeros : Heap where
  arrays := #[#[.number 0.0], #[.number (-0.0)], #[.array 0, .array 0], #[.array 0, .array 1]]

/-- Arrays in the order in which they were made. -/
def age : Value → Nat
  | .array ref => ref + 1
  | _ => 0

theorem acyclic_zeros (v : Value) : v.Acyclic zeros := by
  refine acyclic_of_rank age ?_ v
  intro c w holds
  cases holds with
  | @item ref v member =>
    rcases ref with _ | _ | _ | _ | ref
    all_goals simp [zeros, Heap.array] at member
    · simp [member, age]
    · simp [member, age]
    · simp [member, age]
    · rcases member with rfl | rfl <;> simp [age]
  | entry member => simp [zeros, Heap.map, Dict.empty] at member

theorem text_unfolds_zeros : (Value.array 2).Acyclic zeros ∧
    ∃ t, Unfolds zeros (.array 2) t ∧ t.text = "[[0], [0]]" := by
  have shown : (Value.array 2).text zeros = "[[0], [0]]" := by decide +kernel
  obtain ⟨⟨t, unfolds⟩, text⟩ := (text_unfolds zeros (.array 2)).2.2 (acyclic_zeros _)
  exact ⟨acyclic_zeros _, t, unfolds, (text t unfolds).symm.trans shown⟩

/-! ### Equal values -/

/-- Equal, or the very same; a container is equal to itself even if it holds what is no number. -/
def SameOrEqual (h : Heap) (a b : Value) : Prop := a = b ∨ a.equal h b = true

theorem SameOrEqual.items {i j : Nat} (same : SameOrEqual h (.array i) (.array j)) :
    List.Forall₂ (SameOrEqual h) (h.array i).toList (h.array j).toList := by
  rcases same with same | equal
  · cases same
    exact List.forall₂_same.mpr fun _ _ => .inl rfl
  · cases bisimulation_equal h _ _ equal with
    | sameArray ref => exact List.forall₂_same.mpr fun _ _ => .inl rfl
    | array items => exact items.imp fun _ _ => .inr

theorem SameOrEqual.entries {i j : Nat} (same : SameOrEqual h (.map i) (.map j)) (name : String) :
    Option.Rel (SameOrEqual h) ((h.map i).find? name) ((h.map j).find? name) := by
  have refl (x : Option Value) : Option.Rel (SameOrEqual h) x x := by
    cases x with
    | none => exact .none
    | some _ => exact .some (.inl rfl)
  rcases same with same | equal
  · cases same
    exact refl _
  · cases bisimulation_equal h _ _ equal with
    | sameMap ref => exact refl _
    | map entries => exact rel_mono (fun _ _ => .inr) (entries name)

/-- Listed in ascending order, related maps have the same names, and related values at each place. -/
theorem SameOrEqual.listed {i j : Nat} (same : SameOrEqual h (.map i) (.map j)) {es es' : List (String × Value)}
    (listed : es.Perm (h.map i).entries) (ascending : es.Pairwise fun x y => x.1 < y.1)
    (listed' : es'.Perm (h.map j).entries) (ascending' : es'.Pairwise fun x y => x.1 < y.1) :
    es.map Prod.fst = es'.map Prod.fst ∧
      List.Forall₂ (SameOrEqual h) (es.map Prod.snd) (es'.map Prod.snd) := by
  have names : es.map Prod.fst = es'.map Prod.fst := by
    have perm : (es.map Prod.fst).Perm (es'.map Prod.fst) :=
      (listed.map Prod.fst).trans ((Dict.names_perm same.entries).trans (listed'.map Prod.fst).symm)
    refine List.Perm.eq_of_pairwise ?_ (List.pairwise_map.mpr ascending) (List.pairwise_map.mpr ascending') perm
    exact fun x y _ _ less more => absurd more (lt_asymm less)
  refine ⟨names, ?_⟩
  rw [List.forall₂_map_left_iff, List.forall₂_map_right_iff]
  have paired : List.Forall₂ Eq (es.map Prod.fst) (es'.map Prod.fst) := by
    rw [List.forall₂_eq_eq_eq]
    exact names
  have places : List.Forall₂ (fun e e' : String × Value => e.1 = e'.1) es es' :=
    List.forall₂_map_left_iff.mp (List.forall₂_map_right_iff.mp paired)
  obtain ⟨length, places⟩ := List.forall₂_iff_zip.mp places
  refine List.forall₂_iff_zip.mpr ⟨length, fun {e e'} member => ?_⟩
  have found := (Dict.find?_eq_some_iff _ _ _).mpr (listed.mem_iff.mp (List.of_mem_zip member).1)
  have found' := (Dict.find?_eq_some_iff _ _ _).mpr (listed'.mem_iff.mp (List.of_mem_zip member).2)
  have related := same.entries e.1
  rw [found, places member, found'] at related
  cases related with
  | some related => exact related

theorem text_eq_of_beq {x y : Float} (same : (x == y) = true) : Number.text x = Number.text y := by
  obtain ⟨_, equal | ⟨zero, zero'⟩⟩ := (Number.beq_iff x y).mp same
  · rw [Number.text, Number.text, equal]
  · rw [Number.text, Number.text]
    cases left : Number.read x with
    | finite s m q =>
      cases right : Number.read y with
      | finite s' m' q' =>
        rw [left] at zero
        rw [right] at zero'
        exact (if_pos zero).trans (if_pos zero').symm
      | _ =>
        rw [right] at zero'
        exact zero'.elim
    | _ =>
      rw [left] at zero
      exact zero.elim

theorem unfolds_related {xs ys : List Value} {ts us : List Tree} (left : List.Forall₂ (Unfolds h) xs ts)
    (same : List.Forall₂ (SameOrEqual h) xs ys) (right : List.Forall₂ (Unfolds h) ys us) :
    List.Forall₂ (fun t u => ∃ a b, Unfolds h a t ∧ SameOrEqual h a b ∧ Unfolds h b u) ts us := by
  refine (forall₂_comp (forall₂_comp left.flip same) right).imp ?_
  rintro t u ⟨b, ⟨a, left, same⟩, right⟩
  exact ⟨a, b, left, same, right⟩

theorem Unfolds.text_eq {a b : Value} {t u : Tree} (left : Unfolds h a t) (same : SameOrEqual h a b)
    (right : Unfolds h b u) : t.text = u.text := by
  induction size : sizeOf t using Nat.strong_induction_on generalizing a b t u with
  | _ n ih =>
    have looks : a = b ∨ Matches h (fun x y => x.equal h y = true) a b := same.imp_right (bisimulation_equal h a b)
    cases left with
    | @array i ts items =>
      obtain ⟨j, rfl⟩ : ∃ j, b = .array j := by
        rcases looks with rfl | looks
        · exact ⟨i, rfl⟩
        · cases looks <;> exact ⟨_, rfl⟩
      cases right with
      | @array _ us items' =>
        have texts : ts.map Tree.text = us.map Tree.text := by
          refine map_eq_of_forall₂ (unfolds_related items same.items items') ?_
          rintro t member u ⟨a, b, left, same, right⟩
          exact ih _ (size ▸ Tree.sizeOf_item member) left same right rfl
        rw [Tree.text, Tree.text, texts]
    | @map i es ts listed ascending names values =>
      obtain ⟨j, rfl⟩ : ∃ j, b = .map j := by
        rcases looks with rfl | looks
        · exact ⟨i, rfl⟩
        · cases looks <;> exact ⟨_, rfl⟩
      cases right with
      | @map _ es' us listed' ascending' names' values' =>
        obtain ⟨sameNames, sameValues⟩ := same.listed listed ascending listed' ascending'
        have texts : (ts.map Prod.snd).map Tree.text = (us.map Prod.snd).map Tree.text := by
          refine map_eq_of_forall₂ (unfolds_related values sameValues values') ?_
          rintro t member u ⟨a, b, left, same, right⟩
          obtain ⟨e, found, rfl⟩ := List.mem_map.mp member
          exact ih _ (size ▸ Tree.sizeOf_entry found) left same right rfl
        rw [Tree.text, Tree.text, map_entries, map_entries, texts, ← names, ← names', sameNames]
    | number x =>
      rcases looks with rfl | looks
      · cases right
        rfl
      · cases looks with
        | number equal =>
          cases right
          rw [Tree.text, Tree.text, text_eq_of_beq equal]
    | _ =>
      rcases looks with rfl | looks
      · cases right
        rfl
      · cases looks
        cases right
        rfl

/-- Equal values without cycles are shown alike, and so is what they are joined with. -/
theorem text_eq_of_equal {a b : Value} (left : a.Acyclic h) (right : b.Acyclic h) (equal : a.equal h b = true) :
    a.text h = b.text h ∧ ∀ (c : Value) (s : String),
      (Syntax.Operator.add.apply h a c = .ok (.string s) ↔ Syntax.Operator.add.apply h b c = .ok (.string s)) ∧
      (Syntax.Operator.add.apply h c a = .ok (.string s) ↔ Syntax.Operator.add.apply h c b = .ok (.string s)) := by
  have text : a.text h = b.text h := by
    obtain ⟨t, unfolds⟩ := left.unfolds
    obtain ⟨u, unfolds'⟩ := right.unfolds
    calc a.text h = t.text := left.text_eq unfolds
      _ = u.text := unfolds.text_eq (.inr equal) unfolds'
      _ = b.text h := (right.text_eq unfolds').symm
  refine ⟨text, fun c s => ?_⟩
  -- Two numbers are added and not joined, and what equals a number is one.
  cases bisimulation_equal h a b equal with
  | number same => cases c <;> simp [Syntax.Operator.apply, text]
  | _ => simp [Syntax.Operator.apply, text]

theorem text_eq_of_equal_zeros : (Value.array 2).equal zeros (.array 3) = true ∧
    (Value.array 2).text zeros = (Value.array 3).text zeros := by
  have equal : (Value.array 2).equal zeros (.array 3) = true := by decide +kernel
  exact ⟨equal, (text_eq_of_equal (acyclic_zeros _) (acyclic_zeros _) equal).1⟩

end Value

end RetroScript
