import RetroScript.Proofs.FloatBits
import RetroScript.Proofs.Store
import RetroScript.Value.Equality

/-!
# Equality of values on any heap

Values that refer to themselves have no finite form, so what it means for two of them to be equal is
said by relations: a bisimulation relates values only if they look alike and what they hold is
related again. `equal_greatest_bisimulation` says that `equal` always comes to an answer and is the
largest bisimulation.
-/

namespace RetroScript

/-! ### Tables with the same names -/

namespace Dict

variable {α : Type} {d e : Dict α} {R : α → α → Prop}

theorem find?_eq_none_iff (d : Dict α) (name : String) : d.find? name = none ↔ name ∉ d.names := by
  rw [mem_names_iff, Option.eq_none_iff_forall_ne_some]
  simp

theorem length_names (d : Dict α) : d.names.length = d.size := List.length_map _

theorem names_perm (related : ∀ name, Option.Rel R (d.find? name) (e.find? name)) : d.names.Perm e.names := by
  refine (List.perm_ext_iff_of_nodup d.distinct e.distinct).mpr fun name => ?_
  change name ∈ d.names ↔ name ∈ e.names
  rw [mem_names_iff, mem_names_iff]
  have same := related name
  cases found : d.find? name with
  | none =>
    rw [found] at same
    generalize e.find? name = other at same ⊢
    cases same
    simp
  | some a =>
    rw [found] at same
    generalize e.find? name = other at same ⊢
    cases same
    simp

/-- Of two tables of one size, the second has no name that is not in the first if it has all of those. -/
theorem rel_iff : (∀ name, Option.Rel R (d.find? name) (e.find? name)) ↔
    d.size = e.size ∧ ∀ p ∈ d.entries, ∃ b, e.find? p.1 = some b ∧ R p.2 b := by
  constructor
  · intro related
    refine ⟨?_, fun p member => ?_⟩
    · rw [← length_names, ← length_names]
      exact (names_perm related).length_eq
    · have same := related p.1
      rw [(d.find?_eq_some_iff p.1 p.2).mpr member] at same
      generalize e.find? p.1 = other at same ⊢
      cases same with
      | some related => exact ⟨_, rfl, related⟩
  · rintro ⟨size, each⟩ name
    have kept : d.names ⊆ e.names := by
      intro name member
      obtain ⟨a, found⟩ := (d.mem_names_iff name).mp member
      obtain ⟨b, found', _⟩ := each (name, a) ((d.find?_eq_some_iff name a).mp found)
      exact (e.mem_names_iff name).mpr ⟨b, found'⟩
    have perm : d.names.Perm e.names := by
      refine (List.subperm_of_subset d.distinct kept).perm_of_length_le (Nat.le_of_eq ?_)
      exact e.length_names.trans (size.symm.trans d.length_names.symm)
    cases found : d.find? name with
    | none =>
      have absent : e.find? name = none := by
        rw [find?_eq_none_iff, ← perm.mem_iff, ← find?_eq_none_iff]
        exact found
      rw [absent]
      exact .none
    | some a =>
      obtain ⟨b, found', related⟩ := each (name, a) ((d.find?_eq_some_iff name a).mp found)
      rw [found']
      exact .some related

end Dict

namespace Value

/-! ### Bisimulations -/

/-- Two values that look alike, where `R` relates what they hold. -/
inductive Matches (h : Heap) (R : Value → Value → Prop) : Value → Value → Prop where
  | number {x y : Float} (same : (x == y) = true) : Matches h R (.number x) (.number y)
  | bool (b : Bool) : Matches h R (.bool b) (.bool b)
  | null : Matches h R .null .null
  | string (s : String) : Matches h R (.string s) (.string s)
  | closure (ref : Nat) : Matches h R (.closure ref) (.closure ref)
  | sameArray (ref : Nat) : Matches h R (.array ref) (.array ref)
  | array {a b : Nat} (items : List.Forall₂ R (h.array a).toList (h.array b).toList) :
    Matches h R (.array a) (.array b)
  | sameMap (ref : Nat) : Matches h R (.map ref) (.map ref)
  | map {a b : Nat} (entries : ∀ name, Option.Rel R ((h.map a).find? name) ((h.map b).find? name)) :
    Matches h R (.map a) (.map b)

def Bisimulation (h : Heap) (R : Value → Value → Prop) : Prop := ∀ a b, R a b → Matches h R a b

variable {h : Heap} {R S : Value → Value → Prop} {a b c : Value}

section

variable {x y z : Option Value}

theorem rel_mono (weaker : ∀ a b, R a b → S a b) (related : Option.Rel R x y) : Option.Rel S x y := by
  cases related with
  | some related => exact .some (weaker _ _ related)
  | none => exact .none

theorem rel_flip (related : Option.Rel R x y) : Option.Rel (fun a b => R b a) y x := by
  cases related with
  | some related => exact .some related
  | none => exact .none

theorem rel_comp (first : Option.Rel R x y) (second : Option.Rel R y z) :
    Option.Rel (fun a c => ∃ b, R a b ∧ R b c) x z := by
  cases first with
  | some related =>
    cases second with
    | some related' => exact .some ⟨_, related, related'⟩
  | none =>
    cases second
    exact .none

theorem rel_forall {R : Nat → Value → Value → Prop} (related : ∀ k, Option.Rel (R k) x y) :
    Option.Rel (fun a b => ∀ k, R k a b) x y := by
  cases related 0 with
  | none => exact .none
  | some _ =>
    refine .some fun k => ?_
    cases related k with
    | some related => exact related

theorem forall₂_comp {α β γ : Type} {R : α → β → Prop} {S : β → γ → Prop} {xs : List α} {ys : List β}
    {zs : List γ} (first : List.Forall₂ R xs ys) (second : List.Forall₂ S ys zs) :
    List.Forall₂ (fun a c => ∃ b, R a b ∧ S b c) xs zs := by
  induction first generalizing zs with
  | nil =>
    cases second
    exact .nil
  | cons related _ ih =>
    cases second with
    | cons related' rest => exact .cons ⟨_, related, related'⟩ (ih rest)

theorem forall₂_forall {R : Nat → Value → Value → Prop} {xs ys : List Value}
    (related : ∀ k, List.Forall₂ (R k) xs ys) : List.Forall₂ (fun a b => ∀ k, R k a b) xs ys :=
  List.forall₂_iff_get.mpr ⟨(related 0).length_eq, fun n inside inside' k =>
    (List.forall₂_iff_get.mp (related k)).2 n inside inside'⟩

end

theorem Matches.mono (weaker : ∀ a b, R a b → S a b) (same : Matches h R a b) : Matches h S a b := by
  cases same with
  | number same => exact .number same
  | array items => exact .array (items.imp weaker)
  | map entries => exact .map fun name => rel_mono weaker (entries name)
  | _ => constructor

theorem Matches.flip (same : Matches h R a b) : Matches h (fun x y => R y x) b a := by
  cases same with
  | number same => exact .number (Number.beq_symm same)
  | array items => exact .array items.flip
  | map entries => exact .map fun name => rel_flip (entries name)
  | _ => constructor

/-- A container that is the same as the next one passes on what is known of that. -/
theorem Matches.comp (first : Matches h R a b) (second : Matches h R b c) :
    Matches h (fun x z => R x z ∨ ∃ y, R x y ∧ R y z) a c := by
  cases first with
  | number same =>
    cases second with
    | number same' => exact .number (Number.beq_trans same same')
  | array items =>
    cases second with
    | sameArray ref => exact .array (items.imp fun _ _ related => .inl related)
    | array items' => exact .array ((forall₂_comp items items').imp fun _ _ related => .inr related)
  | map entries =>
    cases second with
    | sameMap ref => exact .map fun name => rel_mono (fun _ _ related => .inl related) (entries name)
    | map entries' =>
      exact .map fun name => rel_mono (fun _ _ related => .inr related) (rel_comp (entries name) (entries' name))
  | _ => exact second.mono fun _ _ related => .inl related

/-! ### Agreement up to a depth -/

/-- Values that look alike down to a depth. -/
def AgreeTo (h : Heap) : Nat → Value → Value → Prop
  | 0, _, _ => True
  | k + 1, a, b => Matches h (AgreeTo h k) a b

theorem AgreeTo.pred {k : Nat} (agree : AgreeTo h (k + 1) a b) : AgreeTo h k a b := by
  induction k generalizing a b with
  | zero => trivial
  | succ k ih => exact Matches.mono (fun _ _ => ih) agree

/-- Each item has its own counterpart, so what agrees to every depth is related by a bisimulation. -/
theorem bisimulation_agree (h : Heap) : Bisimulation h fun a b => ∀ k, AgreeTo h k a b := by
  intro a b agree
  cases agree 1 with
  | number same => exact .number same
  | @array i j _ =>
    by_cases same : i = j
    · subst same
      exact .sameArray i
    · refine .array (forall₂_forall fun k => ?_)
      cases agree (k + 1) with
      | sameArray ref => exact absurd rfl same
      | array items => exact items
  | @map i j _ =>
    by_cases same : i = j
    · subst same
      exact .sameMap i
    · refine .map fun name => rel_forall fun k => ?_
      cases agree (k + 1) with
      | sameMap ref => exact absurd rfl same
      | map entries => exact entries name
  | _ => constructor

/-! ### The depth of a comparison -/

/-- Compares as `equalIn` does, but gives no answer if more than `n` pairs would have to be open inside
one another. -/
def equalWithin (h : Heap) : Nat → List (Value × Value) → Value → Value → Option Bool
  | _, _, .number a, .number b => some (a == b)
  | _, _, .bool a, .bool b => some (a == b)
  | _, _, .null, .null => some true
  | _, _, .string a, .string b => some (a == b)
  | _, _, .closure a, .closure b => some (a == b)
  | n, outer, .array a, .array b =>
    if a = b ∨ outer.contains (.array a, .array b) then some true
    else match n with
      | 0 => none
      | n + 1 =>
        let xs := (h.array a).toList
        let ys := (h.array b).toList
        if xs.length ≠ ys.length then some false
        else (xs.zip ys).allM fun p => equalWithin h n ((.array a, .array b) :: outer) p.1 p.2
  | n, outer, .map a, .map b =>
    if a = b ∨ outer.contains (.map a, .map b) then some true
    else match n with
      | 0 => none
      | n + 1 =>
        let xs := h.map a
        let ys := h.map b
        if xs.size ≠ ys.size then some false
        else xs.entries.allM fun e =>
          match ys.find? e.1 with
          | some y => equalWithin h n ((.map a, .map b) :: outer) e.2 y
          | none => some false
  | _, _, _, _ => some false

theorem allM_eq_some {α : Type} {f : α → Option Bool} {g : α → Bool} {xs : List α}
    (same : ∀ x ∈ xs, f x = some (g x)) : xs.allM f = some (xs.all g) := by
  induction xs with
  | nil => rfl
  | cons x xs ih =>
    rw [List.allM, same x List.mem_cons_self, List.all_cons]
    cases g x with
    | false => rfl
    | true => exact ih fun y member => same y (List.mem_cons_of_mem x member)

theorem of_allM_eq_true {α : Type} {f : α → Option Bool} {xs : List α} (all : xs.allM f = some true) :
    ∀ x ∈ xs, f x = some true := by
  induction xs with
  | nil => simp
  | cons x xs ih =>
    rw [List.allM] at all
    cases found : f x with
    | none =>
      rw [found] at all
      cases all
    | some r =>
      rw [found] at all
      cases r with
      | false => cases all
      | true => exact List.forall_mem_cons.mpr ⟨found, ih all⟩

/-- The pairs that can be open: two containers of one kind that are not the same. -/
def openable (h : Heap) : Finset (Value × Value) :=
  (Finset.range h.arrays.size).offDiag.image (Prod.map .array .array) ∪
    (Finset.range h.maps.size).offDiag.image (Prod.map .map .map)

theorem card_openable (h : Heap) : (openable h).card ≤ pairs h := by
  have arrays : ((Finset.range h.arrays.size).offDiag.image (Prod.map Value.array Value.array)).card ≤
      h.arrays.size * h.arrays.size := by
    refine Finset.card_image_le.trans ?_
    rw [Finset.offDiag_card, Finset.card_range]
    exact Nat.sub_le _ _
  have maps : ((Finset.range h.maps.size).offDiag.image (Prod.map Value.map Value.map)).card ≤
      h.maps.size * h.maps.size := by
    refine Finset.card_image_le.trans ?_
    rw [Finset.offDiag_card, Finset.card_range]
    exact Nat.sub_le _ _
  exact (Finset.card_union_le _ _).trans (Nat.add_le_add arrays maps)

theorem mem_openable_array {i j : Nat} (differ : i ≠ j) (left : i < h.arrays.size) (right : j < h.arrays.size) :
    (Value.array i, Value.array j) ∈ openable h := by
  refine Finset.mem_union_left _ (Finset.mem_image.mpr ⟨(i, j), ?_, rfl⟩)
  simp [left, right, differ]

theorem mem_openable_map {i j : Nat} (differ : i ≠ j) (left : i < h.maps.size) (right : j < h.maps.size) :
    (Value.map i, Value.map j) ∈ openable h := by
  refine Finset.mem_union_right _ (Finset.mem_image.mpr ⟨(i, j), ?_, rfl⟩)
  simp [left, right, differ]

/-- A depth that is enough inside the pairs `outer`. -/
structure Ample (h : Heap) (n : Nat) (outer : List (Value × Value)) : Prop where
  nodup : outer.Nodup
  openable : ∀ p ∈ outer, p ∈ openable h
  enough : pairs h < n + outer.length

theorem Ample.pos {n : Nat} {outer : List (Value × Value)} (ample : Ample h n outer) : 0 < n := by
  have covered : outer.toFinset ⊆ Value.openable h := fun p member =>
    ample.openable p (List.mem_toFinset.mp member)
  have short := (Finset.card_le_card covered).trans (card_openable h)
  rw [List.toFinset_card_of_nodup ample.nodup] at short
  have := ample.enough
  omega

theorem Ample.cons {n : Nat} {outer : List (Value × Value)} {p : Value × Value} (ample : Ample h (n + 1) outer)
    (new : p ∉ outer) (found : p ∈ Value.openable h) : Ample h n (p :: outer) where
  nodup := List.nodup_cons.mpr ⟨new, ample.nodup⟩
  openable := List.forall_mem_cons.mpr ⟨found, ample.openable⟩
  enough := by
    have := ample.enough
    rw [List.length_cons]
    omega

theorem array_inside {ref : Nat} {v : Value} (member : v ∈ (h.array ref).toList) : ref < h.arrays.size := by
  by_contra outside
  rw [Heap.array, Array.getD_eq_getD_getElem?, Array.getElem?_eq_none (by omega)] at member
  cases member

theorem map_inside {ref : Nat} {e : String × Value} (member : e ∈ (h.map ref).entries) : ref < h.maps.size := by
  by_contra outside
  rw [Heap.map, Array.getD_eq_getD_getElem?, Array.getElem?_eq_none (by omega)] at member
  cases member

/-- A comparison ends before its depth is used up. References to nothing are like empty containers, so
they need not be counted. -/
theorem equalWithin_eq {n : Nat} {outer : List (Value × Value)} (ample : Ample h n outer) (a b : Value) :
    equalWithin h n outer a b = some (equalIn h n outer a b) := by
  induction n generalizing outer a b with
  | zero => exact absurd ample.pos (Nat.lt_irrefl 0)
  | succ n ih =>
    cases a with
    | array i =>
      cases b with
      | array j =>
        simp only [equalWithin, equalIn, List.contains_iff_mem]
        by_cases known : i = j ∨ (Value.array i, Value.array j) ∈ outer
        · rw [if_pos known, if_pos known]
        obtain ⟨differ, new⟩ := not_or.mp known
        rw [if_neg known, if_neg known]
        by_cases length : (h.array i).toList.length = (h.array j).toList.length
        · rw [if_neg (not_not.mpr length), beq_iff_eq.mpr length, Bool.true_and]
          refine allM_eq_some fun p member => ih (ample.cons new ?_) p.1 p.2
          exact mem_openable_array differ (array_inside (List.of_mem_zip member).1)
            (array_inside (List.of_mem_zip member).2)
        · rw [if_pos length, beq_eq_false_iff_ne.mpr length, Bool.false_and]
      | _ => simp only [equalWithin, equalIn]
    | map i =>
      cases b with
      | map j =>
        simp only [equalWithin, equalIn, List.contains_iff_mem]
        by_cases known : i = j ∨ (Value.map i, Value.map j) ∈ outer
        · rw [if_pos known, if_pos known]
        obtain ⟨differ, new⟩ := not_or.mp known
        rw [if_neg known, if_neg known]
        by_cases size : (h.map i).size = (h.map j).size
        · rw [if_neg (not_not.mpr size), beq_iff_eq.mpr size, Bool.true_and]
          refine allM_eq_some fun e member => ?_
          cases found : (h.map j).find? e.1 with
          | none => rfl
          | some y =>
            have inside' := map_inside (((h.map j).find?_eq_some_iff e.1 y).mp found)
            exact ih (ample.cons new (mem_openable_map differ (map_inside member) inside')) e.2 y
        · rw [if_pos size, beq_eq_false_iff_ne.mpr size, Bool.false_and]
      | _ => simp only [equalWithin, equalIn]
    | _ => cases b <;> simp only [equalWithin, equalIn]

theorem equalWithin_pairs (h : Heap) (a b : Value) : equalWithin h (pairs h + 1) [] a b = some (a.equal h b) :=
  equalWithin_eq ⟨List.nodup_nil, by simp, by simp⟩ a b

/-! ### Soundness and completeness -/

/-- How a comparison can come to the answer that two values are equal. -/
theorem equalWithin_true {n : Nat} {outer : List (Value × Value)} (equal : equalWithin h n outer a b = some true) :
    (∀ R, Matches h R a b) ∨ (a, b) ∈ outer ∨
      ∃ m, n = m + 1 ∧ Matches h (fun x y => equalWithin h m ((a, b) :: outer) x y = some true) a b := by
  cases a with
  | number x =>
    cases b with
    | number y => exact .inl fun R => .number (by cases n <;> exact Option.some.inj equal)
    | _ => cases n <;> cases equal
  | bool x =>
    cases b with
    | bool y =>
      have same : x = y := by cases n <;> exact beq_iff_eq.mp (Option.some.inj equal)
      exact .inl fun R => same ▸ .bool x
    | _ => cases n <;> cases equal
  | null =>
    cases b with
    | null => exact .inl fun R => .null
    | _ => cases n <;> cases equal
  | string x =>
    cases b with
    | string y =>
      have same : x = y := by cases n <;> exact beq_iff_eq.mp (Option.some.inj equal)
      exact .inl fun R => same ▸ .string x
    | _ => cases n <;> cases equal
  | closure i =>
    cases b with
    | closure j =>
      have same : i = j := by cases n <;> exact beq_iff_eq.mp (Option.some.inj equal)
      exact .inl fun R => same ▸ .closure i
    | _ => cases n <;> cases equal
  | array i =>
    cases b with
    | array j =>
      by_cases known : i = j ∨ (Value.array i, Value.array j) ∈ outer
      · rcases known with rfl | known
        · exact .inl fun R => .sameArray i
        · exact .inr (.inl known)
      cases n with
      | zero =>
        simp only [equalWithin, List.contains_iff_mem, if_neg known] at equal
        cases equal
      | succ m =>
        simp only [equalWithin, List.contains_iff_mem, if_neg known] at equal
        split at equal
        · cases equal
        · next length =>
          have zip := List.forall₂_iff_zip.mpr ⟨not_not.mp length, fun {x y} => of_allM_eq_true equal (x, y)⟩
          exact .inr (.inr ⟨m, rfl, .array zip⟩)
    | _ => cases n <;> cases equal
  | map i =>
    cases b with
    | map j =>
      by_cases known : i = j ∨ (Value.map i, Value.map j) ∈ outer
      · rcases known with rfl | known
        · exact .inl fun R => .sameMap i
        · exact .inr (.inl known)
      cases n with
      | zero =>
        simp only [equalWithin, List.contains_iff_mem, if_neg known] at equal
        cases equal
      | succ m =>
        simp only [equalWithin, List.contains_iff_mem, if_neg known] at equal
        split at equal
        · cases equal
        · next size =>
          refine .inr (.inr ⟨m, rfl, .map (Dict.rel_iff.mpr ⟨not_not.mp size, fun e member => ?_⟩)⟩)
          have same := of_allM_eq_true equal e member
          cases found : (h.map j).find? e.1 with
          | none =>
            rw [found] at same
            cases same
          | some y =>
            rw [found] at same
            exact ⟨y, rfl, same⟩
    | _ => cases n <;> cases equal

/-- The pairs that are open may be assumed to agree: inside the pair at hand, to one level less is
enough. -/
theorem agree_of_equalWithin {n k : Nat} {outer : List (Value × Value)}
    (equal : equalWithin h n outer a b = some true) (assumed : ∀ p ∈ outer, AgreeTo h k p.1 p.2) :
    AgreeTo h k a b := by
  induction n using Nat.strong_induction_on generalizing k outer a b with
  | _ n ih =>
    rcases equalWithin_true equal with alike | known | ⟨m, rfl, deeper⟩
    · cases k with
      | zero => trivial
      | succ k => exact alike _
    · exact assumed _ known
    · induction k with
      | zero => trivial
      | succ k ihk =>
        have less : ∀ p ∈ outer, AgreeTo h k p.1 p.2 := fun p member => (assumed p member).pred
        have assumed' : ∀ p ∈ (a, b) :: outer, AgreeTo h k p.1 p.2 :=
          List.forall_mem_cons.mpr ⟨ihk less, less⟩
        exact deeper.mono fun x y equal => ih m (Nat.lt_succ_self m) equal assumed'

theorem equalIn_of_bisimulation (bisimulation : Bisimulation h R) (related : R a b) (n : Nat)
    (outer : List (Value × Value)) : equalIn h n outer a b = true := by
  induction n generalizing outer a b with
  | zero =>
    cases bisimulation a b related with
    | number same => exact same
    | _ => simp [equalIn]
  | succ n ih =>
    cases bisimulation a b related with
    | number same => exact same
    | array items =>
      obtain ⟨length, items⟩ := List.forall₂_iff_zip.mp items
      simp only [equalIn, length, beq_self_eq_true, Bool.true_and, List.all_eq_true, ite_eq_left_iff]
      exact fun _ p member => ih (items member) _
    | map entries =>
      obtain ⟨size, entries⟩ := Dict.rel_iff.mp entries
      simp only [equalIn, size, beq_self_eq_true, Bool.true_and, List.all_eq_true, ite_eq_left_iff]
      intro _ e member
      obtain ⟨y, found, related⟩ := entries e member
      rw [found]
      exact ih related _
    | _ => simp [equalIn]

theorem bisimulation_equal (h : Heap) : Bisimulation h fun a b => a.equal h b = true := by
  have agree {a b : Value} (equal : a.equal h b = true) (k : Nat) : AgreeTo h k a b :=
    agree_of_equalWithin ((equalWithin_pairs h a b).trans (congrArg some equal)) (by simp)
  intro a b equal
  exact (bisimulation_agree h a b (agree equal)).mono fun x y agree =>
    equalIn_of_bisimulation (bisimulation_agree h) agree _ _

theorem equal_of_bisimulation (bisimulation : Bisimulation h R) (related : R a b) : a.equal h b = true :=
  equalIn_of_bisimulation bisimulation related _ _

/-! ### Equality as a relation -/

theorem equal_symm (equal : a.equal h b = true) : b.equal h a = true := by
  have flipped : Bisimulation h fun x y => y.equal h x = true := fun x y related =>
    (bisimulation_equal h y x related).flip
  exact equal_of_bisimulation flipped equal

theorem equal_trans (first : a.equal h b = true) (second : b.equal h c = true) : a.equal h c = true := by
  -- A container is equal to itself without a look inside, so single pairs belong to the relation too.
  let R (x z : Value) : Prop := x.equal h z = true ∨ ∃ y, x.equal h y = true ∧ y.equal h z = true
  have composed : Bisimulation h R := by
    rintro x z (equal | ⟨y, first, second⟩)
    · exact (bisimulation_equal h x z equal).mono fun _ _ related => .inl related
    · exact (bisimulation_equal h x y first).comp (bisimulation_equal h y z second)
  exact equal_of_bisimulation composed (.inr ⟨b, first, second⟩)

theorem equal_self_iff (h : Heap) (v : Value) : v.equal h v = true ↔ ∀ x, v = .number x → x.isNaN = false := by
  cases v with
  | number x =>
    have same : (Value.number x).equal h (.number x) = (x == x) := rfl
    rw [same, Number.beq_self_iff]
    simp
  | _ => simp [equal, equalIn]

/-- Equality always comes to an answer, and is the largest bisimulation. -/
theorem equal_greatest_bisimulation (h : Heap) :
    (∀ a b : Value, equalWithin h (pairs h + 1) [] a b = some (a.equal h b)) ∧
      IsGreatest {R : Value → Value → Prop | Bisimulation h R} (fun a b => a.equal h b = true) ∧
      (∀ a b : Value, a.equal h b = b.equal h a) ∧
      (∀ a b c : Value, a.equal h b = true → b.equal h c = true → a.equal h c = true) ∧
      ∀ v : Value, v.equal h v = true ↔ ∀ x, v = .number x → x.isNaN = false := by
  refine ⟨equalWithin_pairs h, ⟨bisimulation_equal h, ?_⟩, ?_, ?_, equal_self_iff h⟩
  · exact fun R bisimulation a b related => equal_of_bisimulation bisimulation related
  · exact fun a b => Bool.eq_iff_iff.mpr ⟨equal_symm, equal_symm⟩
  · exact fun a b c first second => equal_trans first second

/-- An array that holds itself, and two that hold each other. -/
example : (Value.array 0).equal ⟨#[#[.array 0], #[.array 2], #[.array 1]], #[], #[]⟩ (.array 1) = true := by
  decide

end Value

end RetroScript
