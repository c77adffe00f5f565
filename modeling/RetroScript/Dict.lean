/-!
# Tables from names to things

A `Dict` holds at most one entry a name. Its entries have an order, but every view that leaves the
program is by name or sorted by name.
-/
namespace RetroScript

structure Dict (α : Type) where
  entries : List (String × α)
  distinct : (entries.map Prod.fst).Nodup

namespace Dict

variable {α : Type}

def empty : Dict α := ⟨[], List.nodup_nil⟩

instance : Inhabited (Dict α) := ⟨empty⟩

def names (d : Dict α) : List String := d.entries.map Prod.fst

def values (d : Dict α) : List α := d.entries.map Prod.snd

def size (d : Dict α) : Nat := d.entries.length

def find? (d : Dict α) (name : String) : Option α := d.entries.lookup name

def contains (d : Dict α) (name : String) : Bool := (d.find? name).isSome

/-- Puts a new thing in the place of the one called `name`. -/
def replaceEntry (name : String) (a : α) (e : String × α) : String × α :=
  if e.1 = name then (name, a) else e

theorem replaceEntry_fst (name : String) (a : α) (e : String × α) :
    (replaceEntry name a e).1 = e.1 := by
  unfold replaceEntry
  split
  · next same => exact same.symm
  · rfl

theorem names_replace (name : String) (a : α) (es : List (String × α)) :
    (es.map (replaceEntry name a)).map Prod.fst = es.map Prod.fst := by
  simp only [List.map_map]
  exact List.map_congr_left fun e _ => replaceEntry_fst name a e

/-- The table with `name` standing for `a`. -/
def insert (d : Dict α) (name : String) (a : α) : Dict α :=
  if present : name ∈ d.entries.map Prod.fst then
    ⟨d.entries.map (replaceEntry name a), by rw [names_replace]; exact d.distinct⟩
  else
    ⟨d.entries ++ [(name, a)], by
      simp only [List.map_append, List.map_cons, List.map_nil, List.nodup_append, List.nodup_cons,
        List.not_mem_nil, not_false_eq_true, List.nodup_nil, and_true, List.mem_singleton]
      refine ⟨d.distinct, trivial, fun x member y same => ?_⟩
      subst same
      intro equal
      exact present (equal ▸ member)⟩

/-- The table without `name`. -/
def erase (d : Dict α) (name : String) : Dict α :=
  ⟨d.entries.filter (·.1 ≠ name), d.distinct.sublist (List.filter_sublist.map Prod.fst)⟩

/-- The names in ascending order. -/
def sortedNames (d : Dict α) : List String := d.names.mergeSort (fun a b => decide (a ≤ b))

/-- The entries in ascending order of their names. -/
def sorted (d : Dict α) : List (String × α) := d.entries.mergeSort (fun a b => decide (a.1 ≤ b.1))

end Dict

end RetroScript
