import RetroScript.Syntax.Tree
import RetroScript.Text.Blank

/-!
# Views of program trees

A view keeps a tree's structure and some of its detail. `bare` drops the remarks, `shape` forgets
the places. `Tidy` says what every tree has that was read from tokens.
-/
namespace RetroScript.Syntax

/-- What becomes of places, and whether remarks stay. -/
structure View where
  place : Position → Position
  remarks : Bool

/-- Without remarks. -/
def bare : View := ⟨id, false⟩

/-- Up to places. -/
def shape : View := ⟨fun _ => .none, true⟩

@[simp] theorem place_bare (pos : Position) : bare.place pos = pos := rfl

@[simp] theorem place_shape (pos : Position) : shape.place pos = .none := rfl

def Command.isRemark : Command → Bool
  | .remark _ _ => true
  | _ => false

def Item.isRemark : Item → Bool
  | .remark _ => true
  | _ => false

mutual

def Expr.view (v : View) : Expr → Expr
  | .number pos x => .number (v.place pos) x
  | .bool pos b => .bool (v.place pos) b
  | .null pos => .null (v.place pos)
  | .string pos s => .string (v.place pos) s
  | .array pos items => .array (v.place pos) (viewExprs v items)
  | .map pos entries => .map (v.place pos) (viewEntries v entries)
  | .variable pos name => .variable (v.place pos) name
  | .index pos base key => .index (v.place pos) (base.view v) (key.view v)
  | .lambda pos params body => .lambda (v.place pos) params (viewBlock v body)
  | .call pos name args more => .call (v.place pos) name (viewExprs v args) (viewGroups v more)
  | .binary pos op left right => .binary (v.place pos) op (left.view v) (right.view v)

def viewExprs (v : View) : List Expr → List Expr
  | [] => []
  | e :: es => e.view v :: viewExprs v es

def viewEntries (v : View) : List (String × Expr) → List (String × Expr)
  | [] => []
  | (key, e) :: es => (key, e.view v) :: viewEntries v es

def viewGroups (v : View) : List (List Expr) → List (List Expr)
  | [] => []
  | g :: gs => viewExprs v g :: viewGroups v gs

def Command.view (v : View) : Command → Command
  | .remark pos text => .remark (v.place pos) text
  | .assign pos name indexes value => .assign (v.place pos) name (viewExprs v indexes) (value.view v)
  | .delete pos name indexes => .delete (v.place pos) name (viewExprs v indexes)
  | .result pos value => .result (v.place pos) (value.view v)
  | .branch pos condition yes no =>
    .branch (v.place pos) (condition.view v) (viewBlock v yes) (viewBlock v no)
  | .loop pos condition body => .loop (v.place pos) (condition.view v) (viewBlock v body)
  | .define pos name params body => .define (v.place pos) name params (viewBlock v body)
  | .call pos name args more => .call (v.place pos) name (viewExprs v args) (viewGroups v more)

def viewBlock (v : View) : List Command → List Command
  | [] => []
  | c :: cs => if c.isRemark && !v.remarks then viewBlock v cs else c.view v :: viewBlock v cs

end

def Item.view (v : View) : Item → Item
  | .remark text => .remark text
  | .const pos name value => .const (v.place pos) name (value.view v)
  | .assign pos name indexes value => .assign (v.place pos) name (viewExprs v indexes) (value.view v)
  | .define pos name params body => .define (v.place pos) name params (viewBlock v body)

def Program.view (v : View) (p : Program) : Program :=
  ⟨(p.items.filter fun i => !i.isRemark || v.remarks).map (Item.view v)⟩

theorem viewExprs_eq (v : View) (es : List Expr) : viewExprs v es = es.map (Expr.view v) := by
  induction es with
  | nil => rfl
  | cons e es ih => simp [viewExprs, ih]

theorem viewEntries_eq (v : View) (es : List (String × Expr)) :
    viewEntries v es = es.map fun e => (e.1, e.2.view v) := by
  induction es with
  | nil => rfl
  | cons e es ih => simp [viewEntries, ih]

@[simp] theorem pos_view (v : View) (e : Expr) : (e.view v).pos = v.place e.pos := by
  cases e <;> rfl

/-! ### A view of a view -/

def View.comp (v w : View) : View := ⟨v.place ∘ w.place, v.remarks && w.remarks⟩

theorem isRemark_view (v : View) (c : Command) : (c.view v).isRemark = c.isRemark := by
  cases c <;> rfl

mutual

theorem view_view (v w : View) (e : Expr) : (e.view w).view v = e.view (v.comp w) := by
  match e with
  | .number _ _ | .bool _ _ | .null _ | .string _ _ | .variable _ _ => rfl
  | .array _ items => simp only [Expr.view, viewExprs_view v w items]; rfl
  | .map _ entries => simp only [Expr.view, viewEntries_view v w entries]; rfl
  | .index _ base key => simp only [Expr.view, view_view v w base, view_view v w key]; rfl
  | .lambda _ _ body => simp only [Expr.view, viewBlock_view v w body]; rfl
  | .call _ _ args more =>
    simp only [Expr.view, viewExprs_view v w args, viewGroups_view v w more]; rfl
  | .binary _ _ left right => simp only [Expr.view, view_view v w left, view_view v w right]; rfl

theorem viewExprs_view (v w : View) (es : List Expr) :
    viewExprs v (viewExprs w es) = viewExprs (v.comp w) es := by
  match es with
  | [] => rfl
  | e :: es => simp only [viewExprs, view_view v w e, viewExprs_view v w es]

theorem viewEntries_view (v w : View) (es : List (String × Expr)) :
    viewEntries v (viewEntries w es) = viewEntries (v.comp w) es := by
  match es with
  | [] => rfl
  | (_, e) :: es => simp only [viewEntries, view_view v w e, viewEntries_view v w es]

theorem viewGroups_view (v w : View) (gs : List (List Expr)) :
    viewGroups v (viewGroups w gs) = viewGroups (v.comp w) gs := by
  match gs with
  | [] => rfl
  | g :: gs => simp only [viewGroups, viewExprs_view v w g, viewGroups_view v w gs]

theorem viewCommand_view (v w : View) (c : Command) : (c.view w).view v = c.view (v.comp w) := by
  match c with
  | .remark _ _ => rfl
  | .assign _ _ indexes value =>
    simp only [Command.view, viewExprs_view v w indexes, view_view v w value]; rfl
  | .delete _ _ indexes => simp only [Command.view, viewExprs_view v w indexes]; rfl
  | .result _ value => simp only [Command.view, view_view v w value]; rfl
  | .branch _ condition yes no =>
    simp only [Command.view, view_view v w condition, viewBlock_view v w yes, viewBlock_view v w no]; rfl
  | .loop _ condition body =>
    simp only [Command.view, view_view v w condition, viewBlock_view v w body]; rfl
  | .define _ _ _ body => simp only [Command.view, viewBlock_view v w body]; rfl
  | .call _ _ args more =>
    simp only [Command.view, viewExprs_view v w args, viewGroups_view v w more]; rfl

theorem viewBlock_view (v w : View) (cs : List Command) :
    viewBlock v (viewBlock w cs) = viewBlock (v.comp w) cs := by
  match cs with
  | [] => rfl
  | c :: cs =>
    rw [viewBlock, viewBlock]
    by_cases dropped : (c.isRemark && !w.remarks) = true
    · have dropped' : (c.isRemark && !(v.comp w).remarks) = true := by simp_all [View.comp]
      rw [if_pos dropped, if_pos dropped', viewBlock_view v w cs]
    · have same : (c.isRemark && !(v.comp w).remarks) = (c.isRemark && !v.remarks) := by
        cases remark : c.isRemark <;> simp_all [View.comp]
      rw [if_neg dropped, viewBlock, isRemark_view, viewBlock_view v w cs, viewCommand_view v w c, same]

end

theorem viewItem_view (v w : View) (i : Item) : (i.view w).view v = i.view (v.comp w) := by
  cases i with
  | remark text => rfl
  | const pos name value => simp only [Item.view, view_view]; rfl
  | assign pos name indexes value => simp only [Item.view, viewExprs_view, view_view]; rfl
  | define pos name params body => simp only [Item.view, viewBlock_view]; rfl

theorem view_shape (p : Program) : p.view shape = ⟨p.items.map (Item.view shape)⟩ := by
  have kept : (p.items.filter fun i => !i.isRemark || shape.remarks) = p.items :=
    List.filter_eq_self.mpr fun i _ => Bool.or_true _
  rw [Program.view, kept]

theorem shape_shape (p : Program) : (p.view shape).view shape = p.view shape := by
  have twice : ∀ i : Item, (i.view shape).view shape = i.view shape := fun i => viewItem_view shape shape i
  simp [view_shape, twice]

/-! ### Tidy trees -/

mutual

/-- No parameter stands twice in its list, every deletion names an element, and no remark has blanks
at its ends. -/
def Expr.Tidy : Expr → Prop
  | .array _ items => TidyExprs items
  | .map _ entries => TidyEntries entries
  | .index _ base key => base.Tidy ∧ key.Tidy
  | .lambda _ params body => params.Nodup ∧ TidyBlock body
  | .call _ _ args more => TidyExprs args ∧ TidyGroups more
  | .binary _ _ left right => left.Tidy ∧ right.Tidy
  | _ => True

def TidyExprs : List Expr → Prop
  | [] => True
  | e :: es => e.Tidy ∧ TidyExprs es

def TidyEntries : List (String × Expr) → Prop
  | [] => True
  | (_, e) :: es => e.Tidy ∧ TidyEntries es

def TidyGroups : List (List Expr) → Prop
  | [] => True
  | g :: gs => TidyExprs g ∧ TidyGroups gs

def Command.Tidy : Command → Prop
  | .remark _ text => Text.trim text.toList = text.toList
  | .assign _ _ indexes value => TidyExprs indexes ∧ value.Tidy
  | .delete _ _ indexes => indexes ≠ [] ∧ TidyExprs indexes
  | .result _ value => value.Tidy
  | .branch _ condition yes no => condition.Tidy ∧ TidyBlock yes ∧ TidyBlock no
  | .loop _ condition body => condition.Tidy ∧ TidyBlock body
  | .define _ _ params body => params.Nodup ∧ TidyBlock body
  | .call _ _ args more => TidyExprs args ∧ TidyGroups more

def TidyBlock : List Command → Prop
  | [] => True
  | c :: cs => c.Tidy ∧ TidyBlock cs

end

def Item.Tidy : Item → Prop
  | .remark text => Text.trim text.toList = text.toList
  | .const _ _ value => value.Tidy
  | .assign _ _ indexes value => TidyExprs indexes ∧ value.Tidy
  | .define _ _ params body => params.Nodup ∧ TidyBlock body

def Program.Tidy (p : Program) : Prop := ∀ i ∈ p.items, i.Tidy

theorem tidyExprs_iff {es : List Expr} : TidyExprs es ↔ ∀ e ∈ es, e.Tidy := by
  induction es with
  | nil => simp [TidyExprs]
  | cons e es ih => simp [TidyExprs, ih]

theorem tidyEntries_iff {es : List (String × Expr)} : TidyEntries es ↔ ∀ e ∈ es, e.2.Tidy := by
  induction es with
  | nil => simp [TidyEntries]
  | cons e es ih => simp [TidyEntries, ih]

end RetroScript.Syntax
