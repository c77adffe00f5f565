import RetroScript.Proofs.JsonText
import RetroScript.Syntax.Outline

/-!
# Outline text determines the program

Two programs with the same outline are the same, places included. If their numbers are finite, it is
enough that the outlines have the same text, in one line or indented: `outline_text_determines`.
-/

namespace RetroScript.Syntax

open Json (FiniteItems FiniteFields)

/-! ### Parts of an outline -/

theorem positionOutline_inj {p q : Position} : positionOutline p = positionOutline q ↔ p = q := by
  cases p
  cases q
  simp [positionOutline]

theorem node_inj {p q : Position} {j k : Json} : node p j = node q k ↔ p = q ∧ j = k := by
  simp [node, positionOutline_inj]

theorem tagged_inj {t u : String} {j k : Json} : tagged t j = tagged u k ↔ t = u ∧ j = k := by
  simp [tagged]

theorem names_inj {ns ms : List String} : names ns = names ms ↔ ns = ms := by
  rw [names, names, Json.list.injEq]
  exact List.map_inj_right fun _ _ same => Json.string.inj same

theorem Operator.outline_inj {a b : Operator} : a.outline = b.outline ↔ a = b := by
  cases a <;> cases b <;> simp only [Operator.outline, Json.string.injEq, String.reduceEq, reduceCtorEq]

theorem definitionOutline_inj {p q : Position} {n m : String} {ns ms : List String} {j k : Json} :
    definitionOutline p n ns j = definitionOutline q m ms k ↔ p = q ∧ n = m ∧ ns = ms ∧ j = k := by
  simp [definitionOutline, positionOutline_inj, names_inj]

theorem placeOutline_inj {n m : String} {j k : Json} : placeOutline n j = placeOutline m k ↔ n = m ∧ j = k := by
  simp [placeOutline]

theorem assignmentOutline_inj {p q : Position} {n m : String} {i j i' j' : Json} :
    assignmentOutline p n i j = assignmentOutline q m i' j' ↔ p = q ∧ (n = m ∧ i = i') ∧ j = j' := by
  simp [assignmentOutline, positionOutline_inj, placeOutline_inj]

theorem callOutline_inj {n m : String} {js ks : List Json} : callOutline n js = callOutline m ks ↔ n = m ∧ js = ks := by
  simp [callOutline]

/-! ### Trees -/

/-- The name of the kind in the outline of a node. -/
def kindName : Json → String
  | .object [_, (_, .object [(tag, _)])] => tag
  | .object [_, (_, .string tag)] => tag
  | _ => ""

def Expr.kindName : Expr → String
  | .number .. => "Number"
  | .bool .. => "Bool"
  | .null .. => "Null"
  | .string .. => "Str"
  | .array .. => "Array"
  | .map .. => "Map"
  | .variable .. => "Variable"
  | .index .. => "Index"
  | .lambda .. => "AnonFun"
  | .call .. => "Call"
  | .binary .. => "Binary"

def Command.kindName : Command → String
  | .remark .. => "Remark"
  | .assign .. => "Let"
  | .delete .. => "Del"
  | .result .. => "Return"
  | .branch .. => "If"
  | .loop .. => "While"
  | .define .. => "Fun"
  | .call .. => "Call"

theorem Expr.kindName_outline (e : Expr) : Syntax.kindName e.outline = e.kindName := by
  cases e <;> rfl

theorem Command.kindName_outline (c : Command) : Syntax.kindName c.outline = c.kindName := by
  cases c <;> rfl

theorem Expr.kindName_eq {e f : Expr} (same : e.outline = f.outline) : e.kindName = f.kindName := by
  rw [← e.kindName_outline, ← f.kindName_outline, same]

theorem Command.kindName_eq {c d : Command} (same : c.outline = d.outline) : c.kindName = d.kindName := by
  rw [← c.kindName_outline, ← d.kindName_outline, same]

mutual

theorem Expr.outline_inj : ∀ e f : Expr, e.outline = f.outline → e = f
  | .number pos x, f, same => by
    -- Here and below, the names of the kinds rule out every tree that starts in another way.
    have kinds := Expr.kindName_eq same
    cases f with
    | number pos' y =>
      simp only [Expr.outline, node_inj, tagged_inj, Json.number.injEq, true_and] at same
      obtain ⟨rfl, rfl⟩ := same
      rfl
    | _ => simp only [Expr.kindName, String.reduceEq] at kinds
  | .bool pos b, f, same => by
    have kinds := Expr.kindName_eq same
    cases f with
    | bool pos' b' =>
      simp only [Expr.outline, node_inj, tagged_inj, Json.bool.injEq, true_and] at same
      obtain ⟨rfl, rfl⟩ := same
      rfl
    | _ => simp only [Expr.kindName, String.reduceEq] at kinds
  | .null pos, f, same => by
    have kinds := Expr.kindName_eq same
    cases f with
    | null pos' =>
      simp only [Expr.outline, node_inj, and_true] at same
      rw [same]
    | _ => simp only [Expr.kindName, String.reduceEq] at kinds
  | .string pos s, f, same => by
    have kinds := Expr.kindName_eq same
    cases f with
    | string pos' t =>
      simp only [Expr.outline, node_inj, tagged_inj, Json.string.injEq, true_and] at same
      obtain ⟨rfl, rfl⟩ := same
      rfl
    | _ => simp only [Expr.kindName, String.reduceEq] at kinds
  | .array pos items, f, same => by
    have kinds := Expr.kindName_eq same
    cases f with
    | array pos' items' =>
      simp only [Expr.outline, node_inj, tagged_inj, Json.list.injEq, true_and] at same
      rw [same.1, exprOutlines_inj items items' same.2]
    | _ => simp only [Expr.kindName, String.reduceEq] at kinds
  | .map pos entries, f, same => by
    have kinds := Expr.kindName_eq same
    cases f with
    | map pos' entries' =>
      simp only [Expr.outline, node_inj, tagged_inj, Json.list.injEq, true_and] at same
      rw [same.1, entryOutlines_inj entries entries' same.2]
    | _ => simp only [Expr.kindName, String.reduceEq] at kinds
  | .variable pos name, f, same => by
    have kinds := Expr.kindName_eq same
    cases f with
    | «variable» pos' name' =>
      simp only [Expr.outline, node_inj, tagged_inj, Json.string.injEq, true_and] at same
      obtain ⟨rfl, rfl⟩ := same
      rfl
    | _ => simp only [Expr.kindName, String.reduceEq] at kinds
  | .index pos base key, f, same => by
    have kinds := Expr.kindName_eq same
    cases f with
    | index pos' base' key' =>
      simp only [Expr.outline, node_inj, tagged_inj, Json.list.injEq, List.cons.injEq, and_true, true_and] at same
      rw [same.1, Expr.outline_inj base base' same.2.1, Expr.outline_inj key key' same.2.2]
    | _ => simp only [Expr.kindName, String.reduceEq] at kinds
  | .lambda pos params body, f, same => by
    have kinds := Expr.kindName_eq same
    cases f with
    | lambda pos' params' body' =>
      simp only [Expr.outline, node_inj, tagged_inj, Json.object.injEq, List.cons.injEq, Prod.mk.injEq, names_inj,
        Json.list.injEq, and_true, true_and] at same
      rw [same.1, same.2.1, commandOutlines_inj body body' same.2.2]
    | _ => simp only [Expr.kindName, String.reduceEq] at kinds
  | .call pos name args more, f, same => by
    have kinds := Expr.kindName_eq same
    cases f with
    | call pos' name' args' more' =>
      simp only [Expr.outline, node_inj, tagged_inj, callOutline_inj, List.cons.injEq, Json.list.injEq, true_and] at same
      rw [same.1, same.2.1, exprOutlines_inj args args' same.2.2.1, groupOutlines_inj more more' same.2.2.2]
    | _ => simp only [Expr.kindName, String.reduceEq] at kinds
  | .binary pos op left right, f, same => by
    have kinds := Expr.kindName_eq same
    cases f with
    | binary pos' op' left' right' =>
      simp only [Expr.outline, node_inj, tagged_inj, Json.object.injEq, List.cons.injEq, Prod.mk.injEq,
        Operator.outline_inj, and_true, true_and] at same
      rw [same.1, same.2.1, Expr.outline_inj left left' same.2.2.1, Expr.outline_inj right right' same.2.2.2]
    | _ => simp only [Expr.kindName, String.reduceEq] at kinds
termination_by structural e => e

theorem exprOutlines_inj : ∀ es fs : List Expr, exprOutlines es = exprOutlines fs → es = fs
  | [], [], _ => rfl
  | [], _ :: _, same => nomatch same
  | _ :: _, [], same => nomatch same
  | e :: es, f :: fs, same => by
    rw [Expr.outline_inj e f (List.cons.inj same).1, exprOutlines_inj es fs (List.cons.inj same).2]
termination_by structural e => e

theorem entryOutlines_inj : ∀ es fs : List (String × Expr), entryOutlines es = entryOutlines fs → es = fs
  | [], [], _ => rfl
  | [], (_, _) :: _, same => nomatch same
  | (_, _) :: _, [], same => nomatch same
  | (key, e) :: es, (key', f) :: fs, same => by
    simp only [entryOutlines, List.cons.injEq, Json.list.injEq, Json.string.injEq, and_true] at same
    rw [same.1.1, Expr.outline_inj e f same.1.2, entryOutlines_inj es fs same.2]
termination_by structural e => e

theorem groupOutlines_inj : ∀ gs hs : List (List Expr), groupOutlines gs = groupOutlines hs → gs = hs
  | [], [], _ => rfl
  | [], _ :: _, same => nomatch same
  | _ :: _, [], same => nomatch same
  | g :: gs, h :: hs, same => by
    simp only [groupOutlines, List.cons.injEq, Json.list.injEq] at same
    rw [exprOutlines_inj g h same.1, groupOutlines_inj gs hs same.2]
termination_by structural e => e

theorem Command.outline_inj : ∀ c d : Command, c.outline = d.outline → c = d
  | .remark pos text, d, same => by
    have kinds := Command.kindName_eq same
    cases d with
    | remark pos' text' =>
      simp only [Command.outline, node_inj, tagged_inj, Json.string.injEq, true_and] at same
      obtain ⟨rfl, rfl⟩ := same
      rfl
    | _ => simp only [Command.kindName, String.reduceEq] at kinds
  | .assign pos name indexes value, d, same => by
    have kinds := Command.kindName_eq same
    cases d with
    | assign pos' name' indexes' value' =>
      simp only [Command.outline, node_inj, tagged_inj, assignmentOutline_inj, Json.list.injEq, true_and] at same
      obtain ⟨rfl, _, ⟨rfl, indexes_eq⟩, value_eq⟩ := same
      rw [exprOutlines_inj indexes indexes' indexes_eq, Expr.outline_inj value value' value_eq]
    | _ => simp only [Command.kindName, String.reduceEq] at kinds
  | .delete pos name indexes, d, same => by
    have kinds := Command.kindName_eq same
    cases d with
    | delete pos' name' indexes' =>
      simp only [Command.outline, node_inj, tagged_inj, placeOutline_inj, Json.list.injEq, true_and] at same
      rw [same.1, same.2.1, exprOutlines_inj indexes indexes' same.2.2]
    | _ => simp only [Command.kindName, String.reduceEq] at kinds
  | .result pos value, d, same => by
    have kinds := Command.kindName_eq same
    cases d with
    | result pos' value' =>
      simp only [Command.outline, node_inj, tagged_inj, true_and] at same
      rw [same.1, Expr.outline_inj value value' same.2]
    | _ => simp only [Command.kindName, String.reduceEq] at kinds
  | .branch pos condition yes no, d, same => by
    have kinds := Command.kindName_eq same
    cases d with
    | branch pos' condition' yes' no' =>
      simp only [Command.outline, node_inj, tagged_inj, Json.object.injEq, List.cons.injEq, Prod.mk.injEq,
        Json.list.injEq, and_true, true_and] at same
      rw [same.1, Expr.outline_inj condition condition' same.2.1, commandOutlines_inj yes yes' same.2.2.1,
        commandOutlines_inj no no' same.2.2.2]
    | _ => simp only [Command.kindName, String.reduceEq] at kinds
  | .loop pos condition body, d, same => by
    have kinds := Command.kindName_eq same
    cases d with
    | loop pos' condition' body' =>
      simp only [Command.outline, node_inj, tagged_inj, Json.object.injEq, List.cons.injEq, Prod.mk.injEq,
        Json.list.injEq, and_true, true_and] at same
      rw [same.1, Expr.outline_inj condition condition' same.2.1, commandOutlines_inj body body' same.2.2]
    | _ => simp only [Command.kindName, String.reduceEq] at kinds
  | .define pos name params body, d, same => by
    have kinds := Command.kindName_eq same
    cases d with
    | define pos' name' params' body' =>
      simp only [Command.outline, node_inj, tagged_inj, definitionOutline_inj, Json.list.injEq, true_and] at same
      obtain ⟨rfl, _, rfl, rfl, body_eq⟩ := same
      rw [commandOutlines_inj body body' body_eq]
    | _ => simp only [Command.kindName, String.reduceEq] at kinds
  | .call pos name args more, d, same => by
    have kinds := Command.kindName_eq same
    cases d with
    | call pos' name' args' more' =>
      simp only [Command.outline, node_inj, tagged_inj, callOutline_inj, List.cons.injEq, Json.list.injEq,
        true_and] at same
      rw [same.1, same.2.1, exprOutlines_inj args args' same.2.2.1, groupOutlines_inj more more' same.2.2.2]
    | _ => simp only [Command.kindName, String.reduceEq] at kinds
termination_by structural e => e

theorem commandOutlines_inj : ∀ cs ds : List Command, commandOutlines cs = commandOutlines ds → cs = ds
  | [], [], _ => rfl
  | [], _ :: _, same => nomatch same
  | _ :: _, [], same => nomatch same
  | c :: cs, d :: ds, same => by
    rw [Command.outline_inj c d (List.cons.inj same).1, commandOutlines_inj cs ds (List.cons.inj same).2]
termination_by structural e => e

end

theorem Item.outline_inj {a b : Item} (same : a.outline = b.outline) : a = b := by
  cases a <;> cases b <;> simp only [Item.outline, tagged_inj, String.reduceEq, false_and, true_and] at same
  case remark.remark => rw [Json.string.inj same]
  case const.const pos name value pos' name' value' =>
    simp only [Json.object.injEq, List.cons.injEq, Prod.mk.injEq, positionOutline_inj, Json.string.injEq, and_true,
      true_and] at same
    rw [same.1, same.2.1, Expr.outline_inj value value' same.2.2]
  case assign.assign pos name indexes value pos' name' indexes' value' =>
    simp only [assignmentOutline_inj, Json.list.injEq] at same
    obtain ⟨rfl, ⟨rfl, places⟩, values⟩ := same
    rw [exprOutlines_inj indexes indexes' places, Expr.outline_inj value value' values]
  case define.define pos name params body pos' name' params' body' =>
    simp only [definitionOutline_inj, Json.list.injEq] at same
    obtain ⟨rfl, rfl, rfl, bodies⟩ := same
    rw [commandOutlines_inj body body' bodies]

theorem Program.outline_inj {p q : Program} (same : p.outline = q.outline) : p = q := by
  obtain ⟨items⟩ := p
  obtain ⟨items'⟩ := q
  simp only [Program.outline, Json.object.injEq, List.cons.injEq, Prod.mk.injEq, Json.list.injEq, and_true,
    true_and] at same
  rw [(List.map_inj_right fun _ _ => Item.outline_inj).mp same]

/-! ### Numbers -/

mutual

/-- All numbers are finite. -/
def Expr.Finite : Expr → Prop
  | .number _ x => Number.Finite x
  | .bool .. | .null _ | .string .. | .variable .. => True
  | .array _ items => FiniteExprs items
  | .map _ entries => FiniteEntries entries
  | .index _ base key => base.Finite ∧ key.Finite
  | .lambda _ _ body => FiniteBlock body
  | .call _ _ args more => FiniteExprs args ∧ FiniteGroups more
  | .binary _ _ left right => left.Finite ∧ right.Finite

def FiniteExprs : List Expr → Prop
  | [] => True
  | e :: es => e.Finite ∧ FiniteExprs es

def FiniteEntries : List (String × Expr) → Prop
  | [] => True
  | (_, e) :: es => e.Finite ∧ FiniteEntries es

def FiniteGroups : List (List Expr) → Prop
  | [] => True
  | g :: gs => FiniteExprs g ∧ FiniteGroups gs

def Command.Finite : Command → Prop
  | .remark .. => True
  | .assign _ _ indexes value => FiniteExprs indexes ∧ value.Finite
  | .delete _ _ indexes => FiniteExprs indexes
  | .result _ value => value.Finite
  | .branch _ condition yes no => condition.Finite ∧ FiniteBlock yes ∧ FiniteBlock no
  | .loop _ condition body => condition.Finite ∧ FiniteBlock body
  | .define _ _ _ body => FiniteBlock body
  | .call _ _ args more => FiniteExprs args ∧ FiniteGroups more

def FiniteBlock : List Command → Prop
  | [] => True
  | c :: cs => c.Finite ∧ FiniteBlock cs

end

def Item.Finite : Item → Prop
  | .remark _ => True
  | .const _ _ value => value.Finite
  | .assign _ _ indexes value => FiniteExprs indexes ∧ value.Finite
  | .define _ _ _ body => FiniteBlock body

def Program.Finite (p : Program) : Prop := ∀ item ∈ p.items, item.Finite

theorem finite_position (pos : Position) : (positionOutline pos).Finite := ⟨trivial, trivial, trivial⟩

theorem finite_node (pos : Position) (tag : String) {content : Json} (finite : content.Finite) :
    (node pos (tagged tag content)).Finite :=
  ⟨finite_position pos, ⟨finite, trivial⟩, trivial⟩

theorem finite_names (ns : List String) : (names ns).Finite := by
  rw [names, Json.Finite]
  induction ns with
  | nil => trivial
  | cons n ns ih => exact ⟨trivial, ih⟩

theorem finite_assignment (pos : Position) (name : String) {indexes value : Json} (places : indexes.Finite)
    (finite : value.Finite) : (assignmentOutline pos name indexes value).Finite :=
  ⟨finite_position pos, ⟨trivial, places, trivial⟩, finite, trivial⟩

theorem finite_definition (pos : Position) (name : String) (params : List String) {body : Json}
    (finite : body.Finite) : (definitionOutline pos name params body).Finite :=
  ⟨finite_position pos, trivial, finite_names params, finite, trivial⟩

theorem finite_operator (op : Operator) : op.outline.Finite := by
  cases op <;> trivial

mutual

theorem Expr.finite_outline : ∀ e : Expr, e.Finite → e.outline.Finite
  | .number pos _, finite => finite_node pos _ finite
  | .bool pos _, _ => finite_node pos _ trivial
  | .null pos, _ => ⟨finite_position pos, trivial, trivial⟩
  | .string pos _, _ => finite_node pos _ trivial
  | .array pos items, finite => finite_node pos _ (finite_exprOutlines items finite)
  | .map pos entries, finite => finite_node pos _ (finite_entryOutlines entries finite)
  | .variable pos _, _ => finite_node pos _ trivial
  | .index pos base key, finite =>
    finite_node pos _ ⟨Expr.finite_outline base finite.1, Expr.finite_outline key finite.2, trivial⟩
  | .lambda pos params body, finite =>
    finite_node pos _ ⟨finite_names params, finite_commandOutlines body finite, trivial⟩
  | .call pos _ args more, finite =>
    finite_node pos _
      ⟨trivial, ⟨finite_exprOutlines args finite.1, finite_groupOutlines more finite.2⟩, trivial⟩
  | .binary pos op left right, finite =>
    finite_node pos _
      ⟨finite_operator op, Expr.finite_outline left finite.1, Expr.finite_outline right finite.2, trivial⟩

theorem finite_exprOutlines : ∀ es : List Expr, FiniteExprs es → FiniteItems (exprOutlines es)
  | [], _ => trivial
  | e :: es, finite => ⟨Expr.finite_outline e finite.1, finite_exprOutlines es finite.2⟩

theorem finite_entryOutlines : ∀ es : List (String × Expr), FiniteEntries es → FiniteItems (entryOutlines es)
  | [], _ => trivial
  | (_, e) :: es, finite => ⟨⟨trivial, Expr.finite_outline e finite.1, trivial⟩, finite_entryOutlines es finite.2⟩

theorem finite_groupOutlines : ∀ gs : List (List Expr), FiniteGroups gs → FiniteItems (groupOutlines gs)
  | [], _ => trivial
  | g :: gs, finite => ⟨finite_exprOutlines g finite.1, finite_groupOutlines gs finite.2⟩

theorem Command.finite_outline : ∀ c : Command, c.Finite → c.outline.Finite
  | .remark pos _, _ => finite_node pos _ trivial
  | .assign pos name indexes value, finite =>
    finite_node pos _
      (finite_assignment pos name (finite_exprOutlines indexes finite.1) (Expr.finite_outline value finite.2))
  | .delete pos _ indexes, finite => finite_node pos _ ⟨trivial, finite_exprOutlines indexes finite, trivial⟩
  | .result pos value, finite => finite_node pos _ (Expr.finite_outline value finite)
  | .branch pos condition yes no, finite =>
    finite_node pos _ ⟨Expr.finite_outline condition finite.1, finite_commandOutlines yes finite.2.1,
      finite_commandOutlines no finite.2.2, trivial⟩
  | .loop pos condition body, finite =>
    finite_node pos _ ⟨Expr.finite_outline condition finite.1, finite_commandOutlines body finite.2, trivial⟩
  | .define pos name params body, finite =>
    finite_node pos _ (finite_definition pos name params (finite_commandOutlines body finite))
  | .call pos _ args more, finite =>
    finite_node pos _
      ⟨trivial, ⟨finite_exprOutlines args finite.1, finite_groupOutlines more finite.2⟩, trivial⟩

theorem finite_commandOutlines : ∀ cs : List Command, FiniteBlock cs → FiniteItems (commandOutlines cs)
  | [], _ => trivial
  | c :: cs, finite => ⟨Command.finite_outline c finite.1, finite_commandOutlines cs finite.2⟩

end

theorem Item.finite_outline {item : Item} (finite : item.Finite) : item.outline.Finite := by
  cases item with
  | remark text => exact ⟨trivial, trivial⟩
  | const pos name value =>
    exact ⟨⟨finite_position pos, trivial, Expr.finite_outline value finite, trivial⟩, trivial⟩
  | assign pos name indexes value =>
    have places := finite_exprOutlines indexes finite.1
    exact ⟨finite_assignment pos name places (Expr.finite_outline value finite.2), trivial⟩
  | define pos name params body =>
    exact ⟨finite_definition pos name params (finite_commandOutlines body finite), trivial⟩

theorem Program.finite_outline {p : Program} (finite : p.Finite) : p.outline.Finite := by
  have items : ∀ {items : List Item}, (∀ item ∈ items, item.Finite) → FiniteItems (items.map Item.outline) := by
    intro items finite
    induction items with
    | nil => trivial
    | cons item items ih =>
      refine ⟨Item.finite_outline (finite item List.mem_cons_self), ih ?_⟩
      exact fun later member => finite later (List.mem_cons_of_mem _ member)
  exact ⟨items finite, trivial⟩

/-! ### Text -/

/-- The text of a program's outline tells everything about the program. -/
theorem outline_text_determines {p q : Program} (finite : p.Finite) (finite' : q.Finite) :
    (p.outline.compact = q.outline.compact ↔ p = q) ∧ (p.outline.pretty = q.outline.pretty ↔ p = q) := by
  have outlines : p.outline = q.outline ↔ p = q := ⟨Program.outline_inj, congrArg Program.outline⟩
  have text : ∀ l : Json.Layout,
      String.ofList (p.outline.write l 0 []) = String.ofList (q.outline.write l 0 []) ↔ p = q := by
    intro l
    rw [Json.text_inj l (Program.finite_outline finite) (Program.finite_outline finite'), outlines]
  exact ⟨text .line, text .indented⟩

/-- A program with one constant. -/
def constant (x : Float) : Program := ⟨[.const ⟨1, 1⟩ "z" (.number ⟨1, 11⟩ x)]⟩

theorem outline_text_determines_zeros : (constant 0.0).Finite ∧ (constant (-0.0)).Finite ∧
    (constant 0.0).outline.compact ≠ (constant (-0.0)).outline.compact ∧
    (constant 0.0).outline.pretty ≠ (constant (-0.0)).outline.pretty := by
  have finite : (constant 0.0).Finite := List.forall_mem_singleton.mpr ⟨false, 0, -1074, rfl⟩
  have finite' : (constant (-0.0)).Finite := List.forall_mem_singleton.mpr ⟨true, 0, -1074, rfl⟩
  have apart : constant 0.0 ≠ constant (-0.0) := by
    intro same
    have zeros : (0.0 : Float) = -0.0 := by simpa [constant] using same
    exact absurd (congrArg Float.toBits zeros) (by decide)
  obtain ⟨compact, pretty⟩ := outline_text_determines finite finite'
  exact ⟨finite, finite', fun same => apart (compact.mp same), fun same => apart (pretty.mp same)⟩

end RetroScript.Syntax
