import RetroScript.Proofs.ParserSoundness

/-!
# Places in program trees

`Placed P` says that every node of a tree that can fail has its place in `P`. Remarks cannot fail. In a
program that was read from tokens these places are places of tokens: `placed_of_parse`.
-/

namespace RetroScript.Syntax

variable {P : Position → Prop}

mutual

def Expr.Placed (P : Position → Prop) : Expr → Prop
  | .number pos _ | .bool pos _ | .null pos | .string pos _ | .variable pos _ => P pos
  | .array pos items => P pos ∧ PlacedExprs P items
  | .map pos entries => P pos ∧ PlacedEntries P entries
  | .index pos base key => P pos ∧ base.Placed P ∧ key.Placed P
  | .lambda pos _ body => P pos ∧ PlacedBlock P body
  | .call pos _ args more => P pos ∧ PlacedExprs P args ∧ PlacedGroups P more
  | .binary pos _ left right => P pos ∧ left.Placed P ∧ right.Placed P

def PlacedExprs (P : Position → Prop) : List Expr → Prop
  | [] => True
  | e :: es => e.Placed P ∧ PlacedExprs P es

def PlacedEntries (P : Position → Prop) : List (String × Expr) → Prop
  | [] => True
  | (_, e) :: es => e.Placed P ∧ PlacedEntries P es

def PlacedGroups (P : Position → Prop) : List (List Expr) → Prop
  | [] => True
  | g :: gs => PlacedExprs P g ∧ PlacedGroups P gs

def Command.Placed (P : Position → Prop) : Command → Prop
  | .remark _ _ => True
  | .assign pos _ indexes value => P pos ∧ PlacedExprs P indexes ∧ value.Placed P
  | .delete pos _ indexes => P pos ∧ PlacedExprs P indexes
  | .result pos value => P pos ∧ value.Placed P
  | .branch pos condition yes no => P pos ∧ condition.Placed P ∧ PlacedBlock P yes ∧ PlacedBlock P no
  | .loop pos condition body => P pos ∧ condition.Placed P ∧ PlacedBlock P body
  | .define pos _ _ body => P pos ∧ PlacedBlock P body
  | .call pos _ args more => P pos ∧ PlacedExprs P args ∧ PlacedGroups P more

def PlacedBlock (P : Position → Prop) : List Command → Prop
  | [] => True
  | c :: cs => c.Placed P ∧ PlacedBlock P cs

end

def Item.Placed (P : Position → Prop) : Item → Prop
  | .remark _ => True
  | .const pos _ value => P pos ∧ value.Placed P
  | .assign pos _ indexes value => P pos ∧ PlacedExprs P indexes ∧ value.Placed P
  | .define pos _ _ body => P pos ∧ PlacedBlock P body

def PlacedItems (P : Position → Prop) (items : List Item) : Prop := ∀ i ∈ items, i.Placed P

theorem Expr.Placed.pos {e : Expr} (placed : e.Placed P) : P e.pos := by
  cases e <;> first | exact placed | exact placed.1

theorem placedExprs_iff {es : List Expr} : PlacedExprs P es ↔ ∀ e ∈ es, e.Placed P := by
  induction es with
  | nil => simp [PlacedExprs]
  | cons e es ih => simp [PlacedExprs, ih]

theorem placedEntries_iff {es : List (String × Expr)} : PlacedEntries P es ↔ ∀ e ∈ es, e.2.Placed P := by
  induction es with
  | nil => simp [PlacedEntries]
  | cons e es ih => simp [PlacedEntries, ih]

theorem placedGroups_iff {gs : List (List Expr)} : PlacedGroups P gs ↔ ∀ g ∈ gs, PlacedExprs P g := by
  induction gs with
  | nil => simp [PlacedGroups]
  | cons g gs ih => simp [PlacedGroups, ih]

/-! ### Trees and their words -/

/-- All words have their places in `P`. -/
def PlacedWords (P : Position → Prop) (ts : List Token) : Prop := ∀ t ∈ ts, P t.pos

theorem placedWords_cons {t : Token} {ts : List Token} :
    PlacedWords P (t :: ts) ↔ P t.pos ∧ PlacedWords P ts := List.forall_mem_cons

theorem placedWords_append {ts us : List Token} :
    PlacedWords P (ts ++ us) ↔ PlacedWords P ts ∧ PlacedWords P us := List.forall_mem_append

/-- Words between two others. -/
theorem placedWords_between {l r : Token} {ts : List Token} :
    PlacedWords P (l :: ts ++ [r]) ↔ P l.pos ∧ PlacedWords P ts ∧ P r.pos := by
  rw [List.cons_append, placedWords_cons, placedWords_append]
  simp [PlacedWords]

theorem CommaLed.placed {parts : List (List Token)} {ts : List Token} (led : CommaLed parts ts)
    (placed : PlacedWords P ts) : ∀ us ∈ parts, PlacedWords P us := by
  induction led with
  | nil => simp
  | cons c comma others ih =>
    rw [List.cons_append, placedWords_cons, placedWords_append] at placed
    exact List.forall_mem_cons.mpr ⟨placed.2.1, ih placed.2.2⟩

theorem Joined.placed {parts : List (List Token)} {ts : List Token} (joined : Joined parts ts)
    (placed : PlacedWords P ts) : ∀ us ∈ parts, PlacedWords P us := by
  cases joined with
  | nil => simp
  | cons others =>
    rw [placedWords_append] at placed
    exact List.forall_mem_cons.mpr ⟨placed.1, others.placed placed.2⟩

theorem Joined.placed_part {α : Type} {parts : List (List Token × α)} {ts : List Token}
    (joined : Joined (parts.map (·.1)) ts) (placed : PlacedWords P ts) {p : List Token × α}
    (member : p ∈ parts) : PlacedWords P p.1 :=
  joined.placed placed p.1 (List.mem_map_of_mem member)

mutual

theorem Phrase.placed {n : Nat} {ts : List Token} {e : Expr} (phrase : Phrase n ts e)
    (placed : PlacedWords P ts) : e.Placed P := by
  match phrase with
  | .value value => exact value.placed placed
  | .looser phrase => exact phrase.placed placed
  | .power t caret left right =>
    rw [placedWords_append, placedWords_cons] at placed
    have first := left.placed placed.1
    exact ⟨first.pos, first, right.placed placed.2.2⟩
  | .binary t op tier kind left right =>
    rw [placedWords_append, placedWords_cons] at placed
    have first := left.placed placed.1
    exact ⟨first.pos, first, right.placed placed.2.2⟩

theorem Primary.placed {ts : List Token} {e : Expr} (primary : Primary ts e)
    (placed : PlacedWords P ts) : e.Placed P := by
  match primary with
  | .number t _ _ | .signed t _ _ _ _ | .bool t _ _ | .null t _ | .string t _ | .variable t _ =>
    exact (placedWords_cons.mp placed).1
  | .array l r opens items joined closes =>
    obtain ⟨first, inside, _⟩ := placedWords_between.mp placed
    refine ⟨first, placedExprs_iff.mpr (List.forall_mem_map.mpr fun p member => ?_)⟩
    exact (items p member).placed (joined.placed_part inside member)
  | .map l r opens entries joined closes =>
    obtain ⟨first, inside, _⟩ := placedWords_between.mp placed
    refine ⟨first, placedEntries_iff.mpr (List.forall_mem_map.mpr fun p member => ?_)⟩
    exact (entries p member).placed (joined.placed_part inside member)
  | .call t kind applied =>
    obtain ⟨first, rest⟩ := placedWords_cons.mp placed
    exact ⟨first, applied.placed rest⟩
  | .nested l r opens phrase closes => exact phrase.placed (placedWords_between.mp placed).2.1
  | .unary t arrow kind arrowKind rest =>
    obtain ⟨first, behind⟩ := placedWords_cons.mp placed
    exact ⟨first, rest.placed first (placedWords_cons.mp behind).2⟩
  | .lambda l arrow params arrowKind rest =>
    rw [placedWords_append, placedWords_cons, placedWords_cons] at placed
    exact ⟨placed.1.1, rest.placed placed.1.1 placed.2.2⟩
  | .index l r value opens phrase closes =>
    rw [placedWords_append, placedWords_between] at placed
    exact ⟨placed.2.1, value.placed placed.1, phrase.placed placed.2.2.1⟩

theorem Entry.placed {ts : List Token} {entry : String × Expr} (derives : Entry ts entry)
    (placed : PlacedWords P ts) : entry.2.Placed P := by
  match derives with
  | .pair t colon kind colonKind phrase =>
    rw [placedWords_cons, placedWords_cons] at placed
    exact phrase.placed placed.2.2

theorem Arguments.placed {ts : List Token} {args : List Expr} (arguments : Arguments ts args)
    (placed : PlacedWords P ts) : PlacedExprs P args := by
  match arguments with
  | .list l r opens items joined closes =>
    obtain ⟨_, inside, _⟩ := placedWords_between.mp placed
    refine placedExprs_iff.mpr (List.forall_mem_map.mpr fun p member => ?_)
    exact (items p member).placed (joined.placed_part inside member)

theorem Applied.placed {ts : List Token} {args : List Expr} {more : List (List Expr)}
    (applied : Applied ts args more) (placed : PlacedWords P ts) :
    PlacedExprs P args ∧ PlacedGroups P more := by
  match applied with
  | .groups first others =>
    rw [placedWords_append] at placed
    refine ⟨first.placed placed.1, placedGroups_iff.mpr (List.forall_mem_map.mpr fun g member => ?_)⟩
    refine (others g member).placed fun t inside => placed.2 t ?_
    exact List.mem_flatten_of_mem (List.mem_map_of_mem member) inside

theorem Body.placed {pos : Position} {ts : List Token} {body : List Command} (derives : Body pos ts body)
    (start : P pos) (placed : PlacedWords P ts) : PlacedBlock P body := by
  match derives with
  | .block l r opens commands closes => exact commands.placed (placedWords_between.mp placed).2.1
  | .result phrase other => exact ⟨⟨start, phrase.placed placed⟩, trivial⟩

theorem Indexes.placed {ts : List Token} {keys : List Expr} (indexes : Indexes ts keys)
    (placed : PlacedWords P ts) : PlacedExprs P keys := by
  match indexes with
  | .nil => trivial
  | .cons l r opens phrase closes others =>
    rw [List.cons_append, placedWords_cons, placedWords_append, placedWords_cons] at placed
    exact ⟨phrase.placed placed.2.1, others.placed placed.2.2.2⟩

theorem Statement.placed {ts : List Token} {c : Command} (statement : Statement ts c)
    (placed : PlacedWords P ts) : c.Placed P := by
  match statement with
  | .assign l name eq semi word ident place eqKind phrase closes =>
    simp only [List.cons_append, placedWords_cons, placedWords_append] at placed
    exact ⟨placed.1, place.placed placed.2.2.1.1, phrase.placed placed.2.2.1.2.2⟩
  | .delete l name semi word ident place _ closes =>
    simp only [List.cons_append, placedWords_cons, placedWords_append] at placed
    exact ⟨placed.1, place.placed placed.2.2.1⟩
  | .result l semi word phrase closes =>
    obtain ⟨first, inside, _⟩ := placedWords_between.mp placed
    exact ⟨first, phrase.placed inside⟩
  | .branch l stop word test body other closes =>
    simp only [List.cons_append, placedWords_cons, placedWords_append] at placed
    obtain ⟨first, ⟨⟨condition, yes⟩, no⟩, _⟩ := placed
    exact ⟨first, test.placed condition, body.placed yes, other.placed no⟩
  | .loop l stop word test commands closes =>
    simp only [List.cons_append, placedWords_cons, placedWords_append] at placed
    exact ⟨placed.1, test.placed placed.2.1.1, commands.placed placed.2.1.2⟩
  | .define l name stop word ident params commands closes =>
    simp only [List.cons_append, placedWords_cons, placedWords_append] at placed
    exact ⟨placed.1, commands.placed placed.2.2.1.2⟩
  | .call t semi kind applied closes =>
    obtain ⟨first, inside, _⟩ := placedWords_between.mp placed
    exact ⟨first, applied.placed inside⟩

theorem Condition.placed {ts : List Token} {e : Expr} (condition : Condition ts e)
    (placed : PlacedWords P ts) : e.Placed P := by
  match condition with
  | .nested l r opens phrase closes => exact phrase.placed (placedWords_between.mp placed).2.1

theorem Otherwise.placed {ts : List Token} {body : List Command} (other : Otherwise ts body)
    (placed : PlacedWords P ts) : PlacedBlock P body := by
  match other with
  | .none => trivial
  | .some l word commands => exact commands.placed (placedWords_cons.mp placed).2

theorem Block.placed {ts : List Token} {body : List Command} (block : Block ts body)
    (placed : PlacedWords P ts) : PlacedBlock P body := by
  match block with
  | .nil => trivial
  | .cons first others =>
    rw [placedWords_append] at placed
    exact ⟨first.placed placed.1, others.placed placed.2⟩

end

theorem Item.Derives.placed {ts : List Token} {i : Item} (derives : Item.Derives ts i)
    (placed : PlacedWords P ts) : i.Placed P := by
  cases derives with
  | const l name eq semi word ident eqKind phrase closes =>
    simp only [List.cons_append, placedWords_cons, placedWords_append] at placed
    exact ⟨placed.1, phrase.placed placed.2.2.2.1⟩
  | assign statement => exact statement.placed placed
  | define statement => exact statement.placed placed

theorem Program.Derives.placed {ts : List Token} {p : Program} (derives : Program.Derives ts p)
    (placed : PlacedWords P ts) : PlacedItems P p.items := by
  induction derives with
  | nil => simp [PlacedItems]
  | cons first others ih =>
    rw [placedWords_append] at placed
    exact List.forall_mem_cons.mpr ⟨first.placed placed.1, ih placed.2⟩

/-! ### Remarks -/

mutual

theorem placed_of_bare (e : Expr) (placed : (e.view bare).Placed P) : e.Placed P := by
  match e with
  | .number _ _ | .bool _ _ | .null _ | .string _ _ | .variable _ _ => exact placed
  | .array _ items => exact ⟨placed.1, placedExprs_of_bare items placed.2⟩
  | .map _ entries => exact ⟨placed.1, placedEntries_of_bare entries placed.2⟩
  | .index _ base key => exact ⟨placed.1, placed_of_bare base placed.2.1, placed_of_bare key placed.2.2⟩
  | .lambda _ _ body => exact ⟨placed.1, placedBlock_of_bare body placed.2⟩
  | .call _ _ args more =>
    exact ⟨placed.1, placedExprs_of_bare args placed.2.1, placedGroups_of_bare more placed.2.2⟩
  | .binary _ _ left right =>
    exact ⟨placed.1, placed_of_bare left placed.2.1, placed_of_bare right placed.2.2⟩

theorem placedExprs_of_bare (es : List Expr) (placed : PlacedExprs P (viewExprs bare es)) :
    PlacedExprs P es := by
  match es with
  | [] => trivial
  | e :: es => exact ⟨placed_of_bare e placed.1, placedExprs_of_bare es placed.2⟩

theorem placedEntries_of_bare (es : List (String × Expr)) (placed : PlacedEntries P (viewEntries bare es)) :
    PlacedEntries P es := by
  match es with
  | [] => trivial
  | (_, e) :: es => exact ⟨placed_of_bare e placed.1, placedEntries_of_bare es placed.2⟩

theorem placedGroups_of_bare (gs : List (List Expr)) (placed : PlacedGroups P (viewGroups bare gs)) :
    PlacedGroups P gs := by
  match gs with
  | [] => trivial
  | g :: gs => exact ⟨placedExprs_of_bare g placed.1, placedGroups_of_bare gs placed.2⟩

theorem placedCommand_of_bare (c : Command) (placed : (c.view bare).Placed P) : c.Placed P := by
  match c with
  | .remark _ _ => trivial
  | .assign _ _ indexes value =>
    exact ⟨placed.1, placedExprs_of_bare indexes placed.2.1, placed_of_bare value placed.2.2⟩
  | .delete _ _ indexes => exact ⟨placed.1, placedExprs_of_bare indexes placed.2⟩
  | .result _ value => exact ⟨placed.1, placed_of_bare value placed.2⟩
  | .branch _ condition yes no =>
    exact ⟨placed.1, placed_of_bare condition placed.2.1, placedBlock_of_bare yes placed.2.2.1,
      placedBlock_of_bare no placed.2.2.2⟩
  | .loop _ condition body =>
    exact ⟨placed.1, placed_of_bare condition placed.2.1, placedBlock_of_bare body placed.2.2⟩
  | .define _ _ _ body => exact ⟨placed.1, placedBlock_of_bare body placed.2⟩
  | .call _ _ args more =>
    exact ⟨placed.1, placedExprs_of_bare args placed.2.1, placedGroups_of_bare more placed.2.2⟩

theorem placedBlock_of_bare (cs : List Command) (placed : PlacedBlock P (viewBlock bare cs)) :
    PlacedBlock P cs := by
  match cs with
  | [] => trivial
  | c :: cs =>
    rw [viewBlock] at placed
    split at placed
    · next remark =>
      -- a remark has no place of its own
      have free : c.Placed P := by
        cases c with
        | remark pos text => trivial
        | _ => cases remark
      exact ⟨free, placedBlock_of_bare cs placed⟩
    · exact ⟨placedCommand_of_bare c placed.1, placedBlock_of_bare cs placed.2⟩

end

theorem placedItem_of_bare (i : Item) (placed : (i.view bare).Placed P) : i.Placed P := by
  cases i with
  | remark text => trivial
  | const pos name value => exact ⟨placed.1, placed_of_bare value placed.2⟩
  | assign pos name indexes value =>
    exact ⟨placed.1, placedExprs_of_bare indexes placed.2.1, placed_of_bare value placed.2.2⟩
  | define pos name params body => exact ⟨placed.1, placedBlock_of_bare body placed.2⟩

theorem placedItems_of_bare {p : Program} (placed : PlacedItems P (p.view bare).items) :
    PlacedItems P p.items := by
  intro i member
  cases remark : i.isRemark with
  | true =>
    cases i with
    | remark text => trivial
    | _ => cases remark
  | false =>
    have kept : i.view bare ∈ (p.view bare).items :=
      List.mem_map_of_mem (List.mem_filter.mpr ⟨member, by simp [remark]⟩)
    exact placedItem_of_bare i (placed _ kept)

/-- The nodes of a program that was read stand at its tokens. -/
theorem placed_of_parse {ts : List Token} {p : Program} (accepted : parse ts = .ok p) :
    PlacedItems (fun pos => ∃ t ∈ ts, t.pos = pos) p.items := by
  apply placedItems_of_bare
  apply (read_of_parse accepted).1.placed
  intro t member
  exact ⟨t, (List.mem_filter.mp member).1, rfl⟩

end RetroScript.Syntax
