import RetroScript.Proofs.PrintedWords

/-!
# Parsing undoes printing

A printed piece is read back whole: every loop of the parser goes on to the end of the piece and
stops there, because the word behind it cannot continue it. The induction on nesting is that of the
parser; on one level it follows the left spine of the tree, on which chains and index suffixes are
built.
-/
namespace RetroScript.Syntax

open Token (Kind)

variable {β : Type} {rest : List Token}

/-! ### Nested phrases -/

/-- The parser reads back what is printed for tier `k` in fewer than `n` tokens. -/
def ReadsBack (p : Parser Expr) (k n : Nat) : Prop :=
  ∀ {e : Expr} {rest}, e.Tidy → (e.print k).length < n → Stops k rest →
    p (e.print k ++ rest) = .ok (e.view shape, rest)

/-- The parsers for nested phrases read back what is printed in fewer than `n` tokens. -/
structure Inner.Complete (inner : Inner) (n : Nat) : Prop where
  bound : n ≤ inner.bound
  expr : ReadsBack inner.expr topTier n
  block : ∀ {cs ending kind rest}, TidyBlock cs → (printBlock cs).length < n →
    ending.closes kind = true → kind ≠ .comment →
    inner.block ending (printBlock cs ++ fixed kind :: rest) = .ok (viewBlock shape cs, fixed kind :: rest)

theorem length_le_separated (print : β → List Token) {xs : List β} {x : β} (member : x ∈ xs) :
    (print x).length ≤ (separated print xs).length := by
  cases xs with
  | nil => cases member
  | cons y ys =>
    simp only [separated, List.length_append, List.length_flatMap]
    rcases List.mem_cons.mp member with rfl | later
    · omega
    · have part := List.le_sum_of_mem (List.mem_map_of_mem (f := fun z => (fixed .comma :: print z).length) later)
      simp only [List.length_cons] at part ⊢
      omega

theorem length_separated (print : β → List Token) {xs : List β} (some : ∀ x ∈ xs, print x ≠ []) :
    xs.length ≤ (separated print xs).length := by
  cases xs with
  | nil => simp
  | cons y ys =>
    have first := List.length_pos_of_ne_nil (some y (List.mem_cons_self ..))
    have others : ys.length ≤ (ys.flatMap fun z => fixed .comma :: print z).length := by
      clear some first
      induction ys with
      | nil => simp
      | cons z zs ih =>
        simp only [List.flatMap_cons, List.length_append, List.length_cons]
        omega
    simp only [separated, List.length_append, List.length_cons]
    omega

theorem starter_ne {t : Token} (starts : t.kind ∈ starters) :
    t.kind ≠ .comment ∧ ∀ close ∈ closers, t.kind ≠ close := by
  constructor
  · intro same
    simp [starters, same] at starts
  · rintro close closer rfl
    simp only [closers, List.mem_cons, List.not_mem_nil, or_false] at closer
    rcases closer with same | same | same | same | same <;> simp [starters, same] at starts

section Nested

variable {inner : Inner} {n : Nat}

theorem exprs_print (complete : inner.Complete n) {es : List Expr} (tidy : TidyExprs es)
    (small : (printItems es).length < n) (close : Kind) (closer : close ∈ closers) (apart : close ≠ .comma)
    (rest : List Token) :
    listUntil inner.bound close inner.expr (printItems es ++ fixed close :: rest) =
      .ok (viewExprs shape es, rest) := by
  rw [printItems_eq] at small ⊢
  have counted : es.length ≤ (separated (·.print topTier) es).length := by
    refine length_separated _ fun e _ => ?_
    obtain ⟨t, ts, printed, -⟩ := print_starts e topTier
    simp [printed]
  have word : close ≠ .comment := by
    rintro rfl
    simp [closers] at closer
  have bound := complete.bound
  rw [viewExprs_eq]
  refine listUntil_print _ _ ⟨apart, word⟩ (fun e _ => ?_) (fun e member rest follows => ?_) (by omega) rest
  · obtain ⟨t, ts, printed, starts⟩ := print_starts e topTier
    exact ⟨t, ts, printed, (starter_ne starts).1, (starter_ne starts).2 close closer⟩
  · have part := length_le_separated (·.print topTier) member
    exact complete.expr (tidyExprs_iff.mp tidy e member) (by omega) (follows.stops closer topTier)

theorem entry_print (complete : inner.Complete n) {e : String × Expr} (tidy : e.2.Tidy)
    (small : (printEntry e).length < n) (stops : Stops topTier rest) :
    entry inner (printEntry e ++ rest) = .ok ((e.1, e.2.view shape), rest) := by
  rw [printEntry, List.length_cons, List.length_cons] at small
  have value := complete.expr tidy (by omega) stops
  rw [printEntry, List.cons_append, entry, peek_cons_bind (by simp)]
  dsimp only
  rw [if_pos (Or.inr (kind_quoted e.1)), advance_bind, skip_quoted, List.tail_cons, List.cons_append, eat_fixed_bind (by simp), bind_of_ok value]
  rfl

theorem entries_print (complete : inner.Complete n) {es : List (String × Expr)} (tidy : TidyEntries es)
    (small : (printEntries es).length < n) (rest : List Token) :
    listUntil inner.bound .rbrace (entry inner) (printEntries es ++ fixed .rbrace :: rest) =
      .ok (viewEntries shape es, rest) := by
  rw [printEntries_eq] at small ⊢
  have counted : es.length ≤ (separated printEntry es).length :=
    length_separated printEntry fun e _ => by simp [printEntry]
  have bound := complete.bound
  rw [viewEntries_eq]
  refine listUntil_print _ _ (by simp) (fun e _ => ⟨_, _, rfl, by simp, by simp⟩)
    (fun e member rest follows => ?_) (by omega) rest
  have part := length_le_separated printEntry member
  exact entry_print complete (tidyEntries_iff.mp tidy e member) (by omega)
    (follows.stops (by simp [closers]) topTier)

theorem firstDuplicate?_eq_none {names : List String} (distinct : names.Nodup) {seen : List String}
    (fresh : ∀ name ∈ names, name ∉ seen) : firstDuplicate? seen names = none := by
  induction names generalizing seen with
  | nil => rfl
  | cons name names ih =>
    have apart := List.nodup_cons.mp distinct
    have absent : seen.contains name = false := by simpa using fresh name (List.mem_cons_self ..)
    rw [firstDuplicate?, absent, if_neg (by simp)]
    refine ih apart.2 fun other member => ?_
    rw [List.mem_cons]
    rintro (rfl | old)
    · exact apart.1 member
    · exact fresh other (List.mem_cons_of_mem _ member) old

theorem length_printNames (names : List String) : names.length ≤ (printNames names).length := by
  rw [printNames_eq]
  exact length_separated _ fun name _ => by simp

theorem params_print {names : List String} (distinct : names.Nodup) {bound : Nat}
    (enough : names.length ≤ bound) (rest : List Token) :
    params bound (printNames names ++ fixed .rparen :: rest) = .ok (names, rest) := by
  have listed : listUntil bound .rparen eatName (printNames names ++ fixed .rparen :: rest) =
      .ok (names.map id, rest) := by
    rw [printNames_eq]
    exact listUntil_print (fun name => [ident name]) id (by simp)
      (fun name _ => ⟨_, _, rfl, by simp, by simp⟩) (fun name _ rest _ => eatName_eq name rest) enough rest
  rw [List.map_id] at listed
  rw [params, peek_bind, bind_of_ok listed, firstDuplicate?_eq_none distinct (by simp)]
  rfl

theorem lambdaBody_print (complete : inner.Complete n) {body : List Command} (tidy : TidyBlock body)
    (small : (printBlock body).length < n) (pos : Position) (rest : List Token) :
    lambdaBody inner pos (fixed .arrow :: fixed .lbrace :: printBlock body ++ fixed .rbrace :: rest) =
      .ok (viewBlock shape body, rest) := by
  have block : inner.block .brace (printBlock body ++ fixed .rbrace :: rest) =
      .ok (viewBlock shape body, fixed .rbrace :: rest) := complete.block tidy small rfl (by simp)
  rw [lambdaBody, List.cons_append, eat_fixed_bind (by simp), List.cons_append, peekIs_fixed_bind (by simp)]
  simp only [decide_true, if_true]
  rw [advance_fixed_bind (by simp), bind_of_ok block, eat_fixed_bind (by simp)]
  rfl

theorem length_printGroups (gs : List (List Expr)) : gs.length ≤ (printGroups gs).length := by
  induction gs with
  | nil => simp
  | cons g gs ih => simp [printGroups]; omega

theorem moreGroups_print (complete : inner.Complete n) {gs : List (List Expr)} (tidy : TidyGroups gs)
    (small : (printGroups gs).length ≤ n) {m : Nat} (enough : gs.length ≤ m) (done : List (List Expr))
    (opens : Opens rest) :
    moreGroups inner m done (printGroups gs ++ rest) = .ok (done.reverse ++ viewGroups shape gs, rest) := by
  induction gs generalizing m done with
  | nil =>
    rw [viewGroups, List.append_nil]
    cases m with
    | zero => rfl
    | succ m =>
      have closed : (words rest).head?.any (·.kind = .lparen) = false :=
        any_kind_eq_false.mpr fun t ahead => (opens t ahead).1
      rw [printGroups, List.nil_append, moreGroups, peekIs_bind, closed, if_neg (by simp)]
      rfl
  | cons g gs ih =>
    cases m with
    | zero => cases enough
    | succ m =>
      simp only [printGroups, List.length_append, List.length_cons] at small
      have args := exprs_print complete tidy.1 (by omega) .rparen (by simp [closers]) (by simp)
        (printGroups gs ++ rest)
      have others := ih tidy.2 (by omega) (Nat.le_of_succ_le_succ enough) (viewExprs shape g :: done)
      rw [printGroups, moreGroups]
      simp only [List.cons_append, List.append_assoc]
      rw [peekIs_fixed_bind (by simp)]
      simp only [decide_true, if_true]
      rw [advance_fixed_bind (by simp), bind_of_ok args, others, viewGroups]
      simp

theorem callee_print (complete : inner.Complete n) {args : List Expr} {more : List (List Expr)}
    (tidy : TidyExprs args ∧ TidyGroups more)
    (small : (printItems args).length + (printGroups more).length < n) (name : String)
    (opens : Opens rest) :
    callee inner (ident name :: fixed .lparen :: (printItems args ++ fixed .rparen :: (printGroups more ++ rest))) =
      .ok ((name, viewExprs shape args, viewGroups shape more), rest) := by
  have bound := complete.bound
  have counted := length_printGroups more
  have first := exprs_print complete tidy.1 (by omega) .rparen (by simp [closers]) (by simp)
    (printGroups more ++ rest)
  have others := moreGroups_print complete tidy.2 (by omega) (m := inner.bound) (by omega) [] opens
  rw [callee, eatName_bind, eat_fixed_bind (by simp), bind_of_ok first, bind_of_ok others]
  rfl

/-! ### Values -/

theorem number_print {x : Float} (nonneg : Number.isNegative x = false) (negative : Bool) (rest : List Token) :
    number negative (numeral x :: rest) = .ok (if negative then -x else x, rest) := by
  rw [number, bind_of_ok (eat_of_kind (kind_numeral x) (by simp) rest)]
  have value : Decimal.read? (numeral x).text = some x := Number.read?_text nonneg
  rw [value]
  rfl

theorem atom_number (pos : Position) (x : Float) (k : Nat) (rest : List Token) :
    atom inner ((Expr.number pos x).print k ++ rest) = .ok ((Expr.number pos x).view shape, rest) := by
  rw [Expr.print, printNumber, Expr.view, place_shape]
  cases negative : Number.isNegative x with
  | false =>
    rw [if_neg (by simp), List.singleton_append, atom, peek_cons_bind (by simp)]
    simp only [kind_numeral]
    rw [bind_of_ok (number_print negative false rest)]
    rfl
  | true =>
    have positive := Number.isNegative_neg negative
    rw [if_pos rfl, List.cons_append, List.singleton_append, atom, peek_cons_bind (by simp)]
    simp only [kind_fixed]
    rw [signedNumber, secondIs_bind, words_fixed (by simp), words_numeral]
    simp only [List.tail_cons, List.head?_cons, Option.any_some, kind_numeral, decide_true, if_true]
    rw [advance_fixed_bind (by simp), kind_fixed, bind_of_ok (number_print positive _ rest)]
    simp only [decide_true, if_true]
    rw [Number.neg_neg]
    rfl

theorem atom_lambda (complete : inner.Complete n) {names : List String} {body : List Command}
    (pos : Position) (tidy : (Expr.lambda pos names body).Tidy) {k : Nat}
    (small : ((Expr.lambda pos names body).print k).length ≤ n) (rest : List Token) :
    atom inner ((Expr.lambda pos names body).print k ++ rest) =
      .ok ((Expr.lambda pos names body).view shape, rest) := by
  have bound := complete.bound
  have counted := length_printNames names
  simp only [Expr.print, List.length_append, List.length_cons] at small
  have listed := params_print tidy.1 (Nat.le_trans counted (by omega) : names.length ≤ inner.bound)
    (fixed .arrow :: fixed .lbrace :: printBlock body ++ fixed .rbrace :: rest)
  have read := lambdaBody_print complete tidy.2 (by omega) .none rest
  rw [Expr.print, atom, Expr.view, place_shape]
  simp only [List.cons_append, List.append_assoc, List.nil_append] at listed read ⊢
  rw [peek_cons_bind (by simp)]
  simp only [kind_fixed]
  rw [parenthesised, lambdaAhead_bind, skip_fixed (by simp)]
  simp only [List.head?_cons, Option.any_some, kind_fixed, decide_true, List.tail_cons, arrowAhead_names,
    Bool.and_self, if_true]
  rw [advance_fixed_bind (by simp), bind_of_ok listed, pos_fixed, bind_of_ok read]
  rfl

theorem secondIs_eq_false {kind : Kind} {t : Token} (word : t.kind ≠ .comment)
    (other : ∀ u ∈ (words rest).head?, u.kind ≠ kind) :
    (words (t :: rest)).tail.head?.any (·.kind = kind) = false := by
  rw [words_of_kind word]
  exact any_kind_eq_false.mpr other

theorem atom_variable (inner : Inner) (pos : Position) (name : String) (k : Nat) (opens : Opens rest) :
    atom inner ((Expr.variable pos name).print k ++ rest) =
      .ok ((Expr.variable pos name).view shape, rest) := by
  rw [Expr.print, List.singleton_append, atom, peek_cons_bind (by simp)]
  simp only [kind_ident]
  rw [named, secondIs_bind, secondIs_eq_false (by simp) fun t ahead => (opens t ahead).2,
    if_neg (by simp), secondIs_bind, secondIs_eq_false (by simp) fun t ahead => (opens t ahead).1,
    if_neg (by simp), eatName_bind]
  rfl

theorem atom_call (complete : inner.Complete n) {args : List Expr} {more : List (List Expr)} {name : String}
    (pos : Position) (tidy : (Expr.call pos name args more).Tidy) {k : Nat}
    (small : ((Expr.call pos name args more).print k).length ≤ n) (opens : Opens rest) :
    atom inner ((Expr.call pos name args more).print k ++ rest) =
      .ok ((Expr.call pos name args more).view shape, rest) := by
  simp only [Expr.print, List.length_append, List.length_cons] at small
  have called := callee_print complete tidy (by omega) name opens
  rw [Expr.print, atom, Expr.view, place_shape]
  simp only [List.cons_append, List.append_assoc]
  rw [peek_cons_bind (by simp)]
  simp only [kind_ident]
  rw [named, secondIs_bind, secondIs_eq_false (by simp) (by simp), if_neg (by simp), secondIs_bind,
    words_ident, words_fixed (by simp)]
  simp only [List.tail_cons, List.head?_cons, Option.any_some, kind_fixed, decide_true, if_true]
  rw [bind_of_ok called]
  rfl

/-- In the place of a value a binary phrase stands in parentheses. -/
theorem print_binary_zero (pos : Position) (op : Operator) (left right : Expr) :
    (Expr.binary pos op left right).print 0 =
      fixed .lparen :: (Expr.binary pos op left right).print topTier ++ [fixed .rparen] := by
  rw [Expr.print, Expr.print, enclose, enclose, if_pos (by cases op <;> decide),
    if_neg (by cases op <;> decide)]

theorem atom_binary (complete : inner.Complete n) {op : Operator} {left right : Expr}
    (pos : Position) (tidy : (Expr.binary pos op left right).Tidy)
    (small : ((Expr.binary pos op left right).print 0).length ≤ n) (rest : List Token) :
    atom inner ((Expr.binary pos op left right).print 0 ++ rest) =
      .ok ((Expr.binary pos op left right).view shape, rest) := by
  rw [print_binary_zero, List.length_append, List.length_cons] at small
  have stops : Stops topTier (fixed .rparen :: rest) := stops_fixed (by simp [closers]) topTier rest
  have nested := complete.expr tidy (by omega) stops
  rw [print_binary_zero, atom, List.append_assoc, List.cons_append, peek_cons_bind (by simp)]
  simp only [kind_fixed, List.singleton_append]
  rw [parenthesised, lambdaAhead_bind, skip_fixed (by simp), List.tail_cons, arrowAhead_print,
    show (Expr.binary pos op left right).isVariable = false from rfl, Bool.false_and, Bool.and_false,
    if_neg (by simp), advance_fixed_bind (by simp), bind_of_ok nested, eat_fixed_bind (by simp)]
  rfl

/-- A printed value is read back; an index suffix is no part of a value. -/
theorem atom_print (complete : inner.Complete n) {e : Expr} (tidy : e.Tidy) (small : (e.print 0).length ≤ n)
    (value : ∀ pos base key, e ≠ .index pos base key) (opens : Opens rest) :
    atom inner (e.print 0 ++ rest) = .ok (e.view shape, rest) := by
  cases e with
  | number pos x => exact atom_number pos x 0 rest
  | bool pos b => cases b <;> rfl
  | null pos => rfl
  | string pos s => rfl
  | array pos items =>
    simp only [Expr.print, List.length_append, List.length_cons] at small
    have listed := exprs_print complete tidy (by omega) .rbracket (by simp [closers]) (by simp) rest
    rw [Expr.print, atom, List.append_assoc, List.cons_append, peek_cons_bind (by simp)]
    simp only [kind_fixed, List.singleton_append]
    rw [advance_fixed_bind (by simp), bind_of_ok listed]
    rfl
  | map pos entries =>
    simp only [Expr.print, List.length_append, List.length_cons] at small
    have listed := entries_print complete tidy (by omega) rest
    rw [Expr.print, atom, List.append_assoc, List.cons_append, peek_cons_bind (by simp)]
    simp only [kind_fixed, List.singleton_append]
    rw [advance_fixed_bind (by simp), bind_of_ok listed]
    rfl
  | «variable» pos name => exact atom_variable inner pos name 0 opens
  | index pos base key => exact absurd rfl (value pos base key)
  | lambda pos params body => exact atom_lambda complete pos tidy small rest
  | call pos name args more => exact atom_call complete pos tidy small opens
  | binary pos op left right => exact atom_binary complete pos tidy small rest

/-! ### Suffixes and tiers -/

/-- The number of index suffixes at the end of a phrase. -/
def Expr.suffixes : Expr → Nat
  | .index _ base _ => base.suffixes + 1
  | _ => 0

theorem suffixes_le (e : Expr) : e.suffixes ≤ (e.print 0).length := by
  cases e with
  | index pos base key =>
    have inside := suffixes_le base
    simp only [Expr.suffixes, Expr.print, List.length_append, List.length_cons]
    omega
  | _ => exact Nat.zero_le _

/-- Behind a printed phrase the loop over its suffixes goes on with that phrase. -/
theorem indexed_print (complete : inner.Complete n) {e : Expr} {rest : List Token} (tidy : e.Tidy)
    (small : (e.print 0).length ≤ n) (opens : Opens rest) :
    indexed inner (e.print 0 ++ rest) =
      moreIndexes inner (inner.bound - e.suffixes) (e.view shape) rest := by
  have bound := complete.bound
  by_cases suffix : ∃ pos base key, e = .index pos base key
  · obtain ⟨pos, base, key, rfl⟩ := suffix
    have counted := suffixes_le base
    simp only [Expr.print, List.length_append, List.length_cons] at small
    have stops : Stops topTier (fixed .rbracket :: rest) := stops_fixed (by simp [closers]) topTier rest
    have nested := complete.expr tidy.2 (by omega) stops
    have opened : Opens (fixed .lbracket :: (key.print topTier ++ fixed .rbracket :: rest)) :=
      opens_fixed (by simp) (by simp) (by simp) _
    have front := indexed_print complete tidy.1 (by omega) opened
    obtain ⟨m, left⟩ : ∃ m, inner.bound - base.suffixes = m + 1 :=
      ⟨inner.bound - base.suffixes - 1, by omega⟩
    rw [Expr.print]
    simp only [List.append_assoc, List.cons_append, List.nil_append]
    rw [front, left, moreIndexes, peekIs_fixed_bind (by simp)]
    simp only [decide_true, if_true]
    rw [eat_fixed_bind (by simp), bind_of_ok nested, eat_fixed_bind (by simp), Expr.suffixes,
      show inner.bound - (base.suffixes + 1) = m by omega]
    rfl
  · have value : ∀ pos base key, e ≠ .index pos base key :=
      fun pos base key same => suffix ⟨pos, base, key, same⟩
    have none : e.suffixes = 0 := by
      cases e with
      | index pos base key => exact absurd rfl (value pos base key)
      | _ => rfl
    rw [indexed, bind_of_ok (atom_print complete tidy small value opens), none]
    rfl
termination_by e

theorem readsBack_indexed (complete : inner.Complete n) : ReadsBack (indexed inner) 0 (n + 1) := by
  intro e rest tidy small stops
  rw [indexed_print complete tidy (by omega) stops.opens]
  cases inner.bound - e.suffixes with
  | zero => rfl
  | succ m =>
    have closed : (words rest).head?.any (·.kind = .lbracket) = false :=
      any_kind_eq_false.mpr fun t ahead => (stops t ahead).1
    rw [moreIndexes, peekIs_bind, closed, if_neg (by simp)]
    rfl

/-- The tier of the operator that a phrase is built with, 0 for a value. -/
def Expr.tier : Expr → Nat
  | .binary _ op _ _ => op.tier
  | _ => 0

theorem print_succ {e : Expr} {k : Nat} (other : e.tier ≠ k + 1) : e.print (k + 1) = e.print k := by
  cases e with
  | binary pos op left right =>
    have apart : op.tier ≠ k + 1 := other
    rw [Expr.print, Expr.print, enclose, enclose]
    by_cases looser : k < op.tier
    · rw [if_pos looser, if_pos (by omega)]
    · rw [if_neg looser, if_neg (by omega)]
  | _ => rfl

theorem readsBack_power (complete : inner.Complete n) : ReadsBack (power inner) 1 (n + 1) := by
  intro e rest tidy small stops
  have operand : ReadsBack (indexed inner) 0 (n + 1) := readsBack_indexed complete
  by_cases raised : ∃ pos left right, e = .binary pos .pow left right
  · obtain ⟨pos, left, right, rfl⟩ := raised
    have printed : (Expr.binary pos .pow left right).print 1 =
      left.print 0 ++ Operator.pow.word :: right.print 0 := rfl
    rw [printed] at small ⊢
    simp only [List.length_append, List.length_cons] at small
    have caret : Stops 0 (Operator.pow.word :: (right.print 0 ++ rest)) := stops_word (by decide) _
    have base := operand tidy.1 (by omega) caret
    have exponent := operand tidy.2 (by omega) (stops.mono (Nat.zero_le 1))
    rw [power, List.append_assoc, List.cons_append, bind_of_ok base, peekIs_bind, words_word]
    simp only [List.head?_cons, Option.any_some, kind_word, Operator.kind, decide_true, if_true]
    rw [advance_bind, skip_word, List.tail_cons, bind_of_ok exponent, pos_view]
    rfl
  · have other : e.tier ≠ 0 + 1 := by
      cases e with
      | binary pos op left right => cases op <;> simp_all [Expr.tier, Operator.tier]
      | _ => simp [Expr.tier]
    have closed : (words rest).head?.any (·.kind = .caret) = false :=
      any_kind_eq_false.mpr fun t ahead => (stops t ahead).2.2.2 .pow (by decide)
    rw [print_succ other] at small ⊢
    rw [power, bind_of_ok (operand tidy small (stops.mono (Nat.zero_le 1))), peekIs_bind, closed,
      if_neg (by simp)]
    rfl

/-- The number of operators of tier `k` down the left side of a phrase. -/
def Expr.spine (k : Nat) : Expr → Nat
  | .binary _ op left _ => if op.tier = k then left.spine k + 1 else 0
  | _ => 0

theorem spine_eq_zero {e : Expr} {k : Nat} (other : e.tier ≠ k) : e.spine k = 0 := by
  cases e with
  | binary pos op left right => exact if_neg other
  | _ => rfl

theorem print_tier (pos : Position) {op : Operator} (left right : Expr) {k : Nat} (tier : op.tier = k + 2) :
    (Expr.binary pos op left right).print (k + 2) = left.print (k + 2) ++ op.word :: right.print (k + 1) := by
  have chained : op.leftTier = k + 2 := by
    rw [Operator.leftTier, if_neg, tier]
    rintro rfl
    simp [Operator.tier] at tier
  rw [Expr.print, enclose, if_neg (by omega), chained, tier]
  rfl

theorem spine_le (e : Expr) (k : Nat) : e.spine (k + 2) ≤ (e.print (k + 2)).length := by
  by_cases tier : e.tier = k + 2
  · cases e with
    | binary pos op left right =>
      have tier : op.tier = k + 2 := tier
      have inside := spine_le left k
      rw [print_tier pos left right tier, Expr.spine, if_pos tier, List.length_append, List.length_cons]
      omega
    | _ => cases tier
  · rw [spine_eq_zero tier]
    exact Nat.zero_le _

section Chains

variable {operator : Kind → Option Operator} {operand : Parser Expr} {k : Nat}

/-- Behind a printed phrase the loop over a chain goes on with that phrase. -/
theorem chain_print (takes : ∀ op : Operator, op.tier = k + 2 → operator op.kind = some op)
    (reads : ReadsBack operand (k + 1) (n + 1)) {bound : Nat} (enough : n ≤ bound) {e : Expr} {rest : List Token}
    (tidy : e.Tidy) (small : (e.print (k + 2)).length < n + 1) (stops : Stops (k + 1) rest) :
    chain bound operator operand (e.print (k + 2) ++ rest) =
      moreOperands operator operand (bound - e.spine (k + 2)) (e.view shape) rest := by
  by_cases tier : e.tier = k + 2
  · cases e with
    | binary pos op left right =>
      have tier : op.tier = k + 2 := tier
      have counted := spine_le left k
      rw [print_tier pos left right tier, List.length_append, List.length_cons] at small
      have word : Stops (k + 1) (op.word :: (right.print (k + 1) ++ rest)) := stops_word (by omega) _
      have front := chain_print takes reads enough tidy.1 (by omega) word
      have operand := reads tidy.2 (by omega) stops
      obtain ⟨m, left⟩ : ∃ m, bound - left.spine (k + 2) = m + 1 :=
        ⟨bound - left.spine (k + 2) - 1, by omega⟩
      rw [print_tier pos _ _ tier, List.append_assoc, List.cons_append, front, left, moreOperands,
        peek_bind, words_word]
      simp only [List.head?_cons, Option.bind_some, kind_word, takes op tier]
      rw [advance_bind, skip_word, List.tail_cons, bind_of_ok operand, pos_view, Expr.spine, if_pos tier,
        show bound - (_ + 1) = m by omega]
      rfl
    | _ => cases tier
  · rw [print_succ tier] at small ⊢
    rw [chain, bind_of_ok (reads tidy small stops), spine_eq_zero tier]
    rfl

theorem readsBack_chain (writes : Writes operator (k + 2))
    (takes : ∀ op : Operator, op.tier = k + 2 → operator op.kind = some op)
    (reads : ReadsBack operand (k + 1) (n + 1)) {bound : Nat} (enough : n ≤ bound) :
    ReadsBack (chain bound operator operand) (k + 2) (n + 1) := by
  intro e rest tidy small stops
  rw [chain_print takes reads enough tidy small (stops.mono (Nat.le_succ _))]
  cases bound - e.spine (k + 2) with
  | zero => rfl
  | succ m =>
    have closed : (words rest).head?.bind (operator ·.kind) = none := by
      rw [Option.bind_eq_none_iff]
      intro t ahead
      cases found : operator t.kind with
      | none => rfl
      | some op =>
        obtain ⟨tier, kind⟩ := writes found
        exact absurd kind ((stops t ahead).2.2.2 op (by omega))
    rw [moreOperands, peek_bind, closed]
    rfl

end Chains

theorem readsBack_logic (complete : inner.Complete n) : ReadsBack (logic inner) topTier (n + 1) :=
  readsBack_chain writes_logic (by intro op tier; cases op <;> cases tier <;> rfl)
    (readsBack_chain writes_comparison (by intro op tier; cases op <;> cases tier <;> rfl)
      (readsBack_chain writes_sum (by intro op tier; cases op <;> cases tier <;> rfl)
        (readsBack_chain writes_product (by intro op tier; cases op <;> cases tier <;> rfl)
          (readsBack_power complete) complete.bound) complete.bound) complete.bound) complete.bound

/-! ### Commands -/

theorem length_printIndexes (keys : List Expr) : keys.length ≤ (printIndexes keys).length := by
  induction keys with
  | nil => simp
  | cons key keys ih => simp [printIndexes]; omega

theorem placeIndexes_print (complete : inner.Complete n) {keys : List Expr} (tidy : TidyExprs keys)
    (small : (printIndexes keys).length ≤ n) {m : Nat} (enough : keys.length ≤ m) (done : List Expr)
    {kind : Kind} (word : kind ≠ .comment) (other : kind ≠ .lbracket) (rest : List Token) :
    placeIndexes inner m done (printIndexes keys ++ fixed kind :: rest) =
      .ok (done.reverse ++ viewExprs shape keys, fixed kind :: rest) := by
  induction keys generalizing m done with
  | nil =>
    rw [viewExprs, List.append_nil]
    cases m with
    | zero => rfl
    | succ m =>
      rw [printIndexes, List.nil_append, placeIndexes, peekIs_fixed_bind word]
      simp only [other, decide_false, Bool.false_eq_true, if_false]
      rfl
  | cons key keys ih =>
    cases m with
    | zero => cases enough
    | succ m =>
      simp only [printIndexes, List.length_append, List.length_cons] at small
      have stops : Stops topTier (fixed .rbracket :: (printIndexes keys ++ fixed kind :: rest)) :=
        stops_fixed (by simp [closers]) topTier _
      have first := complete.expr tidy.1 (by omega) stops
      have others := ih tidy.2 (by omega) (Nat.le_of_succ_le_succ enough) (key.view shape :: done)
      rw [printIndexes, placeIndexes]
      simp only [List.cons_append, List.append_assoc]
      rw [peekIs_fixed_bind (by simp)]
      simp only [decide_true, if_true]
      rw [advance_fixed_bind (by simp), bind_of_ok first, eat_fixed_bind (by simp), others, viewExprs]
      simp

theorem place_print (complete : inner.Complete n) {keys : List Expr} (tidy : TidyExprs keys)
    (small : (printIndexes keys).length ≤ n) (name : String) (kind : Kind) (word : kind ≠ .comment)
    (other : kind ≠ .lbracket) (rest : List Token) :
    place inner (ident name :: (printIndexes keys ++ fixed kind :: rest)) =
      .ok ((name, viewExprs shape keys), fixed kind :: rest) := by
  have bound := complete.bound
  have counted := length_printIndexes keys
  have indexes := placeIndexes_print complete tidy small (m := inner.bound) (by omega) [] word other rest
  rw [place, eatName_bind, bind_of_ok indexes]
  rfl

theorem assignment_print (complete : inner.Complete n) {keys : List Expr} {value : Expr}
    (tidy : TidyExprs keys ∧ value.Tidy)
    (small : (printIndexes keys).length + (value.print topTier).length < n) (name : String)
    (stops : Stops topTier rest) :
    assignment inner (fixed .letWord :: ident name ::
        (printIndexes keys ++ fixed .equal :: (value.print topTier ++ rest))) =
      .ok ((name, viewExprs shape keys, value.view shape), rest) := by
  have target := place_print complete tidy.1 (by omega) name .equal (by simp) (by simp)
    (value.print topTier ++ rest)
  have assigned := complete.expr tidy.2 (by omega) stops
  rw [assignment, eat_fixed_bind (by simp), bind_of_ok target]
  dsimp only
  rw [eat_fixed_bind (by simp), bind_of_ok assigned]
  rfl

theorem definition_print (complete : inner.Complete n) {names : List String} {body : List Command}
    (tidy : names.Nodup ∧ TidyBlock body)
    (small : (printNames names).length + (printBlock body).length < n) (name : String) (rest : List Token) :
    definition inner (fixed .defWord :: ident name :: fixed .lparen ::
        (printNames names ++ fixed .rparen :: (printBlock body ++ fixed .endWord :: rest))) =
      .ok ((name, names, viewBlock shape body), rest) := by
  have bound := complete.bound
  have counted := length_printNames names
  have listed := params_print tidy.1 (by omega : names.length ≤ inner.bound)
    (printBlock body ++ fixed .endWord :: rest)
  have block : inner.block .endWord (printBlock body ++ fixed .endWord :: rest) =
      .ok (viewBlock shape body, fixed .endWord :: rest) := complete.block tidy.2 (by omega) rfl (by simp)
  rw [definition, eat_fixed_bind (by simp), eatName_bind, eat_fixed_bind (by simp), bind_of_ok listed,
    bind_of_ok block, eat_fixed_bind (by simp)]
  rfl

theorem condition_print (complete : inner.Complete n) {e : Expr} (tidy : e.Tidy)
    (small : (e.print topTier).length < n) (rest : List Token) :
    condition inner (fixed .lparen :: (e.print topTier ++ fixed .rparen :: rest)) =
      .ok (e.view shape, rest) := by
  have stops : Stops topTier (fixed .rparen :: rest) := stops_fixed (by simp [closers]) topTier rest
  have nested := complete.expr tidy small stops
  rw [condition, eat_fixed_bind (by simp), bind_of_ok nested, eat_fixed_bind (by simp)]
  rfl

theorem otherwise_print (complete : inner.Complete n) {cs : List Command} (tidy : TidyBlock cs)
    (small : (printBlock cs).length < n) (rest : List Token) :
    otherwise inner (printOtherwise cs ++ fixed .endWord :: rest) = .ok (viewBlock shape cs, rest) := by
  cases cs with
  | nil =>
    rw [printOtherwise, List.nil_append, otherwise, peekIs_fixed_bind (by simp), if_neg (by simp)]
    simp only [pure_bind]
    rw [eat_fixed_bind (by simp)]
    rfl
  | cons c cs =>
    have block : inner.block .endWord (printBlock (c :: cs) ++ fixed .endWord :: rest) =
        .ok (viewBlock shape (c :: cs), fixed .endWord :: rest) := complete.block tidy small rfl (by simp)
    rw [printOtherwise_cons, List.cons_append, otherwise, peekIs_fixed_bind (by simp), if_pos (by simp)]
    dsimp only
    rw [advance_fixed_bind (by simp), bind_of_ok block, eat_fixed_bind (by simp)]
    rfl

theorem length_le_printOtherwise (cs : List Command) : (printBlock cs).length ≤ (printOtherwise cs).length := by
  cases cs with
  | nil => exact Nat.le_refl 0
  | cons c cs =>
    rw [printOtherwise_cons, List.length_cons]
    omega

/-- What follows the first branch closes it. -/
theorem starts_otherwise (cs : List Command) (rest : List Token) :
    ∃ kind ts, printOtherwise cs ++ fixed .endWord :: rest = fixed kind :: ts ∧
      Ending.elseWord.closes kind = true ∧ kind ≠ .comment := by
  cases cs with
  | nil => exact ⟨.endWord, rest, rfl, rfl, by simp⟩
  | cons c cs => exact ⟨.elseWord, _, rfl, rfl, by simp⟩

/-- The first branch ends where the second one starts, or the whole command ends. -/
theorem firstBlock_print (complete : inner.Complete n) {yes : List Command} (tidy : TidyBlock yes)
    (small : (printBlock yes).length < n) (no : List Command) (rest : List Token) :
    inner.block .elseWord (printBlock yes ++ (printOtherwise no ++ fixed .endWord :: rest)) =
      .ok (viewBlock shape yes, printOtherwise no ++ fixed .endWord :: rest) := by
  obtain ⟨kind, us, starts, closes, word⟩ := starts_otherwise no rest
  rw [starts]
  exact complete.block tidy small closes word

theorem starts_command {c : Command} (real : c.isRemark = false) :
    ∃ t ts, c.print = t :: ts ∧ t.kind ≠ .comment ∧ ∀ ending : Ending, ending.closes t.kind = false := by
  cases c with
  | remark pos text => cases real
  | _ => exact ⟨_, _, rfl, by simp, by rintro ⟨⟩ <;> rfl⟩

/-- A printed command is read back by the parser for its first word. -/
theorem command_print (complete : inner.Complete n) {c : Command} (tidy : c.Tidy)
    (small : c.print.length ≤ n) (real : c.isRemark = false) {t : Token} {ts : List Token}
    (printed : c.print = t :: ts) (rest : List Token) :
    command inner t (c.print ++ rest) = .ok (c.view shape, rest) := by
  have stops : Stops topTier (fixed .semicolon :: rest) := stops_fixed (by simp [closers]) topTier rest
  cases c with
  | remark pos text => cases real
  | assign pos name keys value =>
    obtain ⟨rfl, -⟩ := List.cons.inj printed
    simp only [Command.print, List.length_append, List.length_cons] at small
    have assigned := assignment_print complete tidy (by omega) name stops
    rw [Command.print, command]
    simp only [List.cons_append, List.append_assoc, List.nil_append, kind_fixed]
    rw [bind_of_ok assigned]
    dsimp only
    rw [eat_fixed_bind (by simp)]
    rfl
  | delete pos name keys =>
    obtain ⟨rfl, -⟩ := List.cons.inj printed
    simp only [Command.print, List.length_append, List.length_cons] at small
    have target := place_print complete tidy.2 (by omega) name .semicolon (by simp) (by simp) rest
    have element : (viewExprs shape keys).isEmpty = false := by
      rw [viewExprs_eq, List.isEmpty_map]
      simpa using tidy.1
    rw [Command.print, command]
    simp only [List.cons_append, List.append_assoc, List.nil_append, kind_fixed]
    rw [advance_fixed_bind (by simp), bind_of_ok target]
    simp only [element]
    rw [if_neg (by simp), eat_fixed_bind (by simp)]
    rfl
  | result pos value =>
    obtain ⟨rfl, -⟩ := List.cons.inj printed
    simp only [Command.print, List.length_append, List.length_cons] at small
    have returned := complete.expr tidy (by omega) stops
    rw [Command.print, command]
    simp only [List.cons_append, List.append_assoc, List.nil_append, kind_fixed]
    rw [advance_fixed_bind (by simp), bind_of_ok returned, eat_fixed_bind (by simp)]
    rfl
  | branch pos test yes no =>
    obtain ⟨rfl, -⟩ := List.cons.inj printed
    simp only [Command.print, List.length_append, List.length_cons] at small
    have shorter := length_le_printOtherwise no
    have tested := condition_print complete tidy.1 (by omega)
      (printBlock yes ++ (printOtherwise no ++ fixed .endWord :: rest))
    have block := firstBlock_print complete tidy.2.1 (by omega) no rest
    have alternative := otherwise_print complete tidy.2.2 (by omega) rest
    rw [Command.print, command]
    simp only [List.cons_append, List.append_assoc, List.nil_append, kind_fixed]
    rw [advance_fixed_bind (by simp), bind_of_ok tested, bind_of_ok block, bind_of_ok alternative]
    rfl
  | loop pos test body =>
    obtain ⟨rfl, -⟩ := List.cons.inj printed
    simp only [Command.print, List.length_append, List.length_cons] at small
    have tested := condition_print complete tidy.1 (by omega) (printBlock body ++ fixed .endWord :: rest)
    have block : inner.block .endWord (printBlock body ++ fixed .endWord :: rest) =
        .ok (viewBlock shape body, fixed .endWord :: rest) := complete.block tidy.2 (by omega) rfl (by simp)
    rw [Command.print, command]
    simp only [List.cons_append, List.append_assoc, List.nil_append, kind_fixed]
    rw [advance_fixed_bind (by simp), bind_of_ok tested, bind_of_ok block, eat_fixed_bind (by simp)]
    rfl
  | define pos name names body =>
    obtain ⟨rfl, -⟩ := List.cons.inj printed
    simp only [Command.print, List.length_append, List.length_cons] at small
    have defined := definition_print complete tidy (by omega) name rest
    rw [Command.print, command]
    simp only [List.cons_append, List.append_assoc, List.nil_append, kind_fixed]
    rw [bind_of_ok defined]
    rfl
  | call pos name args more =>
    obtain ⟨rfl, -⟩ := List.cons.inj printed
    simp only [Command.print, List.length_append, List.length_cons] at small
    have called := callee_print complete tidy (by omega) name stops.opens
    rw [Command.print, command]
    simp only [List.cons_append, List.append_assoc, List.nil_append, kind_ident]
    rw [secondIs_bind, words_ident, words_fixed (by simp)]
    simp only [List.tail_cons, List.head?_cons, Option.any_some, kind_fixed, decide_true, if_true]
    rw [bind_of_ok called]
    dsimp only
    rw [eat_fixed_bind (by simp)]
    rfl

theorem remarkText_comment {text : String} (trimmed : Text.trim text.toList = text.toList) :
    remarkText (comment text).text = text := by
  have marked : (comment text).text.toList.dropWhile (· = '#') = ' ' :: text.toList := by
    simp [comment]
  have blank : Text.trim (' ' :: text.toList) = Text.trim text.toList := by
    rw [Text.trim, List.dropWhile_cons_of_pos (by decide)]
    rfl
  rw [remarkText, marked, blank, trimmed, String.ofList_toList]

theorem viewBlock_shape (c : Command) (cs : List Command) :
    viewBlock shape (c :: cs) = c.view shape :: viewBlock shape cs := by
  rw [viewBlock, if_neg (by simp [shape])]

theorem length_printBlock (cs : List Command) : cs.length ≤ (printBlock cs).length := by
  induction cs with
  | nil => exact Nat.le_refl 0
  | cons c cs ih =>
    have some : 0 < c.print.length := by cases c <;> simp [Command.print]
    simp only [printBlock, List.length_append, List.length_cons]
    omega

theorem moreCommands_print (complete : inner.Complete n) {cs : List Command} (tidy : TidyBlock cs)
    (small : (printBlock cs).length ≤ n) {m : Nat} (enough : cs.length ≤ m) (done : List Command)
    {ending : Ending} {kind : Kind} (closes : ending.closes kind = true) (word : kind ≠ .comment)
    (rest : List Token) :
    moreCommands inner ending m done (printBlock cs ++ fixed kind :: rest) =
      .ok (done.reverse ++ viewBlock shape cs, fixed kind :: rest) := by
  induction cs generalizing m done with
  | nil =>
    rw [viewBlock, List.append_nil]
    cases m with
    | zero => rfl
    | succ m =>
      rw [printBlock, List.nil_append, moreCommands, bind_of_ok (remark?_of_word (decide_eq_false word) rest)]
      dsimp only
      rw [peek_cons_bind word]
      exact congrFun (if_pos closes) _
  | cons c cs ih =>
    cases m with
    | zero => cases enough
    | succ m =>
      rw [printBlock, List.length_append] at small
      have others := ih tidy.2 (by omega) (Nat.le_of_succ_le_succ enough) (c.view shape :: done)
      rw [printBlock, List.append_assoc, moreCommands, viewBlock_shape]
      by_cases remark : ∃ pos text, c = .remark pos text
      · obtain ⟨pos, text, rfl⟩ := remark
        rw [Command.print, List.singleton_append, bind_of_ok (remark?_of_comment rfl _)]
        dsimp only
        rw [remarkText_comment tidy.1]
        exact others.trans (by simp)
      · have real : c.isRemark = false := by
          cases c with
          | remark pos text => exact absurd ⟨pos, text, rfl⟩ remark
          | _ => rfl
        obtain ⟨t, ts, printed, word, open'⟩ := starts_command real
        have read := command_print complete tidy.1 (by omega) real printed (printBlock cs ++ fixed kind :: rest)
        rw [printed, List.cons_append] at read ⊢
        rw [bind_of_ok (remark?_of_word (decide_eq_false word) _)]
        dsimp only
        rw [peek_cons_bind word]
        dsimp only
        rw [if_neg (by simp [open']), bind_of_ok read, others]
        simp

end Nested

/-! ### Nesting -/

theorem complete_inner (n : Nat) : (Syntax.inner n).Complete n := by
  induction n with
  | zero =>
    exact ⟨Nat.le_refl 0, fun _ small => absurd small (Nat.not_lt_zero _),
      fun _ small => absurd small (Nat.not_lt_zero _)⟩
  | succ n ih =>
    have deeper : Inner.Complete ⟨n + 1, expr n, block n⟩ n := ⟨Nat.le_succ n, ih.expr, ih.block⟩
    refine ⟨Nat.le_refl _, readsBack_logic deeper, fun tidy small closes word => ?_⟩
    rename_i cs ending kind rest
    have counted := length_printBlock cs
    exact moreCommands_print deeper tidy (by omega) (by omega) [] closes word rest

/-! ### Programs -/

theorem item_print {inner : Inner} {n : Nat} (complete : inner.Complete n) {i : Item} (tidy : i.Tidy)
    (small : i.print.length ≤ n) (real : i.isRemark = false) {t : Token} {ts : List Token}
    (printed : i.print = t :: ts) (rest : List Token) :
    item inner t (i.print ++ rest) = .ok (i.view shape, rest) := by
  have stops : Stops topTier (fixed .semicolon :: rest) := stops_fixed (by simp [closers]) topTier rest
  cases i with
  | remark text => cases real
  | const pos name value =>
    obtain ⟨rfl, -⟩ := List.cons.inj printed
    simp only [Item.print, List.length_append, List.length_cons] at small
    have bound := complete.expr tidy (by omega) stops
    rw [Item.print, item]
    simp only [List.cons_append, List.append_assoc, List.nil_append, kind_fixed]
    rw [advance_fixed_bind (by simp), eatName_bind, eat_fixed_bind (by simp), bind_of_ok bound,
      eat_fixed_bind (by simp)]
    rfl
  | assign pos name keys value =>
    obtain ⟨rfl, -⟩ := List.cons.inj printed
    simp only [Item.print, Command.print, List.length_append, List.length_cons] at small
    have assigned := assignment_print complete tidy (by omega) name stops
    rw [Item.print, Command.print, item]
    simp only [List.cons_append, List.append_assoc, List.nil_append, kind_fixed]
    rw [bind_of_ok assigned]
    dsimp only
    rw [eat_fixed_bind (by simp)]
    rfl
  | define pos name names body =>
    obtain ⟨rfl, -⟩ := List.cons.inj printed
    simp only [Item.print, Command.print, List.length_append, List.length_cons] at small
    have defined := definition_print complete tidy (by omega) name rest
    rw [Item.print, Command.print, item]
    simp only [List.cons_append, List.append_assoc, List.nil_append, kind_fixed]
    rw [bind_of_ok defined]
    rfl

theorem moreProgram_print {inner : Inner} {n : Nat} (complete : inner.Complete n) {is : List Item}
    (tidy : ∀ i ∈ is, i.Tidy) (small : (is.flatMap Item.print).length ≤ n) {m : Nat} (enough : is.length < m)
    (done : List Item) :
    moreProgram inner m done (is.flatMap Item.print) = .ok (done.reverse ++ is.map (Item.view shape), []) := by
  induction is generalizing m done with
  | nil =>
    cases m with
    | zero => cases enough
    | succ m => simp; rfl
  | cons i is ih =>
    cases m with
    | zero => cases enough
    | succ m =>
      rw [List.flatMap_cons, List.length_append] at small
      have others := ih (fun j member => tidy j (List.mem_cons_of_mem _ member)) (by omega)
        (Nat.lt_of_succ_lt_succ enough) (i.view shape :: done)
      have first := tidy i (List.mem_cons_self ..)
      rw [List.flatMap_cons, moreProgram]
      by_cases remark : ∃ text, i = .remark text
      · obtain ⟨text, rfl⟩ := remark
        rw [Item.print, List.singleton_append, bind_of_ok (remark?_of_comment rfl _)]
        dsimp only
        rw [remarkText_comment first]
        exact others.trans (by simp)
      · have real : i.isRemark = false := by
          cases i with
          | remark text => exact absurd ⟨text, rfl⟩ remark
          | _ => rfl
        obtain ⟨t, ts, printed, word⟩ : ∃ t ts, i.print = t :: ts ∧ t.kind ≠ .comment := by
          cases i with
          | remark text => cases real
          | _ => exact ⟨_, _, rfl, by simp⟩
        have read := item_print complete first (by omega) real printed (is.flatMap Item.print)
        rw [printed, List.cons_append] at read ⊢
        rw [bind_of_ok (remark?_of_word (decide_eq_false word) _)]
        dsimp only
        rw [peek_cons_bind word]
        dsimp only
        rw [bind_of_ok read, others]
        simp

theorem length_flatMap_print (is : List Item) : is.length ≤ (is.flatMap Item.print).length := by
  induction is with
  | nil => exact Nat.le_refl 0
  | cons i is ih =>
    have some : 0 < i.print.length := by cases i <;> simp [Item.print, Command.print]
    simp only [List.flatMap_cons, List.length_append, List.length_cons]
    omega

theorem parse_print {p : Program} (tidy : p.Tidy) : parse p.print = .ok (p.view shape) := by
  have counted := length_flatMap_print p.items
  have read : moreProgram (inner (p.print.length + 1)) (p.print.length + 1) [] p.print = _ :=
    moreProgram_print (complete_inner (p.print.length + 1)) tidy (Nat.le_succ _) (Nat.lt_succ_of_le counted) []
  rw [view_shape, parse, read]
  rfl

/-- Printing a program that was read and reading it again gives the same program up to places. -/
theorem parse_undoes_print {ts : List Token} {p : Program} (accepted : parse ts = .ok p) :
    ∃ p', parse p.print = .ok p' ∧ p'.view shape = p.view shape :=
  ⟨p.view shape, parse_print (read_of_parse accepted).2, shape_shape p⟩

/-- The remark `twice` above `let s = (a - (b - c)) ^ -2;`. -/
def nested : List Token :=
  [⟨.comment, "## twice ", ⟨1, 1⟩⟩, ⟨.letWord, "let", ⟨2, 1⟩⟩, ⟨.ident, "s", ⟨2, 5⟩⟩, ⟨.equal, "=", ⟨2, 7⟩⟩,
   ⟨.lparen, "(", ⟨2, 9⟩⟩, ⟨.ident, "a", ⟨2, 10⟩⟩, ⟨.minus, "-", ⟨2, 12⟩⟩, ⟨.lparen, "(", ⟨2, 14⟩⟩,
   ⟨.ident, "b", ⟨2, 15⟩⟩, ⟨.minus, "-", ⟨2, 17⟩⟩, ⟨.ident, "c", ⟨2, 19⟩⟩, ⟨.rparen, ")", ⟨2, 20⟩⟩,
   ⟨.rparen, ")", ⟨2, 21⟩⟩, ⟨.caret, "^", ⟨2, 23⟩⟩, ⟨.minus, "-", ⟨2, 25⟩⟩, ⟨.number, "2", ⟨2, 26⟩⟩,
   ⟨.semicolon, ";", ⟨2, 27⟩⟩]

def nestedProgram : Program :=
  ⟨[.remark "twice",
    .assign ⟨2, 1⟩ "s" [] (.binary ⟨2, 10⟩ .pow
      (.binary ⟨2, 10⟩ .sub (.variable ⟨2, 10⟩ "a")
        (.binary ⟨2, 15⟩ .sub (.variable ⟨2, 15⟩ "b") (.variable ⟨2, 19⟩ "c")))
      (.number ⟨2, 25⟩ (-2)))]⟩

theorem nested_undoes_print :
    parse nested = .ok nestedProgram ∧
      ∃ p, parse nestedProgram.print = .ok p ∧ p.view shape = nestedProgram.view shape :=
  ⟨rfl, @parse_undoes_print nested nestedProgram rfl⟩

end RetroScript.Syntax
