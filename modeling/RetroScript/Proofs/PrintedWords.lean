import RetroScript.Proofs.ParserSoundness
import RetroScript.Proofs.Printer

/-!
# Parsers on printed words

How the small parsers run on printed words, which words cannot continue a phrase (`Stops`), and how
printed lists are read back.
-/
namespace RetroScript.Syntax

open Token (Kind)

variable {α β : Type} {ts rest : List Token}

/-! ### Running on printed words -/

@[simp] theorem kind_fixed (kind : Kind) : (fixed kind).kind = kind := rfl

@[simp] theorem pos_fixed (kind : Kind) : (fixed kind).pos = .none := rfl

@[simp] theorem kind_ident (name : String) : (ident name).kind = .ident := rfl

@[simp] theorem text_ident (name : String) : (ident name).text = name := rfl

@[simp] theorem pos_ident (name : String) : (ident name).pos = .none := rfl

@[simp] theorem kind_quoted (text : String) : (quoted text).kind = .string := rfl

@[simp] theorem text_quoted (text : String) : (quoted text).text = text := rfl

@[simp] theorem pos_quoted (text : String) : (quoted text).pos = .none := rfl

@[simp] theorem kind_numeral (x : Float) : (numeral x).kind = .number := rfl

@[simp] theorem pos_numeral (x : Float) : (numeral x).pos = .none := rfl

@[simp] theorem kind_word (op : Operator) : op.word.kind = op.kind := rfl

/-- A word stands first. -/
theorem words_of_kind {t : Token} (word : t.kind ≠ .comment) (ts : List Token) :
    words (t :: ts) = t :: words ts :=
  words_cons_word (decide_eq_false word) ts

theorem skip_of_kind {t : Token} (word : t.kind ≠ .comment) (ts : List Token) :
    skipComments (t :: ts) = t :: ts :=
  skipComments_cons_word (decide_eq_false word) ts

@[simp] theorem words_fixed {kind : Kind} (word : kind ≠ .comment) (ts : List Token) :
    words (fixed kind :: ts) = fixed kind :: words ts := words_of_kind word ts

@[simp] theorem words_ident (name : String) (ts : List Token) :
    words (ident name :: ts) = ident name :: words ts := words_of_kind (by simp) ts

@[simp] theorem words_quoted (text : String) (ts : List Token) :
    words (quoted text :: ts) = quoted text :: words ts := words_of_kind (by simp) ts

@[simp] theorem words_numeral (x : Float) (ts : List Token) :
    words (numeral x :: ts) = numeral x :: words ts := words_of_kind (by simp) ts

@[simp] theorem skip_fixed {kind : Kind} (word : kind ≠ .comment) (ts : List Token) :
    skipComments (fixed kind :: ts) = fixed kind :: ts := skip_of_kind word ts

@[simp] theorem skip_quoted (text : String) (ts : List Token) :
    skipComments (quoted text :: ts) = quoted text :: ts := skip_of_kind (by simp) ts

theorem kind_ne_comment (op : Operator) : op.kind ≠ .comment := by
  cases op <;> simp [Operator.kind]

@[simp] theorem words_word (op : Operator) (ts : List Token) :
    words (op.word :: ts) = op.word :: words ts := words_of_kind (kind_ne_comment op) ts

@[simp] theorem skip_word (op : Operator) (ts : List Token) :
    skipComments (op.word :: ts) = op.word :: ts := skip_of_kind (kind_ne_comment op) ts

theorem eat_of_kind {t : Token} {kind : Kind} (same : t.kind = kind) (word : kind ≠ .comment)
    (ts : List Token) : eat kind (t :: ts) = .ok (t, ts) := by
  subst same
  rw [eat, peek_bind, words_of_kind word]
  simp only [List.head?_cons, if_true]
  rw [advance_bind, skip_of_kind word]
  rfl

theorem eat_fixed_bind {kind : Kind} (word : kind ≠ .comment) {f : Token → Parser α} :
    (eat kind >>= f) (fixed kind :: ts) = f (fixed kind) ts :=
  bind_of_ok (eat_of_kind rfl word ts)

theorem advance_fixed_bind {kind : Kind} (word : kind ≠ .comment) {f : Unit → Parser α} :
    (advance >>= f) (fixed kind :: ts) = f () ts := by
  rw [advance_bind, skip_fixed word, List.tail_cons]

theorem peekIs_fixed_bind {kind wanted : Kind} (word : kind ≠ .comment) {f : Bool → Parser α} :
    (peekIs wanted >>= f) (fixed kind :: ts) = f (kind = wanted) (fixed kind :: ts) := by
  rw [peekIs_bind, words_fixed word]
  rfl

theorem peek_cons_bind {t : Token} (word : t.kind ≠ .comment) {f : Option Token → Parser α} :
    (peek >>= f) (t :: ts) = f (some t) (t :: ts) := by
  rw [peek_bind, words_of_kind word]
  rfl

theorem eatName_eq (name : String) (ts : List Token) : eatName (ident name :: ts) = .ok (name, ts) := by
  rw [eatName, bind_of_ok (eat_of_kind (kind_ident name) (by simp) ts)]
  rfl

theorem eatName_bind {name : String} {f : String → Parser α} :
    (eatName >>= f) (ident name :: ts) = f name ts :=
  bind_of_ok (eatName_eq name ts)

/-! ### Where a piece ends -/

/-- What follows cannot continue a phrase of tier `n`. -/
def Stops (n : Nat) (rest : List Token) : Prop :=
  ∀ t ∈ (words rest).head?, t.kind ≠ .lbracket ∧ t.kind ≠ .lparen ∧ t.kind ≠ .arrow ∧
    ∀ op : Operator, op.tier ≤ n → t.kind ≠ op.kind

/-- What follows cannot continue a value but for index suffixes. -/
def Opens (rest : List Token) : Prop :=
  ∀ t ∈ (words rest).head?, t.kind ≠ .lparen ∧ t.kind ≠ .arrow

theorem Stops.mono {n k : Nat} (stops : Stops k rest) (tighter : n ≤ k) : Stops n rest :=
  fun t ahead => ⟨(stops t ahead).1, (stops t ahead).2.1, (stops t ahead).2.2.1,
    fun op tier => (stops t ahead).2.2.2 op (Nat.le_trans tier tighter)⟩

theorem Stops.opens {n : Nat} (stops : Stops n rest) : Opens rest :=
  fun t ahead => ⟨(stops t ahead).2.1, (stops t ahead).2.2.1⟩

/-- The words that close a phrase. -/
def closers : List Kind := [.rparen, .rbracket, .rbrace, .comma, .semicolon]

theorem stops_fixed {kind : Kind} (closer : kind ∈ closers) (n : Nat) (ts : List Token) :
    Stops n (fixed kind :: ts) := by
  intro t ahead
  have word : kind ≠ .comment := by
    rintro rfl
    simp [closers] at closer
  rw [words_fixed word] at ahead
  obtain rfl := Option.some.inj ahead
  simp only [closers, List.mem_cons, List.not_mem_nil, or_false] at closer
  rcases closer with rfl | rfl | rfl | rfl | rfl <;>
    exact ⟨by simp, by simp, by simp, fun op _ => by cases op <;> simp [Operator.kind]⟩

theorem kind_injective {op op' : Operator} (same : op.kind = op'.kind) : op = op' := by
  cases op <;> cases op' <;> first | rfl | cases same

theorem stops_word {n : Nat} {op : Operator} (looser : n < op.tier) (ts : List Token) :
    Stops n (op.word :: ts) := by
  intro t ahead
  rw [words_word] at ahead
  obtain rfl := Option.some.inj ahead
  refine ⟨by cases op <;> simp [Operator.kind], by cases op <;> simp [Operator.kind],
    by cases op <;> simp [Operator.kind], fun other tier same => ?_⟩
  rw [kind_injective (show op.kind = other.kind from same)] at looser
  omega

theorem opens_fixed {kind : Kind} (word : kind ≠ .comment) (paren : kind ≠ .lparen)
    (arrow : kind ≠ .arrow) (ts : List Token) : Opens (fixed kind :: ts) := by
  intro t ahead
  rw [words_fixed word] at ahead
  obtain rfl := Option.some.inj ahead
  exact ⟨paren, arrow⟩

/-! ### Lists -/

/-- Printed items with a comma between neighbours. -/
def separated (print : β → List Token) : List β → List Token
  | [] => []
  | x :: xs => print x ++ xs.flatMap fun y => fixed .comma :: print y

theorem printMoreItems_eq (es : List Expr) :
    printMoreItems es = es.flatMap fun e => fixed .comma :: e.print topTier := by
  induction es with
  | nil => rfl
  | cons e es ih => rw [printMoreItems, ih, List.flatMap_cons]

theorem printItems_eq (es : List Expr) : printItems es = separated (·.print topTier) es := by
  cases es with
  | nil => rfl
  | cons e es => rw [printItems, printMoreItems_eq, separated]

def printEntry (e : String × Expr) : List Token := quoted e.1 :: fixed .colon :: e.2.print topTier

theorem printMoreEntries_eq (es : List (String × Expr)) :
    printMoreEntries es = es.flatMap fun e => fixed .comma :: printEntry e := by
  induction es with
  | nil => rfl
  | cons e es ih =>
    rw [printMoreEntries, ih, List.flatMap_cons]
    rfl

theorem printEntries_eq (es : List (String × Expr)) : printEntries es = separated printEntry es := by
  cases es with
  | nil => rfl
  | cons e es =>
    rw [printEntries, printMoreEntries_eq, separated]
    rfl

theorem printMoreNames_eq (names : List String) :
    printMoreNames names = names.flatMap fun name => [fixed .comma, ident name] := by
  induction names with
  | nil => rfl
  | cons name names ih =>
    rw [printMoreNames, ih, List.flatMap_cons]
    rfl

theorem printNames_eq (names : List String) : printNames names = separated (fun name => [ident name]) names := by
  cases names with
  | nil => rfl
  | cons name names =>
    rw [printNames, printMoreNames_eq, separated]
    rfl

/-- What follows an item of a list. -/
def Follows (close : Kind) (rest : List Token) : Prop :=
  ∃ kind ts, rest = fixed kind :: ts ∧ (kind = .comma ∨ kind = close)

theorem Follows.stops {close : Kind} (follows : Follows close rest) (closer : close ∈ closers) (n : Nat) :
    Stops n rest := by
  obtain ⟨kind, ts, rfl, rfl | rfl⟩ := follows
  · exact stops_fixed (by simp [closers]) n ts
  · exact stops_fixed closer n ts

theorem follows_flatMap {close : Kind} {print : β → List Token} (xs : List β) (rest : List Token) :
    Follows close ((xs.flatMap fun y => fixed .comma :: print y) ++ fixed close :: rest) := by
  cases xs with
  | nil => exact ⟨close, rest, rfl, .inr rfl⟩
  | cons x xs => exact ⟨.comma, _, rfl, .inl rfl⟩

section Lists

variable {p : Parser α} (print : β → List Token) (view : β → α) {close : Kind}

theorem moreItems_print {xs : List β} (apart : close ≠ .comma ∧ close ≠ .comment)
    (run : ∀ x ∈ xs, ∀ {rest}, Follows close rest → p (print x ++ rest) = .ok (view x, rest))
    {n : Nat} (enough : xs.length ≤ n) (done : List α) (rest : List Token) :
    moreItems p n done ((xs.flatMap fun y => fixed .comma :: print y) ++ fixed close :: rest) =
      .ok (done.reverse ++ xs.map view, fixed close :: rest) := by
  induction xs generalizing n done with
  | nil =>
    rw [List.map_nil, List.append_nil]
    cases n with
    | zero => rfl
    | succ n =>
      rw [moreItems, peekIs_bind]
      simp [apart]
      rfl
  | cons x xs ih =>
    cases n with
    | zero => cases enough
    | succ n =>
      have next : Follows close ((xs.flatMap fun y => fixed .comma :: print y) ++ fixed close :: rest) :=
        follows_flatMap xs rest
      have first := run x (List.mem_cons_self ..) next
      have others := ih (fun y member => run y (List.mem_cons_of_mem _ member))
        (Nat.le_of_succ_le_succ enough) (view x :: done)
      rw [moreItems, peekIs_bind]
      simp only [List.flatMap_cons, List.cons_append, List.append_assoc]
      rw [words_fixed (by simp)]
      simp only [List.head?_cons, Option.any_some, kind_fixed, decide_true, if_true]
      rw [advance_bind, skip_fixed (by simp), List.tail_cons, bind_of_ok first, others]
      simp

theorem listUntil_print {xs : List β} (apart : close ≠ .comma ∧ close ≠ .comment)
    (starts : ∀ x ∈ xs, ∃ t ts, print x = t :: ts ∧ t.kind ≠ .comment ∧ t.kind ≠ close)
    (run : ∀ x ∈ xs, ∀ {rest}, Follows close rest → p (print x ++ rest) = .ok (view x, rest))
    {bound : Nat} (enough : xs.length ≤ bound) (rest : List Token) :
    listUntil bound close p (separated print xs ++ fixed close :: rest) = .ok (xs.map view, rest) := by
  rw [listUntil, peekIs_bind]
  cases xs with
  | nil =>
    have ahead : (words (fixed close :: rest)).head?.any (·.kind = close) = true := by
      simp [apart]
    rw [separated, List.nil_append, ahead, if_pos rfl]
    simp only [pure_bind]
    rw [eat_fixed_bind apart.2]
    rfl
  | cons x xs =>
    obtain ⟨t, ts, printed, word, other⟩ := starts x (List.mem_cons_self ..)
    have ahead : (words (separated print (x :: xs) ++ fixed close :: rest)).head?.any (·.kind = close)
        = false := by
      rw [separated, printed, List.cons_append, List.cons_append, words_of_kind word]
      simp [other]
    have next : Follows close ((xs.flatMap fun y => fixed .comma :: print y) ++ fixed close :: rest) :=
      follows_flatMap xs rest
    have first := run x (List.mem_cons_self ..) next
    have others := moreItems_print print view apart (fun y member => run y (List.mem_cons_of_mem _ member))
      (Nat.le_of_succ_le enough) [view x] rest
    rw [ahead, if_neg (by simp), separated, List.append_assoc, bind_of_ok first, bind_of_ok others]
    simp only [eat_fixed_bind apart.2]
    rfl

end Lists

/-! ### How a printed expression starts -/

/-- The words that start a value. -/
def starters : List Kind :=
  [.number, .minus, .trueWord, .falseWord, .nullWord, .string, .lbracket, .lbrace, .ident, .lparen]

theorem print_starts (e : Expr) (n : Nat) : ∃ t ts, e.print n = t :: ts ∧ t.kind ∈ starters := by
  cases e with
  | number pos x =>
    rw [Expr.print, printNumber]
    split
    · exact ⟨_, _, rfl, by simp [starters]⟩
    · exact ⟨_, _, rfl, by simp [starters]⟩
  | bool pos b => exact ⟨_, _, rfl, by cases b <;> simp [starters]⟩
  | null pos => exact ⟨_, _, rfl, by simp [starters]⟩
  | string pos s => exact ⟨_, _, rfl, by simp [starters]⟩
  | array pos items => exact ⟨_, _, rfl, by simp [starters]⟩
  | map pos entries => exact ⟨_, _, rfl, by simp [starters]⟩
  | «variable» pos name => exact ⟨_, _, rfl, by simp [starters]⟩
  | index pos base key =>
    obtain ⟨t, ts, printed, starts⟩ := print_starts base 0
    rw [Expr.print, printed]
    exact ⟨t, _, rfl, starts⟩
  | lambda pos params body => exact ⟨_, _, rfl, by simp [starters]⟩
  | call pos name args more => exact ⟨_, _, rfl, by simp [starters]⟩
  | binary pos op left right =>
    rw [Expr.print, enclose]
    split
    · exact ⟨_, _, rfl, by simp [starters]⟩
    · obtain ⟨t, ts, printed, starts⟩ := print_starts left op.leftTier
      rw [printed]
      exact ⟨t, _, rfl, starts⟩

def Expr.isVariable : Expr → Bool
  | .variable _ _ => true
  | _ => false

/-- A printed expression behind a parenthesis is taken for parameters only if it is a name. -/
theorem arrowAhead_print (e : Expr) (n : Nat) (first : Bool) (rest : List Token) :
    arrowAhead first true (e.print n ++ rest) = (e.isVariable && arrowAhead false false rest) := by
  cases e with
  | number pos x =>
    rw [Expr.print, printNumber]
    split <;> rfl
  | bool pos b => cases b <;> rfl
  | null pos => rfl
  | string pos s => rfl
  | array pos items => rfl
  | map pos entries => rfl
  | «variable» pos name => rfl
  | index pos base key =>
    rw [Expr.print, List.append_assoc, arrowAhead_print base]
    exact Bool.and_false _
  | lambda pos params body => rfl
  | call pos name args more => rfl
  | binary pos op left right =>
    rw [Expr.print, enclose]
    split
    · rfl
    · rw [List.append_assoc, arrowAhead_print left]
      cases op <;> exact Bool.and_false _

theorem arrowAhead_moreNames (names : List String) (rest : List Token) :
    arrowAhead false false (printMoreNames names ++ fixed .rparen :: fixed .arrow :: rest) = true := by
  induction names with
  | nil => simp [printMoreNames, arrowAhead]
  | cons name names ih => simpa [printMoreNames, arrowAhead] using ih

theorem arrowAhead_names (names : List String) (rest : List Token) :
    arrowAhead true true (printNames names ++ fixed .rparen :: fixed .arrow :: rest) = true := by
  cases names with
  | nil => simp [printNames, arrowAhead]
  | cons name names => simpa [printNames, arrowAhead] using arrowAhead_moreNames names rest

end RetroScript.Syntax
