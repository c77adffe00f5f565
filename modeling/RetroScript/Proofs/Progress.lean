import RetroScript.Proofs.Comments
import RetroScript.Proofs.Cursor

/-!
# The parser always makes progress

A run with a cursor could go on when its time is up, pass the end, look at a token that is not there or go round a
loop without taking a token. `parse_makes_progress` says that it does none of this, whatever the tokens are, and that it
ends as `parse` does.

Runs are compared with the bounded parsers, phrase by phrase. Time and bounds count the tokens that are left. They are
never used up, because a nested phrase stands behind a token that was taken (`Strides.bind`), and a round of a loop
takes one (`agrees_loop`). Look ahead is over the words from the cursor on and leaves the cursor where it is.
-/
namespace RetroScript.Syntax

open Token (Kind)

variable {α β σ : Type} {input : Input} {ts : List Token} {t : Token} {low low' pos pos' n m : Nat}

/-! ### Runs that agree with a parser -/

/-- A parser and a run over `tokens` have ended alike: with one result, the cursor at what the parser has
left and between `low` and the end, or stuck in one way. -/
inductive Agrees (tokens : List Token) (low : Nat) : Except Stuck (α × List Token) → Except Halt (α × Nat) → Prop
  | ok (x : α) {pos : Nat} (further : low ≤ pos) (within : pos ≤ tokens.length) :
      Agrees tokens low (.ok (x, tokens.drop pos)) (.ok (x, pos))
  | error (s : Stuck) : Agrees tokens low (.error s) (.error (.stuck s))

theorem Agrees.mono {tokens : List Token} {r : Except Stuck (α × List Token)} {r' : Except Halt (α × Nat)}
    (agrees : Agrees tokens low r r') (le : low' ≤ low) : Agrees tokens low' r r' := by
  cases agrees with
  | ok x further within => exact .ok x (le.trans further) within
  | error s => exact .error s

section

variable {p : Parser α} {c : Cursor α} {k : α → Parser β} {l : α → Cursor β}

theorem Agrees.bind (first : Agrees input.tokens low' (p ts) (c input pos))
    (next : ∀ x pos', low' ≤ pos' → pos' ≤ input.tokens.length →
      Agrees input.tokens low (k x (input.tokens.drop pos')) (l x input pos')) :
    Agrees input.tokens low ((p >>= k) ts) ((c >>= l) input pos) := by
  change Agrees input.tokens low (p ts >>= fun r => k r.1 r.2) (c input pos >>= fun r => l r.1 input r.2)
  generalize p ts = r at first ⊢
  generalize c input pos = r' at first ⊢
  cases first with
  | ok x further within => exact next x _ further within
  | error s => exact .error s

/-- The cursor is within the tokens, fewer than `n` of them are left, and a loop may take each in a round of its own. -/
structure Left (input : Input) (n pos : Nat) : Prop where
  within : pos ≤ input.tokens.length
  short : input.tokens.length < pos + n
  time : input.tokens.length < pos + input.rounds

theorem Left.weaken (left : Left input n pos) : Left input (n + 1) pos :=
  ⟨left.within, Nat.lt_succ_of_lt left.short, left.time⟩

theorem Left.move (left : Left input n pos) (further : pos ≤ pos') (within : pos' ≤ input.tokens.length) :
    Left input n pos' :=
  ⟨within, left.short.trans_le (Nat.add_le_add_right further n),
    left.time.trans_le (Nat.add_le_add_right further input.rounds)⟩

theorem Left.next (left : Left input (n + 1) pos) (further : pos + 1 ≤ pos') (within : pos' ≤ input.tokens.length) :
    Left input n pos' := by
  have moved := left.move (Nat.le_of_succ_le further) within
  have short := left.short
  exact ⟨within, by omega, moved.time⟩

/-- A run does as a parser where fewer than `n` tokens are left. -/
def Mirrors (input : Input) (n : Nat) (p : Parser α) (c : Cursor α) : Prop :=
  ∀ ⦃pos⦄, Left input n pos → Agrees input.tokens pos (p (input.tokens.drop pos)) (c input pos)

/-- The same, and a result takes a token. -/
def Strides (input : Input) (n : Nat) (p : Parser α) (c : Cursor α) : Prop :=
  ∀ ⦃pos⦄, Left input n pos → Agrees input.tokens (pos + 1) (p (input.tokens.drop pos)) (c input pos)

theorem Strides.mirrors (strides : Strides input n p c) : Mirrors input n p c :=
  fun _ left => (strides left).mono (Nat.le_succ _)

theorem Strides.weaken (strides : Strides input (n + 1) p c) : Strides input n p c :=
  fun _ left => strides left.weaken

theorem Strides.within (strides : Strides input (n + 1) p c) : Mirrors input n p c := strides.weaken.mirrors

theorem Mirrors.bind (first : Mirrors input n p c) (next : ∀ x, Mirrors input n (k x) (l x)) :
    Mirrors input n (p >>= k) (c >>= l) :=
  fun _ left => (first left).bind fun x _ further within => (next x (left.move further within)).mono further

/-- Behind a token that was taken one fewer is left. -/
theorem Agrees.behind (taken : Agrees input.tokens (pos + 1) (p ts) (c input pos)) (left : Left input (n + 1) pos)
    (next : ∀ x, Mirrors input n (k x) (l x)) :
    Agrees input.tokens (pos + 1) ((p >>= k) ts) ((c >>= l) input pos) :=
  taken.bind fun x _ further within => (next x (left.next further within)).mono further

theorem Strides.bind (first : Strides input (n + 1) p c) (next : ∀ x, Mirrors input n (k x) (l x)) :
    Strides input (n + 1) (p >>= k) (c >>= l) :=
  fun _ left => (first left).behind left next

end

/-! ### Loops -/

section

variable {L : Nat → σ → Parser β} {round : (σ → Cursor β) → σ → Cursor β}

/-- A loop that goes on only behind a token ends before its time is up, and before the bound of the parser's loop. -/
theorem agrees_loop {f : Nat → Nat}
    (step : ∀ ⦃m again s pos⦄, Left input n pos →
      (∀ s' ⦃pos'⦄, pos < pos' → pos' ≤ input.tokens.length →
        Agrees input.tokens (f pos') (L m s' (input.tokens.drop pos')) (again s' input pos')) →
      Agrees input.tokens (f pos) (L (m + 1) s (input.tokens.drop pos)) (round again s input pos))
    (enough : n ≤ m) (s : σ) (left : Left input n pos) :
    Agrees input.tokens (f pos) (L m s (input.tokens.drop pos)) (Cursor.loop round s input pos) := by
  have bound := left.short.trans_le (Nat.add_le_add_left enough pos)
  have time := left.time
  rw [Cursor.loop_run]
  generalize input.rounds = k at time ⊢
  clear enough
  -- The induction is on the rounds. What carries it is that fewer tokens than rounds are left, on both sides.
  induction k generalizing m s pos with
  | zero => exact absurd left.within (by omega)
  | succ k ih =>
    obtain ⟨m, rfl⟩ : ∃ m', m = m' + 1 := Nat.exists_eq_succ_of_ne_zero (by have := left.within; omega)
    rw [Cursor.repeatFor_succ]
    refine step left fun s' pos' further within => ?_
    rw [Cursor.moved_bind further]
    exact ih s' (left.move further.le within) (by omega) (by omega)

/-- The same for a loop that may also stop where it starts. -/
theorem mirrors_loop
    (step : ∀ ⦃m again s pos⦄, Left input n pos →
      (∀ s' ⦃pos'⦄, pos < pos' → pos' ≤ input.tokens.length →
        Agrees input.tokens pos (L m s' (input.tokens.drop pos')) (again s' input pos')) →
      Agrees input.tokens pos (L (m + 1) s (input.tokens.drop pos)) (round again s input pos))
    (enough : n ≤ m) (s : σ) : Mirrors input n (L m s) (Cursor.loop round s) := by
  refine fun pos => agrees_loop (f := id) (fun m again s pos left more => ?_) enough s
  exact step left fun s' pos' further within => (more s' further within).mono further.le

end

/-! ### Tokens -/

theorem mirrors_passComments : Mirrors input n (modify skipComments) Cursor.passComments := by
  refine mirrors_loop (L := fun _ _ => modify skipComments) ?_ (Nat.le_refl n) ()
  intro m again _ pos left more
  rw [Cursor.read_bind, Cursor.get_bind]
  cases found : input.tokens[pos]? with
  | none =>
    have ended := List.drop_eq_nil_of_le (List.getElem?_eq_none_iff.mp found)
    have skipped : skipComments (input.tokens.drop pos) = input.tokens.drop pos := by rw [ended]; rfl
    change Agrees input.tokens pos (.ok ((), skipComments (input.tokens.drop pos))) _
    rw [skipped]
    exact .ok () (Nat.le_refl pos) left.within
  | some t =>
    obtain ⟨less, rfl⟩ := List.getElem?_eq_some_iff.mp found
    have split := List.drop_eq_getElem_cons less
    change Agrees input.tokens pos (.ok ((), skipComments (input.tokens.drop pos))) _
    rw [Option.any_some]
    cases comment : isComment input.tokens[pos] with
    | true =>
      rw [if_pos rfl, Cursor.bind_run (Cursor.step_run less), split, skipComments_cons_comment comment]
      exact more () (Nat.lt_succ_self pos) less
    | false =>
      rw [if_neg Bool.false_ne_true, split, skipComments_cons_word comment, ← split]
      exact .ok () (Nat.le_refl pos) left.within

theorem agrees_advance (left : Left input n pos) (ahead : (words (input.tokens.drop pos)).head? = some t) :
    Agrees input.tokens (pos + 1) (advance (input.tokens.drop pos)) (Cursor.advance input pos) := by
  rw [← head?_skipComments] at ahead
  have passed := mirrors_passComments left
  change Agrees _ _ (.ok ((), skipComments (input.tokens.drop pos))) _ at passed
  change Agrees _ _ (.ok ((), (skipComments (input.tokens.drop pos)).tail)) _
  rw [Cursor.advance]
  generalize skipComments (input.tokens.drop pos) = rest at ahead passed ⊢
  generalize ran : Cursor.passComments input pos = r at passed
  cases passed with
  | @ok _ pos' further within =>
    have less : pos' < input.tokens.length := by
      by_contra beyond
      simp [List.drop_eq_nil_of_le (not_lt.mp beyond)] at ahead
    rw [Cursor.bind_run ran, Cursor.step_run less, List.tail_drop]
    exact .ok () (Nat.succ_le_succ further) less

theorem mirrors_pure (x : α) : Mirrors input n (pure x : Parser α) (pure x : Cursor α) :=
  fun pos left => .ok x (Nat.le_refl pos) left.within

theorem strides_stuck (fault : ParseFault) :
    Strides input n (stuck fault : Parser α) (Cursor.stuck fault : Cursor α) := by
  intro pos _
  rw [stuck, Cursor.stuck, peek_bind, Cursor.peek_bind]
  exact .error _

theorem strides_eat (kind : Kind) : Strides input n (eat kind) (Cursor.eat kind) := by
  intro pos left
  rw [eat, Cursor.eat, peek_bind, Cursor.peek_bind]
  cases ahead : (words (input.tokens.drop pos)).head? with
  | none => exact strides_stuck _ left
  | some t =>
    dsimp only
    split
    · exact (agrees_advance left ahead).bind fun _ pos' further within => .ok t further within
    · exact strides_stuck _ left

theorem strides_eatName : Strides input n eatName Cursor.eatName :=
  fun _ left => (strides_eat .ident left).bind fun t _ further within => .ok t.text further within

theorem mirrors_close (kind : Kind) (x : α) :
    Mirrors input n (eat kind >>= fun _ => pure x : Parser α) (Cursor.eat kind >>= fun _ => pure x : Cursor α) :=
  (strides_eat kind).mirrors.bind fun _ => mirrors_pure x

/-- A word that may stand here, and what is read behind it or without it. -/
theorem Mirrors.optional {kind : Kind} {p q : Parser α} {c d : Cursor α} (behind : Mirrors input n p c)
    (without : Mirrors input n q d) :
    Mirrors input n (peekIs kind >>= fun b => if b = true then advance >>= fun _ => p else q)
      (Cursor.peekIs kind >>= fun b => if b = true then Cursor.advance >>= fun _ => c else d) := by
  intro pos left
  rw [peekIs_bind, Cursor.peekIs_bind]
  split
  · next word =>
    obtain ⟨t, ahead, _⟩ := any_kind_eq_true.mp word
    refine (agrees_advance left ahead).bind fun _ pos' further within => ?_
    exact (behind (left.move (Nat.le_of_succ_le further) within)).mono (Nat.le_of_succ_le further)
  · exact without left

/-- A loop that collects what `next` reads behind a word, last one first. -/
theorem mirrors_collect {kind : Kind} {L : Nat → List α → Parser (List α)} {next : Parser α} {next' : Cursor α}
    (one : Mirrors input n next next')
    (run : ∀ m done, L (m + 1) done = (peekIs kind >>= fun b =>
      if b = true then advance >>= fun _ => next >>= fun x => L m (x :: done) else pure done.reverse))
    (enough : n ≤ m) (done : List α) :
    Mirrors input n (L m done) (Cursor.loop (fun again done => Cursor.peekIs kind >>= fun b =>
      if b = true then Cursor.advance >>= fun _ => next' >>= fun x => again (x :: done) else pure done.reverse) done) := by
  refine mirrors_loop ?_ enough done
  intro m again done pos left more
  rw [run, peekIs_bind, Cursor.peekIs_bind]
  split
  · next word =>
    obtain ⟨t, ahead, _⟩ := any_kind_eq_true.mp word
    refine (agrees_advance left ahead).bind fun _ pos₁ further within => ?_
    refine (one (left.move (Nat.le_of_succ_le further) within)).bind fun x pos₂ further' within => ?_
    exact more (x :: done) (further.trans further') within
  · exact mirrors_pure _ left

/-! ### Lists -/

theorem mirrors_listUntil {p : Parser α} {c : Cursor α} (item : Mirrors input n p c) (enough : n ≤ m) (close : Kind) :
    Mirrors input n (listUntil m close p) (Cursor.listUntil close c) := by
  intro pos left
  rw [listUntil, Cursor.listUntil, peekIs_bind, Cursor.peekIs_bind]
  split
  · exact mirrors_close close [] left
  · refine (item.bind fun first => ?_) left
    exact (mirrors_collect item (fun _ _ => rfl) enough [first]).bind fun items => mirrors_close close items

theorem mirrors_params (enough : n ≤ m) : Mirrors input n (params m) Cursor.params := by
  intro pos left
  rw [params, Cursor.params, peek_bind, Cursor.peek_bind]
  refine (mirrors_listUntil strides_eatName.mirrors enough .rparen left).bind fun names pos' further within => ?_
  cases firstDuplicate? [] names with
  | none => exact .ok names further within
  | some name => exact .error _

/-! ### Expressions -/

/-- The parsers for nested phrases do as the runs do where fewer than `n` tokens are left. -/
structure Inner.Mirrored (inner : Inner) (nested : Cursor.Nested) (input : Input) (n : Nat) : Prop where
  bound : n ≤ inner.bound
  expr : Strides input n inner.expr nested.expr
  block : ∀ ending, Mirrors input n (inner.block ending) (nested.block ending)

variable {inner : Inner} {nested : Cursor.Nested}

theorem mirrors_exprs (mirrored : inner.Mirrored nested input n) (close : Kind) :
    Mirrors input n (listUntil inner.bound close inner.expr) (Cursor.listUntil close nested.expr) :=
  mirrors_listUntil mirrored.expr.mirrors mirrored.bound close

theorem strides_lambdaBody (mirrored : inner.Mirrored nested input n) (place : Position) :
    Strides input (n + 1) (lambdaBody inner place) (Cursor.lambdaBody nested place) := by
  rw [lambdaBody, Cursor.lambdaBody]
  refine (strides_eat .arrow).bind fun _ => .optional ?_ ?_
  · exact (mirrored.block .brace).bind fun body => mirrors_close .rbrace body
  · exact mirrored.expr.mirrors.bind fun e => mirrors_pure _

theorem strides_number (negative : Bool) : Strides input n (number negative) (Cursor.number negative) := by
  intro pos left
  rw [number, Cursor.number]
  refine (strides_eat .number left).bind fun t pos' further within => ?_
  cases Decimal.read? t.text with
  | some x => exact .ok _ further within
  | none => exact .error _

theorem strides_entry (mirrored : inner.Mirrored nested input n) :
    Strides input (n + 1) (entry inner) (Cursor.entry nested) := by
  intro pos left
  rw [entry, Cursor.entry, peek_bind, Cursor.peek_bind]
  cases ahead : (words (input.tokens.drop pos)).head? with
  | none => exact strides_stuck _ left
  | some t =>
    dsimp only
    split
    · refine (agrees_advance left ahead).behind left fun _ => ?_
      exact (strides_eat .colon).mirrors.bind fun _ => mirrored.expr.mirrors.bind fun e => mirrors_pure (t.text, e)
    · exact strides_stuck _ left

theorem strides_callee (mirrored : inner.Mirrored nested input n) :
    Strides input (n + 1) (callee inner) (Cursor.callee nested) := by
  have arguments := mirrors_exprs mirrored .rparen
  rw [callee, Cursor.callee]
  refine strides_eatName.bind fun name => (strides_eat .lparen).mirrors.bind fun _ => arguments.bind fun args => ?_
  refine (mirrors_collect (L := moreGroups inner) arguments ?_ mirrored.bound []).bind fun more => mirrors_pure _
  exact fun _ _ => rfl

theorem strides_named (mirrored : inner.Mirrored nested input n) (place : Position) :
    Strides input (n + 1) (named inner place) (Cursor.named nested place) := by
  intro pos left
  rw [named, Cursor.named, secondIs_bind, Cursor.secondIs_bind]
  split
  · exact (strides_eatName.bind fun name => (strides_lambdaBody mirrored place).within.bind fun body =>
      mirrors_pure _) left
  · rw [secondIs_bind, Cursor.secondIs_bind]
    split
    · exact ((strides_callee mirrored).bind fun found => mirrors_pure _) left
    · exact (strides_eatName.bind fun name => mirrors_pure _) left

theorem lambdaAhead_words (ts : List Token) :
    ((skipComments ts).head?.any (·.kind = .lparen) && arrowAhead true true (skipComments ts).tail) =
      ((words ts).head?.any (·.kind = .lparen) && arrowAhead true true (words ts).tail) := by
  rw [head?_skipComments, ← arrowAhead_words, words_skipComments_tail]

theorem agrees_parenthesised (mirrored : inner.Mirrored nested input n) (place : Position)
    (left : Left input (n + 1) pos) (ahead : (words (input.tokens.drop pos)).head? = some t) :
    Agrees input.tokens (pos + 1) (parenthesised inner place (input.tokens.drop pos))
      (Cursor.parenthesised nested place input pos) := by
  rw [parenthesised, Cursor.parenthesised, lambdaAhead_bind, Cursor.lambdaAhead_bind, lambdaAhead_words]
  have taken := agrees_advance left ahead
  split
  · refine taken.behind left fun _ => (mirrors_params mirrored.bound).bind fun names => ?_
    exact (strides_lambdaBody mirrored place).within.bind fun body => mirrors_pure _
  · exact taken.behind left fun _ => mirrored.expr.mirrors.bind fun e => mirrors_close .rparen e

theorem agrees_signedNumber (left : Left input (n + 1) pos) (ahead : (words (input.tokens.drop pos)).head? = some t) :
    Agrees input.tokens (pos + 1) (signedNumber t (input.tokens.drop pos)) (Cursor.signedNumber t input pos) := by
  rw [signedNumber, Cursor.signedNumber, secondIs_bind, Cursor.secondIs_bind]
  split
  · exact (agrees_advance left ahead).behind left fun _ => (strides_number _).mirrors.bind fun x => mirrors_pure _
  · exact strides_stuck _ left

theorem strides_atom (mirrored : inner.Mirrored nested input n) :
    Strides input (n + 1) (atom inner) (Cursor.atom nested) := by
  intro pos left
  rw [atom, Cursor.atom, peek_bind, Cursor.peek_bind]
  cases ahead : (words (input.tokens.drop pos)).head? with
  | none => exact strides_stuck _ left
  | some t =>
    have taken := agrees_advance left ahead
    have word (e : Expr) := taken.behind left fun _ => mirrors_pure e
    cases kind : t.kind <;> simp only [kind]
    case number => exact ((strides_number false).bind fun x => mirrors_pure _) left
    case minus => exact agrees_signedNumber left ahead
    case plus => exact agrees_signedNumber left ahead
    case trueWord => exact word _
    case falseWord => exact word _
    case nullWord => exact word _
    case string => exact word _
    case lbracket =>
      exact taken.behind left fun _ => (mirrors_exprs mirrored .rbracket).bind fun items => mirrors_pure _
    case lbrace =>
      have entries := mirrors_listUntil (strides_entry mirrored).within mirrored.bound .rbrace
      exact taken.behind left fun _ => entries.bind fun items => mirrors_pure _
    case lparen => exact agrees_parenthesised mirrored _ left ahead
    case ident => exact strides_named mirrored _ left
    all_goals exact strides_stuck _ left

theorem strides_indexed (mirrored : inner.Mirrored nested input n) :
    Strides input (n + 1) (indexed inner) (Cursor.indexed nested) := by
  rw [indexed, Cursor.indexed]
  refine (strides_atom mirrored).bind fun base => mirrors_loop ?_ mirrored.bound base
  intro m again base pos left more
  rw [moreIndexes, peekIs_bind, Cursor.peekIs_bind]
  split
  · refine (strides_eat .lbracket left).bind fun bracket pos₁ further within => ?_
    refine (mirrored.expr.mirrors (left.move (by omega) within)).bind fun key pos₂ further' within => ?_
    refine ((strides_eat .rbracket).mirrors (left.move (by omega) within)).bind fun _ pos₃ further'' within => ?_
    exact more (.index bracket.pos base key) (by omega) within
  · exact mirrors_pure _ left

theorem strides_power (mirrored : inner.Mirrored nested input n) :
    Strides input (n + 1) (power inner) (Cursor.power nested) := by
  rw [power, Cursor.power]
  refine (strides_indexed mirrored).bind fun base => .optional ?_ (mirrors_pure base)
  exact (strides_indexed mirrored).within.bind fun exponent => mirrors_pure _

theorem strides_chain (operator : Kind → Option Operator) {operand : Parser Expr} {operand' : Cursor Expr}
    (strides : Strides input (n + 1) operand operand') (enough : n ≤ m) :
    Strides input (n + 1) (chain m operator operand) (Cursor.chain operator operand') := by
  rw [chain, Cursor.chain]
  refine strides.bind fun first => mirrors_loop ?_ enough first
  intro m again first pos left more
  rw [moreOperands, peek_bind, Cursor.peek_bind]
  cases ahead : (words (input.tokens.drop pos)).head? with
  | none => exact mirrors_pure _ left
  | some t =>
    rw [Option.bind_some]
    cases operator t.kind with
    | none => exact mirrors_pure _ left
    | some op =>
      refine (agrees_advance left ahead).bind fun _ pos₁ further within => ?_
      refine (strides.within (left.move (by omega) within)).bind fun right pos₂ further' within => ?_
      exact more (.binary first.pos op first right) (by omega) within

theorem strides_product (mirrored : inner.Mirrored nested input n) :
    Strides input (n + 1) (product inner) (Cursor.product nested) :=
  strides_chain productOperator (strides_power mirrored) mirrored.bound

theorem strides_sum (mirrored : inner.Mirrored nested input n) :
    Strides input (n + 1) (sum inner) (Cursor.sum nested) :=
  strides_chain sumOperator (strides_product mirrored) mirrored.bound

theorem strides_comparison (mirrored : inner.Mirrored nested input n) :
    Strides input (n + 1) (comparison inner) (Cursor.comparison nested) :=
  strides_chain comparisonOperator (strides_sum mirrored) mirrored.bound

theorem strides_logic (mirrored : inner.Mirrored nested input n) :
    Strides input (n + 1) (logic inner) (Cursor.logic nested) :=
  strides_chain logicOperator (strides_comparison mirrored) mirrored.bound

/-! ### Commands -/

theorem strides_place (mirrored : inner.Mirrored nested input n) :
    Strides input (n + 1) (place inner) (Cursor.place nested) := by
  rw [place, Cursor.place]
  refine strides_eatName.bind fun name => (mirrors_loop ?_ mirrored.bound []).bind fun keys => mirrors_pure (name, keys)
  intro m again done pos left more
  rw [placeIndexes, peekIs_bind, Cursor.peekIs_bind]
  split
  · next bracket =>
    obtain ⟨t, ahead, _⟩ := any_kind_eq_true.mp bracket
    refine (agrees_advance left ahead).bind fun _ pos₁ further within => ?_
    refine (mirrored.expr.mirrors (left.move (by omega) within)).bind fun key pos₂ further' within => ?_
    refine ((strides_eat .rbracket).mirrors (left.move (by omega) within)).bind fun _ pos₃ further'' within => ?_
    exact more (key :: done) (by omega) within
  · exact mirrors_pure _ left

theorem strides_assignment (mirrored : inner.Mirrored nested input n) :
    Strides input (n + 1) (assignment inner) (Cursor.assignment nested) := by
  rw [assignment, Cursor.assignment]
  refine (strides_eat .letWord).bind fun _ => (strides_place mirrored).within.bind fun target => ?_
  exact (strides_eat .equal).mirrors.bind fun _ => mirrored.expr.mirrors.bind fun value => mirrors_pure _

theorem strides_definition (mirrored : inner.Mirrored nested input n) :
    Strides input (n + 1) (definition inner) (Cursor.definition nested) := by
  rw [definition, Cursor.definition]
  refine (strides_eat .defWord).bind fun _ => strides_eatName.mirrors.bind fun name => ?_
  refine (strides_eat .lparen).mirrors.bind fun _ => (mirrors_params mirrored.bound).bind fun names => ?_
  exact (mirrored.block .endWord).bind fun body => mirrors_close .endWord (name, names, body)

theorem mirrors_condition (mirrored : inner.Mirrored nested input n) :
    Mirrors input n (condition inner) (Cursor.condition nested) := by
  rw [condition, Cursor.condition]
  exact (strides_eat .lparen).mirrors.bind fun _ => mirrored.expr.mirrors.bind fun e => mirrors_close .rparen e

theorem mirrors_otherwise (mirrored : inner.Mirrored nested input n) :
    Mirrors input n (otherwise inner) (Cursor.otherwise nested) := by
  rw [otherwise, Cursor.otherwise]
  exact .optional ((mirrored.block .endWord).bind fun body => mirrors_close .endWord body) (mirrors_close .endWord [])

theorem agrees_command (mirrored : inner.Mirrored nested input n) (left : Left input (n + 1) pos)
    (ahead : (words (input.tokens.drop pos)).head? = some t) :
    Agrees input.tokens (pos + 1) (command inner t (input.tokens.drop pos)) (Cursor.command nested t input pos) := by
  have taken := agrees_advance left ahead
  rw [command, Cursor.command]
  cases t.kind <;> dsimp only
  case letWord => exact ((strides_assignment mirrored).bind fun found => mirrors_close .semicolon _) left
  case delWord =>
    refine taken.behind left fun _ => (strides_place mirrored).within.bind fun target => ?_
    obtain ⟨name, keys⟩ := target
    cases keys with
    | nil => exact fun _ _ => .error _
    | cons key keys => exact mirrors_close .semicolon _
  case returnWord => exact taken.behind left fun _ => mirrored.expr.mirrors.bind fun e => mirrors_close .semicolon _
  case ifWord =>
    refine taken.behind left fun _ => (mirrors_condition mirrored).bind fun test => ?_
    exact (mirrored.block .elseWord).bind fun yes => (mirrors_otherwise mirrored).bind fun no => mirrors_pure _
  case whileWord =>
    refine taken.behind left fun _ => (mirrors_condition mirrored).bind fun test => ?_
    exact (mirrored.block .endWord).bind fun body => mirrors_close .endWord _
  case defWord => exact ((strides_definition mirrored).bind fun found => mirrors_pure _) left
  case ident =>
    rw [secondIs_bind, Cursor.secondIs_bind]
    split
    · exact ((strides_callee mirrored).bind fun found => mirrors_close .semicolon _) left
    · exact strides_stuck _ left
  all_goals exact strides_stuck _ left

/-- A comment at the cursor is taken, and then stands before the cursor. -/
theorem remark_cases (input : Input) (pos : Nat) :
    (∃ t, remark? (input.tokens.drop pos) = .ok (some t, input.tokens.drop (pos + 1)) ∧ pos < input.tokens.length ∧
      Cursor.remark? input pos = .ok (some (remarkText t.text), pos + 1) ∧
      Cursor.previous input (pos + 1) = .ok (t, pos + 1)) ∨
    remark? (input.tokens.drop pos) = .ok (none, input.tokens.drop pos) ∧ Cursor.remark? input pos = .ok (none, pos) := by
  by_cases less : pos < input.tokens.length
  · have found := List.getElem?_eq_getElem less
    rw [List.drop_eq_getElem_cons less]
    cases comment : isComment input.tokens[pos] with
    | true =>
      exact .inl ⟨input.tokens[pos], remark?_of_comment comment _, less, Cursor.remark?_of_comment found comment,
        Cursor.previous_run found⟩
    | false =>
      refine .inr ⟨remark?_of_word comment _, Cursor.remark?_of_other ?_⟩
      rw [found]
      rintro _ ⟨⟩
      exact comment
  · have ended : input.tokens.drop pos = [] := List.drop_eq_nil_of_le (not_lt.mp less)
    refine .inr ⟨by rw [ended]; rfl, Cursor.remark?_of_other ?_⟩
    simp [List.getElem?_eq_none (not_lt.mp less)]

theorem mirrors_commands (mirrored : inner.Mirrored nested input n) (ending : Ending) (enough : n + 1 ≤ m) :
    Mirrors input (n + 1) (moreCommands inner ending m []) (Cursor.commands nested ending) := by
  refine mirrors_loop ?_ enough []
  intro m again done pos left more
  rw [moreCommands]
  rcases remark_cases input pos with ⟨t, ran, less, ran', before⟩ | ⟨ran, ran'⟩
  · rw [bind_of_ok ran, Cursor.bind_run ran']
    dsimp only
    rw [Cursor.bind_run before]
    exact more _ (Nat.lt_succ_self pos) less
  · rw [bind_of_ok ran, Cursor.bind_run ran']
    dsimp only
    rw [peek_bind, Cursor.peek_bind]
    cases ahead : (words (input.tokens.drop pos)).head? with
    | none => exact (strides_stuck _).mirrors left
    | some t =>
      dsimp only
      split
      · exact mirrors_pure _ left
      · exact (agrees_command mirrored left ahead).bind fun next pos' further within => more (next :: done) further within

/-- Every level of nesting starts with a token of its own. -/
theorem mirrored_nested (input : Input) {a b : Nat} (inside : n ≤ a) (inside' : n ≤ b) :
    (Syntax.inner a).Mirrored (Cursor.nested b) input n := by
  induction n generalizing a b with
  | zero =>
    have none {pos : Nat} (left : Left input 0 pos) : False := by
      have := left.within
      have := left.short
      omega
    exact ⟨inside, fun _ left => (none left).elim, fun _ _ left => (none left).elim⟩
  | succ n ih =>
    obtain ⟨a, rfl⟩ : ∃ a', a = a' + 1 := Nat.exists_eq_succ_of_ne_zero (by omega)
    obtain ⟨b, rfl⟩ : ∃ b', b = b' + 1 := Nat.exists_eq_succ_of_ne_zero (by omega)
    have nested := ih (Nat.le_of_succ_le_succ inside) (Nat.le_of_succ_le_succ inside')
    have deeper : Inner.Mirrored ⟨a + 1, expr a, block a⟩ (Cursor.nested b) input n :=
      ⟨Nat.le_of_succ_le inside, nested.expr, nested.block⟩
    exact ⟨inside, strides_logic deeper, fun ending => mirrors_commands deeper ending inside⟩

/-! ### Programs -/

theorem agrees_item (mirrored : inner.Mirrored nested input n) (left : Left input (n + 1) pos)
    (ahead : (words (input.tokens.drop pos)).head? = some t) :
    Agrees input.tokens (pos + 1) (item inner t (input.tokens.drop pos)) (Cursor.item nested t input pos) := by
  rw [item, Cursor.item]
  cases t.kind <;> dsimp only
  case constWord =>
    refine (agrees_advance left ahead).behind left fun _ => strides_eatName.mirrors.bind fun name => ?_
    refine (strides_eat .equal).mirrors.bind fun _ => ?_
    exact mirrored.expr.mirrors.bind fun value => mirrors_close .semicolon _
  case letWord => exact ((strides_assignment mirrored).bind fun found => mirrors_close .semicolon _) left
  case defWord => exact ((strides_definition mirrored).bind fun found => mirrors_pure _) left
  all_goals exact strides_stuck _ left

theorem eq_nil_of_no_remark (none : remark? ts = .ok (none, ts)) (ended : (words ts).head? = Option.none) : ts = [] := by
  cases ts with
  | nil => rfl
  | cons t ts =>
    cases comment : isComment t with
    | true =>
      rw [remark?_of_comment comment] at none
      cases none
    | false =>
      rw [words_cons_word comment] at ended
      cases ended

/-- A program is read to the end of the tokens. -/
theorem agrees_program (mirrored : inner.Mirrored nested input n) (enough : n ≤ m) (left : Left input n pos) :
    Agrees input.tokens input.tokens.length (moreProgram inner m [] (input.tokens.drop pos))
      (Cursor.program nested input pos) := by
  refine agrees_loop (f := fun _ => input.tokens.length) ?_ enough [] left
  intro m again done pos left more
  rw [moreProgram]
  rcases remark_cases input pos with ⟨t, ran, less, ran', _⟩ | ⟨ran, ran'⟩
  · rw [bind_of_ok ran, Cursor.bind_run ran']
    exact more _ (Nat.lt_succ_self pos) less
  · rw [bind_of_ok ran, Cursor.bind_run ran']
    dsimp only
    rw [peek_bind, Cursor.peek_bind]
    cases ahead : (words (input.tokens.drop pos)).head? with
    | none =>
      have ended := List.drop_eq_nil_iff.mp (eq_nil_of_no_remark ran ahead)
      exact .ok done.reverse ended left.within
    | some t =>
      exact (agrees_item mirrored left.weaken ahead).bind fun next pos' further within =>
        more (next :: done) further within

/-- Where fewer than `n` tokens are left, whatever they are, every phrase takes one of them or is refused. Runs with
the time `n` and parsers with that bound agree on it, and no run is cut off, halts at a check or passes the end. -/
structure Progress (tokens : List Token) (n : Nat) : Prop where
  command : ∀ ⦃pos t⦄, Left ⟨tokens, n⟩ n pos → (words (tokens.drop pos)).head? = some t →
    Agrees tokens (pos + 1) (command (Syntax.inner n) t (tokens.drop pos))
      (Cursor.command (Cursor.nested n) t ⟨tokens, n⟩ pos)
  definition : Strides ⟨tokens, n⟩ n (definition (Syntax.inner n)) (Cursor.definition (Cursor.nested n))
  assignment : Strides ⟨tokens, n⟩ n (assignment (Syntax.inner n)) (Cursor.assignment (Cursor.nested n))
  place : Strides ⟨tokens, n⟩ n (place (Syntax.inner n)) (Cursor.place (Cursor.nested n))
  callee : Strides ⟨tokens, n⟩ n (callee (Syntax.inner n)) (Cursor.callee (Cursor.nested n))
  expr : Strides ⟨tokens, n⟩ n (expr n) (Cursor.nested n).expr
  logic : Strides ⟨tokens, n⟩ n (logic (Syntax.inner n)) (Cursor.logic (Cursor.nested n))
  comparison : Strides ⟨tokens, n⟩ n (comparison (Syntax.inner n)) (Cursor.comparison (Cursor.nested n))
  sum : Strides ⟨tokens, n⟩ n (sum (Syntax.inner n)) (Cursor.sum (Cursor.nested n))
  product : Strides ⟨tokens, n⟩ n (product (Syntax.inner n)) (Cursor.product (Cursor.nested n))
  power : Strides ⟨tokens, n⟩ n (power (Syntax.inner n)) (Cursor.power (Cursor.nested n))
  indexed : Strides ⟨tokens, n⟩ n (indexed (Syntax.inner n)) (Cursor.indexed (Cursor.nested n))
  atom : Strides ⟨tokens, n⟩ n (atom (Syntax.inner n)) (Cursor.atom (Cursor.nested n))

theorem progress (tokens : List Token) (n : Nat) : Progress tokens n := by
  have mirrored := mirrored_nested ⟨tokens, n⟩ (Nat.le_refl n) (Nat.le_refl n)
  exact {
    command := fun pos t left ahead => agrees_command mirrored left.weaken ahead
    definition := (strides_definition mirrored).weaken
    assignment := (strides_assignment mirrored).weaken
    place := (strides_place mirrored).weaken
    callee := (strides_callee mirrored).weaken
    expr := mirrored.expr
    logic := (strides_logic mirrored).weaken
    comparison := (strides_comparison mirrored).weaken
    sum := (strides_sum mirrored).weaken
    product := (strides_product mirrored).weaken
    power := (strides_power mirrored).weaken
    indexed := (strides_indexed mirrored).weaken
    atom := (strides_atom mirrored).weaken
  }

theorem agrees_parse (tokens : List Token) {n : Nat} (time : tokens.length < n) :
    Agrees tokens tokens.length (moreProgram (Syntax.inner (tokens.length + 1)) (tokens.length + 1) [] tokens)
      (Cursor.parse n tokens) := by
  have left : Left ⟨tokens, n⟩ (tokens.length + 1) 0 := ⟨Nat.zero_le _, by simp, by simpa using time⟩
  exact agrees_program (mirrored_nested _ (Nat.le_refl _) time) (Nat.le_refl _) left

/-- Every phrase takes a token, and a run over all the tokens ends in any time that is more than their number: with the
program that `parse` gives and the cursor at the end, or stuck where `parse` fails. It halts at none of its checks, so
the cursor never passes the end, a token looked at is there, and every round of a loop takes a token. -/
theorem parse_makes_progress (tokens : List Token) :
    (∀ n, Progress tokens n) ∧
    ((∃ items, parse tokens = .ok ⟨items⟩ ∧
        ∀ n > tokens.length, Cursor.parse n tokens = .ok (items, tokens.length)) ∨
      ∃ s, parse tokens = .error (s.locate tokens) ∧
        ∀ n > tokens.length, Cursor.parse n tokens = .error (.stuck s)) := by
  refine ⟨progress tokens, ?_⟩
  have agrees {n : Nat} (time : tokens.length < n) := agrees_parse tokens time
  rw [parse]
  generalize moreProgram (Syntax.inner (tokens.length + 1)) (tokens.length + 1) [] tokens = r at agrees ⊢
  cases r with
  | ok r =>
    obtain ⟨items, rest⟩ := r
    refine .inl ⟨items, rfl, fun n time => ?_⟩
    have ended := agrees time
    generalize Cursor.parse n tokens = r' at ended ⊢
    cases ended with
    | @ok _ pos further within => rw [Nat.le_antisymm within further]
  | error s =>
    refine .inr ⟨s, rfl, fun n time => ?_⟩
    have ended := agrees time
    generalize Cursor.parse n tokens = r' at ended ⊢
    cases ended
    rfl

/-- With less time a run is cut off. -/
example : Cursor.parse 1 [⟨.comment, "# one", ⟨1, 1⟩⟩, ⟨.comment, "# two", ⟨2, 1⟩⟩] = .error .unfinished := rfl

end RetroScript.Syntax
