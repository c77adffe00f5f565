import RetroScript.Proofs.Comments
import RetroScript.Proofs.Outcomes

/-!
# How far the parsers look

Every parser of the grammar has an outcome: its run depends on the tokens taken and on the next word.

The look ahead at an arrow reaches further than the next word, but an arrow that was seen is taken
before anything else can be wrong. For that the bound on a list of parameters must not be met, so inputs
are within the bounds.
-/
namespace RetroScript.Syntax

open Token (Kind)

variable {α : Type} {c : Respelling} {t : Token} {ts kept front rest : List Token} {n : Nat}
  {done : Bool} {p q : Parser α} {r : Except Stuck (α × List Token)}

/-! ### Lists -/

theorem steady_moreItems (item : Steady c n p) (bound : Nat) (found : List α) :
    Steady c n (moreItems p bound found) := by
  induction bound generalizing found with
  | zero => exact steady_pure _
  | succ bound ih =>
    rw [moreItems]
    exact .optional (A := fun _ => p >>= fun next => moreItems p bound (next :: found)) (Nat.le_succ n)
      (fun _ _ _ _ => rfl) (fun _ => item.bind fun next => ih (next :: found)) (steady_pure _)

theorem steady_listUntil (item : Steady c n p) (bound : Nat) (close : Kind) :
    Steady c n (listUntil bound close p) := by
  rw [listUntil]
  refine .optional (A := fun _ => pure []) (Nat.le_succ n) ?_ (fun _ => steady_pure []) ?_
  · intro t us ahead same
    dsimp only
    rw [if_pos rfl, pure_bind, eat_bind ahead same]
  · exact item.bind fun first => (steady_moreItems item bound [first]).bind fun items =>
      steady_close close items

/-- Parameters as they were listed, unless one stands twice. -/
def distinct (start : Option Position) (names : List String) : Parser (List String) :=
  match firstDuplicate? [] names with
  | some name => throw ⟨start, .duplicateParameter name⟩
  | none => pure names

theorem params_eq (bound : Nat) (ts : List Token) :
    params bound ts =
      (listUntil bound .rparen eatName >>= distinct ((words ts).head?.map (·.pos))) ts := by
  rw [params, peek_bind]
  rfl

theorem distinct_unique {names : List String} (unique : firstDuplicate? [] names = none)
    (start : Option Position) : distinct start names = pure names := by
  rw [distinct, unique]

theorem distinct_twice {names : List String} {name : String} (twice : firstDuplicate? [] names = some name)
    (start : Option Position) (ts : List Token) :
    distinct start names ts = .error ⟨start, .duplicateParameter name⟩ := by
  rw [distinct, twice]
  rfl

theorem exists_word_of_listed {bound : Nat} {close : Kind} {names : List String}
    (listed : listUntil bound close eatName ts = .ok (names, rest)) : ∃ t, (words ts).head? = some t := by
  obtain ⟨us, takes, _, vs, closing, _, _, _, rfl, _⟩ := reads_listUntil reads_eatName bound close listed
  rw [takes.words_eq]
  cases vs <;> exact ⟨_, rfl⟩

theorem mem_of_head?_words (ahead : (words ts).head? = some t) : t ∈ ts :=
  List.mem_of_mem_filter (List.mem_of_head? ahead)

theorem steady_params (bound : Nat) : Steady c n (params bound) := by
  intro ts short
  have outcome := steady_listUntil (c := c) steady_eatName bound .rparen short
  rw [params_eq]
  generalize ran : listUntil bound .rparen eatName ts = r at outcome
  cases outcome with
  | error fails =>
    rw [bind_of_error ran]
    refine .error (fails.map ?_)
    intro us s failed
    rw [params_eq, bind_of_error failed]
  | @ok names taken rest split again =>
    rw [bind_of_ok ran]
    cases twice : firstDuplicate? [] names with
    | none =>
      rw [distinct_unique twice]
      refine .ok split (again.map ?_ ?_)
      · intro us s failed
        rw [params_eq, bind_of_error failed]
      · intro us left listed
        rw [params_eq, bind_of_ok listed, distinct_unique twice]
    | some name =>
      obtain ⟨t, ahead⟩ := exists_word_of_listed ran
      rw [distinct_twice twice, ahead]
      refine .error (.behind (mem_of_head?_words ahead) rfl ?_)
      have full := again.full
      rw [← split] at full
      rw [params_eq, bind_of_ok full, distinct_twice twice, words_map, List.head?_map, ahead, Option.map_some,
        Option.map_some, c.pos]

/-! ### Looking at an arrow -/

theorem arrowAhead_append {first wantName : Bool} {us : List Token} (vs : List Token)
    (ahead : arrowAhead first wantName us = true) : arrowAhead first wantName (us ++ vs) = true := by
  induction us generalizing first wantName with
  | nil => cases ahead
  | cons t us ih =>
    rw [arrowAhead] at ahead
    rw [List.cons_append, arrowAhead]
    cases kind : t.kind <;> simp only [kind, Bool.and_eq_true] at ahead ⊢
    case comment => exact ih ahead
    case ident => exact ⟨ahead.1, ih ahead.2⟩
    case comma => exact ⟨ahead.1, ih ahead.2⟩
    case rparen =>
      refine ⟨ahead.1, ?_⟩
      have next := ahead.2
      rw [head?_skipComments] at next ⊢
      obtain ⟨u, arrow, same⟩ := any_kind_eq_true.mp next
      rw [words_append]
      exact any_kind_eq_true.mpr ⟨u, by rw [List.head?_append, arrow]; rfl, same⟩
    all_goals cases ahead

theorem arrowAhead_close {t : Token} {first wantName : Bool} {us : List Token} (close : t.kind = .rparen)
    (want : (first || !wantName) = true) (arrow : us.head?.any (·.kind = .arrow) = true) :
    arrowAhead first wantName (t :: us) = true := by
  obtain ⟨u, next, same⟩ := any_kind_eq_true.mp arrow
  cases us with
  | nil => cases next
  | cons v us =>
    obtain rfl := Option.some.inj next
    have word : isComment v = false := by simp [isComment, same]
    simp [arrowAhead, close, want, skipComments_cons_word word, same]

theorem arrowAhead_led {names us vs : List Token} {close : Token} (idents : ∀ t ∈ names, t.kind = .ident)
    (led : CommaLed (names.map ([·])) us) (closes : close.kind = .rparen)
    (arrow : vs.head?.any (·.kind = .arrow) = true) :
    arrowAhead false false (us ++ close :: vs) = true := by
  induction names generalizing us with
  | nil =>
    cases led
    exact arrowAhead_close closes rfl arrow
  | cons t names ih =>
    rw [List.map_cons] at led
    cases led with
    | cons comma isComma others =>
      obtain ⟨ident, idents⟩ := List.forall_mem_cons.mp idents
      simpa [arrowAhead, isComma, ident] using ih idents others

/-- Parameters with an arrow behind them are seen from their start. -/
theorem arrowAhead_of_listed {bound : Nat} {names : List String}
    (listed : listUntil bound .rparen eatName ts = .ok (names, rest))
    (arrow : (words rest).head?.any (·.kind = .arrow) = true) : arrowAhead true true ts = true := by
  obtain ⟨_, takes, parts, us, close, joined, reads, closes, rfl, _⟩ :=
    reads_listUntil reads_eatName bound .rparen listed
  obtain ⟨tokens, yields, _, idents⟩ := exists_names reads
  rw [yields] at joined
  rw [← arrowAhead_words, takes.words_eq, List.append_assoc, List.singleton_append]
  cases tokens with
  | nil =>
    cases joined
    exact arrowAhead_close closes rfl arrow
  | cons t tokens =>
    rw [List.map_cons] at joined
    cases joined with
    | cons led =>
      obtain ⟨ident, idents⟩ := List.forall_mem_cons.mp idents
      simpa [arrowAhead, ident] using arrowAhead_led idents led closes arrow

theorem eatName_of_ident (ahead : (words ts).head? = some t) (ident : t.kind = .ident) :
    eatName ts = .ok (t.text, (skipComments ts).tail) :=
  eat_bind ahead ident

/-- What stands next where an arrow is seen further on. -/
theorem arrowAhead_cases {first wantName : Bool} (ahead : arrowAhead first wantName ts = true) :
    ∃ t, (words ts).head? = some t ∧
      (t.kind = .rparen ∧ (first || !wantName) = true ∧
          (words (skipComments ts).tail).head?.any (·.kind = .arrow) = true ∨
        t.kind = .ident ∧ wantName = true ∧ arrowAhead false false (skipComments ts).tail = true ∨
        t.kind = .comma ∧ wantName = false ∧ arrowAhead false true (skipComments ts).tail = true) := by
  induction ts with
  | nil => cases ahead
  | cons t ts ih =>
    cases comment : isComment t with
    | true =>
      have kind : t.kind = .comment := by simpa [isComment] using comment
      rw [arrowAhead, kind] at ahead
      rw [words_cons_comment comment, skipComments_cons_comment comment]
      exact ih ahead
    | false =>
      rw [words_cons_word comment, skipComments_cons_word comment, List.tail_cons, ← head?_skipComments]
      refine ⟨t, rfl, ?_⟩
      rw [arrowAhead] at ahead
      cases kind : t.kind <;> simp_all [isComment]

/-- The names before an arrow that was seen are there to be listed, if the bound allows. -/
theorem moreItems_of_arrowAhead {bound : Nat} (found : List String)
    (ahead : arrowAhead false false ts = true) (short : ts.length ≤ bound) :
    ∃ names rest close, moreItems eatName bound found ts = .ok (names, rest) ∧
      (words rest).head? = some close ∧ close.kind = .rparen ∧
      (words (skipComments rest).tail).head?.any (·.kind = .arrow) = true := by
  induction bound generalizing ts found with
  | zero =>
    obtain rfl : ts = [] := List.length_eq_zero_iff.mp (by omega)
    cases ahead
  | succ bound ih =>
    obtain ⟨t, next, ⟨close, _, arrow⟩ | ⟨_, never, _⟩ | ⟨comma, _, more⟩⟩ := arrowAhead_cases ahead
    · refine ⟨found.reverse, ts, t, ?_, next, close, arrow⟩
      rw [moreItems, peekIs_bind, next]
      simp only [Option.any_some, close]
      rfl
    · cases never
    · obtain ⟨u, name, ⟨_, never, _⟩ | ⟨ident, _, more⟩ | ⟨_, never, _⟩⟩ := arrowAhead_cases more
      · cases never
      · have less := length_skip_tail_lt next
        have less' := length_skip_tail_lt name
        obtain ⟨names, rest, close, listed, closing⟩ := ih (u.text :: found) more (by omega)
        refine ⟨names, rest, close, ?_, closing⟩
        rw [moreItems, peekIs_bind, any_kind_eq_true.mpr ⟨t, next, comma⟩, if_pos rfl, advance_bind,
          bind_of_ok (eatName_of_ident name ident), listed]
      · cases never

theorem listed_of_arrowAhead {bound : Nat} (ahead : arrowAhead true true ts = true)
    (short : ts.length ≤ bound) :
    ∃ names rest u, listUntil bound .rparen eatName ts = .ok (names, rest) ∧
      (words rest).head? = some u ∧ u.kind = .arrow := by
  obtain ⟨t, next, ⟨close, _, arrow⟩ | ⟨ident, _, more⟩ | ⟨_, never, _⟩⟩ := arrowAhead_cases ahead
  · obtain ⟨u, behind, same⟩ := any_kind_eq_true.mp arrow
    refine ⟨[], (skipComments ts).tail, u, ?_, behind, same⟩
    rw [listUntil, peekIs_bind, any_kind_eq_true.mpr ⟨t, next, close⟩, if_pos rfl, pure_bind]
    exact eat_bind next close
  · have less := length_skip_tail_lt next
    obtain ⟨names, rest, close, listed, behind, closes, arrow⟩ :=
      moreItems_of_arrowAhead [t.text] more (less.le.trans short)
    obtain ⟨u, last, same⟩ := any_kind_eq_true.mp arrow
    refine ⟨names, (skipComments rest).tail, u, ?_, last, same⟩
    have other : (words ts).head?.any (·.kind = .rparen) = false := by simp [next, ident]
    rw [listUntil, peekIs_bind, other, if_neg (by decide), bind_of_ok (eatName_of_ident next ident),
      bind_of_ok listed]
    exact eat_bind behind closes
  · cases never

/-! ### Expressions -/

/-- The parsers for nested phrases have outcomes on inputs of up to `n` tokens. -/
structure Inner.Steady (inner : Inner) (c : Respelling) (n : Nat) : Prop where
  bound : n ≤ inner.bound
  expr : Syntax.Steady c n inner.expr
  block : ∀ ending, Syntax.Steady c n (inner.block ending)

variable {inner : Inner}

theorem steady_exprs (steady : inner.Steady c n) (close : Kind) :
    Steady c n (listUntil inner.bound close inner.expr) :=
  steady_listUntil steady.expr inner.bound close

/-- The body of a function, behind its arrow. -/
def lambdaTail (inner : Inner) (pos : Position) : Parser (List Command) := do
  if ← peekIs .lbrace then
    advance
    let body ← inner.block .brace
    let _ ← eat .rbrace
    return body
  else
    return [.result pos (← inner.expr)]

theorem lambdaBody_eq (inner : Inner) (pos : Position) :
    lambdaBody inner pos = eat .arrow >>= fun _ => lambdaTail inner pos := rfl

theorem steady_lambdaTail (steady : inner.Steady c n) (pos : Position) :
    Steady c n (lambdaTail inner pos) := by
  refine .optional (A := fun _ => inner.block .brace >>= fun body => eat .rbrace >>= fun _ => pure body)
    (Nat.le_succ n) (fun _ _ _ _ => rfl) (fun _ => ?_) ?_
  · exact (steady.block .brace).bind fun body => steady_close .rbrace body
  · exact steady.expr.bind fun e => steady_pure _

/-- The value of a number's token. -/
def numberOf (negative : Bool) (t : Token) : Parser Float :=
  match Decimal.read? t.text with
  | some x => pure (if negative then -x else x)
  | none => throw ⟨some t.pos, .invalidNumber t.text⟩

theorem number_eq (negative : Bool) : number negative = eat .number >>= numberOf negative := rfl

/-- A number's token that has been taken gives a number, or a fault at its place. -/
theorem Outcome.number {negative : Bool} {k : Float → Parser α} (member : t ∈ ts) (split : ts = front ++ rest)
    (run : Continues c done p front rest (numberOf negative t >>= k))
    (next : ∀ x, Outcome c done (k x) rest (k x rest)) :
    Outcome c done p ts ((numberOf negative t >>= k) rest) := by
  cases value : Decimal.read? t.text with
  | some x =>
    have same : numberOf negative t = pure (if negative then -x else x) := by rw [numberOf, value]
    rw [same, pure_bind] at run ⊢
    rw [split]
    exact .follow run (next _)
  | none =>
    have refused (us : List Token) :
        (numberOf negative t >>= k) us = .error ⟨some t.pos, .invalidNumber t.text⟩ := by
      rw [numberOf, value]
      rfl
    rw [refused]
    exact .error (.behind member rfl (by rw [split, run.full, refused]))

theorem steady_number (negative : Bool) {k : Float → Parser α} (next : ∀ x, Steady c n (k x)) :
    Steady c n (number negative >>= k) := by
  intro ts short
  rw [number_eq, bind_assoc]
  refine .eat ?_
  rintro front rest t rfl leads same
  have run : Continues c false (eat .number >>= fun t => numberOf negative t >>= k) front rest
      (numberOf negative (c.token t) >>= k) := continues_eat leads same
  rw [c.same (by rw [same]; rfl)] at run
  have less := leads.length_lt rest
  exact .number (leads.mem rest) rfl run fun x => next x (by omega)

theorem steady_entry (steady : inner.Steady c n) : Steady c n (entry inner) := by
  refine .peek rfl rfl ?_
  intro t ts short ahead
  dsimp only
  rw [c.kind]
  split
  · next key =>
    have same : c.token t = t := by
      rcases key with ident | string
      · exact c.same (by rw [ident]; rfl)
      · exact c.same (by rw [string]; rfl)
    rw [same]
    refine .advance ahead (Steady.eat (Nat.le_succ n) (fun _ _ => rfl) (fun _ => ?_) ?_)
    · exact steady.expr.bind fun e => steady_pure (t.text, e)
    · exact (length_skip_tail_le ts).trans short
  · exact outcome_stuck .expectedKey ahead (by simp [ParseFault.found?])

theorem steady_moreGroups (steady : inner.Steady c n) (bound : Nat) (found : List (List Expr)) :
    Steady c n (moreGroups inner bound found) := by
  induction bound generalizing found with
  | zero => exact steady_pure _
  | succ bound ih =>
    rw [moreGroups]
    exact .optional
      (A := fun _ => listUntil inner.bound .rparen inner.expr >>= fun args =>
        moreGroups inner bound (args :: found)) (Nat.le_succ n)
      (fun _ _ _ _ => rfl) (fun _ => (steady_exprs steady .rparen).bind fun args => ih (args :: found))
      (steady_pure _)

/-- The argument lists of a call, behind the first parenthesis. -/
def calleeTail (inner : Inner) (name : String) : Parser (String × List Expr × List (List Expr)) := do
  let args ← listUntil inner.bound .rparen inner.expr
  let more ← moreGroups inner inner.bound []
  return (name, args, more)

theorem callee_bind {k : String × List Expr × List (List Expr) → Parser α} {t u : Token}
    (ahead : (words ts).head? = some t) (ident : t.kind = .ident)
    (behind : (words (skipComments ts).tail).head? = some u) (opens : u.kind = .lparen) :
    (callee inner >>= k) ts = (calleeTail inner t.text >>= k) (skipComments (skipComments ts).tail).tail := by
  have run : callee inner ts = calleeTail inner t.text (skipComments (skipComments ts).tail).tail := by
    rw [callee, bind_of_ok (eatName_of_ident ahead ident), eat_bind behind opens]
    rfl
  change (callee inner ts >>= fun r => k r.1 r.2) = _
  rw [run]
  rfl

theorem steady_calleeTail (steady : inner.Steady c n) (name : String) :
    Steady c n (calleeTail inner name) :=
  (steady_exprs steady .rparen).bind fun args => (steady_moreGroups steady inner.bound []).bind fun more =>
    steady_pure (name, args, more)

theorem outcome_named (steady : inner.Steady c n) (pos : Position) (short : ts.length ≤ n + 1)
    (ahead : (words ts).head? = some t) (ident : t.kind = .ident) :
    Outcome c false (named inner pos) ts (named inner pos ts) := by
  have text : c.token t = t := c.same (by rw [ident]; rfl)
  rw [named]
  refine .second (A := fun t => lambdaTail inner pos >>= fun body => pure (.lambda pos [t.text] body)) ahead
    ?_ (by rw [text]) ?_ ?_
  · intro t' u us same arrow first second
    dsimp only
    rw [if_pos rfl, bind_of_ok (eatName_of_ident first (same.trans ident)), lambdaBody_eq, bind_assoc,
      eat_bind second arrow]
  · intro rest less
    exact (steady_lambdaTail steady pos).bind (fun body => steady_pure _) (by omega)
  · refine .second (A := fun t => calleeTail inner t.text >>= fun found =>
      pure (.call pos found.1 found.2.1 found.2.2)) ahead ?_ (by rw [text]) ?_ ?_
    · intro t' u us same opens first second
      exact callee_bind first (same.trans ident) second opens
    · intro rest less
      exact (steady_calleeTail steady _).bind (fun found => steady_pure _) (by omega)
    · exact steady_eatName.bind (fun name => steady_pure _) short

theorem parenthesised_lambda {pos : Position} {names : List String} {u : Token}
    (ahead : (words ts).head? = some t) (opens : t.kind = .lparen)
    (listed : listUntil inner.bound .rparen eatName (skipComments ts).tail = .ok (names, rest))
    (next : (words rest).head? = some u) (arrow : u.kind = .arrow) :
    parenthesised inner pos ts =
      (distinct ((words (skipComments ts).tail).head?.map (·.pos)) names >>= fun names =>
        lambdaBody inner pos >>= fun body => pure (.lambda pos names body)) rest := by
  have paren : (skipComments ts).head?.any (·.kind = .lparen) = true := by
    rw [head?_skipComments]
    exact any_kind_eq_true.mpr ⟨t, ahead, opens⟩
  have seen := arrowAhead_of_listed listed (any_kind_eq_true.mpr ⟨u, next, arrow⟩)
  rw [parenthesised, lambdaAhead_bind, paren, seen]
  change (params inner.bound (skipComments ts).tail >>= fun r =>
    (lambdaBody inner pos >>= fun body => pure (Expr.lambda pos r.1 body)) r.2) = _
  rw [params_eq, bind_of_ok listed]
  rfl

/-- With an arrow ahead, the parameters and the arrow are taken, whatever is kept behind it. -/
theorem outcome_lambda (steady : inner.Steady c n) (pos : Position) (short : ts.length ≤ n + 1)
    (ahead : (words ts).head? = some t) (opens : t.kind = .lparen)
    (arrow : arrowAhead true true (skipComments ts).tail = true) :
    Outcome c false (parenthesised inner pos) ts (parenthesised inner pos ts) := by
  obtain ⟨front, rest, leads, rfl⟩ := exists_leads ahead
  have less := leads.length_lt rest
  have within : rest.length ≤ n := by omega
  rw [leads.skip] at arrow
  obtain ⟨names, rest', u, listed, next, isArrow⟩ :=
    listed_of_arrowAhead arrow (within.trans steady.bound)
  have outcome := steady_listUntil (c := c) steady_eatName inner.bound .rparen within
  rw [listed] at outcome
  cases outcome with
  | @ok _ taken _ split again =>
    obtain ⟨back, last, leads', rfl⟩ := exists_leads next
    -- The run on all that may be kept behind the arrow, in the other spelling.
    have run {kept : List Token} (pre : kept <+: last) :
        parenthesised inner pos ((front ++ (taken ++ (back ++ kept))).map c.token) =
          (distinct ((words ((taken ++ (back ++ kept)).map c.token)).head?.map (·.pos)) names >>= fun names =>
            lambdaBody inner pos >>= fun body => pure (.lambda pos names body)) ((back ++ kept).map c.token) := by
      obtain ⟨post, rfl⟩ := pre
      obtain ⟨head, tail⟩ := leads.run c (taken ++ (back ++ kept))
      have some : words (back ++ kept) ≠ [] := by simp [leads'.words_append]
      have listed' := again.with_word (List.append_assoc ..).symm some
      rw [← tail] at listed' ⊢
      exact parenthesised_lambda head ((c.kind t).trans opens) listed' (leads'.run c kept).1
        ((c.kind u).trans isArrow)
    rw [parenthesised_lambda ahead opens (by rw [leads.skip]; exact listed) next isArrow, leads.skip]
    cases twice : firstDuplicate? [] names with
    | none =>
      rw [distinct_unique twice, pure_bind, lambdaBody_eq, bind_assoc, eat_bind next isArrow, leads'.skip]
      have whole : front ++ rest = (front ++ taken ++ back) ++ last := by simp [split]
      have less' : last.length ≤ rest.length := by simp [split]; omega
      rw [whole]
      refine .follow (.of_eq ?_) ((steady_lambdaTail steady pos).bind (fun _ => steady_pure _) (less'.trans within))
      intro kept pre
      obtain ⟨head, tail⟩ := leads'.run c kept
      rw [List.append_assoc, List.append_assoc, run pre, distinct_unique twice, pure_bind, lambdaBody_eq, bind_assoc,
        eat_bind head ((c.kind u).trans isArrow), tail]
    | some name =>
      obtain ⟨v, start⟩ := exists_word_of_listed listed
      rw [bind_of_error (distinct_twice twice _ _), start]
      refine .error (.behind (List.mem_append_right front (mem_of_head?_words start)) rfl ?_)
      rw [split, run (List.prefix_refl last), bind_of_error (distinct_twice twice _ _), words_map, List.head?_map,
        ← split, start, Option.map_some, Option.map_some, c.pos]

theorem skip_tail_cut (pre : kept <+: ts) : (skipComments kept).tail <+: (skipComments ts).tail := by
  obtain ⟨post, rfl⟩ := pre
  cases ahead : (words kept).head? with
  | none =>
    rw [← head?_skipComments, List.head?_eq_none_iff] at ahead
    rw [ahead]
    exact List.nil_prefix
  | some t =>
    obtain ⟨front, rest, leads, rfl⟩ := exists_leads ahead
    rw [List.append_assoc, leads.skip, leads.skip]
    exact List.prefix_append rest post

theorem outcome_parenthesised (steady : inner.Steady c n) (pos : Position) (short : ts.length ≤ n + 1)
    (ahead : (words ts).head? = some t) (opens : t.kind = .lparen) :
    Outcome c false (parenthesised inner pos) ts (parenthesised inner pos ts) := by
  cases arrow : arrowAhead true true (skipComments ts).tail with
  | true => exact outcome_lambda steady pos short ahead opens arrow
  | false =>
    rw [parenthesised, lambdaAhead_bind, arrow, Bool.and_false]
    have less := length_skip_tail_lt ahead
    have nested : Steady c n (inner.expr >>= fun e => eat .rparen >>= fun _ => pure e) :=
      steady.expr.bind fun e => steady_close .rparen e
    refine .alike ?_ (Outcome.advance ahead (nested (by omega)))
    intro kept pre
    have unseen : arrowAhead true true (skipComments (kept.map c.token)).tail = false := by
      rw [skipComments_map, ← List.map_tail, arrowAhead_map]
      obtain ⟨post, split⟩ := skip_tail_cut pre
      by_contra seen
      rw [← split, arrowAhead_append post (by simpa using seen)] at arrow
      cases arrow
    rw [lambdaAhead_bind, unseen, Bool.and_false]
    rfl

theorem outcome_signedNumber (ahead : (words ts).head? = some t) (other : t.kind.isKeyword = false) :
    Outcome c false (signedNumber t) ts (signedNumber t ts) := by
  rw [signedNumber]
  refine .second_of (A := fun _ u => numberOf (t.kind = .minus) u >>= fun x => pure (.number t.pos x))
    ahead ?_ ?_ ?_
  · intro t' u us _ number first second
    rw [if_pos rfl, advance_bind, number_eq, bind_assoc, eat_bind second number]
  · intro front rest u split _ member number run
    rw [c.same (by rw [number]; rfl)] at run
    exact .number member split run fun x => steady_pure _ (Nat.le_refl _)
  · have refused : Outcome c false (stuck (ParseFault.finding (c.token t).text (.unexpected t.text)) : Parser Expr)
        ts (stuck (.unexpected t.text) ts) := outcome_stuck _ ahead (by simp [ParseFault.found?])
    rw [c.same other] at refused
    exact refused

theorem steady_atom (steady : inner.Steady c n) : Steady c (n + 1) (atom inner) := by
  refine .peek rfl rfl ?_
  intro t ts short ahead
  have less := length_skip_tail_lt ahead
  have within : (skipComments ts).tail.length ≤ n := by omega
  have refused : Outcome c false (stuck (.unexpected (c.token t).text) : Parser Expr) ts
      (stuck (.unexpected t.text) ts) := outcome_stuck (.unexpected t.text) ahead (by simp [ParseFault.found?])
  dsimp only
  rw [c.kind, c.pos]
  cases kind : t.kind <;> dsimp only
  case number => exact steady_number false (fun x => steady_pure _) short
  case minus =>
    have same : t.kind.isKeyword = false := by rw [kind]; rfl
    rw [c.same same]
    exact outcome_signedNumber ahead same
  case plus =>
    have same : t.kind.isKeyword = false := by rw [kind]; rfl
    rw [c.same same]
    exact outcome_signedNumber ahead same
  case trueWord => exact .advance ahead (steady_pure _ within)
  case falseWord => exact .advance ahead (steady_pure _ within)
  case nullWord => exact .advance ahead (steady_pure _ within)
  case string =>
    rw [c.same (by rw [kind]; rfl)]
    exact .advance ahead (steady_pure _ within)
  case lbracket => exact .advance ahead ((steady_exprs steady .rbracket).bind (fun es => steady_pure _) within)
  case lbrace =>
    exact .advance ahead
      ((steady_listUntil (steady_entry steady) inner.bound .rbrace).bind (fun es => steady_pure _) within)
  case lparen => exact outcome_parenthesised steady t.pos short ahead kind
  case ident => exact outcome_named steady t.pos short ahead kind
  all_goals exact refused

theorem steady_moreIndexes (steady : inner.Steady c n) (bound : Nat) (base : Expr) :
    Steady c (n + 1) (moreIndexes inner bound base) := by
  induction bound generalizing base with
  | zero => exact steady_pure _
  | succ bound ih =>
    rw [moreIndexes]
    refine .optional (A := fun pos => inner.expr >>= fun key => eat .rbracket >>= fun _ =>
      moreIndexes inner bound (.index pos base key)) (Nat.le_refl _) ?_ (fun pos => ?_) (steady_pure base)
    · intro t us ahead same
      exact eat_bind ahead same
    · exact steady.expr.bind fun key => .eat (Nat.le_succ n) (fun _ _ => rfl) fun _ =>
        (ih (.index pos base key)).mono (Nat.le_succ n)

theorem steady_indexed (steady : inner.Steady c n) : Steady c (n + 1) (indexed inner) :=
  (steady_atom steady).bind fun base => steady_moreIndexes steady inner.bound base

theorem steady_power (steady : inner.Steady c n) : Steady c (n + 1) (power inner) := by
  refine (steady_indexed steady).bind fun base => ?_
  exact .optional (A := fun _ => indexed inner >>= fun e => pure (.binary base.pos .pow base e)) (Nat.le_refl _)
    (fun _ _ _ _ => rfl)
    (fun _ => ((steady_indexed steady).mono (Nat.le_succ n)).bind fun e => steady_pure _) (steady_pure base)

/-- What follows an operand: another one behind an operator, or nothing. -/
def nextOperand (operator : Kind → Option Operator) (operand : Parser Expr) (bound : Nat) (left : Expr) :
    Option Operator → Parser Expr
  | some op => do
    advance
    let right ← operand
    moreOperands operator operand bound (.binary left.pos op left right)
  | none => return left

theorem steady_moreOperands {operand : Parser Expr} (steady : Steady c n operand)
    (operator : Kind → Option Operator) (bound : Nat) (left : Expr) :
    Steady c n (moreOperands operator operand bound left) := by
  induction bound generalizing left with
  | zero => exact steady_pure _
  | succ bound ih =>
    exact .choice (g := operator) (k := nextOperand operator operand bound left)
      (A := fun op _ => operand >>= fun right => moreOperands operator operand bound (.binary left.pos op left right))
      (Nat.le_succ n) (fun _ _ _ _ _ => rfl) (fun op _ => steady.bind fun right => ih _) (steady_pure left)

theorem steady_chain {operand : Parser Expr} (steady : Steady c n operand) (bound : Nat)
    (operator : Kind → Option Operator) : Steady c n (chain bound operator operand) :=
  steady.bind fun first => steady_moreOperands steady operator bound first

theorem steady_logic (steady : inner.Steady c n) : Steady c (n + 1) (logic inner) :=
  steady_chain (steady_chain (steady_chain (steady_chain (steady_power steady) _ _) _ _) _ _) _ _

/-! ### Commands -/

theorem steady_placeIndexes (steady : inner.Steady c n) (bound : Nat) (found : List Expr) :
    Steady c n (placeIndexes inner bound found) := by
  induction bound generalizing found with
  | zero => exact steady_pure _
  | succ bound ih =>
    rw [placeIndexes]
    refine .optional (A := fun _ => inner.expr >>= fun key => eat .rbracket >>= fun _ =>
      placeIndexes inner bound (key :: found)) (Nat.le_succ n) (fun _ _ _ _ => rfl) (fun _ => ?_) (steady_pure _)
    exact steady.expr.bind fun key => .eat (Nat.le_succ n) (fun _ _ => rfl) fun _ => ih (key :: found)

theorem steady_place (steady : inner.Steady c n) : Steady c n (place inner) :=
  steady_eatName.bind fun name => (steady_placeIndexes steady inner.bound []).bind fun keys =>
    steady_pure (name, keys)

theorem steady_assignment (steady : inner.Steady c n) : Steady c (n + 1) (assignment inner) := by
  refine .eat (Nat.le_refl _) (fun _ _ => rfl) fun _ => ?_
  refine (steady_place steady).bind fun found => ?_
  refine .eat (Nat.le_succ n) (fun _ _ => rfl) fun _ => ?_
  exact steady.expr.bind fun value => steady_pure (found.1, found.2, value)

theorem steady_definition (steady : inner.Steady c n) : Steady c (n + 1) (definition inner) := by
  refine .eat (Nat.le_refl _) (fun _ _ => rfl) fun _ => ?_
  refine steady_eatName.bind fun name => ?_
  refine .eat (Nat.le_succ n) (fun _ _ => rfl) fun _ => ?_
  refine (steady_params inner.bound).bind fun names => ?_
  exact (steady.block .endWord).bind fun body => steady_close .endWord (name, names, body)

theorem steady_condition (steady : inner.Steady c n) : Steady c n (condition inner) :=
  .eat (Nat.le_succ n) (fun _ _ => rfl) fun _ => steady.expr.bind fun e => steady_close .rparen e

theorem steady_otherwise (steady : inner.Steady c n) : Steady c n (otherwise inner) := by
  rw [otherwise]
  exact .optional (A := fun _ => inner.block .endWord >>= fun body => eat .endWord >>= fun _ => pure body)
    (Nat.le_succ n) (fun _ _ _ _ => rfl)
    (fun _ => (steady.block .endWord).bind fun body => steady_close .endWord body) (steady_close .endWord [])

theorem outcome_command (steady : inner.Steady c n) (short : ts.length ≤ n + 1)
    (ahead : (words ts).head? = some t) :
    Outcome c false (command inner (c.token t)) ts (command inner t ts) := by
  have less := length_skip_tail_lt ahead
  have within : (skipComments ts).tail.length ≤ n := by omega
  have refused : Outcome c false (stuck (.expectedCommand (c.token t).text) : Parser Command) ts
      (stuck (.expectedCommand t.text) ts) :=
    outcome_stuck (.expectedCommand t.text) ahead (by simp [ParseFault.found?])
  rw [command, command, c.kind, c.pos]
  cases kind : t.kind <;> dsimp only
  case letWord =>
    refine (steady_assignment steady).bind (fun found => ?_) short
    exact steady_close .semicolon _
  case delWord =>
    have first : Outcome c false (advance >>= fun _ => place inner) ts ((advance >>= fun _ => place inner) ts) :=
      .advance ahead (steady_place steady within)
    rw [← bind_assoc]
    refine first.bind_of ?_
    rintro ⟨name, keys⟩ taken rest split _ again
    cases keys with
    | nil =>
      have full := again.full
      rw [← split] at full
      exact .error (.behind (mem_of_head?_words ahead) rfl (bind_of_ok full))
    | cons key keys =>
      rw [split]
      exact .follow again.bind (steady_close .semicolon _ (Nat.le_refl _))
  case returnWord =>
    exact .advance ahead (steady.expr.bind (fun value => steady_close .semicolon _) within)
  case ifWord =>
    refine .advance ahead ((steady_condition steady).bind (fun test => ?_) within)
    refine (steady.block .elseWord).bind fun yes => ?_
    exact (steady_otherwise steady).bind fun no => steady_pure _
  case whileWord =>
    refine .advance ahead ((steady_condition steady).bind (fun test => ?_) within)
    exact (steady.block .endWord).bind fun body => steady_close .endWord _
  case defWord => exact (steady_definition steady).bind (fun found => steady_pure _) short
  case ident =>
    have same : c.token t = t := c.same (by rw [kind]; rfl)
    rw [same] at refused ⊢
    refine .second (A := fun t' => calleeTail inner t'.text >>= fun found => eat .semicolon >>= fun _ =>
      pure (Command.call t.pos found.1 found.2.1 found.2.2)) ahead ?_ (by rw [same]) ?_ refused
    · intro t' u us same opens first second
      exact callee_bind first (same.trans kind) second opens
    · intro rest less
      exact (steady_calleeTail steady t.text).bind (fun found => steady_close .semicolon _) (by omega)
  all_goals exact refused

/-! ### Remarks -/

/-- A loop that takes a remark goes on with the rest. -/
theorem Outcome.remark (comment : isComment t = true) (run : ∀ us, p (t :: us) = q us)
    (next : Outcome c done q ts r) : Outcome c done p (t :: ts) r := by
  have same : c.token t = t := by
    refine c.same ?_
    have kind : t.kind = .comment := by simpa [isComment] using comment
    rw [kind]
    rfl
  have taken : Continues c done p [t] ts q := .of_eq fun kept _ => by
    rw [List.singleton_append, List.map_cons, same, run]
  exact .follow taken next

/-- A loop that stands at a word goes on as it does for that word. -/
theorem Continues.at_first (word : isComment t = false)
    (same : ∀ us, p (c.token t :: us) = q (c.token t :: us)) (short : Short done (p [])) :
    Continues c done p [] (t :: ts) q := by
  intro kept post split
  cases kept with
  | nil =>
    obtain rfl : t :: ts = post := split
    exact .inr ⟨rfl, by simp [words_cons_word word], short⟩
  | cons u kept =>
    obtain ⟨rfl, _⟩ := List.cons.inj split
    exact .inl (same _)

theorem steady_moreCommands (steady : inner.Steady c n) (ending : Ending) (bound : Nat) (found : List Command) :
    Steady c (n + 1) (moreCommands inner ending bound found) := by
  induction bound generalizing found with
  | zero => exact steady_pure _
  | succ bound ih =>
    have run {t : Token} (word : isComment t = false) (us : List Token) :
        moreCommands inner ending (bound + 1) found (t :: us) =
          (if ending.closes t.kind then pure found.reverse
            else command inner t >>= fun next => moreCommands inner ending bound (next :: found)) (t :: us) := by
      rw [moreCommands, bind_of_ok (remark?_of_word word us)]
      dsimp only
      rw [peek_bind, words_cons_word word]
      rfl
    intro ts short
    cases ts with
    | nil => exact .error (.ended rfl rfl)
    | cons t ts =>
      cases comment : isComment t with
      | true =>
        rw [moreCommands, bind_of_ok (remark?_of_comment comment ts)]
        refine .remark comment ?_ (ih _ (Nat.le_of_succ_le short))
        intro us
        rw [bind_of_ok (remark?_of_comment comment us)]
      | false =>
        have word : isComment (c.token t) = false := (c.isComment t).trans comment
        have ahead : (words (t :: ts)).head? = some t := by rw [words_cons_word comment]; rfl
        have next := (outcome_command steady short ahead).bind fun next rest less =>
          ih (next :: found) (less.trans short)
        rw [run comment]
        refine .as (.at_first comment (run word) (.inl ⟨_, rfl⟩)) ?_
        rw [c.kind]
        split
        · exact steady_pure _ short
        · exact next

theorem steady_inner (c : Respelling) (n : Nat) : (Syntax.inner n).Steady c n := by
  induction n with
  | zero =>
    have none {ts : List Token} (short : ts.length ≤ 0) : words ts = [] := by
      rw [List.length_eq_zero_iff.mp (Nat.le_zero.mp short)]
      rfl
    exact ⟨Nat.le_refl 0, fun _ short => outcome_stuck_end (none short) rfl,
      fun _ _ short => outcome_stuck_end (none short) rfl⟩
  | succ n ih =>
    have deeper : Inner.Steady ⟨n + 1, expr n, block n⟩ c n := ⟨Nat.le_succ n, ih.expr, ih.block⟩
    exact ⟨Nat.le_refl _, steady_logic deeper, fun ending => steady_moreCommands deeper ending _ _⟩

/-! ### Programs -/

theorem outcome_item (steady : inner.Steady c n) (short : ts.length ≤ n + 1)
    (ahead : (words ts).head? = some t) : Outcome c false (item inner (c.token t)) ts (item inner t ts) := by
  have less := length_skip_tail_lt ahead
  have within : (skipComments ts).tail.length ≤ n := by omega
  rw [item, item, c.kind, c.pos]
  cases t.kind <;> dsimp only
  case constWord =>
    refine .advance ahead (steady_eatName.bind (fun name => ?_) within)
    refine .eat (Nat.le_succ n) (fun _ _ => rfl) fun _ => ?_
    exact steady.expr.bind fun value => steady_close .semicolon _
  case letWord => exact (steady_assignment steady).bind (fun found => steady_close .semicolon _) short
  case defWord => exact (steady_definition steady).bind (fun found => steady_pure _) short
  all_goals exact outcome_stuck (.expectedItem t.text) ahead (by simp [ParseFault.found?])

/-- Between items the input may also end. -/
theorem outcome_moreProgram (steady : inner.Steady c n) (bound : Nat) (found : List Item)
    (short : ts.length ≤ n + 1) :
    Outcome c true (moreProgram inner bound found) ts (moreProgram inner bound found ts) := by
  induction bound generalizing found ts with
  | zero => exact .ok (List.nil_append ts).symm (.of_eq fun _ _ => rfl)
  | succ bound ih =>
    have run {t : Token} (word : isComment t = false) (us : List Token) :
        moreProgram inner (bound + 1) found (t :: us) =
          (item inner t >>= fun next => moreProgram inner bound (next :: found)) (t :: us) := by
      rw [moreProgram, bind_of_ok (remark?_of_word word us)]
      dsimp only
      rw [peek_bind, words_cons_word word]
      rfl
    cases ts with
    | nil =>
      refine .ok (List.nil_append []).symm (.of_eq ?_)
      intro kept pre
      rw [List.prefix_nil.mp pre]
      rfl
    | cons t ts =>
      cases comment : isComment t with
      | true =>
        rw [moreProgram, bind_of_ok (remark?_of_comment comment ts)]
        refine .remark comment ?_ (ih _ (Nat.le_of_succ_le short))
        intro us
        rw [bind_of_ok (remark?_of_comment comment us)]
      | false =>
        have word : isComment (c.token t) = false := (c.isComment t).trans comment
        have ahead : (words (t :: ts)).head? = some t := by rw [words_cons_word comment]; rfl
        rw [run comment]
        refine .as (.at_first comment (run word) (.inr ⟨rfl, _, rfl⟩)) ?_
        exact (outcome_item steady short ahead).bind fun next rest less => ih (next :: found) (less.trans short)

/-- The parser of all items, with bounds `n`. -/
def wholeProgram (n : Nat) : Parser (List Item) := moreProgram (Syntax.inner n) n []

theorem parse_of_ok {items : List Item} (ran : wholeProgram (ts.length + 1) ts = .ok (items, rest)) :
    parse ts = .ok ⟨items⟩ := by
  rw [wholeProgram] at ran
  simp only [parse, ran]

theorem parse_of_error {s : Stuck} (failed : wholeProgram (ts.length + 1) ts = .error s) :
    parse ts = .error (s.locate ts) := by
  rw [wholeProgram] at failed
  simp only [parse, failed]

theorem ends_wholeProgram {n m : Nat} (short : ts.length < n) (short' : ts.length < m) :
    Ends viewItems n m (wholeProgram n ts) (wholeProgram m ts) :=
  ends_moreProgram (alike_inner n m) ⟨rfl, short, short'⟩

theorem outcome_wholeProgram (c : Respelling) (ts : List Token) :
    Outcome c true (wholeProgram (ts.length + 1)) ts (wholeProgram (ts.length + 1) ts) :=
  outcome_moreProgram (steady_inner c _) _ [] (by omega)

end RetroScript.Syntax
