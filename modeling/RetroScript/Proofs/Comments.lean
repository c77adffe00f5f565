import RetroScript.Proofs.ParserSoundness

/-!
# Comments do not matter to the parser

Two lists of tokens with the same words differ in their comments only. `parse_ignores_comments` says
that both are programs or neither is, and the same programs but for remarks.

Two runs of the parser are compared step by step. Comments change the length of the input, and with it
the bounds of the two runs, so the comparison also says that no bound is ever met: an input stays
shorter than the bound, because every nested phrase and every round of a loop takes a token.
-/
namespace RetroScript.Syntax

open Token (Kind)

/-- Inputs with the same words, shorter than `n` and `m`. -/
structure Twins (n m : Nat) (ts us : List Token) : Prop where
  words : words ts = words us
  short : ts.length < n
  short' : us.length < m

/-- Two parsers have stopped with the same fault, or with results that `f` does not tell apart and with
twins left to read. -/
inductive Ends {α γ : Type} (f : α → γ) (n m : Nat) :
    Except Stuck (α × List Token) → Except Stuck (α × List Token) → Prop
  | ok {x y : α} {ts us : List Token} (same : f x = f y) (twins : Twins n m ts us) :
      Ends f n m (.ok (x, ts)) (.ok (y, us))
  | error (s : Stuck) : Ends f n m (.error s) (.error s)

variable {α β γ δ : Type} {n m n' m' : Nat} {ts us : List Token} {f : α → γ} {g : β → δ}

theorem Twins.mono (twins : Twins n m ts us) (le : n ≤ n') (le' : m ≤ m') : Twins n' m' ts us :=
  ⟨twins.words, twins.short.trans_le le, twins.short'.trans_le le'⟩

theorem Ends.mono {r r' : Except Stuck (α × List Token)} (ends : Ends f n m r r') (le : n ≤ n')
    (le' : m ≤ m') : Ends f n' m' r r' := by
  cases ends with
  | ok same twins => exact .ok same (twins.mono le le')
  | error s => exact .error s

theorem Ends.bind {p q : Parser α} {k l : α → Parser β} (first : Ends f n m (p ts) (q us))
    (next : ∀ {x y ts' us'}, f x = f y → Twins n m ts' us' → Ends g n' m' (k x ts') (l y us')) :
    Ends g n' m' ((p >>= k) ts) ((q >>= l) us) := by
  change Ends g n' m' (p ts >>= fun r => k r.1 r.2) (q us >>= fun r => l r.1 r.2)
  generalize p ts = r at first ⊢
  generalize q us = r' at first ⊢
  cases first with
  | ok same twins => exact next same twins
  | error s => exact .error s

theorem ends_pure {x y : α} (same : f x = f y) (twins : Twins n m ts us) :
    Ends f n m ((pure x : Parser α) ts) ((pure y : Parser α) us) :=
  .ok same twins

theorem ends_stuck (fault : ParseFault) (same : words ts = words us) :
    Ends f n m (stuck fault ts) (stuck fault us) := by
  rw [stuck, peek_bind, peek_bind, same]
  exact .error _

/-! ### Taking tokens -/

/-- An input within bounds has bounds to spare. -/
theorem Twins.pos (twins : Twins n m ts us) : ∃ n' m', n = n' + 1 ∧ m = m' + 1 := by
  have := twins.short
  have := twins.short'
  exact ⟨n - 1, m - 1, by omega, by omega⟩

theorem length_skip_tail_le (ts : List Token) : (skipComments ts).tail.length ≤ ts.length := by
  have := (List.dropWhile_sublist isComment (l := ts)).length_le
  rw [skipComments, List.length_tail]
  omega

theorem length_skip_tail_lt {ts : List Token} {t : Token} (ahead : (words ts).head? = some t) :
    (skipComments ts).tail.length < ts.length :=
  (takes_skip ahead).length_lt (List.cons_ne_nil _ _)

theorem Twins.skip (twins : Twins n m ts us) : Twins n m (skipComments ts).tail (skipComments us).tail where
  words := by rw [words_skipComments_tail, words_skipComments_tail, twins.words]
  short := (length_skip_tail_le ts).trans_lt twins.short
  short' := (length_skip_tail_le us).trans_lt twins.short'

theorem Twins.advance (twins : Twins (n + 1) (m + 1) ts us) {t : Token}
    (ahead : (Syntax.words ts).head? = some t) :
    Twins n m (skipComments ts).tail (skipComments us).tail := by
  have left := length_skip_tail_lt ahead
  have right := length_skip_tail_lt (twins.words ▸ ahead)
  have := twins.short
  have := twins.short'
  exact ⟨twins.skip.words, by omega, by omega⟩

theorem ends_eat (kind : Kind) (twins : Twins (n + 1) (m + 1) ts us) :
    Ends id n m (eat kind ts) (eat kind us) := by
  rw [eat, peek_bind, peek_bind, ← twins.words]
  cases ahead : (words ts).head? with
  | none => exact ends_stuck _ twins.words
  | some t =>
    dsimp only
    split
    · exact .ok rfl (twins.advance ahead)
    · exact ends_stuck _ twins.words

theorem ends_eatName (twins : Twins (n + 1) (m + 1) ts us) : Ends id n m (eatName ts) (eatName us) := by
  rw [eatName]
  refine (ends_eat .ident twins).bind ?_
  rintro t _ _ _ rfl twins
  exact .ok rfl twins

/-- The parsers do alike on twins within the bounds, and may take nothing. -/
def Alike (f : α → γ) (n m : Nat) (p q : Parser α) : Prop :=
  ∀ ⦃n' m' ts us⦄, n' ≤ n → m' ≤ m → Twins n' m' ts us → Ends f n' m' (p ts) (q us)

/-- The parsers do alike on twins one longer than the bounds, and take a token. -/
def Bites (f : α → γ) (n m : Nat) (p q : Parser α) : Prop :=
  ∀ ⦃n' m' ts us⦄, n' ≤ n → m' ≤ m → Twins (n' + 1) (m' + 1) ts us → Ends f n' m' (p ts) (q us)

variable {p q : Parser α}

theorem Alike.mono (alike : Alike f n m p q) (le : n' ≤ n) (le' : m' ≤ m) : Alike f n' m' p q :=
  fun _ _ _ _ less less' twins => alike (less.trans le) (less'.trans le') twins

theorem Alike.ends (alike : Alike f n m p q) (twins : Twins n m ts us) : Ends f n m (p ts) (q us) :=
  alike (Nat.le_refl n) (Nat.le_refl m) twins

theorem Bites.mono (bites : Bites f n m p q) (le : n' ≤ n) (le' : m' ≤ m) : Bites f n' m' p q :=
  fun _ _ _ _ less less' twins => bites (less.trans le) (less'.trans le') twins

theorem Bites.alike (bites : Bites f n m p q) : Alike f (n + 1) (m + 1) p q := by
  intro n' m' ts us le le' twins
  obtain ⟨n', m', rfl, rfl⟩ := twins.pos
  exact (bites (Nat.le_of_succ_le_succ le) (Nat.le_of_succ_le_succ le') twins).mono
    (Nat.le_succ _) (Nat.le_succ _)

theorem Bites.within (bites : Bites f n m p q) : Alike f n m p q :=
  bites.alike.mono (Nat.le_succ n) (Nat.le_succ m)

theorem bites_eat (kind : Kind) : Bites id n m (eat kind) (eat kind) := fun _ _ _ _ _ _ => ends_eat kind

theorem bites_eatName : Bites id n m eatName eatName := fun _ _ _ _ _ _ => ends_eatName

theorem ends_eat_le (kind : Kind) (twins : Twins n m ts us) : Ends id n m (eat kind ts) (eat kind us) :=
  (bites_eat kind).within.ends twins

theorem ends_close (kind : Kind) {x y : α} (same : f x = f y) (twins : Twins n m ts us) :
    Ends f n m ((eat kind >>= fun _ => pure x : Parser α) ts)
      ((eat kind >>= fun _ => pure y : Parser α) us) := by
  refine (ends_eat_le kind twins).bind ?_
  intro _ _ ts us _ twins
  exact ends_pure same twins

/-- Loops that take a token in every round do alike if their rounds do. -/
theorem ends_loop {σ : Type} {S : σ → σ → Prop} {L L' : Nat → σ → Parser β}
    (round : ∀ ⦃a b k l x y ts us⦄, a < n → b < m → S x y → Twins (a + 1) (b + 1) ts us →
      (∀ ⦃x y ts us⦄, S x y → Twins a b ts us → Ends g a b (L k x ts) (L' l y us)) →
      Ends g (a + 1) (b + 1) (L (k + 1) x ts) (L' (l + 1) y us))
    {k l : Nat} (enough : n ≤ k) (enough' : m ≤ l) {x y : σ} (same : S x y) (twins : Twins n m ts us) :
    Ends g n m (L k x ts) (L' l y us) := by
  induction k generalizing n m l ts us x y with
  | zero =>
    have := twins.short
    omega
  | succ k ih =>
    obtain ⟨n, m, rfl, rfl⟩ := twins.pos
    obtain ⟨l, rfl⟩ : ∃ l', l = l' + 1 := ⟨l - 1, by omega⟩
    refine round (Nat.lt_succ_self n) (Nat.lt_succ_self m) same twins ?_
    intro x y ts us same twins
    have less : n ≤ k := by omega
    have less' : m ≤ l := by omega
    refine ih ?_ less less' same twins
    intro a b k l x y ts us lt lt'
    exact round (lt.trans (Nat.lt_succ_self n)) (lt'.trans (Nat.lt_succ_self m))

/-! ### Lists -/

theorem ends_moreItems (item : Alike f n m p q) {k l : Nat} (enough : n ≤ k) (enough' : m ≤ l)
    {done done' : List α} (same : done.map f = done'.map f) (twins : Twins n m ts us) :
    Ends (List.map f) n m (moreItems p k done ts) (moreItems q l done' us) := by
  refine ends_loop (S := fun x y => x.map f = y.map f) ?_ enough enough' same twins
  intro a b k l done done' ts us lt lt' same twins more
  rw [moreItems, moreItems, peekIs_bind, peekIs_bind, ← twins.words]
  split
  · next comma =>
    obtain ⟨t, ahead, _⟩ := any_kind_eq_true.mp comma
    rw [advance_bind, advance_bind]
    refine Ends.mono ?_ (Nat.le_succ a) (Nat.le_succ b)
    refine (item lt.le lt'.le (twins.advance ahead)).bind ?_
    intro x y ts us alike twins
    exact more (by simp [alike, same]) twins
  · exact ends_pure (by simp [List.map_reverse, same]) twins

theorem ends_listUntil (item : Alike f n m p q) {k l : Nat} (enough : n ≤ k) (enough' : m ≤ l)
    (close : Kind) (twins : Twins n m ts us) :
    Ends (List.map f) n m (listUntil k close p ts) (listUntil l close q us) := by
  rw [listUntil, listUntil, peekIs_bind, peekIs_bind, ← twins.words]
  split
  · simp only [pure_bind]
    exact ends_close close rfl twins
  · refine (item.ends twins).bind ?_
    intro x y ts' us' alike twins
    refine (ends_moreItems item enough enough' (by simp [alike]) twins).bind ?_
    intro xs ys ts' us' alike twins
    exact ends_close close alike twins

theorem ends_params {k l : Nat} (enough : n ≤ k) (enough' : m ≤ l) (twins : Twins n m ts us) :
    Ends id n m (params k ts) (params l us) := by
  rw [params, params, peek_bind, peek_bind, ← twins.words]
  refine (ends_listUntil bites_eatName.within enough enough' .rparen twins).bind ?_
  intro xs ys ts' us' alike twins
  obtain rfl : xs = ys := by simpa using alike
  cases firstDuplicate? [] xs with
  | none => exact ends_pure rfl twins
  | some name => exact .error _

/-! ### Expressions -/

/-- The parsers for nested phrases do alike on twins within the bounds. -/
structure Inner.Alike (i j : Inner) (n m : Nat) : Prop where
  bound : n ≤ i.bound
  bound' : m ≤ j.bound
  expr : Syntax.Alike (Expr.view bare) n m i.expr j.expr
  block : ∀ ending, Syntax.Alike (viewBlock bare) n m (i.block ending) (j.block ending)

variable {i j : Inner}

theorem Inner.Alike.mono (inner : i.Alike j n m) (le : n' ≤ n) (le' : m' ≤ m) : i.Alike j n' m' where
  bound := le.trans inner.bound
  bound' := le'.trans inner.bound'
  expr := inner.expr.mono le le'
  block ending := (inner.block ending).mono le le'

theorem ends_exprs (inner : i.Alike j n m) (close : Kind) (twins : Twins n m ts us) :
    Ends (viewExprs bare) n m (listUntil i.bound close i.expr ts) (listUntil j.bound close j.expr us) := by
  rw [funext (viewExprs_eq bare)]
  exact ends_listUntil inner.expr inner.bound inner.bound' close twins

theorem bites_lambdaBody (inner : i.Alike j n m) (pos : Position) :
    Bites (viewBlock bare) n m (lambdaBody i pos) (lambdaBody j pos) := by
  intro n' m' ts us le le' twins
  rw [lambdaBody, lambdaBody]
  refine (ends_eat .arrow twins).bind ?_
  intro _ _ ts us _ twins
  rw [peekIs_bind, peekIs_bind, ← twins.words]
  split
  · rw [advance_bind, advance_bind]
    refine (inner.block .brace le le' twins.skip).bind ?_
    intro body body' ts us same twins
    exact ends_close .rbrace same twins
  · refine (inner.expr le le' twins).bind ?_
    intro e e' ts us same twins
    exact ends_pure (by simp [viewBlock, Command.view, Command.isRemark, same]) twins

theorem bites_number (negative : Bool) : Bites id n m (number negative) (number negative) := by
  intro n' m' ts us _ _ twins
  rw [number]
  refine (ends_eat .number twins).bind ?_
  rintro t _ ts us rfl twins
  cases read : Decimal.read? t.text with
  | some x =>
    simp only [id, read]
    exact ends_pure rfl twins
  | none =>
    simp only [id, read]
    exact .error _

/-- What is seen of a map entry. -/
def viewEntry (v : View) (e : String × Expr) : String × Expr := (e.1, e.2.view v)

theorem alike_entry (inner : i.Alike j n m) : Alike (viewEntry bare) n m (entry i) (entry j) := by
  intro n' m' ts us le le' twins
  rw [entry, entry, peek_bind, peek_bind, ← twins.words]
  cases (words ts).head? with
  | none => exact ends_stuck _ twins.words
  | some t =>
    dsimp only
    split
    · rw [advance_bind, advance_bind]
      refine (ends_eat_le .colon twins.skip).bind ?_
      intro _ _ ts us _ twins
      refine (inner.expr le le' twins).bind ?_
      intro e e' ts us same twins
      exact ends_pure (by simp [viewEntry, same]) twins
    · exact ends_stuck _ twins.words

theorem viewGroups_eq (v : View) (gs : List (List Expr)) : viewGroups v gs = gs.map (viewExprs v) := by
  induction gs with
  | nil => rfl
  | cons g gs ih => simp [viewGroups, ih]

theorem ends_moreGroups (inner : i.Alike j n m) {k l : Nat} (enough : n ≤ k) (enough' : m ≤ l)
    (twins : Twins n m ts us) :
    Ends (List.map (viewExprs bare)) n m (moreGroups i k [] ts) (moreGroups j l [] us) := by
  have same : ([] : List (List Expr)).map (viewExprs bare) = [].map (viewExprs bare) := rfl
  refine ends_loop (S := fun x y => x.map (viewExprs bare) = y.map (viewExprs bare)) ?_ enough enough'
    same twins
  intro a b k l done done' ts us lt lt' same twins more
  rw [moreGroups, moreGroups, peekIs_bind, peekIs_bind, ← twins.words]
  split
  · next paren =>
    obtain ⟨t, ahead, _⟩ := any_kind_eq_true.mp paren
    rw [advance_bind, advance_bind]
    refine Ends.mono ?_ (Nat.le_succ a) (Nat.le_succ b)
    refine (ends_exprs (inner.mono lt.le lt'.le) .rparen (twins.advance ahead)).bind ?_
    intro args args' ts us alike twins
    exact more (by simp [alike, same]) twins
  · exact ends_pure (by simp [List.map_reverse, same]) twins

/-- What is seen of a name and its argument lists. -/
def viewCallee (v : View) (c : String × List Expr × List (List Expr)) :
    String × List Expr × List (List Expr) :=
  (c.1, viewExprs v c.2.1, viewGroups v c.2.2)

theorem bites_callee (inner : i.Alike j n m) : Bites (viewCallee bare) n m (callee i) (callee j) := by
  intro n' m' ts us le le' twins
  have smaller := inner.mono le le'
  rw [callee, callee]
  refine (ends_eatName twins).bind ?_
  rintro name _ ts us rfl twins
  refine (ends_eat_le .lparen twins).bind ?_
  intro _ _ ts us _ twins
  refine (ends_exprs smaller .rparen twins).bind ?_
  intro args args' ts us same twins
  refine (ends_moreGroups smaller smaller.bound smaller.bound' twins).bind ?_
  intro more more' ts us same' twins
  rw [← viewGroups_eq, ← viewGroups_eq] at same'
  exact ends_pure (by simp [viewCallee, same, same']) twins

theorem bites_named (inner : i.Alike j n m) (pos : Position) :
    Bites (Expr.view bare) n m (named i pos) (named j pos) := by
  intro n' m' ts us le le' twins
  rw [named, named, secondIs_bind, secondIs_bind, ← twins.words]
  split
  · refine (ends_eatName twins).bind ?_
    rintro name _ ts us rfl twins
    refine ((bites_lambdaBody inner pos).within le le' twins).bind ?_
    intro cs cs' ts us same twins
    exact ends_pure (by simp [Expr.view, same]) twins
  · rw [secondIs_bind, secondIs_bind, ← twins.words]
    split
    · refine (bites_callee inner le le' twins).bind ?_
      rintro ⟨name, args, more⟩ ⟨name', args', more'⟩ ts us same twins
      simp only [viewCallee, Prod.mk.injEq] at same
      exact ends_pure (by simp [Expr.view, same]) twins
    · refine (ends_eatName twins).bind ?_
      rintro name _ ts us rfl twins
      exact ends_pure rfl twins

theorem arrowAhead_words (first wantName : Bool) (ts : List Token) :
    arrowAhead first wantName (words ts) = arrowAhead first wantName ts := by
  induction ts generalizing first wantName with
  | nil => rfl
  | cons t ts ih =>
    cases comment : isComment t with
    | true =>
      have kind : t.kind = .comment := by simpa [isComment] using comment
      rw [words_cons_comment comment, ih]
      conv_rhs => rw [arrowAhead, kind]
    | false =>
      have again : (skipComments (words ts)).head? = (skipComments ts).head? := by
        rw [head?_skipComments, head?_skipComments]
        simp [words]
      rw [words_cons_word comment, arrowAhead, arrowAhead]
      simp only [ih, again]

theorem Twins.lambdaAhead (twins : Twins n m ts us) :
    ((skipComments ts).head?.any (·.kind = .lparen) && arrowAhead true true (skipComments ts).tail) =
      ((skipComments us).head?.any (·.kind = .lparen) && arrowAhead true true (skipComments us).tail) := by
  rw [head?_skipComments, head?_skipComments, twins.words, ← arrowAhead_words true true (skipComments ts).tail,
    ← arrowAhead_words true true (skipComments us).tail, twins.skip.words]

theorem ends_parenthesised (inner : i.Alike j n m) (pos : Position) {t : Token}
    (twins : Twins (n + 1) (m + 1) ts us) (ahead : (words ts).head? = some t) :
    Ends (Expr.view bare) n m (parenthesised i pos ts) (parenthesised j pos us) := by
  rw [parenthesised, parenthesised, lambdaAhead_bind, lambdaAhead_bind, ← twins.lambdaAhead]
  split
  · rw [advance_bind, advance_bind]
    refine (ends_params inner.bound inner.bound' (twins.advance ahead)).bind ?_
    rintro names _ ts us rfl twins
    refine ((bites_lambdaBody inner pos).within.ends twins).bind ?_
    intro cs cs' ts us same twins
    exact ends_pure (by simp [Expr.view, same]) twins
  · rw [advance_bind, advance_bind]
    refine (inner.expr.ends (twins.advance ahead)).bind ?_
    intro e e' ts us same twins
    exact ends_close .rparen same twins

theorem ends_signedNumber {t : Token} (twins : Twins (n + 1) (m + 1) ts us)
    (ahead : (words ts).head? = some t) :
    Ends (Expr.view bare) n m (signedNumber t ts) (signedNumber t us) := by
  rw [signedNumber, secondIs_bind, secondIs_bind, ← twins.words]
  split
  · rw [advance_bind, advance_bind]
    refine ((bites_number _).within.ends (twins.advance ahead)).bind ?_
    rintro x _ ts us rfl twins
    exact ends_pure rfl twins
  · exact ends_stuck _ twins.words

theorem bites_atom (inner : i.Alike j n m) : Bites (Expr.view bare) n m (atom i) (atom j) := by
  intro n' m' ts us le le' twins
  have smaller := inner.mono le le'
  rw [atom, atom, peek_bind, peek_bind, ← twins.words]
  cases ahead : (words ts).head? with
  | none => exact ends_stuck _ twins.words
  | some t =>
    have next := twins.advance ahead
    cases kind : t.kind <;> simp only [kind]
    case number =>
      refine (bites_number false le le' twins).bind ?_
      rintro x _ ts us rfl twins
      exact ends_pure rfl twins
    case minus => exact ends_signedNumber twins ahead
    case plus => exact ends_signedNumber twins ahead
    case trueWord => exact ends_pure rfl next
    case falseWord => exact ends_pure rfl next
    case nullWord => exact ends_pure rfl next
    case string => exact ends_pure rfl next
    case lbracket =>
      rw [advance_bind, advance_bind]
      refine (ends_exprs smaller .rbracket next).bind ?_
      intro es es' ts us same twins
      exact ends_pure (by simp [Expr.view, same]) twins
    case lbrace =>
      rw [advance_bind, advance_bind]
      refine (ends_listUntil (alike_entry smaller) smaller.bound smaller.bound' .rbrace next).bind ?_
      intro es es' ts us same twins
      have seen : viewEntries bare es = viewEntries bare es' := by
        rw [viewEntries_eq, viewEntries_eq]
        exact same
      exact ends_pure (by simp [Expr.view, seen]) twins
    case lparen => exact ends_parenthesised smaller _ twins ahead
    case ident => exact bites_named inner _ le le' twins
    all_goals exact ends_stuck _ twins.words

theorem pos_eq_of_view {e e' : Expr} (same : e.view bare = e'.view bare) : e.pos = e'.pos := by
  have := congrArg Expr.pos same
  rwa [pos_view, pos_view] at this

theorem ends_moreIndexes (inner : i.Alike j n m) {k l : Nat} (enough : n ≤ k) (enough' : m ≤ l)
    {base base' : Expr} (same : base.view bare = base'.view bare) (twins : Twins n m ts us) :
    Ends (Expr.view bare) n m (moreIndexes i k base ts) (moreIndexes j l base' us) := by
  refine ends_loop (S := fun x y => x.view bare = y.view bare) ?_ enough enough' same twins
  intro a b k l base base' ts us lt lt' same twins more
  rw [moreIndexes, moreIndexes, peekIs_bind, peekIs_bind, ← twins.words]
  split
  · refine Ends.mono ?_ (Nat.le_succ a) (Nat.le_succ b)
    refine (ends_eat .lbracket twins).bind ?_
    rintro bracket _ ts us rfl twins
    refine (inner.expr lt.le lt'.le twins).bind ?_
    intro key key' ts us alike twins
    refine (ends_eat_le .rbracket twins).bind ?_
    intro _ _ ts us _ twins
    exact more (by simp [Expr.view, same, alike]) twins
  · exact ends_pure same twins

theorem bites_indexed (inner : i.Alike j n m) : Bites (Expr.view bare) n m (indexed i) (indexed j) := by
  intro n' m' ts us le le' twins
  have smaller := inner.mono le le'
  rw [indexed, indexed]
  refine (bites_atom inner le le' twins).bind ?_
  intro base base' ts us same twins
  exact ends_moreIndexes smaller smaller.bound smaller.bound' same twins

theorem bites_power (inner : i.Alike j n m) : Bites (Expr.view bare) n m (power i) (power j) := by
  intro n' m' ts us le le' twins
  rw [power, power]
  refine (bites_indexed inner le le' twins).bind ?_
  intro base base' ts us same twins
  rw [peekIs_bind, peekIs_bind, ← twins.words]
  split
  · rw [advance_bind, advance_bind]
    refine ((bites_indexed inner).within le le' twins.skip).bind ?_
    intro e e' ts us same' twins
    exact ends_pure (by simp [Expr.view, same, same', pos_eq_of_view same]) twins
  · exact ends_pure same twins

variable {operand operand' : Parser Expr} (operator : Kind → Option Operator)

theorem ends_moreOperands (alike : Alike (Expr.view bare) n m operand operand') {k l : Nat}
    (enough : n ≤ k) (enough' : m ≤ l) {left left' : Expr} (same : left.view bare = left'.view bare)
    (twins : Twins n m ts us) :
    Ends (Expr.view bare) n m (moreOperands operator operand k left ts)
      (moreOperands operator operand' l left' us) := by
  refine ends_loop (S := fun x y => x.view bare = y.view bare) ?_ enough enough' same twins
  intro a b k l left left' ts us lt lt' same twins more
  rw [moreOperands, moreOperands, peek_bind, peek_bind, ← twins.words]
  cases found : (words ts).head?.bind (operator ·.kind) with
  | none => exact ends_pure same twins
  | some op =>
    obtain ⟨t, ahead, _⟩ := Option.bind_eq_some_iff.mp found
    dsimp only
    rw [advance_bind, advance_bind]
    refine Ends.mono ?_ (Nat.le_succ a) (Nat.le_succ b)
    refine (alike lt.le lt'.le (twins.advance ahead)).bind ?_
    intro right right' ts us same' twins
    exact more (by simp [Expr.view, same, same', pos_eq_of_view same]) twins

theorem bites_chain (bites : Bites (Expr.view bare) n m operand operand') {k l : Nat} (enough : n ≤ k)
    (enough' : m ≤ l) :
    Bites (Expr.view bare) n m (chain k operator operand) (chain l operator operand') := by
  intro n' m' ts us le le' twins
  rw [chain, chain]
  refine (bites le le' twins).bind ?_
  intro first first' ts us same twins
  exact ends_moreOperands operator (bites.within.mono le le') (le.trans enough) (le'.trans enough') same twins

theorem bites_logic (inner : i.Alike j n m) : Bites (Expr.view bare) n m (logic i) (logic j) := by
  have chained {operator : Kind → Option Operator} {operand operand' : Parser Expr}
      (bites : Bites (Expr.view bare) n m operand operand') :
      Bites (Expr.view bare) n m (chain i.bound operator operand) (chain j.bound operator operand') :=
    bites_chain operator bites inner.bound inner.bound'
  exact chained (chained (chained (chained (bites_power inner))))

/-! ### Commands -/

theorem ends_placeIndexes (inner : i.Alike j n m) {k l : Nat} (enough : n ≤ k) (enough' : m ≤ l)
    (twins : Twins n m ts us) :
    Ends (viewExprs bare) n m (placeIndexes i k [] ts) (placeIndexes j l [] us) := by
  have same : viewExprs bare [] = viewExprs bare [] := rfl
  refine ends_loop (S := fun x y => viewExprs bare x = viewExprs bare y) ?_ enough enough' same twins
  intro a b k l done done' ts us lt lt' same twins more
  rw [placeIndexes, placeIndexes, peekIs_bind, peekIs_bind, ← twins.words]
  split
  · next bracket =>
    obtain ⟨t, ahead, _⟩ := any_kind_eq_true.mp bracket
    rw [advance_bind, advance_bind]
    refine Ends.mono ?_ (Nat.le_succ a) (Nat.le_succ b)
    refine (inner.expr lt.le lt'.le (twins.advance ahead)).bind ?_
    intro key key' ts us alike twins
    refine (ends_eat_le .rbracket twins).bind ?_
    intro _ _ ts us _ twins
    exact more (by simp [viewExprs, alike, same]) twins
  · rw [viewExprs_eq, viewExprs_eq] at same
    exact ends_pure (by simp [viewExprs_eq, List.map_reverse, same]) twins

/-- What is seen of a name and its indexes. -/
def viewPlace (v : View) (p : String × List Expr) : String × List Expr := (p.1, viewExprs v p.2)

theorem bites_place (inner : i.Alike j n m) : Bites (viewPlace bare) n m (place i) (place j) := by
  intro n' m' ts us le le' twins
  have smaller := inner.mono le le'
  rw [place, place]
  refine (ends_eatName twins).bind ?_
  rintro name _ ts us rfl twins
  refine (ends_placeIndexes smaller smaller.bound smaller.bound' twins).bind ?_
  intro keys keys' ts us same twins
  exact ends_pure (by simp [viewPlace, same]) twins

/-- What is seen of an assignment. -/
def viewAssignment (v : View) (a : String × List Expr × Expr) : String × List Expr × Expr :=
  (a.1, viewExprs v a.2.1, a.2.2.view v)

theorem bites_assignment (inner : i.Alike j n m) :
    Bites (viewAssignment bare) n m (assignment i) (assignment j) := by
  intro n' m' ts us le le' twins
  rw [assignment, assignment]
  refine (ends_eat .letWord twins).bind ?_
  intro _ _ ts us _ twins
  refine ((bites_place inner).within le le' twins).bind ?_
  rintro ⟨name, keys⟩ ⟨name', keys'⟩ ts us same twins
  refine (ends_eat_le .equal twins).bind ?_
  intro _ _ ts us _ twins
  refine (inner.expr le le' twins).bind ?_
  intro e e' ts us same' twins
  simp only [viewPlace, Prod.mk.injEq] at same
  exact ends_pure (by simp [viewAssignment, same, same']) twins

/-- What is seen of a definition. -/
def viewDefinition (v : View) (d : String × List String × List Command) :
    String × List String × List Command :=
  (d.1, d.2.1, viewBlock v d.2.2)

theorem bites_definition (inner : i.Alike j n m) :
    Bites (viewDefinition bare) n m (definition i) (definition j) := by
  intro n' m' ts us le le' twins
  rw [definition, definition]
  refine (ends_eat .defWord twins).bind ?_
  intro _ _ ts us _ twins
  refine (bites_eatName.within.ends twins).bind ?_
  rintro name _ ts us rfl twins
  refine (ends_eat_le .lparen twins).bind ?_
  intro _ _ ts us _ twins
  refine (ends_params (le.trans inner.bound) (le'.trans inner.bound') twins).bind ?_
  rintro names _ ts us rfl twins
  refine (inner.block .endWord le le' twins).bind ?_
  intro body body' ts us same twins
  exact ends_close .endWord (by simp [viewDefinition, same]) twins

theorem ends_condition (inner : i.Alike j n m) (twins : Twins n m ts us) :
    Ends (Expr.view bare) n m (condition i ts) (condition j us) := by
  rw [condition, condition]
  refine (ends_eat_le .lparen twins).bind ?_
  intro _ _ ts us _ twins
  refine (inner.expr.ends twins).bind ?_
  intro e e' ts us same twins
  exact ends_close .rparen same twins

theorem ends_otherwise (inner : i.Alike j n m) (twins : Twins n m ts us) :
    Ends (viewBlock bare) n m (otherwise i ts) (otherwise j us) := by
  rw [otherwise, otherwise, peekIs_bind, peekIs_bind, ← twins.words]
  split
  · rw [advance_bind, advance_bind]
    refine ((inner.block .endWord).ends twins.skip).bind ?_
    intro body body' ts us same twins
    exact ends_close .endWord same twins
  · simp only [pure_bind]
    exact ends_close .endWord rfl twins

theorem ends_command (inner : i.Alike j n m) {t : Token} (twins : Twins (n + 1) (m + 1) ts us)
    (ahead : (words ts).head? = some t) :
    Ends (Command.view bare) n m (command i t ts) (command j t us) := by
  have next := twins.advance ahead
  have le := Nat.le_refl n
  have le' := Nat.le_refl m
  rw [command, command]
  cases t.kind <;> dsimp only
  case letWord =>
    refine (bites_assignment inner le le' twins).bind ?_
    rintro ⟨name, keys, value⟩ ⟨name', keys', value'⟩ ts us same twins
    simp only [viewAssignment, Prod.mk.injEq] at same
    exact ends_close .semicolon (by simp [Command.view, same]) twins
  case delWord =>
    rw [advance_bind, advance_bind]
    refine ((bites_place inner).within.ends next).bind ?_
    rintro ⟨name, keys⟩ ⟨name', keys'⟩ ts us same twins
    simp only [viewPlace, Prod.mk.injEq] at same
    have empty : keys.isEmpty = keys'.isEmpty := by
      have := congrArg List.isEmpty same.2
      simpa [viewExprs_eq] using this
    rw [empty]
    split
    · exact .error _
    · exact ends_close .semicolon (by simp [Command.view, same]) twins
  case returnWord =>
    rw [advance_bind, advance_bind]
    refine (inner.expr.ends next).bind ?_
    intro e e' ts us same twins
    exact ends_close .semicolon (by simp [Command.view, same]) twins
  case ifWord =>
    rw [advance_bind, advance_bind]
    refine (ends_condition inner next).bind ?_
    intro e e' ts us same twins
    refine ((inner.block .elseWord).ends twins).bind ?_
    intro yes yes' ts us sameYes twins
    refine (ends_otherwise inner twins).bind ?_
    intro no no' ts us sameNo twins
    exact ends_pure (by simp [Command.view, same, sameYes, sameNo]) twins
  case whileWord =>
    rw [advance_bind, advance_bind]
    refine (ends_condition inner next).bind ?_
    intro e e' ts us same twins
    refine ((inner.block .endWord).ends twins).bind ?_
    intro body body' ts us same' twins
    exact ends_close .endWord (by simp [Command.view, same, same']) twins
  case defWord =>
    refine (bites_definition inner le le' twins).bind ?_
    rintro ⟨name, names, body⟩ ⟨name', names', body'⟩ ts us same twins
    simp only [viewDefinition, Prod.mk.injEq] at same
    exact ends_pure (by simp [Command.view, same]) twins
  case ident =>
    rw [secondIs_bind, secondIs_bind, ← twins.words]
    split
    · refine (bites_callee inner le le' twins).bind ?_
      rintro ⟨name, args, more⟩ ⟨name', args', more'⟩ ts us same twins
      simp only [viewCallee, Prod.mk.injEq] at same
      exact ends_close .semicolon (by simp [Command.view, same]) twins
    · exact ends_stuck _ twins.words
  all_goals exact ends_stuck _ twins.words

/-! ### Remarks -/

/-- Loops that take remarks each on its own, and go on together otherwise. The results so far are kept
last one first, and `f` shows nothing of the remarks among them. -/
theorem ends_remarks {f : List α → γ} {L L' : Nat → List α → Parser (List α)}
    (remark : ∀ ⦃t⦄, isComment t = true → ∀ k done ts, ∃ r, f (r :: done).reverse = f done.reverse ∧
      L (k + 1) done (t :: ts) = L k (r :: done) ts)
    (remark' : ∀ ⦃t⦄, isComment t = true → ∀ k done ts, ∃ r, f (r :: done).reverse = f done.reverse ∧
      L' (k + 1) done (t :: ts) = L' k (r :: done) ts)
    (round : ∀ ⦃a b k l x y ts us⦄, a < n → b < m → f x.reverse = f y.reverse →
      Twins (a + 1) (b + 1) ts us → remark? ts = .ok (none, ts) → remark? us = .ok (none, us) →
      (∀ ⦃x y ts us⦄, f x.reverse = f y.reverse → Twins a b ts us →
        Ends f a b (L k x ts) (L' l y us)) →
      Ends f (a + 1) (b + 1) (L (k + 1) x ts) (L' (l + 1) y us))
    {k l : Nat} (enough : n ≤ k) (enough' : m ≤ l) {x y : List α} (same : f x.reverse = f y.reverse)
    (twins : Twins n m ts us) : Ends f n m (L k x ts) (L' l y us) := by
  -- Either loop may be the next to take a token, so the induction is on what both may still take.
  induction total : k + l using Nat.strong_induction_on generalizing n m k l x y ts us with
  | _ total ih =>
    obtain ⟨n, m, rfl, rfl⟩ := twins.pos
    obtain ⟨k, rfl⟩ : ∃ k', k = k' + 1 := ⟨k - 1, by omega⟩
    obtain ⟨l, rfl⟩ : ∃ l', l = l' + 1 := ⟨l - 1, by omega⟩
    have less : n ≤ k := by omega
    have less' : m ≤ l := by omega
    rcases remark?_eq ts with ⟨t, ts, rfl, comment, _⟩ | word
    · obtain ⟨r, seen, ran⟩ := remark comment k x ts
      have left : Twins n (m + 1) ts us :=
        ⟨(words_cons_comment comment ts).symm.trans twins.words, Nat.lt_of_succ_lt_succ twins.short,
          twins.short'⟩
      rw [ran]
      refine Ends.mono ?_ (Nat.le_succ n) (Nat.le_refl (m + 1))
      refine ih _ ?_ ?_ less enough' (seen.trans same) left rfl
      · omega
      · intro a b k l x y ts us lt
        exact round (lt.trans (Nat.lt_succ_self n))
    rcases remark?_eq us with ⟨u, us, rfl, comment, _⟩ | word'
    · obtain ⟨r, seen, ran⟩ := remark' comment l y us
      have left : Twins (n + 1) m ts us :=
        ⟨twins.words.trans (words_cons_comment comment us), twins.short,
          Nat.lt_of_succ_lt_succ twins.short'⟩
      rw [ran]
      refine Ends.mono ?_ (Nat.le_refl (n + 1)) (Nat.le_succ m)
      refine ih _ ?_ ?_ enough less' (same.trans seen.symm) left rfl
      · omega
      · intro a b k l x y ts us lt lt'
        exact round lt (lt'.trans (Nat.lt_succ_self m))
    · refine round (Nat.lt_succ_self n) (Nat.lt_succ_self m) same twins word word' ?_
      intro x y ts us same twins
      refine ih _ ?_ ?_ less less' same twins rfl
      · omega
      · intro a b k l x y ts us lt lt'
        exact round (lt.trans (Nat.lt_succ_self n)) (lt'.trans (Nat.lt_succ_self m))

theorem viewBlock_append (v : View) (cs ds : List Command) :
    viewBlock v (cs ++ ds) = viewBlock v cs ++ viewBlock v ds := by
  induction cs with
  | nil => rfl
  | cons c cs ih =>
    rw [List.cons_append, viewBlock, viewBlock, ih]
    split <;> rfl

theorem viewBlock_reverse_cons (c : Command) (done : List Command) :
    viewBlock bare (c :: done).reverse = viewBlock bare done.reverse ++ viewBlock bare [c] := by
  rw [List.reverse_cons, viewBlock_append]

theorem viewBlock_single {c c' : Command} (same : c.view bare = c'.view bare) :
    viewBlock bare [c] = viewBlock bare [c'] := by
  have remarks : c.isRemark = c'.isRemark := by
    rw [← isRemark_view bare c, same, isRemark_view]
  simp only [viewBlock, remarks, same]

theorem moreCommands_remark (inner : Inner) (ending : Ending) ⦃t : Token⦄ (comment : isComment t = true)
    (k : Nat) (done : List Command) (ts : List Token) :
    ∃ r, viewBlock bare (r :: done).reverse = viewBlock bare done.reverse ∧
      moreCommands inner ending (k + 1) done (t :: ts) = moreCommands inner ending k (r :: done) ts := by
  refine ⟨.remark t.pos (remarkText t.text), ?_, ?_⟩
  · rw [viewBlock_reverse_cons]
    exact List.append_nil _
  · rw [moreCommands, bind_of_ok (remark?_of_comment comment ts)]

theorem alike_moreCommands (inner : i.Alike j n m) (ending : Ending) :
    Alike (viewBlock bare) (n + 1) (m + 1) (moreCommands i ending (n + 1) [])
      (moreCommands j ending (m + 1) []) := by
  intro n' m' ts us le le' twins
  refine ends_remarks (moreCommands_remark i ending) (moreCommands_remark j ending) ?_ le le' rfl twins
  intro a b k l done done' ts us lt lt' same twins none none' more
  rw [moreCommands, moreCommands, bind_of_ok none, bind_of_ok none']
  dsimp only
  rw [peek_bind, peek_bind, ← twins.words]
  cases ahead : (words ts).head? with
  | none => exact ends_stuck _ twins.words
  | some t =>
    dsimp only
    split
    · exact ends_pure same twins
    · have smaller := inner.mono (Nat.le_of_lt_succ (lt.trans_le le)) (Nat.le_of_lt_succ (lt'.trans_le le'))
      refine Ends.mono ?_ (Nat.le_succ a) (Nat.le_succ b)
      refine (ends_command smaller twins ahead).bind ?_
      intro c c' ts us alike twins
      refine more ?_ twins
      rw [viewBlock_reverse_cons, viewBlock_reverse_cons, same, viewBlock_single alike]

theorem alike_inner (n m : Nat) : (Syntax.inner n).Alike (Syntax.inner m) n m := by
  induction n generalizing m with
  | zero =>
    have none {ts us : List Token} {n m : Nat} (le : n ≤ 0) (twins : Twins n m ts us) : False := by
      have := twins.short
      omega
    exact ⟨Nat.le_refl _, Nat.le_refl _, fun _ _ _ _ le _ twins => (none le twins).elim,
      fun _ _ _ _ _ le _ twins => (none le twins).elim⟩
  | succ n ih =>
    cases m with
    | zero =>
      have none {ts us : List Token} {n m : Nat} (le : m ≤ 0) (twins : Twins n m ts us) : False := by
        have := twins.short'
        omega
      exact ⟨Nat.le_refl _, Nat.le_refl _, fun _ _ _ _ _ le twins => (none le twins).elim,
        fun _ _ _ _ _ _ le twins => (none le twins).elim⟩
    | succ m =>
      have deeper : Inner.Alike ⟨n + 1, expr n, block n⟩ ⟨m + 1, expr m, block m⟩ n m :=
        ⟨Nat.le_succ n, Nat.le_succ m, (ih m).expr, (ih m).block⟩
      exact ⟨Nat.le_refl _, Nat.le_refl _, (bites_logic deeper).alike, alike_moreCommands deeper⟩

/-! ### Programs -/

theorem ends_item (inner : i.Alike j n m) {t : Token} (twins : Twins (n + 1) (m + 1) ts us)
    (ahead : (words ts).head? = some t) : Ends (Item.view bare) n m (item i t ts) (item j t us) := by
  have next := twins.advance ahead
  have le := Nat.le_refl n
  have le' := Nat.le_refl m
  rw [item, item]
  cases t.kind <;> dsimp only
  case constWord =>
    rw [advance_bind, advance_bind]
    refine (bites_eatName.within.ends next).bind ?_
    rintro name _ ts us rfl twins
    refine (ends_eat_le .equal twins).bind ?_
    intro _ _ ts us _ twins
    refine (inner.expr.ends twins).bind ?_
    intro e e' ts us same twins
    exact ends_close .semicolon (by simp [Item.view, same]) twins
  case letWord =>
    refine (bites_assignment inner le le' twins).bind ?_
    rintro ⟨name, keys, value⟩ ⟨name', keys', value'⟩ ts us same twins
    simp only [viewAssignment, Prod.mk.injEq] at same
    exact ends_close .semicolon (by simp [Item.view, same]) twins
  case defWord =>
    refine (bites_definition inner le le' twins).bind ?_
    rintro ⟨name, names, body⟩ ⟨name', names', body'⟩ ts us same twins
    simp only [viewDefinition, Prod.mk.injEq] at same
    exact ends_pure (by simp [Item.view, same]) twins
  all_goals exact ends_stuck _ twins.words

/-- What is seen of items without their remarks. -/
def viewItems (is : List Item) : Program := Program.view bare ⟨is⟩

theorem moreProgram_remark (inner : Inner) ⦃t : Token⦄ (comment : isComment t = true) (k : Nat)
    (done : List Item) (ts : List Token) :
    ∃ r, viewItems (r :: done).reverse = viewItems done.reverse ∧
      moreProgram inner (k + 1) done (t :: ts) = moreProgram inner k (r :: done) ts := by
  refine ⟨.remark (remarkText t.text), ?_, ?_⟩
  · simp [viewItems, Program.view, Item.isRemark, bare]
  · rw [moreProgram, bind_of_ok (remark?_of_comment comment ts)]

theorem viewItems_reverse_cons {i i' : Item} (alike : i.view bare = i'.view bare) {done done' : List Item}
    (same : viewItems done.reverse = viewItems done'.reverse) :
    viewItems (i :: done).reverse = viewItems (i' :: done').reverse := by
  have isRemark_view (i : Item) : (i.view bare).isRemark = i.isRemark := by cases i <;> rfl
  have remarks : i.isRemark = i'.isRemark := by rw [← isRemark_view i, alike, isRemark_view]
  simp only [viewItems, Program.view, Program.mk.injEq] at same
  simp only [viewItems, Program.view, List.reverse_cons, List.filter_append, List.map_append, same,
    List.filter_singleton, remarks]
  cases i'.isRemark with
  | true => rfl
  | false => simp [alike]

theorem ends_moreProgram (inner : i.Alike j n m) (twins : Twins n m ts us) :
    Ends viewItems n m (moreProgram i n [] ts) (moreProgram j m [] us) := by
  refine ends_remarks (moreProgram_remark i) (moreProgram_remark j) ?_ (Nat.le_refl n) (Nat.le_refl m) rfl twins
  intro a b k l done done' ts us lt lt' same twins none none' more
  rw [moreProgram, moreProgram, bind_of_ok none, bind_of_ok none']
  dsimp only
  rw [peek_bind, peek_bind, ← twins.words]
  cases ahead : (words ts).head? with
  | none => exact ends_pure same twins
  | some t =>
    dsimp only
    refine Ends.mono ?_ (Nat.le_succ a) (Nat.le_succ b)
    refine (ends_item (inner.mono lt.le lt'.le) twins ahead).bind ?_
    intro i i' ts us alike twins
    exact more (viewItems_reverse_cons alike same) twins

/-- Where a fault at the end of input is reported. -/
def endPlace (tokens : List Token) : Position := (tokens.getLast?.map (·.pos)).getD .none

/-- Reading a program has come to the end of input and needed more. -/
def StopsAtEnd (tokens : List Token) : Prop :=
  ∃ fault, moreProgram (inner (tokens.length + 1)) (tokens.length + 1) [] tokens = .error ⟨none, fault⟩

/-- Comments may stand anywhere: with the same words, both lists are programs or neither is. Two
programs are the same but for remarks, and two faults are the same, also in their places unless the
input has ended. -/
theorem parse_ignores_comments {ts us : List Token} (same : words ts = words us) :
    (∃ p q, parse ts = .ok p ∧ parse us = .ok q ∧ p.view bare = q.view bare) ∨
    ∃ e e', parse ts = .error e ∧ parse us = .error e' ∧ e.fault = e'.fault ∧
      (e.pos = e'.pos ∨
        StopsAtEnd ts ∧ StopsAtEnd us ∧ e.pos = endPlace ts ∧ e'.pos = endPlace us) := by
  have twins : Twins (ts.length + 1) (us.length + 1) ts us :=
    ⟨same, Nat.lt_succ_self _, Nat.lt_succ_self _⟩
  have ends := ends_moreProgram (alike_inner _ _) twins
  unfold parse StopsAtEnd
  dsimp only
  generalize moreProgram (inner (ts.length + 1)) (ts.length + 1) [] ts = r at ends ⊢
  generalize moreProgram (inner (us.length + 1)) (us.length + 1) [] us = r' at ends ⊢
  cases ends with
  | ok alike _ => exact .inl ⟨_, _, rfl, rfl, alike⟩
  | error s =>
    refine .inr ⟨_, _, rfl, rfl, rfl, ?_⟩
    obtain ⟨_ | pos, fault⟩ := s
    · exact .inr ⟨⟨fault, rfl⟩, ⟨fault, rfl⟩, rfl, rfl⟩
    · exact .inl rfl

/-- `const f = (a) # one` `=> # two` `b; # three` on three lines. -/
def annotated : List Token :=
  [⟨.constWord, "const", ⟨1, 1⟩⟩, ⟨.ident, "f", ⟨1, 7⟩⟩, ⟨.equal, "=", ⟨1, 9⟩⟩, ⟨.lparen, "(", ⟨1, 11⟩⟩,
   ⟨.ident, "a", ⟨1, 12⟩⟩, ⟨.rparen, ")", ⟨1, 13⟩⟩, ⟨.comment, "# one", ⟨1, 15⟩⟩,
   ⟨.arrow, "=>", ⟨2, 1⟩⟩, ⟨.comment, "# two", ⟨2, 4⟩⟩, ⟨.ident, "b", ⟨3, 1⟩⟩, ⟨.semicolon, ";", ⟨3, 2⟩⟩,
   ⟨.comment, "# three", ⟨3, 4⟩⟩]

theorem annotated_ignores_comments :
    words annotated = words (words annotated) ∧ annotated ≠ words annotated ∧
    (∃ p q, parse annotated = .ok p ∧ parse (words annotated) = .ok q ∧ p.view bare = q.view bare) ∧
    parse (annotated.take 9) = .error ⟨⟨2, 4⟩, .endOfInput⟩ ∧
    parse (words (annotated.take 9)) = .error ⟨⟨2, 1⟩, .endOfInput⟩ := by
  refine ⟨rfl, by decide, ?_, rfl, rfl⟩
  rcases @parse_ignores_comments annotated (words annotated) rfl with read | ⟨e, _, failed, _⟩
  · exact read
  · cases failed

end RetroScript.Syntax
