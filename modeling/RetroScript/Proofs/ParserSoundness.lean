import Mathlib.Data.List.DropRight
import RetroScript.Proofs.Parsing

/-!
# The parser follows the grammar

Each parser takes the words of a phrase and gives the phrase's tree. The induction is on the bound
of nesting: a parser for a phrase is sound if the parsers for nested phrases are. No bound on a list
or a chain matters for that, since a loop that stops early has still read a phrase. The one place
where a bound does matter is the whole program, which must be read to its end.
-/
namespace RetroScript.Syntax

open Token (Kind)

variable {α β : Type} {ts rest us vs : List Token} {R : List Token → α → Prop} {p : Parser α}

/-! ### Loops -/

/-- A loop that had `done` (last one first) has added results that `L` allows. -/
def Extends (L : List Token → List α → Prop) (done : List α) (ts : List Token) (xs : List α)
    (rest : List Token) : Prop :=
  ∃ us more, Takes us ts rest ∧ L us more ∧ xs = done.reverse ++ more

theorem Extends.stop {L : List Token → List α → Prop} {done xs : List α} (none : L [] [])
    (h : (pure done.reverse : Parser (List α)) ts = .ok (xs, rest)) : Extends L done ts xs rest := by
  obtain ⟨rfl, rfl⟩ := pure_ok.mp h
  exact ⟨[], [], Takes.nil _, none, by simp⟩

theorem Extends.step {L : List Token → List α → Prop} {done xs : List α} {x : α} {mid : List Token}
    (takes : Takes vs ts mid) (others : Extends L (x :: done) mid xs rest)
    (cons : ∀ {us more}, L us more → L (vs ++ us) (x :: more)) : Extends L done ts xs rest := by
  obtain ⟨us, more, later, allowed, rfl⟩ := others
  exact ⟨vs ++ us, x :: more, takes.append later, cons allowed, by simp⟩

/-! ### Lists -/

/-- Items behind commas. -/
def Led (R : List Token → α → Prop) (us : List Token) (xs : List α) : Prop :=
  ∃ parts : List (List Token × α), CommaLed (parts.map (·.1)) us ∧ (∀ q ∈ parts, R q.1 q.2) ∧
    xs = parts.map (·.2)

/-- Items between commas, and the word that closes them. -/
def Listed (R : List Token → α → Prop) (close : Kind) (us : List Token) (xs : List α) : Prop :=
  ∃ parts : List (List Token × α), ∃ vs r, Joined (parts.map (·.1)) vs ∧ (∀ q ∈ parts, R q.1 q.2) ∧
    r.kind = close ∧ us = vs ++ [r] ∧ xs = parts.map (·.2)

theorem Listed.map {S : List Token → β → Prop} {close : Kind} {xs : List α} (f : α → β)
    (listed : Listed R close us xs) (imp : ∀ {us x}, R us x → S us (f x)) :
    Listed S close us (xs.map f) := by
  obtain ⟨parts, vs, r, joined, reads, kind, rfl, rfl⟩ := listed
  refine ⟨parts.map fun q => (q.1, f q.2), vs, r, ?_, ?_, kind, rfl, ?_⟩
  · simpa [Function.comp_def] using joined
  · intro q member
    obtain ⟨q, old, rfl⟩ := List.mem_map.mp member
    exact imp (reads q old)
  · simp [Function.comp_def]

theorem Listed.all {P : α → Prop} {close : Kind} {xs : List α} (listed : Listed R close us xs)
    (imp : ∀ {us x}, R us x → P x) : ∀ x ∈ xs, P x := by
  obtain ⟨parts, _, _, _, reads, _, _, rfl⟩ := listed
  intro x member
  obtain ⟨q, part, rfl⟩ := List.mem_map.mp member
  exact imp (reads q part)

theorem reads_moreItems (item : Reads R p) {n : Nat} {done xs : List α}
    (h : moreItems p n done ts = .ok (xs, rest)) : Extends (Led R) done ts xs rest := by
  have none : Led R [] [] := ⟨[], .nil, by simp, rfl⟩
  induction n generalizing ts done with
  | zero => exact .stop none h
  | succ n ih =>
    rw [moreItems, peekIs_bind] at h
    split at h
    · next comma =>
      obtain ⟨c, ahead, kind⟩ := any_kind_eq_true.mp comma
      rw [advance_bind] at h
      obtain ⟨x, mid, one, h⟩ := bind_ok.mp h
      obtain ⟨us, takes, read⟩ := item one
      refine .step ((takes_skip ahead).append takes) (ih h) ?_
      rintro vs more ⟨parts, led, reads, rfl⟩
      exact ⟨(us, x) :: parts, .cons c kind led, List.forall_mem_cons.mpr ⟨read, reads⟩, rfl⟩
    · exact .stop none h

theorem reads_listUntil (item : Reads R p) (bound : Nat) (close : Kind) :
    Reads (Listed R close) (listUntil bound close p) := by
  intro ts xs rest h
  rw [listUntil, peekIs_bind] at h
  split at h
  · simp only [pure_bind] at h
    obtain ⟨r, mid, eaten, h⟩ := bind_ok.mp h
    obtain ⟨_, takes, rfl, kind⟩ := reads_eat close eaten
    obtain ⟨rfl, rfl⟩ := pure_ok.mp h
    exact ⟨[r], takes, [], [], r, .nil, by simp, kind, rfl, rfl⟩
  · obtain ⟨x, front, one, h⟩ := bind_ok.mp h
    obtain ⟨items, mid, between, h⟩ := bind_ok.mp h
    obtain ⟨r, last, eaten, h⟩ := bind_ok.mp h
    obtain ⟨us, first, read⟩ := item one
    obtain ⟨vs, more, others, ⟨parts, led, reads, rfl⟩, rfl⟩ := reads_moreItems item between
    obtain ⟨_, takes, rfl, kind⟩ := reads_eat close eaten
    obtain ⟨rfl, rfl⟩ := pure_ok.mp h
    exact ⟨us ++ vs ++ [r], (first.append others).append takes, (us, x) :: parts, us ++ vs, r,
      .cons led, List.forall_mem_cons.mpr ⟨read, reads⟩, kind, rfl, by simp⟩

theorem nodup_of_firstDuplicate? {seen names : List String}
    (none : firstDuplicate? seen names = none) : names.Nodup ∧ ∀ n ∈ names, n ∉ seen := by
  induction names generalizing seen with
  | nil => simp
  | cons name names ih =>
    rw [firstDuplicate?] at none
    split at none
    · cases none
    · next fresh =>
      obtain ⟨distinct, apart⟩ := ih none
      refine ⟨List.nodup_cons.mpr ⟨fun member => apart name member (List.mem_cons_self ..), distinct⟩, ?_⟩
      intro n member
      rcases List.mem_cons.mp member with rfl | member
      · simpa using fresh
      · exact fun old => apart n member (List.mem_cons_of_mem _ old)

/-- Parts that are single names, as the list of their words. -/
theorem exists_names {parts : List (List Token × String)}
    (idents : ∀ q ∈ parts, ∃ t : Token, q.1 = [t] ∧ t.kind = .ident ∧ q.2 = t.text) :
    ∃ names : List Token, parts.map (·.1) = names.map ([·]) ∧ parts.map (·.2) = names.map (·.text) ∧
      ∀ t ∈ names, t.kind = .ident := by
  induction parts with
  | nil => exact ⟨[], rfl, rfl, by simp⟩
  | cons q parts ih =>
    obtain ⟨⟨t, word, kind, text⟩, others⟩ := List.forall_mem_cons.mp idents
    obtain ⟨names, yields, texts, kinds⟩ := ih others
    exact ⟨t :: names, by simp [word, yields], by simp [text, texts],
      List.forall_mem_cons.mpr ⟨kind, kinds⟩⟩

theorem reads_params (bound : Nat) :
    Reads (fun us names => names.Nodup ∧ ∀ l : Token, l.kind = .lparen → Params (l :: us) names)
      (params bound) := by
  intro ts names rest h
  rw [params, peek_bind] at h
  obtain ⟨found, mid, listed, h⟩ := bind_ok.mp h
  obtain ⟨us, takes, parts, vs, r, joined, idents, closes, rfl, rfl⟩ :=
    reads_listUntil reads_eatName bound .rparen listed
  cases duplicate : firstDuplicate? [] (parts.map (·.2)) with
  | some name =>
    simp only [duplicate] at h
    cases h
  | none =>
    simp only [duplicate] at h
    obtain ⟨rfl, rfl⟩ := pure_ok.mp h
    have distinct := (nodup_of_firstDuplicate? duplicate).1
    obtain ⟨names, yields, texts, kinds⟩ := exists_names idents
    refine ⟨vs ++ [r], takes, distinct, fun l opens => ?_⟩
    rw [texts]
    exact .list l r opens kinds (yields ▸ joined) (texts ▸ distinct) closes

/-! ### Expressions -/

/-- A tree is that of a phrase of tier `n`, but for remarks. -/
def PhraseRead (n : Nat) (us : List Token) (e : Expr) : Prop := Phrase n us (e.view bare) ∧ e.Tidy

def BlockRead (us : List Token) (cs : List Command) : Prop := Block us (viewBlock bare cs) ∧ TidyBlock cs

/-- The parsers for nested phrases follow the grammar. -/
structure Inner.Sound (inner : Inner) : Prop where
  expr : Reads (PhraseRead topTier) inner.expr
  block : ∀ ending, Reads BlockRead (inner.block ending)

theorem Listed.phrases {close : Kind} {es : List Expr}
    (listed : Listed (PhraseRead topTier) close us es) :
    Listed (Phrase topTier) close us (viewExprs bare es) ∧ TidyExprs es := by
  rw [viewExprs_eq]
  exact ⟨listed.map _ And.left, tidyExprs_iff.mpr (listed.all And.right)⟩

theorem Listed.arguments {es : List Expr} (listed : Listed (PhraseRead topTier) .rparen us es)
    {l : Token} (opens : l.kind = .lparen) :
    Arguments (l :: us) (viewExprs bare es) ∧ TidyExprs es := by
  obtain ⟨⟨parts, vs, r, joined, items, closes, rfl, same⟩, tidy⟩ := listed.phrases
  rw [same]
  exact ⟨.list l r opens items joined closes, tidy⟩

variable {inner : Inner}

theorem reads_lambdaBody (sound : inner.Sound) (pos : Position) :
    Reads (fun us body => ∃ (arrow : Token) (vs : List Token), us = arrow :: vs ∧
      arrow.kind = .arrow ∧ Body pos vs (viewBlock bare body) ∧ TidyBlock body)
      (lambdaBody inner pos) := by
  intro ts body rest h
  rw [lambdaBody] at h
  obtain ⟨arrow, after, eaten, h⟩ := bind_ok.mp h
  obtain ⟨_, first, rfl, arrowKind⟩ := reads_eat .arrow eaten
  rw [peekIs_bind] at h
  split at h
  · next brace =>
    obtain ⟨l, ahead, opens⟩ := any_kind_eq_true.mp brace
    rw [advance_bind] at h
    obtain ⟨cs, mid, read, h⟩ := bind_ok.mp h
    obtain ⟨us, middle, commands, tidy⟩ := sound.block .brace read
    obtain ⟨r, last, eaten, h⟩ := bind_ok.mp h
    obtain ⟨_, final, rfl, closes⟩ := reads_eat .rbrace eaten
    obtain ⟨rfl, rfl⟩ := pure_ok.mp h
    exact ⟨[arrow] ++ ([l] ++ us ++ [r]),
      first.append (((takes_skip ahead).append middle).append final),
      arrow, _, rfl, arrowKind, .block l r opens commands closes, tidy⟩
  · next other =>
    obtain ⟨e, mid, read, h⟩ := bind_ok.mp h
    obtain ⟨us, takes, phrase, tidy⟩ := sound.expr read
    obtain ⟨rfl, rfl⟩ := pure_ok.mp h
    refine ⟨[arrow] ++ us, first.append takes, arrow, us, rfl, arrowKind, ?_, tidy, trivial⟩
    refine .result phrase fun t member => ?_
    rw [Bool.not_eq_true, any_kind_eq_false, takes.words_eq] at other
    refine other t ?_
    cases us with
    | nil => cases member
    | cons u us => exact member

theorem reads_number (negative : Bool) :
    Reads (fun us x => ∃ (t : Token) (y : Float), us = [t] ∧ t.kind = .number ∧
      Decimal.read? t.text = some y ∧ x = if negative then -y else y) (number negative) := by
  intro ts x rest h
  rw [number] at h
  obtain ⟨t, mid, eaten, h⟩ := bind_ok.mp h
  obtain ⟨_, takes, rfl, kind⟩ := reads_eat .number eaten
  cases reads : Decimal.read? t.text with
  | none =>
    simp only [reads] at h
    cases h
  | some y =>
    simp only [reads] at h
    obtain ⟨rfl, rfl⟩ := pure_ok.mp h
    exact ⟨[t], takes, t, y, rfl, kind, reads, rfl⟩

theorem reads_entry (sound : inner.Sound) :
    Reads (fun us e => Entry us (e.1, e.2.view bare) ∧ e.2.Tidy) (entry inner) := by
  intro ts e rest h
  rw [entry, peek_bind] at h
  cases ahead : (words ts).head? with
  | none =>
    rw [ahead] at h
    exact absurd h stuck_ne_ok
  | some t =>
    simp only [ahead] at h
    split at h
    · next kind =>
      rw [advance_bind] at h
      obtain ⟨colon, mid, eaten, h⟩ := bind_ok.mp h
      obtain ⟨_, second, rfl, colonKind⟩ := reads_eat .colon eaten
      obtain ⟨value, last, read, h⟩ := bind_ok.mp h
      obtain ⟨us, third, phrase, tidy⟩ := sound.expr read
      obtain ⟨rfl, rfl⟩ := pure_ok.mp h
      exact ⟨[t] ++ ([colon] ++ us), (takes_skip ahead).append (second.append third),
        .pair t colon kind colonKind phrase, tidy⟩
    · exact absurd h stuck_ne_ok

/-- Argument lists one behind another. -/
def Grouped (us : List Token) (gs : List (List Expr)) : Prop :=
  ∃ parts : List (List Token × List Expr), (∀ q ∈ parts, Arguments q.1 q.2) ∧
    us = (parts.map (·.1)).flatten ∧ viewGroups bare gs = parts.map (·.2) ∧ TidyGroups gs

theorem reads_moreGroups (sound : inner.Sound) {n : Nat} {done gs : List (List Expr)}
    (h : moreGroups inner n done ts = .ok (gs, rest)) : Extends Grouped done ts gs rest := by
  have none : Grouped [] [] := ⟨[], by simp, rfl, rfl, trivial⟩
  induction n generalizing ts done with
  | zero => exact .stop none h
  | succ n ih =>
    rw [moreGroups, peekIs_bind] at h
    split at h
    · next paren =>
      obtain ⟨l, ahead, opens⟩ := any_kind_eq_true.mp paren
      rw [advance_bind] at h
      obtain ⟨args, mid, listed, h⟩ := bind_ok.mp h
      obtain ⟨us, takes, read⟩ := reads_listUntil sound.expr _ _ listed
      obtain ⟨arguments, tidy⟩ := read.arguments opens
      refine .step ((takes_skip ahead).append takes) (ih h) ?_
      rintro vs more ⟨parts, reads, rfl, same, others⟩
      exact ⟨(l :: us, viewExprs bare args) :: parts,
        List.forall_mem_cons.mpr ⟨arguments, reads⟩, rfl, by simp [viewGroups, same], tidy, others⟩
    · exact .stop none h

theorem reads_callee (sound : inner.Sound) :
    Reads (fun us c => ∃ (t : Token) (vs : List Token), us = t :: vs ∧ t.kind = .ident ∧ c.1 = t.text ∧
      Applied vs (viewExprs bare c.2.1) (viewGroups bare c.2.2) ∧ TidyExprs c.2.1 ∧ TidyGroups c.2.2)
      (callee inner) := by
  intro ts c rest h
  rw [callee] at h
  obtain ⟨name, after, named, h⟩ := bind_ok.mp h
  obtain ⟨_, first, t, rfl, kind, rfl⟩ := reads_eatName named
  obtain ⟨l, mid, eaten, h⟩ := bind_ok.mp h
  obtain ⟨_, second, rfl, opens⟩ := reads_eat .lparen eaten
  obtain ⟨args, back, listed, h⟩ := bind_ok.mp h
  obtain ⟨us, third, read⟩ := reads_listUntil sound.expr _ _ listed
  obtain ⟨arguments, tidy⟩ := read.arguments opens
  obtain ⟨more, last, grouped, h⟩ := bind_ok.mp h
  obtain ⟨_, _, fourth, ⟨parts, groups, rfl, same, others⟩, rfl⟩ := reads_moreGroups sound grouped
  obtain ⟨rfl, rfl⟩ := pure_ok.mp h
  refine ⟨[t] ++ ([l] ++ us ++ (parts.map (·.1)).flatten),
    first.append ((second.append third).append fourth), t, _, rfl, kind, rfl, ?_, tidy, others⟩
  change Applied _ (viewExprs bare args) (viewGroups bare more)
  rw [same]
  exact .groups arguments groups

/-- A tree is that of a value, but for remarks. -/
def PrimaryRead (us : List Token) (e : Expr) : Prop := Primary us (e.view bare) ∧ e.Tidy

theorem reads_named (sound : inner.Sound) {t : Token} {e : Expr} (ahead : (words ts).head? = some t)
    (h : named inner t.pos ts = .ok (e, rest)) : ∃ us, Takes us ts rest ∧ PrimaryRead us e := by
  rw [named, secondIs_bind] at h
  split at h
  · obtain ⟨name, mid, eaten, h⟩ := bind_ok.mp h
    obtain ⟨_, first, u, rfl, kind, rfl⟩ := reads_eatName eaten
    obtain rfl := first.first ahead
    obtain ⟨body, last, read, h⟩ := bind_ok.mp h
    obtain ⟨_, second, arrow, us, rfl, arrowKind, body', tidy⟩ := reads_lambdaBody sound _ read
    obtain ⟨rfl, rfl⟩ := pure_ok.mp h
    exact ⟨[u] ++ (arrow :: us), first.append second, .unary u arrow kind arrowKind body',
      List.pairwise_singleton .., tidy⟩
  · rw [secondIs_bind] at h
    split at h
    · obtain ⟨c, mid, read, h⟩ := bind_ok.mp h
      obtain ⟨_, takes, u, us, rfl, kind, text, applied, tidy⟩ := reads_callee sound read
      obtain rfl := takes.first ahead
      obtain ⟨rfl, rfl⟩ := pure_ok.mp h
      refine ⟨u :: us, takes, ?_, tidy⟩
      rw [text]
      exact .call u kind applied
    · obtain ⟨name, mid, eaten, h⟩ := bind_ok.mp h
      obtain ⟨_, takes, u, rfl, kind, rfl⟩ := reads_eatName eaten
      obtain rfl := takes.first ahead
      obtain ⟨rfl, rfl⟩ := pure_ok.mp h
      exact ⟨[u], takes, .variable u kind, trivial⟩

theorem reads_parenthesised (sound : inner.Sound) {t : Token} {e : Expr}
    (ahead : (words ts).head? = some t) (opens : t.kind = .lparen)
    (h : parenthesised inner t.pos ts = .ok (e, rest)) :
    ∃ us, Takes us ts rest ∧ PrimaryRead us e := by
  rw [parenthesised, lambdaAhead_bind] at h
  have first := takes_skip ahead
  split at h
  · rw [advance_bind] at h
    obtain ⟨names, mid, listed, h⟩ := bind_ok.mp h
    obtain ⟨us, second, distinct, list⟩ := reads_params _ listed
    obtain ⟨body, last, read, h⟩ := bind_ok.mp h
    obtain ⟨_, third, arrow, vs, rfl, arrowKind, body', tidy⟩ := reads_lambdaBody sound _ read
    obtain ⟨rfl, rfl⟩ := pure_ok.mp h
    exact ⟨[t] ++ us ++ (arrow :: vs), (first.append second).append third,
      .lambda t arrow (list t opens) arrowKind body', distinct, tidy⟩
  · rw [advance_bind] at h
    obtain ⟨e, mid, read, h⟩ := bind_ok.mp h
    obtain ⟨us, second, phrase, tidy⟩ := sound.expr read
    obtain ⟨r, last, eaten, h⟩ := bind_ok.mp h
    obtain ⟨_, third, rfl, closes⟩ := reads_eat .rparen eaten
    obtain ⟨rfl, rfl⟩ := pure_ok.mp h
    exact ⟨[t] ++ us ++ [r], (first.append second).append third,
      .nested t r opens phrase closes, tidy⟩

theorem reads_signedNumber {t : Token} {e : Expr} (ahead : (words ts).head? = some t)
    (sign : t.kind = .minus ∨ t.kind = .plus) (h : signedNumber t ts = .ok (e, rest)) :
    ∃ us, Takes us ts rest ∧ PrimaryRead us e := by
  rw [signedNumber, secondIs_bind] at h
  split at h
  · rw [advance_bind] at h
    obtain ⟨x, mid, read, h⟩ := bind_ok.mp h
    obtain ⟨_, takes, u, y, rfl, kind, reads, rfl⟩ := reads_number _ read
    obtain ⟨rfl, rfl⟩ := pure_ok.mp h
    refine ⟨[t] ++ [u], (takes_skip ahead).append takes, ?_, trivial⟩
    simpa [Expr.view] using Primary.signed t u sign kind reads
  · exact absurd h stuck_ne_ok

theorem reads_atom (sound : inner.Sound) : Reads PrimaryRead (atom inner) := by
  intro ts e rest h
  rw [atom, peek_bind] at h
  cases ahead : (words ts).head? with
  | none =>
    rw [ahead] at h
    exact absurd h stuck_ne_ok
  | some t =>
    have first := takes_skip ahead
    cases kind : t.kind <;> simp only [ahead, kind] at h
    case number =>
      obtain ⟨x, mid, read, h⟩ := bind_ok.mp h
      obtain ⟨_, takes, u, y, rfl, kind, reads, rfl⟩ := reads_number _ read
      obtain rfl := takes.first ahead
      obtain ⟨rfl, rfl⟩ := pure_ok.mp h
      exact ⟨[u], takes, .number u kind reads, trivial⟩
    case minus => exact reads_signedNumber ahead (.inl kind) h
    case plus => exact reads_signedNumber ahead (.inr kind) h
    case trueWord =>
      rw [advance_bind] at h
      obtain ⟨rfl, rfl⟩ := pure_ok.mp h
      exact ⟨[t], first, .bool t true kind, trivial⟩
    case falseWord =>
      rw [advance_bind] at h
      obtain ⟨rfl, rfl⟩ := pure_ok.mp h
      exact ⟨[t], first, .bool t false kind, trivial⟩
    case nullWord =>
      rw [advance_bind] at h
      obtain ⟨rfl, rfl⟩ := pure_ok.mp h
      exact ⟨[t], first, .null t kind, trivial⟩
    case string =>
      rw [advance_bind] at h
      obtain ⟨rfl, rfl⟩ := pure_ok.mp h
      exact ⟨[t], first, .string t kind, trivial⟩
    case lbracket =>
      rw [advance_bind] at h
      obtain ⟨items, mid, listed, h⟩ := bind_ok.mp h
      obtain ⟨us, takes, read⟩ := reads_listUntil sound.expr _ _ listed
      obtain ⟨⟨parts, vs, r, joined, phrases, closes, rfl, same⟩, tidy⟩ := read.phrases
      obtain ⟨rfl, rfl⟩ := pure_ok.mp h
      refine ⟨[t] ++ (vs ++ [r]), first.append takes, ?_, tidy⟩
      rw [Expr.view, same]
      exact .array t r kind phrases joined closes
    case lbrace =>
      rw [advance_bind] at h
      obtain ⟨entries, mid, listed, h⟩ := bind_ok.mp h
      obtain ⟨us, takes, read⟩ := reads_listUntil (reads_entry sound) _ _ listed
      have tidy := tidyEntries_iff.mpr (read.all And.right)
      obtain ⟨parts, vs, r, joined, pairs, closes, rfl, same⟩ :=
        read.map (fun e => (e.1, e.2.view bare)) And.left
      obtain ⟨rfl, rfl⟩ := pure_ok.mp h
      refine ⟨[t] ++ (vs ++ [r]), first.append takes, ?_, tidy⟩
      rw [Expr.view, viewEntries_eq, same]
      exact .map t r kind pairs joined closes
    case lparen => exact reads_parenthesised sound ahead kind h
    case ident => exact reads_named sound ahead h
    all_goals exact absurd h stuck_ne_ok

theorem reads_moreIndexes (sound : inner.Sound) {n : Nat} {base e : Expr} (value : PrimaryRead vs base)
    (h : moreIndexes inner n base ts = .ok (e, rest)) :
    ∃ us, Takes us ts rest ∧ PrimaryRead (vs ++ us) e := by
  induction n generalizing ts base vs with
  | zero =>
    obtain ⟨rfl, rfl⟩ := pure_ok.mp h
    exact ⟨[], Takes.nil _, by rwa [List.append_nil]⟩
  | succ n ih =>
    rw [moreIndexes, peekIs_bind] at h
    split at h
    · obtain ⟨l, mid, eaten, h⟩ := bind_ok.mp h
      obtain ⟨_, first, rfl, opens⟩ := reads_eat .lbracket eaten
      obtain ⟨key, after, read, h⟩ := bind_ok.mp h
      obtain ⟨us, second, phrase, tidy⟩ := sound.expr read
      obtain ⟨r, last, eaten, h⟩ := bind_ok.mp h
      obtain ⟨_, third, rfl, closes⟩ := reads_eat .rbracket eaten
      have longer : PrimaryRead (vs ++ ([l] ++ us ++ [r])) (.index l.pos base key) :=
        ⟨.index l r value.1 opens phrase closes, value.2, tidy⟩
      obtain ⟨ws, others, read⟩ := ih longer h
      rw [List.append_assoc] at read
      exact ⟨_, ((first.append second).append third).append others, read⟩
    · obtain ⟨rfl, rfl⟩ := pure_ok.mp h
      exact ⟨[], Takes.nil _, by rwa [List.append_nil]⟩

theorem reads_indexed (sound : inner.Sound) : Reads (PhraseRead 0) (indexed inner) := by
  intro ts e rest h
  rw [indexed] at h
  obtain ⟨base, mid, read, h⟩ := bind_ok.mp h
  obtain ⟨us, first, value⟩ := reads_atom sound read
  obtain ⟨vs, second, value, tidy⟩ := reads_moreIndexes sound value h
  exact ⟨us ++ vs, first.append second, .value value, tidy⟩

theorem reads_power (sound : inner.Sound) : Reads (PhraseRead 1) (power inner) := by
  intro ts e rest h
  rw [power] at h
  obtain ⟨base, mid, read, h⟩ := bind_ok.mp h
  obtain ⟨us, first, left, tidyLeft⟩ := reads_indexed sound read
  rw [peekIs_bind] at h
  split at h
  · next caret =>
    obtain ⟨t, ahead, kind⟩ := any_kind_eq_true.mp caret
    rw [advance_bind] at h
    obtain ⟨exponent, last, read, h⟩ := bind_ok.mp h
    obtain ⟨vs, second, right, tidyRight⟩ := reads_indexed sound read
    obtain ⟨rfl, rfl⟩ := pure_ok.mp h
    refine ⟨us ++ ([t] ++ vs), first.append ((takes_skip ahead).append second), ?_, tidyLeft, tidyRight⟩
    have node := Phrase.power t kind left right
    rwa [pos_view] at node
  · obtain ⟨rfl, rfl⟩ := pure_ok.mp h
    exact ⟨us, first, .looser left, tidyLeft⟩

/-- The words that `operator` takes for operators are those of tier `n`. -/
def Writes (operator : Kind → Option Operator) (n : Nat) : Prop :=
  ∀ {kind op}, operator kind = some op → op.tier = n ∧ kind = op.kind

theorem reads_moreOperands {operator : Kind → Option Operator} {operand : Parser Expr} {k : Nat}
    (writes : Writes operator (k + 2)) (sound : Reads (PhraseRead (k + 1)) operand) {n : Nat}
    {left e : Expr} (phrase : PhraseRead (k + 2) vs left)
    (h : moreOperands operator operand n left ts = .ok (e, rest)) :
    ∃ us, Takes us ts rest ∧ PhraseRead (k + 2) (vs ++ us) e := by
  induction n generalizing ts left vs with
  | zero =>
    obtain ⟨rfl, rfl⟩ := pure_ok.mp h
    exact ⟨[], Takes.nil _, by rwa [List.append_nil]⟩
  | succ n ih =>
    rw [moreOperands, peek_bind] at h
    cases found : (words ts).head?.bind (operator ·.kind) with
    | none =>
      simp only [found] at h
      obtain ⟨rfl, rfl⟩ := pure_ok.mp h
      exact ⟨[], Takes.nil _, by rwa [List.append_nil]⟩
    | some op =>
      simp only [found] at h
      obtain ⟨t, ahead, isOp⟩ := Option.bind_eq_some_iff.mp found
      obtain ⟨tier, kind⟩ := writes isOp
      rw [advance_bind] at h
      obtain ⟨right, mid, read, h⟩ := bind_ok.mp h
      obtain ⟨us, takes, phrase', tidy⟩ := sound read
      have node := Phrase.binary t op tier kind phrase.1 phrase'
      rw [pos_view] at node
      have longer : PhraseRead (k + 2) (vs ++ t :: us) (.binary left.pos op left right) :=
        ⟨node, phrase.2, tidy⟩
      obtain ⟨ws, others, read⟩ := ih longer h
      rw [List.append_assoc] at read
      exact ⟨_, ((takes_skip ahead).append takes).append others, read⟩

theorem reads_chain {operator : Kind → Option Operator} {operand : Parser Expr} {k : Nat}
    (writes : Writes operator (k + 2)) (sound : Reads (PhraseRead (k + 1)) operand) (bound : Nat) :
    Reads (PhraseRead (k + 2)) (chain bound operator operand) := by
  intro ts e rest h
  rw [chain] at h
  obtain ⟨first, mid, read, h⟩ := bind_ok.mp h
  obtain ⟨us, takes, phrase, tidy⟩ := sound read
  obtain ⟨vs, others, read⟩ := reads_moreOperands writes sound ⟨.looser phrase, tidy⟩ h
  exact ⟨us ++ vs, takes.append others, read⟩

theorem writes_product : Writes productOperator 2 := by
  intro kind op h
  cases kind <;> cases h <;> exact ⟨rfl, rfl⟩

theorem writes_sum : Writes sumOperator 3 := by
  intro kind op h
  cases kind <;> cases h <;> exact ⟨rfl, rfl⟩

theorem writes_comparison : Writes comparisonOperator 4 := by
  intro kind op h
  cases kind <;> cases h <;> exact ⟨rfl, rfl⟩

theorem writes_logic : Writes logicOperator 5 := by
  intro kind op h
  cases kind <;> cases h <;> exact ⟨rfl, rfl⟩

theorem reads_logic (sound : inner.Sound) : Reads (PhraseRead topTier) (logic inner) :=
  reads_chain writes_logic (reads_chain writes_comparison (reads_chain writes_sum
    (reads_chain writes_product (reads_power sound) _) _) _) _

/-! ### Commands -/

def IndexesRead (us : List Token) (keys : List Expr) : Prop :=
  Indexes us (viewExprs bare keys) ∧ TidyExprs keys

theorem reads_placeIndexes (sound : inner.Sound) {n : Nat} {done keys : List Expr}
    (h : placeIndexes inner n done ts = .ok (keys, rest)) :
    Extends IndexesRead done ts keys rest := by
  have none : IndexesRead [] [] := ⟨.nil, trivial⟩
  induction n generalizing ts done with
  | zero => exact .stop none h
  | succ n ih =>
    rw [placeIndexes, peekIs_bind] at h
    split at h
    · next bracket =>
      obtain ⟨l, ahead, opens⟩ := any_kind_eq_true.mp bracket
      rw [advance_bind] at h
      obtain ⟨key, mid, read, h⟩ := bind_ok.mp h
      obtain ⟨us, takes, phrase, tidy⟩ := sound.expr read
      obtain ⟨r, last, eaten, h⟩ := bind_ok.mp h
      obtain ⟨_, final, rfl, closes⟩ := reads_eat .rbracket eaten
      refine .step (((takes_skip ahead).append takes).append final) (ih h) ?_
      rintro vs more ⟨others, tidyMore⟩
      refine ⟨?_, tidy, tidyMore⟩
      simpa [viewExprs] using Indexes.cons l r opens phrase closes others
    · exact .stop none h

theorem reads_place (sound : inner.Sound) :
    Reads (fun us p => ∃ (t : Token) (vs : List Token), us = t :: vs ∧ t.kind = .ident ∧ p.1 = t.text ∧
      IndexesRead vs p.2) (place inner) := by
  intro ts p rest h
  rw [place] at h
  obtain ⟨name, mid, eaten, h⟩ := bind_ok.mp h
  obtain ⟨_, first, t, rfl, kind, rfl⟩ := reads_eatName eaten
  obtain ⟨keys, last, read, h⟩ := bind_ok.mp h
  obtain ⟨us, _, second, indexes, rfl⟩ := reads_placeIndexes sound read
  obtain ⟨rfl, rfl⟩ := pure_ok.mp h
  exact ⟨[t] ++ us, first.append second, t, us, rfl, kind, rfl, indexes⟩

theorem reads_assignment (sound : inner.Sound) {t : Token} {a : String × List Expr × Expr}
    (ahead : (words ts).head? = some t) (h : assignment inner ts = .ok (a, rest)) :
    ∃ us, Takes us ts rest ∧ TidyExprs a.2.1 ∧ a.2.2.Tidy ∧ ∀ semi : Token, semi.kind = .semicolon →
      Statement (us ++ [semi]) (.assign t.pos a.1 (viewExprs bare a.2.1) (a.2.2.view bare)) := by
  rw [assignment] at h
  obtain ⟨l, after, eaten, h⟩ := bind_ok.mp h
  obtain ⟨_, first, rfl, word⟩ := reads_eat .letWord eaten
  obtain rfl := first.first ahead
  obtain ⟨p, mid, read, h⟩ := bind_ok.mp h
  obtain ⟨_, second, name, us, rfl, ident, text, indexes, tidyIndexes⟩ := reads_place sound read
  obtain ⟨eq, back, eaten, h⟩ := bind_ok.mp h
  obtain ⟨_, third, rfl, eqKind⟩ := reads_eat .equal eaten
  obtain ⟨value, last, read, h⟩ := bind_ok.mp h
  obtain ⟨vs, fourth, phrase, tidy⟩ := sound.expr read
  obtain ⟨rfl, rfl⟩ := pure_ok.mp h
  refine ⟨_, ((first.append second).append third).append fourth, tidyIndexes, tidy, ?_⟩
  intro semi closes
  rw [text]
  simpa using Statement.assign l name eq semi word ident indexes eqKind phrase closes

theorem reads_definition (sound : inner.Sound) {t : Token} {d : String × List String × List Command}
    (ahead : (words ts).head? = some t) (h : definition inner ts = .ok (d, rest)) :
    ∃ us, Takes us ts rest ∧ d.2.1.Nodup ∧ TidyBlock d.2.2 ∧
      Statement us (.define t.pos d.1 d.2.1 (viewBlock bare d.2.2)) := by
  rw [definition] at h
  obtain ⟨w, after, eaten, h⟩ := bind_ok.mp h
  obtain ⟨_, first, rfl, word⟩ := reads_eat .defWord eaten
  obtain rfl := first.first ahead
  obtain ⟨name, mid, eaten, h⟩ := bind_ok.mp h
  obtain ⟨_, second, name, rfl, ident, rfl⟩ := reads_eatName eaten
  obtain ⟨l, front, eaten, h⟩ := bind_ok.mp h
  obtain ⟨_, third, rfl, opens⟩ := reads_eat .lparen eaten
  obtain ⟨names, inside, listed, h⟩ := bind_ok.mp h
  obtain ⟨us, fourth, distinct, list⟩ := reads_params _ listed
  obtain ⟨body, back, read, h⟩ := bind_ok.mp h
  obtain ⟨vs, fifth, commands, tidy⟩ := sound.block .endWord read
  obtain ⟨stop, last, eaten, h⟩ := bind_ok.mp h
  obtain ⟨_, sixth, rfl, closes⟩ := reads_eat .endWord eaten
  obtain ⟨rfl, rfl⟩ := pure_ok.mp h
  refine ⟨_, ((first.append second).append (third.append fourth)).append (fifth.append sixth),
    distinct, tidy, ?_⟩
  simpa using Statement.define w name stop word ident (list l opens) commands closes

theorem reads_condition (sound : inner.Sound) :
    Reads (fun us e => Condition us (e.view bare) ∧ e.Tidy) (condition inner) := by
  intro ts e rest h
  rw [condition] at h
  obtain ⟨l, after, eaten, h⟩ := bind_ok.mp h
  obtain ⟨_, first, rfl, opens⟩ := reads_eat .lparen eaten
  obtain ⟨e, mid, read, h⟩ := bind_ok.mp h
  obtain ⟨us, second, phrase, tidy⟩ := sound.expr read
  obtain ⟨r, last, eaten, h⟩ := bind_ok.mp h
  obtain ⟨_, third, rfl, closes⟩ := reads_eat .rparen eaten
  obtain ⟨rfl, rfl⟩ := pure_ok.mp h
  exact ⟨[l] ++ us ++ [r], (first.append second).append third, .nested l r opens phrase closes, tidy⟩

theorem reads_otherwise (sound : inner.Sound) :
    Reads (fun us body => ∃ (vs : List Token) (stop : Token), us = vs ++ [stop] ∧
      stop.kind = .endWord ∧ Otherwise vs (viewBlock bare body) ∧ TidyBlock body)
      (otherwise inner) := by
  intro ts body rest h
  rw [otherwise, peekIs_bind] at h
  split at h
  · next word =>
    obtain ⟨l, ahead, kind⟩ := any_kind_eq_true.mp word
    rw [advance_bind] at h
    obtain ⟨cs, mid, read, h⟩ := bind_ok.mp h
    obtain ⟨us, second, commands, tidy⟩ := sound.block .endWord read
    obtain ⟨stop, last, eaten, h⟩ := bind_ok.mp h
    obtain ⟨_, third, rfl, closes⟩ := reads_eat .endWord eaten
    obtain ⟨rfl, rfl⟩ := pure_ok.mp h
    exact ⟨[l] ++ us ++ [stop], ((takes_skip ahead).append second).append third,
      l :: us, stop, rfl, closes, .some l kind commands, tidy⟩
  · simp only [pure_bind] at h
    obtain ⟨stop, last, eaten, h⟩ := bind_ok.mp h
    obtain ⟨_, takes, rfl, closes⟩ := reads_eat .endWord eaten
    obtain ⟨rfl, rfl⟩ := pure_ok.mp h
    exact ⟨[stop], takes, [], stop, rfl, closes, .none, trivial⟩

theorem reads_command (sound : inner.Sound) {t : Token} {c : Command}
    (ahead : (words ts).head? = some t) (h : command inner t ts = .ok (c, rest)) :
    ∃ us, Takes us ts rest ∧ Statement us (c.view bare) ∧ c.Tidy ∧ c.isRemark = false := by
  rw [command] at h
  have first := takes_skip ahead
  cases kind : t.kind <;> simp only [kind] at h
  case letWord =>
    obtain ⟨a, mid, read, h⟩ := bind_ok.mp h
    obtain ⟨us, takes, tidyIndexes, tidy, statement⟩ := reads_assignment sound ahead read
    obtain ⟨semi, last, eaten, h⟩ := bind_ok.mp h
    obtain ⟨_, final, rfl, closes⟩ := reads_eat .semicolon eaten
    obtain ⟨rfl, rfl⟩ := pure_ok.mp h
    exact ⟨us ++ [semi], takes.append final, statement semi closes, ⟨tidyIndexes, tidy⟩, rfl⟩
  case delWord =>
    rw [advance_bind] at h
    obtain ⟨p, mid, read, h⟩ := bind_ok.mp h
    obtain ⟨_, second, name, us, rfl, ident, text, indexes, tidy⟩ := reads_place sound read
    split at h
    · cases h
    · next some =>
      obtain ⟨semi, last, eaten, h⟩ := bind_ok.mp h
      obtain ⟨_, third, rfl, closes⟩ := reads_eat .semicolon eaten
      obtain ⟨rfl, rfl⟩ := pure_ok.mp h
      have some : p.2 ≠ [] := by simpa using some
      have kept : viewExprs bare p.2 ≠ [] := by simpa [viewExprs_eq] using some
      refine ⟨_, (first.append second).append third, ?_, ⟨some, tidy⟩, rfl⟩
      rw [text]
      simpa [Command.view] using Statement.delete t name semi kind ident indexes kept closes
  case returnWord =>
    rw [advance_bind] at h
    obtain ⟨value, mid, read, h⟩ := bind_ok.mp h
    obtain ⟨us, second, phrase, tidy⟩ := sound.expr read
    obtain ⟨semi, last, eaten, h⟩ := bind_ok.mp h
    obtain ⟨_, third, rfl, closes⟩ := reads_eat .semicolon eaten
    obtain ⟨rfl, rfl⟩ := pure_ok.mp h
    exact ⟨[t] ++ us ++ [semi], (first.append second).append third,
      .result t semi kind phrase closes, tidy, rfl⟩
  case ifWord =>
    rw [advance_bind] at h
    obtain ⟨test, front, read, h⟩ := bind_ok.mp h
    obtain ⟨us, second, condition, tidy⟩ := reads_condition sound read
    obtain ⟨yes, mid, read, h⟩ := bind_ok.mp h
    obtain ⟨vs, third, commands, tidyYes⟩ := sound.block .elseWord read
    obtain ⟨no, last, read, h⟩ := bind_ok.mp h
    obtain ⟨_, fourth, ws, stop, rfl, closes, other, tidyNo⟩ := reads_otherwise sound read
    obtain ⟨rfl, rfl⟩ := pure_ok.mp h
    refine ⟨_, ((first.append second).append third).append fourth, ?_, ⟨tidy, tidyYes, tidyNo⟩, rfl⟩
    simpa [Command.view] using Statement.branch t stop kind condition commands other closes
  case whileWord =>
    rw [advance_bind] at h
    obtain ⟨test, front, read, h⟩ := bind_ok.mp h
    obtain ⟨us, second, condition, tidy⟩ := reads_condition sound read
    obtain ⟨body, mid, read, h⟩ := bind_ok.mp h
    obtain ⟨vs, third, commands, tidyBody⟩ := sound.block .endWord read
    obtain ⟨stop, last, eaten, h⟩ := bind_ok.mp h
    obtain ⟨_, fourth, rfl, closes⟩ := reads_eat .endWord eaten
    obtain ⟨rfl, rfl⟩ := pure_ok.mp h
    exact ⟨[t] ++ us ++ vs ++ [stop], ((first.append second).append third).append fourth,
      .loop t stop kind condition commands closes, ⟨tidy, tidyBody⟩, rfl⟩
  case defWord =>
    obtain ⟨d, mid, read, h⟩ := bind_ok.mp h
    obtain ⟨us, takes, distinct, tidy, statement⟩ := reads_definition sound ahead read
    obtain ⟨rfl, rfl⟩ := pure_ok.mp h
    exact ⟨us, takes, statement, ⟨distinct, tidy⟩, rfl⟩
  case ident =>
    rw [secondIs_bind] at h
    split at h
    · obtain ⟨c, mid, read, h⟩ := bind_ok.mp h
      obtain ⟨_, takes, u, us, rfl, ident, text, applied, tidy⟩ := reads_callee sound read
      obtain rfl := takes.first ahead
      obtain ⟨semi, last, eaten, h⟩ := bind_ok.mp h
      obtain ⟨_, final, rfl, closes⟩ := reads_eat .semicolon eaten
      obtain ⟨rfl, rfl⟩ := pure_ok.mp h
      refine ⟨u :: us ++ [semi], takes.append final, ?_, tidy, rfl⟩
      rw [text]
      exact .call u semi ident applied closes
    · exact absurd h stuck_ne_ok
  all_goals exact absurd h stuck_ne_ok

theorem remark?_of_comment {t : Token} (comment : isComment t = true) (ts : List Token) :
    remark? (t :: ts) = .ok (some t, ts) := by
  change (if isComment t = true then _ else _ : Parser (Option Token)) (t :: ts) = _
  rw [if_pos comment]
  rfl

theorem remark?_of_word {t : Token} (word : isComment t = false) (ts : List Token) :
    remark? (t :: ts) = .ok (none, t :: ts) := by
  change (if isComment t = true then _ else _ : Parser (Option Token)) (t :: ts) = _
  rw [if_neg (by simp [word])]
  rfl

/-- A remark is the comment that stands first; without one nothing is taken. -/
theorem remark?_eq (ts : List Token) :
    (∃ t us, ts = t :: us ∧ isComment t = true ∧ remark? ts = .ok (some t, us)) ∨
      remark? ts = .ok (none, ts) := by
  cases ts with
  | nil => exact .inr rfl
  | cons t us =>
    cases comment : isComment t with
    | true => exact .inl ⟨t, us, rfl, comment, remark?_of_comment comment us⟩
    | false => exact .inr (remark?_of_word comment us)

theorem takes_comment {t : Token} (comment : isComment t = true) (ts : List Token) :
    Takes [] (t :: ts) ts :=
  ⟨[t], rfl, by simp [words, comment]⟩

theorem dropWhile_of_prefix {p : Char → Bool} {cs ds : List Char} (pre : ds <+: cs.dropWhile p) :
    ds.dropWhile p = ds := by
  cases ds with
  | nil => rfl
  | cons d ds =>
    obtain ⟨es, whole⟩ := pre
    have kept : (cs.dropWhile p).head? = some d := by rw [← whole]; rfl
    have := List.head?_dropWhile_not p cs
    rw [kept] at this
    exact List.dropWhile_cons_of_neg (by simpa using this)

theorem trim_trim (cs : List Char) : Text.trim (Text.trim cs) = Text.trim cs := by
  have front : (Text.trim cs).dropWhile Text.isBlank = Text.trim cs :=
    dropWhile_of_prefix (List.rdropWhile_prefix Text.isBlank (l := cs.dropWhile Text.isBlank))
  calc Text.trim (Text.trim cs)
      = List.rdropWhile Text.isBlank ((Text.trim cs).dropWhile Text.isBlank) := rfl
    _ = List.rdropWhile Text.isBlank (List.rdropWhile Text.isBlank (cs.dropWhile Text.isBlank)) := by
        rw [front]; rfl
    _ = Text.trim cs := List.rdropWhile_idempotent ..

theorem trim_remarkText (text : String) :
    Text.trim (remarkText text).toList = (remarkText text).toList := by
  simp [remarkText, trim_trim]

theorem BlockRead.remark {cs : List Command} (read : BlockRead us cs) (pos : Position) (text : String) :
    BlockRead us (.remark pos (remarkText text) :: cs) :=
  ⟨by simpa [viewBlock, Command.isRemark, bare] using read.1, trim_remarkText text, read.2⟩

theorem BlockRead.cons {cs : List Command} {c : Command} (read : BlockRead us cs)
    (statement : Statement vs (c.view bare)) (tidy : c.Tidy) (real : c.isRemark = false) :
    BlockRead (vs ++ us) (c :: cs) := by
  refine ⟨?_, tidy, read.2⟩
  simp only [viewBlock, real, Bool.false_and, Bool.false_eq_true, if_false]
  exact .cons statement read.1

theorem reads_moreCommands (sound : inner.Sound) {ending : Ending} {n : Nat} {done cs : List Command}
    (h : moreCommands inner ending n done ts = .ok (cs, rest)) :
    Extends BlockRead done ts cs rest := by
  have none : BlockRead [] [] := ⟨.nil, trivial⟩
  induction n generalizing ts done with
  | zero => exact .stop none h
  | succ n ih =>
    rw [moreCommands] at h
    rcases remark?_eq ts with ⟨t, us, rfl, comment, ran⟩ | ran
    · rw [bind_of_ok ran] at h
      exact .step (takes_comment comment us) (ih h) fun read => read.remark _ _
    · rw [bind_of_ok ran] at h
      simp only [peek_bind] at h
      cases ahead : (words ts).head? with
      | none =>
        rw [ahead] at h
        exact absurd h stuck_ne_ok
      | some t =>
        simp only [ahead] at h
        split at h
        · exact .stop none h
        · obtain ⟨c, mid, read, h⟩ := bind_ok.mp h
          obtain ⟨us, takes, statement, tidy, real⟩ := reads_command sound ahead read
          exact .step takes (ih h) fun read => read.cons statement tidy real

/-! ### Nesting -/

theorem sound_inner (n : Nat) : (Syntax.inner n).Sound := by
  induction n with
  | zero => exact ⟨fun h => absurd h stuck_ne_ok, fun _ _ _ _ h => absurd h stuck_ne_ok⟩
  | succ n ih =>
    have deeper : Inner.Sound ⟨n + 1, expr n, block n⟩ := ⟨ih.expr, ih.block⟩
    refine ⟨fun h => reads_logic deeper h, fun ending ts cs rest h => ?_⟩
    obtain ⟨us, more, takes, read, rfl⟩ := reads_moreCommands deeper h
    exact ⟨us, takes, read⟩

/-! ### Programs -/

theorem statement_ne_nil {c : Command} (statement : Statement us c) : us ≠ [] := by
  cases statement <;> simp

theorem derives_ne_nil {i : Item} (derives : Item.Derives us i) : us ≠ [] := by
  cases derives with
  | const => simp
  | assign statement => exact statement_ne_nil statement
  | define statement => exact statement_ne_nil statement

theorem reads_item (sound : inner.Sound) {t : Token} {i : Item} (ahead : (words ts).head? = some t)
    (h : item inner t ts = .ok (i, rest)) :
    ∃ us, Takes us ts rest ∧ Item.Derives us (i.view bare) ∧ i.Tidy ∧ i.isRemark = false := by
  rw [item] at h
  cases kind : t.kind <;> simp only [kind] at h
  case constWord =>
    rw [advance_bind] at h
    obtain ⟨name, front, eaten, h⟩ := bind_ok.mp h
    obtain ⟨_, second, name, rfl, ident, rfl⟩ := reads_eatName eaten
    obtain ⟨eq, mid, eaten, h⟩ := bind_ok.mp h
    obtain ⟨_, third, rfl, eqKind⟩ := reads_eat .equal eaten
    obtain ⟨value, back, read, h⟩ := bind_ok.mp h
    obtain ⟨us, fourth, phrase, tidy⟩ := sound.expr read
    obtain ⟨semi, last, eaten, h⟩ := bind_ok.mp h
    obtain ⟨_, fifth, rfl, closes⟩ := reads_eat .semicolon eaten
    obtain ⟨rfl, rfl⟩ := pure_ok.mp h
    exact ⟨[t] ++ [name] ++ [eq] ++ us ++ [semi],
      ((((takes_skip ahead).append second).append third).append fourth).append fifth,
      .const t name eq semi kind ident eqKind phrase closes, tidy, rfl⟩
  case letWord =>
    obtain ⟨a, mid, read, h⟩ := bind_ok.mp h
    obtain ⟨us, takes, tidyIndexes, tidy, statement⟩ := reads_assignment sound ahead read
    obtain ⟨semi, last, eaten, h⟩ := bind_ok.mp h
    obtain ⟨_, final, rfl, closes⟩ := reads_eat .semicolon eaten
    obtain ⟨rfl, rfl⟩ := pure_ok.mp h
    exact ⟨us ++ [semi], takes.append final, .assign (statement semi closes),
      ⟨tidyIndexes, tidy⟩, rfl⟩
  case defWord =>
    obtain ⟨d, mid, read, h⟩ := bind_ok.mp h
    obtain ⟨us, takes, distinct, tidy, statement⟩ := reads_definition sound ahead read
    obtain ⟨rfl, rfl⟩ := pure_ok.mp h
    exact ⟨us, takes, .define statement, ⟨distinct, tidy⟩, rfl⟩
  all_goals exact absurd h stuck_ne_ok

def ProgramRead (us : List Token) (is : List Item) : Prop :=
  Program.Derives us (Program.view bare ⟨is⟩) ∧ Program.Tidy ⟨is⟩

/-- With a bound above the number of tokens a program is read to its last word, since every round
takes a token. -/
theorem reads_moreProgram (sound : inner.Sound) {n : Nat} {done is : List Item}
    (enough : ts.length < n) (h : moreProgram inner n done ts = .ok (is, rest)) :
    Extends ProgramRead done ts is rest ∧ words rest = [] := by
  have none : ProgramRead [] [] := ⟨.nil, by simp [Program.Tidy]⟩
  induction n generalizing ts done with
  | zero => cases enough
  | succ n ih =>
    rw [moreProgram] at h
    rcases remark?_eq ts with ⟨t, us, rfl, comment, ran⟩ | ran
    · rw [bind_of_ok ran] at h
      obtain ⟨others, ends⟩ := ih (by simpa using enough) h
      refine ⟨.step (takes_comment comment us) others ?_, ends⟩
      rintro vs more ⟨derives, tidy⟩
      exact ⟨by simpa [Program.view, Item.isRemark, bare] using derives,
        List.forall_mem_cons.mpr ⟨trim_remarkText _, tidy⟩⟩
    · rw [bind_of_ok ran] at h
      simp only [peek_bind] at h
      cases ahead : (words ts).head? with
      | none =>
        simp only [ahead] at h
        refine ⟨.stop none h, ?_⟩
        obtain ⟨rfl, rfl⟩ := pure_ok.mp h
        exact List.head?_eq_none_iff.mp ahead
      | some t =>
        simp only [ahead] at h
        obtain ⟨i, mid, read, h⟩ := bind_ok.mp h
        obtain ⟨us, takes, first, tidyFirst, real⟩ := reads_item sound ahead read
        have shorter := takes.length_lt (derives_ne_nil first)
        obtain ⟨others, ends⟩ := ih (by omega) h
        refine ⟨.step takes others ?_, ends⟩
        rintro vs more ⟨derives, tidy⟩
        refine ⟨?_, List.forall_mem_cons.mpr ⟨tidyFirst, tidy⟩⟩
        have whole := Program.Derives.cons first derives
        simpa [Program.view, real] using whole

/-- A program that was read has the words of its tokens and is tidy. -/
theorem read_of_parse {ts : List Token} {p : Program} (accepted : parse ts = .ok p) :
    Program.Derives (words ts) (p.view bare) ∧ p.Tidy := by
  rw [parse] at accepted
  split at accepted
  · next items rest read =>
    obtain ⟨⟨us, more, takes, derives, rfl⟩, ends⟩ :=
      reads_moreProgram (sound_inner _) (Nat.lt_succ_self _) read
    obtain rfl := Except.ok.inj accepted
    have whole := takes.words_eq
    rw [ends, List.append_nil] at whole
    rw [whole]
    exact derives
  · cases accepted

/-- What the parser accepts is, without its comments, the yield of a derivation whose tree is the
program without its remarks. -/
theorem parse_follows_grammar {ts : List Token} {p : Program} (accepted : parse ts = .ok p) :
    Program.Derives (words ts) (p.view bare) :=
  (read_of_parse accepted).1

/-- `const f = (a, b) => a # first` and `= b - a - null;` on two lines. -/
def chained : List Token :=
  [⟨.constWord, "const", ⟨1, 1⟩⟩, ⟨.ident, "f", ⟨1, 7⟩⟩, ⟨.equal, "=", ⟨1, 9⟩⟩, ⟨.lparen, "(", ⟨1, 11⟩⟩,
   ⟨.ident, "a", ⟨1, 12⟩⟩, ⟨.comma, ",", ⟨1, 13⟩⟩, ⟨.ident, "b", ⟨1, 15⟩⟩, ⟨.rparen, ")", ⟨1, 16⟩⟩,
   ⟨.arrow, "=>", ⟨1, 18⟩⟩, ⟨.ident, "a", ⟨1, 21⟩⟩, ⟨.comment, "# first", ⟨1, 23⟩⟩,
   ⟨.equal, "=", ⟨2, 1⟩⟩, ⟨.ident, "b", ⟨2, 3⟩⟩, ⟨.minus, "-", ⟨2, 5⟩⟩, ⟨.ident, "a", ⟨2, 7⟩⟩,
   ⟨.minus, "-", ⟨2, 9⟩⟩, ⟨.nullWord, "null", ⟨2, 11⟩⟩, ⟨.semicolon, ";", ⟨2, 15⟩⟩]

def chainedProgram : Program :=
  ⟨[.const ⟨1, 1⟩ "f" (.lambda ⟨1, 11⟩ ["a", "b"]
    [.result ⟨1, 11⟩ (.binary ⟨1, 21⟩ .eq (.variable ⟨1, 21⟩ "a")
      (.binary ⟨2, 3⟩ .sub (.binary ⟨2, 3⟩ .sub (.variable ⟨2, 3⟩ "b") (.variable ⟨2, 7⟩ "a"))
        (.null ⟨2, 11⟩)))])]⟩

theorem chained_follows_grammar :
    parse chained = .ok chainedProgram ∧ Program.Derives (words chained) chainedProgram :=
  ⟨rfl, @parse_follows_grammar chained chainedProgram rfl⟩

end RetroScript.Syntax
