import RetroScript.Proofs.Grammar
import RetroScript.Syntax.Parser

/-!
# What parsers take

A parser sees the words of its input, the tokens that are no comments. `Reads R p` says that `p`
takes a front part of its input and that `R` relates the words of that part to the result.
-/
namespace RetroScript.Syntax

open Token (Kind)

/-- The tokens that are no comments. -/
def words (ts : List Token) : List Token := ts.filter fun t => !isComment t

theorem words_append (ts us : List Token) : words (ts ++ us) = words ts ++ words us :=
  List.filter_append ..

theorem words_cons_comment {t : Token} (comment : isComment t = true) (ts : List Token) :
    words (t :: ts) = words ts := by
  simp [words, comment]

theorem words_cons_word {t : Token} (word : isComment t = false) (ts : List Token) :
    words (t :: ts) = t :: words ts := by
  simp [words, word]

theorem skipComments_cons_comment {t : Token} (comment : isComment t = true) (ts : List Token) :
    skipComments (t :: ts) = skipComments ts := by
  simp [skipComments, comment]

theorem skipComments_cons_word {t : Token} (word : isComment t = false) (ts : List Token) :
    skipComments (t :: ts) = t :: ts := by
  simp [skipComments, word]

/-- The next token that is no comment is the first word. -/
theorem head?_skipComments (ts : List Token) : (skipComments ts).head? = (words ts).head? := by
  induction ts with
  | nil => rfl
  | cons t ts ih =>
    cases comment : isComment t with
    | true => rw [skipComments_cons_comment comment, words_cons_comment comment, ih]
    | false => rw [skipComments_cons_word comment, words_cons_word comment]; rfl

theorem words_skipComments_tail (ts : List Token) :
    words (skipComments ts).tail = (words ts).tail := by
  induction ts with
  | nil => rfl
  | cons t ts ih =>
    cases comment : isComment t with
    | true => rw [skipComments_cons_comment comment, words_cons_comment comment, ih]
    | false => rw [skipComments_cons_word comment, words_cons_word comment]; rfl

/-! ### Running parsers -/

variable {α β : Type} {ts rest us vs : List Token}

theorem bind_ok {p : Parser α} {f : α → Parser β} {y : β} :
    (p >>= f) ts = .ok (y, rest) ↔ ∃ x mid, p ts = .ok (x, mid) ∧ f x mid = .ok (y, rest) := by
  change (p ts >>= fun r => f r.1 r.2) = _ ↔ _
  cases p ts with
  | error s => simp [bind, Except.bind]
  | ok r =>
    obtain ⟨x, mid⟩ := r
    refine ⟨fun h => ⟨x, mid, rfl, h⟩, ?_⟩
    rintro ⟨x, mid, ⟨⟩, h⟩
    exact h

/-- Running on after a parser that has succeeded. -/
theorem bind_of_ok {p : Parser α} {f : α → Parser β} {x : α} (ran : p ts = .ok (x, rest)) :
    (p >>= f) ts = f x rest := by
  change (p ts >>= fun r => f r.1 r.2) = _
  rw [ran]
  rfl

theorem pure_ok {x y : α} : (pure x : Parser α) ts = .ok (y, rest) ↔ x = y ∧ ts = rest := by
  change Except.ok (x, ts) = _ ↔ _
  simp

theorem peek_eq (ts : List Token) : peek ts = .ok ((words ts).head?, ts) := by
  rw [← head?_skipComments]
  rfl

theorem peekIs_eq (kind : Kind) (ts : List Token) :
    peekIs kind ts = .ok ((words ts).head?.any (·.kind = kind), ts) := by
  rw [peekIs, bind_of_ok (peek_eq ts)]
  rfl

theorem secondIs_eq (kind : Kind) (ts : List Token) :
    secondIs kind ts = .ok ((words ts).tail.head?.any (·.kind = kind), ts) := by
  rw [← words_skipComments_tail, ← head?_skipComments]
  rfl

theorem stuck_ne_ok {fault : ParseFault} {x : α} : stuck fault ts ≠ .ok (x, rest) := by
  intro h
  rw [stuck, bind_of_ok (peek_eq ts)] at h
  cases h

/-! ### Taking a front part -/

/-- The input `ts` is a front part with the words `us`, and `rest`. -/
def Takes (us ts rest : List Token) : Prop := ∃ taken, ts = taken ++ rest ∧ words taken = us

theorem Takes.nil (ts : List Token) : Takes [] ts ts := ⟨[], rfl, rfl⟩

theorem Takes.append {mid : List Token} (first : Takes us ts mid) (second : Takes vs mid rest) :
    Takes (us ++ vs) ts rest := by
  obtain ⟨front, rfl, rfl⟩ := first
  obtain ⟨back, rfl, rfl⟩ := second
  exact ⟨front ++ back, (List.append_assoc ..).symm, words_append front back⟩

theorem Takes.words_eq (takes : Takes us ts rest) : words ts = us ++ words rest := by
  obtain ⟨front, rfl, rfl⟩ := takes
  exact words_append front rest

theorem Takes.length_lt (takes : Takes us ts rest) (some : us ≠ []) : rest.length < ts.length := by
  obtain ⟨front, rfl, rfl⟩ := takes
  cases front with
  | nil => exact absurd rfl some
  | cons t front =>
    rw [List.cons_append, List.length_cons, List.length_append]
    omega

/-- The first word taken is the one that was ahead. -/
theorem Takes.first {t u : Token} (takes : Takes (t :: us) ts rest)
    (ahead : (words ts).head? = some u) : t = u := by
  rw [takes.words_eq] at ahead
  exact Option.some.inj ahead

theorem takes_skip {t : Token} (ahead : (words ts).head? = some t) :
    Takes [t] ts (skipComments ts).tail := by
  induction ts with
  | nil => cases ahead
  | cons u ts ih =>
    cases comment : isComment u with
    | true =>
      rw [words_cons_comment comment] at ahead
      rw [skipComments_cons_comment comment]
      obtain ⟨taken, whole, same⟩ := ih ahead
      refine ⟨u :: taken, ?_, by rw [words_cons_comment comment, same]⟩
      rw [List.cons_append, ← whole]
    | false =>
      rw [words_cons_word comment] at ahead
      obtain rfl := Option.some.inj ahead
      rw [skipComments_cons_word comment]
      exact ⟨[u], rfl, by rw [words_cons_word comment]; rfl⟩

/-- A result is what `R` allows for the words taken. -/
def Reads (R : List Token → α → Prop) (p : Parser α) : Prop :=
  ∀ {ts x rest}, p ts = .ok (x, rest) → ∃ us, Takes us ts rest ∧ R us x

theorem any_kind_eq_true {o : Option Token} {kind : Kind} :
    o.any (·.kind = kind) = true ↔ ∃ t, o = some t ∧ t.kind = kind := by
  cases o with
  | none => simp
  | some t => simp

theorem any_kind_eq_false {o : Option Token} {kind : Kind} :
    o.any (·.kind = kind) = false ↔ ∀ t ∈ o, t.kind ≠ kind := by
  cases o with
  | none => simp
  | some t => simp

theorem peekIs_bind {kind : Kind} {f : Bool → Parser α} :
    (peekIs kind >>= f) ts = f ((words ts).head?.any (·.kind = kind)) ts :=
  bind_of_ok (peekIs_eq kind ts)

theorem peek_bind {f : Option Token → Parser α} : (peek >>= f) ts = f (words ts).head? ts :=
  bind_of_ok (peek_eq ts)

theorem secondIs_bind {kind : Kind} {f : Bool → Parser α} :
    (secondIs kind >>= f) ts = f ((words ts).tail.head?.any (·.kind = kind)) ts :=
  bind_of_ok (secondIs_eq kind ts)

/-- Whether an anonymous function starts where a parenthesis is ahead. -/
theorem lambdaAhead_bind {f : Bool → Parser α} :
    (lambdaAhead >>= f) ts =
      f ((skipComments ts).head?.any (·.kind = .lparen) && arrowAhead true true (skipComments ts).tail) ts := by
  refine bind_of_ok ?_
  rw [lambdaAhead, bind_of_ok (rfl : (get : Parser (List Token)) ts = .ok (ts, ts))]
  cases skipComments ts with
  | nil => rfl
  | cons t rest => rfl

theorem advance_bind {f : Unit → Parser α} : (advance >>= f) ts = f () (skipComments ts).tail := rfl

theorem reads_eat (kind : Kind) : Reads (fun us t => us = [t] ∧ t.kind = kind) (eat kind) := by
  intro ts t rest h
  rw [eat, peek_bind] at h
  cases ahead : (words ts).head? with
  | none =>
    rw [ahead] at h
    exact absurd h stuck_ne_ok
  | some u =>
    simp only [ahead] at h
    split at h
    · next same =>
      rw [advance_bind] at h
      obtain ⟨rfl, rfl⟩ := pure_ok.mp h
      exact ⟨[u], takes_skip ahead, rfl, same⟩
    · exact absurd h stuck_ne_ok

theorem reads_eatName : Reads (fun us name => ∃ t : Token, us = [t] ∧ t.kind = .ident ∧ name = t.text)
    eatName := by
  intro ts name rest h
  rw [eatName] at h
  obtain ⟨t, mid, eaten, h⟩ := bind_ok.mp h
  obtain ⟨us, takes, rfl, kind⟩ := reads_eat .ident eaten
  obtain ⟨rfl, rfl⟩ := pure_ok.mp h
  exact ⟨[t], takes, t, rfl, kind, rfl⟩

end RetroScript.Syntax
