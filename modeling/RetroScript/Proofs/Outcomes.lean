import Mathlib.Data.List.Infix
import RetroScript.Proofs.Parsing

/-!
# What a run of a parser depends on

What a parser does depends on the tokens that it takes and on the next word, and of a keyword on its
kind alone. `Outcome` says so of one run: cut anywhere behind the next word, the input gives the same
result; cut before the next word, it ends too early. Keywords may be respelled meanwhile.
-/
namespace RetroScript

/-- The kinds of keywords. -/
def Token.Kind.isKeyword (kind : Token.Kind) : Bool := Token.keywords.any (·.2 = kind)

namespace Syntax

open Token (Kind)

/-- The text of the token that a fault names as the one found. -/
def ParseFault.found? : ParseFault → Option String
  | .expected _ found => found
  | .expectedItem found | .expectedCommand found | .unexpected found => some found
  | _ => none

/-- The fault if the token found had this text. -/
def ParseFault.finding (text : String) : ParseFault → ParseFault
  | .expected kind found => .expected kind (found.map fun _ => text)
  | .expectedItem _ => .expectedItem text
  | .expectedCommand _ => .expectedCommand text
  | .unexpected _ => .unexpected text
  | fault => fault

theorem found?_finding (fault : ParseFault) (text : String) :
    (fault.finding text).found? = fault.found?.map fun _ => text := by
  cases fault <;> rfl

theorem finding_finding (fault : ParseFault) (text text' : String) :
    (fault.finding text).finding text' = fault.finding text' := by
  cases fault with
  | expected kind found => cases found <;> rfl
  | _ => rfl

theorem finding_found {fault : ParseFault} {text : String} (names : ∀ found ∈ fault.found?, found = text) :
    fault.finding text = fault := by
  cases fault with
  | expected kind found =>
    cases found with
    | none => rfl
    | some found => rw [names found rfl]; rfl
  | expectedItem found => rw [names found rfl]; rfl
  | expectedCommand found => rw [names found rfl]; rfl
  | unexpected found => rw [names found rfl]; rfl
  | _ => rfl

/-- Another text for keywords. -/
structure Respelling where
  token : Token → Token
  kind : ∀ t, (token t).kind = t.kind
  pos : ∀ t, (token t).pos = t.pos
  text : ∀ t, t.kind.isKeyword = false → (token t).text = t.text

attribute [simp] Respelling.kind Respelling.pos

def Respelling.none : Respelling := ⟨id, fun _ => rfl, fun _ => rfl, fun _ _ => rfl⟩

variable {α β : Type} {c : Respelling} {t : Token} {ts gap kept front rest : List Token}

theorem Respelling.same (c : Respelling) (other : t.kind.isKeyword = false) : c.token t = t := by
  have kind := c.kind t
  have pos := c.pos t
  have text := c.text t other
  cases new : c.token t
  cases t
  simp_all

theorem Respelling.isComment (c : Respelling) (t : Token) : isComment (c.token t) = isComment t := by
  simp [Syntax.isComment]

theorem words_map (c : Respelling) (ts : List Token) : words (ts.map c.token) = (words ts).map c.token := by
  simp [words, List.filter_map, Function.comp_def, c.isComment]

theorem skipComments_map (c : Respelling) (ts : List Token) :
    skipComments (ts.map c.token) = (skipComments ts).map c.token := by
  simp [skipComments, List.dropWhile_map, Function.comp_def, c.isComment]

theorem arrowAhead_map (c : Respelling) (first wantName : Bool) (ts : List Token) :
    arrowAhead first wantName (ts.map c.token) = arrowAhead first wantName ts := by
  induction ts generalizing first wantName with
  | nil => rfl
  | cons t ts ih =>
    have next : (skipComments (ts.map c.token)).head?.any (·.kind = .arrow) =
        (skipComments ts).head?.any (·.kind = .arrow) := by
      rw [skipComments_map]
      cases skipComments ts <;> simp
    rw [List.map_cons, arrowAhead, arrowAhead, c.kind]
    simp only [ih, next]

/-! ### The next word -/

/-- `front` ends with the word `t`, and has no other. -/
def Leads (t : Token) (front : List Token) : Prop :=
  ∃ gap, front = gap ++ [t] ∧ words gap = [] ∧ isComment t = false

theorem exists_leads (ahead : (words ts).head? = some t) :
    ∃ front rest, Leads t front ∧ ts = front ++ rest := by
  induction ts with
  | nil => cases ahead
  | cons u ts ih =>
    cases comment : isComment u with
    | true =>
      rw [words_cons_comment comment] at ahead
      obtain ⟨_, rest, ⟨gap, rfl, wordless, word⟩, rfl⟩ := ih ahead
      refine ⟨u :: (gap ++ [t]), rest, ⟨u :: gap, rfl, ?_, word⟩, rfl⟩
      rw [words_cons_comment comment, wordless]
    | false =>
      rw [words_cons_word comment] at ahead
      obtain rfl := Option.some.inj ahead
      exact ⟨[u], ts, ⟨[], rfl, rfl, comment⟩, rfl⟩

theorem Leads.words_append (leads : Leads t front) (rest : List Token) :
    words (front ++ rest) = t :: words rest := by
  obtain ⟨gap, rfl, wordless, word⟩ := leads
  rw [Syntax.words_append, Syntax.words_append, wordless, words_cons_word word]
  rfl

theorem Leads.skip (leads : Leads t front) (rest : List Token) :
    (skipComments (front ++ rest)).tail = rest := by
  obtain ⟨gap, rfl, wordless, word⟩ := leads
  have comments : ∀ u ∈ gap, isComment u = true := by
    intro u member
    by_contra other
    have : u ∈ words gap := List.mem_filter.mpr ⟨member, by simpa using other⟩
    rw [wordless] at this
    cases this
  rw [skipComments, List.append_assoc, List.dropWhile_append_of_pos comments]
  exact congrArg List.tail (skipComments_cons_word word rest)

theorem Leads.map (leads : Leads t front) (c : Respelling) : Leads (c.token t) (front.map c.token) := by
  obtain ⟨gap, rfl, wordless, word⟩ := leads
  refine ⟨gap.map c.token, by simp, ?_, (c.isComment t).trans word⟩
  rw [words_map, wordless]
  rfl

theorem Leads.length_lt (leads : Leads t front) (rest : List Token) :
    rest.length < (front ++ rest).length := by
  obtain ⟨gap, rfl, _⟩ := leads
  simp
  omega

theorem Leads.mem (leads : Leads t front) (rest : List Token) : t ∈ front ++ rest := by
  obtain ⟨gap, rfl, _⟩ := leads
  simp

theorem Leads.run (leads : Leads t front) (c : Respelling) (kept : List Token) :
    (words ((front ++ kept).map c.token)).head? = some (c.token t) ∧
      (skipComments ((front ++ kept).map c.token)).tail = kept.map c.token := by
  rw [List.map_append, (leads.map c).words_append, (leads.map c).skip]
  exact ⟨rfl, rfl⟩

/-- A front part that has a word has the same first word. -/
theorem head?_words_cut (kept post : List Token) (some : words kept ≠ []) :
    (words kept).head? = (words (kept ++ post)).head? := by
  rw [words_append, List.head?_append_of_ne_nil _ some]

/-! ### Outcomes -/

/-- A parser has needed more input; or it is done, if that counts as well. -/
def Short (done : Bool) (r : Except Stuck (α × List Token)) : Prop :=
  (∃ fault, r = .error ⟨none, fault⟩) ∨ done = true ∧ ∃ y, r = .ok y

/-- Behind `front`, the parser `p` goes on as `q`, however much is kept of `rest`. It may go on otherwise
only where the next word of `rest` is missing. -/
def Continues (c : Respelling) (done : Bool) (p : Parser α) (front rest : List Token) (q : Parser α) : Prop :=
  ∀ ⦃kept post⦄, rest = kept ++ post →
    p ((front ++ kept).map c.token) = q (kept.map c.token) ∨
    words kept = [] ∧ words post ≠ [] ∧ Short done (p ((front ++ kept).map c.token))

/-- The faults of a parser: at the next word, with what it takes up to there; at the end of input; or
at a token that it has taken. Only the first kind names a token. -/
inductive Fails (c : Respelling) (done : Bool) (p : Parser α) (ts : List Token) : Stuck → Prop
  | ahead {before after : List Token} {t : Token} {fault : ParseFault}
      (split : ts = before ++ t :: after) (word : isComment t = false)
      (names : ∀ text ∈ fault.found?, text = t.text) (short : Short done (p (before.map c.token)))
      (again : ∀ ⦃kept⦄, kept <+: after →
        p ((before ++ t :: kept).map c.token) = .error ⟨some t.pos, fault.finding (c.token t).text⟩) :
      Fails c done p ts ⟨some t.pos, fault⟩
  | ended {fault : ParseFault} (unnamed : fault.found? = none)
      (again : p (ts.map c.token) = .error ⟨none, fault⟩) : Fails c done p ts ⟨none, fault⟩
  | behind {t : Token} {fault : ParseFault} (member : t ∈ ts) (unnamed : fault.found? = none)
      (again : p (ts.map c.token) = .error ⟨some t.pos, fault⟩) : Fails c done p ts ⟨some t.pos, fault⟩

/-- What has come of `ts` is what `p` makes of the tokens taken, and of the next word at a fault. -/
inductive Outcome (c : Respelling) (done : Bool) (p : Parser α) (ts : List Token) :
    Except Stuck (α × List Token) → Prop
  | ok {x : α} {taken rest : List Token} (split : ts = taken ++ rest)
      (again : Continues c done p taken rest (pure x)) : Outcome c done p ts (.ok (x, rest))
  | error {s : Stuck} (fails : Fails c done p ts s) : Outcome c done p ts (.error s)

variable {done : Bool} {p q : Parser α} {k : α → Parser β} {r : Except Stuck (α × List Token)} {s : Stuck}

theorem Continues.of_eq (same : ∀ ⦃kept⦄, kept <+: rest → p ((front ++ kept).map c.token) = q (kept.map c.token)) :
    Continues c done p front rest q := by
  rintro kept post rfl
  exact .inl (same (List.prefix_append kept post))

theorem Continues.full (continues : Continues c done p front rest q) :
    p ((front ++ rest).map c.token) = q (rest.map c.token) := by
  rcases continues (List.append_nil rest).symm with same | ⟨_, missing, _⟩
  · exact same
  · exact absurd rfl missing

theorem Continues.with_word (continues : Continues c done p front rest q) {post : List Token}
    (split : rest = kept ++ post) (word : words kept ≠ []) :
    p ((front ++ kept).map c.token) = q (kept.map c.token) := by
  rcases continues split with same | ⟨missing, _⟩
  · exact same
  · exact absurd missing word

theorem bind_of_error {p : Parser α} (failed : p ts = .error s) : (p >>= k) ts = .error s := by
  change (p ts >>= fun r => k r.1 r.2) = _
  rw [failed]
  rfl

/-- Where `p` fails `q` does, and where `p` has the result `x`, `q` goes on as `next`. -/
theorem Continues.map {x : α} {q next : Parser β} (continues : Continues c false p front rest (pure x))
    (failed : ∀ ⦃us s⦄, p us = .error s → q us = .error s)
    (ran : ∀ ⦃us left⦄, p us = .ok (x, left) → q us = next left) : Continues c done q front rest next := by
  intro kept post split
  rcases continues split with same | ⟨missing, more, ⟨fault, short⟩ | ⟨never, _⟩⟩
  · exact .inl (ran same)
  · exact .inr ⟨missing, more, .inl ⟨fault, failed short⟩⟩
  · cases never

theorem Continues.bind {x : α} (continues : Continues c false p front rest (pure x)) :
    Continues c done (p >>= k) front rest (k x) :=
  continues.map (fun _ _ => bind_of_error) fun _ _ => bind_of_ok

theorem Fails.follow (continues : Continues c done p front rest q) (fails : Fails c done q rest s) :
    Fails c done p (front ++ rest) s := by
  cases fails with
  | @ahead before after t fault split word names short again =>
    have whole : front ++ rest = (front ++ before) ++ t :: after := by rw [split, List.append_assoc]
    refine .ahead whole word names ?_ ?_
    · rcases continues split with same | ⟨_, _, short⟩
      · rwa [same]
      · exact short
    · rintro kept ⟨post, rfl⟩
      have split' : rest = (before ++ t :: kept) ++ post := by simp [split]
      have some : words (before ++ t :: kept) ≠ [] := by simp [words_append, words_cons_word word]
      rw [List.append_assoc, continues.with_word split' some]
      exact again (List.prefix_append kept post)
  | ended unnamed again => exact .ended unnamed (continues.full.trans again)
  | behind member unnamed again =>
    exact .behind (List.mem_append_right front member) unnamed (continues.full.trans again)

/-- What `p` does on the whole is what it goes on as does on the rest. -/
theorem Outcome.follow (continues : Continues c done p front rest q) (outcome : Outcome c done q rest r) :
    Outcome c done p (front ++ rest) r := by
  cases outcome with
  | @ok x taken rest' split again =>
    have whole : front ++ rest = (front ++ taken) ++ rest' := by rw [split, List.append_assoc]
    refine .ok whole ?_
    intro kept post split'
    have both : rest = (taken ++ kept) ++ post := by rw [split, split', List.append_assoc]
    rw [List.append_assoc]
    rcases continues both with same | ⟨missing, next, short⟩
    · rw [same]
      exact again split'
    · rw [words_append, List.append_eq_nil_iff] at missing
      exact .inr ⟨missing.2, next, short⟩
  | error fails => exact .error (fails.follow continues)

theorem Fails.map {q : Parser β} (fails : Fails c false p ts s)
    (failed : ∀ ⦃us s⦄, p us = .error s → q us = .error s) : Fails c done q ts s := by
  cases fails with
  | ahead split word names short again =>
    rcases short with ⟨fault, short⟩ | ⟨never, _⟩
    · exact .ahead split word names (.inl ⟨fault, failed short⟩) fun _ front => failed (again front)
    · cases never
  | ended unnamed again => exact .ended unnamed (failed again)
  | behind member unnamed again => exact .behind member unnamed (failed again)

/-- A fault before the next step is a fault on the whole. -/
theorem Fails.bind (fails : Fails c false p ts s) : Fails c done (p >>= k) ts s :=
  fails.map fun _ _ => bind_of_error

theorem Outcome.bind_of (first : Outcome c false q ts (p ts))
    (next : ∀ ⦃x taken rest⦄, ts = taken ++ rest → p ts = .ok (x, rest) →
      Continues c false q taken rest (pure x) → Outcome c done (q >>= k) ts (k x rest)) :
    Outcome c done (q >>= k) ts ((p >>= k) ts) := by
  generalize ran : p ts = r at first
  cases first with
  | ok split again =>
    rw [bind_of_ok ran]
    exact next split ran again
  | error fails =>
    rw [bind_of_error ran]
    exact .error fails.bind

theorem Outcome.bind (first : Outcome c false q ts (p ts))
    (next : ∀ ⦃x rest⦄, rest.length ≤ ts.length → Outcome c done (k x) rest (k x rest)) :
    Outcome c done (q >>= k) ts ((p >>= k) ts) := by
  refine first.bind_of ?_
  rintro x taken rest rfl _ again
  exact .follow again.bind (next (by simp))

/-- The parser has an outcome on inputs of up to `n` tokens. -/
def Steady (c : Respelling) (n : Nat) (p : Parser α) : Prop :=
  ∀ ⦃ts⦄, ts.length ≤ n → Outcome c false p ts (p ts)

variable {n m : Nat} {kind : Kind} {fault : ParseFault}

theorem Steady.mono (steady : Steady c n p) (le : m ≤ n) : Steady c m p :=
  fun _ short => steady (short.trans le)

theorem Steady.bind (first : Steady c n p) (next : ∀ x, Steady c n (k x)) : Steady c n (p >>= k) :=
  fun _ short => (first short).bind fun x _ less => next x (less.trans short)

theorem steady_pure (x : α) : Steady c n (pure x : Parser α) := by
  intro ts _
  exact .ok (List.nil_append ts).symm (.of_eq fun _ _ => rfl)

/-! ### Faults at the next word -/

theorem stuck_eq (fault : ParseFault) (ts : List Token) :
    (stuck fault : Parser α) ts = .error ⟨(words ts).head?.map (·.pos), fault⟩ := by
  rw [stuck, peek_bind]
  rfl

/-- A parser that refuses the next word, and nothing before it. -/
theorem Fails.at_word (ahead : (words ts).head? = some t) (names : ∀ text ∈ fault.found?, text = t.text)
    (short : ∀ ⦃us⦄, words us = [] → Short done (p us))
    (refuses : ∀ ⦃us⦄, (words us).head? = some (c.token t) →
      p us = .error ⟨some t.pos, fault.finding (c.token t).text⟩) :
    Fails c done p ts ⟨some t.pos, fault⟩ := by
  obtain ⟨_, rest, leads, rfl⟩ := exists_leads ahead
  obtain ⟨gap, rfl, wordless, word⟩ := id leads
  refine .ahead (List.append_assoc ..) word names ?_ ?_
  · refine short ?_
    rw [words_map, wordless]
    rfl
  · intro kept _
    rw [List.append_cons]
    exact refuses (leads.run c kept).1

theorem outcome_stuck (fault : ParseFault) (ahead : (words ts).head? = some t)
    (names : ∀ text ∈ fault.found?, text = t.text) :
    Outcome c done (stuck (fault.finding (c.token t).text) : Parser α) ts (stuck fault ts) := by
  rw [stuck_eq, ahead]
  refine .error (.at_word ahead names ?_ ?_)
  · intro us missing
    exact .inl ⟨_, by rw [stuck_eq, missing]; rfl⟩
  · intro us next
    rw [stuck_eq, next, Option.map_some, c.pos]

theorem outcome_stuck_end (missing : words ts = []) (unnamed : fault.found? = none) :
    Outcome c done (stuck fault : Parser α) ts (stuck fault ts) := by
  rw [stuck_eq, missing]
  refine .error (.ended unnamed ?_)
  rw [stuck_eq, words_map, missing]
  rfl

/-! ### Taking the next word -/

theorem eat_bind {k : Token → Parser α} (ahead : (words ts).head? = some t) (same : t.kind = kind) :
    (eat kind >>= k) ts = k t (skipComments ts).tail := by
  refine bind_of_ok ?_
  rw [eat, peek_bind, ahead]
  dsimp only
  rw [if_pos same]
  rfl

theorem eat_missing (kind : Kind) (missing : words ts = []) :
    eat kind ts = .error ⟨none, .expected kind none⟩ := by
  rw [eat, peek_bind, missing]
  exact (stuck_eq _ ts).trans (by rw [missing]; rfl)

theorem eat_other (ahead : (words ts).head? = some t) (other : t.kind ≠ kind) :
    eat kind ts = .error ⟨some t.pos, .expected kind (some t.text)⟩ := by
  rw [eat, peek_bind, ahead]
  dsimp only
  rw [if_neg other, stuck_eq, ahead]
  rfl

theorem Outcome.advance (ahead : (words ts).head? = some t)
    (next : Outcome c done q (skipComments ts).tail r) :
    Outcome c done (Syntax.advance >>= fun _ => q) ts r := by
  obtain ⟨front, rest, leads, rfl⟩ := exists_leads ahead
  rw [leads.skip] at next
  refine .follow (.of_eq ?_) next
  intro kept _
  rw [advance_bind, (leads.run c kept).2]

theorem Outcome.eat {k : Token → Parser α}
    (next : ∀ ⦃front rest t⦄, ts = front ++ rest → Leads t front → t.kind = kind →
      Outcome c done (Syntax.eat kind >>= k) ts (k t rest)) :
    Outcome c done (Syntax.eat kind >>= k) ts ((Syntax.eat kind >>= k) ts) := by
  cases ahead : (words ts).head? with
  | none =>
    have missing : words ts = [] := List.head?_eq_none_iff.mp ahead
    have missing' : words (ts.map c.token) = [] := by rw [words_map, missing]; rfl
    rw [bind_of_error (eat_missing kind missing)]
    exact .error (.ended rfl (bind_of_error (eat_missing kind missing')))
  | some t =>
    by_cases same : t.kind = kind
    · obtain ⟨front, rest, leads, rfl⟩ := exists_leads ahead
      rw [eat_bind ahead same, leads.skip]
      exact next rfl leads same
    · rw [bind_of_error (eat_other ahead same)]
      refine .error (.at_word ahead (by simp [ParseFault.found?]) ?_ ?_)
      · intro us missing
        exact .inl ⟨_, bind_of_error (eat_missing kind missing)⟩
      · intro us next
        rw [bind_of_error (eat_other next (by rwa [c.kind])), c.pos]
        rfl

theorem continues_eat {k : Token → Parser α} (leads : Leads t front) (same : t.kind = kind) :
    Continues c done (eat kind >>= k) front rest (k (c.token t)) := by
  refine .of_eq ?_
  intro kept _
  rw [eat_bind (leads.run c kept).1 ((c.kind t).trans same), (leads.run c kept).2]

/-- A token of the wanted kind is taken. What follows may depend on its text if it is no keyword. -/
theorem Steady.eat {k : Token → Parser α} (le : m ≤ n + 1)
    (keeps : ∀ t, t.kind = kind → k (c.token t) = k t) (next : ∀ t, Steady c n (k t)) :
    Steady c m (Syntax.eat kind >>= k) := by
  intro ts short
  refine .eat ?_
  rintro front rest t rfl leads same
  have less := leads.length_lt rest
  have run : Continues c false (Syntax.eat kind >>= k) front rest (k (c.token t)) := continues_eat leads same
  rw [keeps t same] at run
  exact .follow run (next t (by omega))

theorem steady_close (kind : Kind) (x : α) : Steady c n (eat kind >>= fun _ => pure x : Parser α) :=
  .eat (Nat.le_succ n) (fun _ _ => rfl) fun _ => steady_pure x

theorem steady_eatName : Steady c n eatName :=
  .eat (Nat.le_succ n) (fun _ ident => congrArg (fun t => pure t.text) (c.same (by rw [ident]; rfl)))
    fun _ => steady_pure _

/-! ### Looking at the next words -/

theorem Outcome.as (continues : Continues c done p [] ts q) (outcome : Outcome c done q ts r) :
    Outcome c done p ts r :=
  (List.nil_append ts) ▸ outcome.follow continues

/-- A parser that does alike on all front parts of the input. -/
theorem Outcome.alike (same : ∀ ⦃kept⦄, kept <+: ts → p (kept.map c.token) = q (kept.map c.token))
    (outcome : Outcome c done q ts r) : Outcome c done p ts r :=
  outcome.as (.of_eq same)

theorem words_cut (pre : kept <+: ts) : words kept <+: words ts := by
  obtain ⟨post, rfl⟩ := pre
  rw [words_append]
  exact List.prefix_append _ _

theorem any_kind_map {o : Option Token} : (o.map c.token).any (·.kind = kind) = o.any (·.kind = kind) := by
  cases o with
  | none => rfl
  | some t => simp

theorem head?_any_cut {us vs : List Token} (pre : us <+: vs)
    (other : vs.head?.any (·.kind = kind) = false) : us.head?.any (·.kind = kind) = false := by
  obtain ⟨post, rfl⟩ := pre
  cases us with
  | nil => rfl
  | cons t us => exact other

/-- A token is taken if its kind is one of those wanted, and nothing otherwise. -/
theorem Steady.choice {γ : Type} {g : Kind → Option γ} {k : Option γ → Parser α}
    {A : γ → Position → Parser α} (le : m ≤ n + 1)
    (takes : ∀ ⦃t us x⦄, (words us).head? = some t → g t.kind = some x →
      k (some x) us = A x t.pos (skipComments us).tail)
    (yes : ∀ x pos, Steady c n (A x pos)) (no : Steady c m (k none)) :
    Steady c m (Syntax.peek >>= fun o => k (o.bind (g ·.kind))) := by
  intro ts short
  rw [peek_bind]
  cases found : (words ts).head?.bind (g ·.kind) with
  | some x =>
    obtain ⟨t, ahead, wanted⟩ := Option.bind_eq_some_iff.mp found
    obtain ⟨front, rest, leads, rfl⟩ := exists_leads ahead
    have less := leads.length_lt rest
    rw [takes ahead wanted, leads.skip]
    refine .follow (.of_eq ?_) (yes x t.pos (by omega))
    intro kept _
    obtain ⟨ahead', left⟩ := leads.run c kept
    have wanted' : g (c.token t).kind = some x := by rwa [c.kind]
    rw [peek_bind, ahead', Option.bind_some, wanted', takes ahead' wanted', left, c.pos]
  | none =>
    refine .alike ?_ (no short)
    rintro kept ⟨post, rfl⟩
    rw [peek_bind, words_map]
    cases seen : words kept with
    | nil => rfl
    | cons t us =>
      rw [words_append, seen, List.cons_append, List.head?_cons, Option.bind_some] at found
      rw [List.map_cons, List.head?_cons, Option.bind_some, c.kind, found]

theorem Steady.optional {k : Bool → Parser α} {A : Position → Parser α} (le : m ≤ n + 1)
    (takes : ∀ ⦃t us⦄, (words us).head? = some t → t.kind = kind →
      k true us = A t.pos (skipComments us).tail)
    (yes : ∀ pos, Steady c n (A pos)) (no : Steady c m (k false)) :
    Steady c m (peekIs kind >>= k) := by
  have same : peekIs kind >>= k = Syntax.peek >>= fun o =>
      k (o.bind fun t => if t.kind = kind then some () else none).isSome := by
    funext ts
    rw [peekIs_bind, peek_bind]
    cases (words ts).head? with
    | none => rfl
    | some t => by_cases wanted : t.kind = kind <;> simp [wanted]
  rw [same]
  refine .choice (g := fun k' => if k' = kind then some () else none) (k := fun o => k o.isSome)
    (A := fun _ => A) le ?_ (fun _ => yes) no
  intro t us x ahead wanted
  exact takes ahead (by by_contra other; simp [other] at wanted)

/-- With a next word, a parser that needs one goes on as it does for that word. -/
theorem Continues.of_word (ahead : (words ts).head? = some t)
    (same : ∀ ⦃us⦄, (words us).head? = some (c.token t) → p us = q us)
    (short : ∀ ⦃us⦄, words us = [] → Short done (p us)) : Continues c done p [] ts q := by
  rintro kept post rfl
  by_cases missing : words kept = []
  · refine .inr ⟨missing, ?_, short ?_⟩
    · intro none
      rw [words_append, missing, none] at ahead
      cases ahead
    · rw [List.nil_append, words_map, missing]
      rfl
  · refine .inl (same ?_)
    rw [List.nil_append, words_map, List.head?_map, head?_words_cut kept post missing, ahead]
    rfl

theorem Steady.peek {k : Option Token → Parser α} (none : k none = stuck fault)
    (unnamed : fault.found? = .none)
    (next : ∀ ⦃t ts⦄, ts.length ≤ n → (words ts).head? = some t →
      Outcome c false (k (some (c.token t))) ts (k (some t) ts)) :
    Steady c n (Syntax.peek >>= k) := by
  have run_missing {us : List Token} (missing : words us = []) :
      (Syntax.peek >>= k) us = .error ⟨.none, fault⟩ := by
    rw [peek_bind, missing, List.head?_nil, none, stuck_eq, missing]
    rfl
  intro ts short
  cases ahead : (words ts).head? with
  | none =>
    have missing : words ts = [] := List.head?_eq_none_iff.mp ahead
    rw [run_missing missing]
    exact .error (.ended unnamed (run_missing (by rw [words_map, missing]; rfl)))
  | some t =>
    rw [peek_bind, ahead]
    refine (next short ahead).as (.of_word ahead ?_ ?_)
    · intro us next
      rw [peek_bind, next]
    · intro us missing
      exact .inl ⟨fault, run_missing missing⟩

theorem exists_second (second : (words ts).tail.head?.any (·.kind = kind) = true) :
    ∃ t u front back rest, Leads t front ∧ Leads u back ∧ u.kind = kind ∧ ts = front ++ (back ++ rest) := by
  obtain ⟨u, behind, same⟩ := any_kind_eq_true.mp second
  cases ahead : (words ts).head? with
  | none =>
    rw [List.head?_eq_none_iff.mp ahead] at behind
    cases behind
  | some t =>
    obtain ⟨front, _, leads, rfl⟩ := exists_leads ahead
    rw [leads.words_append] at behind
    obtain ⟨back, rest, leads', rfl⟩ := exists_leads behind
    exact ⟨t, u, front, back, rest, leads, leads', same, rfl⟩

theorem Outcome.second_of {k : Bool → Parser α} {A : Token → Token → Parser α}
    (ahead : (words ts).head? = some t)
    (takes : ∀ ⦃t' u us⦄, t'.kind = t.kind → u.kind = kind → (words us).head? = some t' →
      (words (skipComments us).tail).head? = some u →
      k true us = A t' u (skipComments (skipComments us).tail).tail)
    (yes : ∀ ⦃front rest u⦄, ts = front ++ rest → rest.length < ts.length → u ∈ ts → u.kind = kind →
      Continues c done (secondIs kind >>= k) front rest (A (c.token t) (c.token u)) →
      Outcome c done (secondIs kind >>= k) ts (A t u rest))
    (no : Outcome c done (k false) ts (k false ts)) :
    Outcome c done (secondIs kind >>= k) ts ((secondIs kind >>= k) ts) := by
  rw [secondIs_bind]
  cases next : (words ts).tail.head?.any (·.kind = kind) with
  | true =>
    obtain ⟨t', u, front, back, rest, leads, leads', same, rfl⟩ := exists_second next
    have first := leads.words_append (back ++ rest)
    rw [first] at ahead
    obtain rfl := Option.some.inj ahead
    have left := leads.skip (back ++ rest)
    have less := leads.length_lt (back ++ rest)
    have less' := leads'.length_lt rest
    rw [takes rfl same (by rw [first]; rfl) (by rw [left, leads'.words_append]; rfl), left, leads'.skip]
    refine yes (List.append_assoc ..).symm (by omega) (List.mem_append_right front (leads'.mem rest)) same ?_
    refine .of_eq ?_
    intro kept _
    obtain ⟨head, tail⟩ := leads.run c (back ++ kept)
    obtain ⟨head', tail'⟩ := leads'.run c kept
    rw [← tail] at head' tail'
    have seen : (words ((front ++ (back ++ kept)).map c.token)).tail.head?.any (·.kind = kind) = true := by
      rw [← words_skipComments_tail, head']
      simp [same]
    rw [List.append_assoc, secondIs_bind, seen, takes (c.kind t') ((c.kind u).trans same) head head', tail']
  | false =>
    refine .alike ?_ no
    intro kept pre
    have less : (words kept).tail <+: (words ts).tail := by
      simpa using List.IsPrefix.drop (words_cut pre) 1
    rw [secondIs_bind, words_map, ← List.map_tail, List.head?_map, any_kind_map, head?_any_cut less next]

theorem Outcome.second {k : Bool → Parser α} {A : Token → Parser α} (ahead : (words ts).head? = some t)
    (takes : ∀ ⦃t' u us⦄, t'.kind = t.kind → u.kind = kind → (words us).head? = some t' →
      (words (skipComments us).tail).head? = some u →
      k true us = A t' (skipComments (skipComments us).tail).tail)
    (keeps : A (c.token t) = A t) (yes : ∀ ⦃rest⦄, rest.length < ts.length → Outcome c done (A t) rest (A t rest))
    (no : Outcome c done (k false) ts (k false ts)) :
    Outcome c done (secondIs kind >>= k) ts ((secondIs kind >>= k) ts) := by
  refine .second_of (A := fun t _ => A t) ahead takes ?_ no
  intro front rest u split less _ _ run
  rw [keeps] at run
  rw [split]
  exact .follow run (yes less)

end Syntax

end RetroScript
