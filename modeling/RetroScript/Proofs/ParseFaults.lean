import RetroScript.Proofs.Lookahead

/-!
# Where parsing fails

A fault is placed at a token of the input. A message that names a token as found names the word at that
place, and this is the first word not taken: the tokens before it are read without a fault, and cut
behind it the input has the same fault.
-/
namespace RetroScript.Syntax

open Token (Kind)

/-! ### Messages -/

/-- The message quotes `text` as that of a token found. -/
def NamesFound (message text : String) : Prop :=
  ∃ front : List Char, message.toList = front ++ '\'' :: (text.toList ++ ['\'']) ∧ '\'' ∉ front ∧
    ("found ".toList <:+ front ∨ front = "unexpected token ".toList)

theorem quote_notMem_name (kind : Kind) : '\'' ∉ kind.name.toList := by
  cases kind <;> decide

theorem quote_notMem_append {a b : String} (left : '\'' ∉ a.toList) (right : '\'' ∉ b.toList) :
    '\'' ∉ (a ++ b).toList := by
  rw [String.toList_append, List.mem_append]
  exact not_or.mpr ⟨left, right⟩

theorem quote_split {a b x y : List Char} (plain : '\'' ∉ a) (plain' : '\'' ∉ b)
    (same : a ++ '\'' :: x = b ++ '\'' :: y) : a = b ∧ x = y := by
  induction a generalizing b with
  | nil =>
    cases b with
    | nil => exact ⟨rfl, (List.cons.inj same).2⟩
    | cons c b =>
      obtain ⟨rfl, _⟩ := List.cons.inj same
      exact absurd List.mem_cons_self plain'
  | cons c a ih =>
    cases b with
    | nil =>
      obtain ⟨rfl, _⟩ := List.cons.inj same
      exact absurd List.mem_cons_self plain
    | cons d b =>
      obtain ⟨rfl, others⟩ := List.cons.inj same
      obtain ⟨rfl, rest⟩ := ih (fun member => plain (List.mem_cons_of_mem _ member))
        (fun member => plain' (List.mem_cons_of_mem _ member)) others
      exact ⟨rfl, rest⟩

/-- What a message names is what it quotes first. -/
theorem namesFound_iff {front opening quoted text : String} (split : opening = front ++ "'")
    (plain : '\'' ∉ front.toList) :
    NamesFound (opening ++ quoted ++ "'") text ↔
      quoted = text ∧ ("found ".toList <:+ front.toList ∨ front.toList = "unexpected token ".toList) := by
  have shape : (opening ++ quoted ++ "'").toList = front.toList ++ '\'' :: (quoted.toList ++ ['\'']) := by
    simp [split]
  constructor
  · rintro ⟨front', same, plain', opens⟩
    rw [shape] at same
    obtain ⟨rfl, rest⟩ := quote_split plain plain' same
    exact ⟨String.toList_injective (List.append_cancel_right rest), opens⟩
  · rintro ⟨rfl, opens⟩
    exact ⟨front.toList, shape, plain, opens⟩

theorem namesFound_found {start opening quoted text : String} (split : opening = start ++ "found '")
    (plain : '\'' ∉ start.toList) : NamesFound (opening ++ quoted ++ "'") text ↔ some quoted = some text := by
  have split' : opening = (start ++ "found ") ++ "'" := by
    rw [split, String.append_assoc]
    rfl
  have plain' := quote_notMem_append plain (by decide : '\'' ∉ "found ".toList)
  have opens : "found ".toList <:+ (start ++ "found ").toList := ⟨start.toList, String.toList_append.symm⟩
  rw [namesFound_iff split' plain', Option.some_inj, and_iff_left (.inl opens)]

theorem not_namesFound {message text : String} (plain : '\'' ∉ message.toList) : ¬ NamesFound message text := by
  rintro ⟨front, shape, _⟩
  rw [shape] at plain
  simp at plain

theorem not_namesFound_other {front opening quoted text : String} (split : opening = front ++ "'")
    (other : '\'' ∉ front.toList ∧
      ¬ ("found ".toList <:+ front.toList ∨ front.toList = "unexpected token ".toList)) :
    ¬ NamesFound (opening ++ quoted ++ "'") text := by
  rw [namesFound_iff split other.1]
  exact fun named => other.2 named.2

/-- A message names the token found and no other. -/
theorem namesFound_message (fault : ParseFault) (text : String) :
    NamesFound fault.message text ↔ fault.found? = some text := by
  have never {message : String} (unnamed : ¬ NamesFound message text) :
      NamesFound message text ↔ none = some text := by simp [unnamed]
  cases fault with
  | expected kind found =>
    have plain := quote_notMem_append (by decide : '\'' ∉ "expected ".toList) (quote_notMem_name kind)
    cases found with
    | some found =>
      have comma := quote_notMem_append plain (by decide : '\'' ∉ ", ".toList)
      have split (s : String) : s ++ ", found '" = s ++ ", " ++ "found '" := by
        rw [String.append_assoc]
        rfl
      exact namesFound_found (split _) comma
    | none => exact never (not_namesFound (quote_notMem_append plain (by decide)))
  | unclosed kind => exact never (not_namesFound (quote_notMem_append (by decide) (quote_notMem_name kind)))
  | expectedItem found =>
    have split : "expected const, let or def, found '" = "expected const, let or def, " ++ "found '" := by decide
    exact namesFound_found split (by decide)
  | expectedCommand found =>
    have split : "expected a command, found '" = "expected a command, " ++ "found '" := by decide
    exact namesFound_found split (by decide)
  | unexpected found =>
    have split : "unexpected token '" = "unexpected token " ++ "'" := by decide
    exact (namesFound_iff split (by decide)).trans
      ⟨fun named => congrArg some named.1, fun same => ⟨Option.some.inj same, .inr rfl⟩⟩
  | duplicateParameter name =>
    have split : "duplicate parameter '" = "duplicate parameter " ++ "'" := by decide
    exact never (not_namesFound_other split (by decide))
  | invalidNumber text =>
    have split : "invalid number '" = "invalid number " ++ "'" := by decide
    exact never (not_namesFound_other split (by decide))
  | expectedKey => exact never (not_namesFound (by decide))
  | deleteWhole => exact never (not_namesFound (by decide))
  | endOfInput => exact never (not_namesFound (by decide))

/-! ### Places -/

/-- Bounds beyond the length of the input make no difference. -/
theorem wholeProgram_of_error {ts : List Token} {n : Nat} {s : Stuck} (short : ts.length < n)
    (failed : wholeProgram n ts = .error s) : wholeProgram (ts.length + 1) ts = .error s := by
  have ends := ends_wholeProgram short (Nat.lt_succ_self _)
  rw [failed] at ends
  generalize wholeProgram (ts.length + 1) ts = r at ends ⊢
  cases ends
  rfl

/-- The tokens in `before` are read to their end, and with `t` behind them there is the fault, however
much of `after` follows. -/
structure FirstUnread (before : List Token) (t : Token) (after : List Token) (e : ParseError) : Prop where
  reads : (∃ p, parse before = .ok p) ∨ StopsAtEnd before
  refuses : ∀ kept, kept <+: after → parse (before ++ t :: kept) = .error e

theorem reads_of_short {ts : List Token} {n : Nat} (short : ts.length < n)
    (within : Short true (wholeProgram n ts)) : (∃ p, parse ts = .ok p) ∨ StopsAtEnd ts := by
  rcases within with ⟨fault, failed⟩ | ⟨_, ⟨items, rest⟩, ran⟩
  · exact .inr ⟨fault, wholeProgram_of_error short failed⟩
  · have ends := ends_wholeProgram short (Nat.lt_succ_self _)
    rw [ran] at ends
    generalize again : wholeProgram (ts.length + 1) ts = r at ends
    cases ends
    exact .inl ⟨_, parse_of_ok again⟩

theorem ne_nil_of_rejected {ts : List Token} {e : ParseError} (rejected : parse ts = .error e) : ts ≠ [] := by
  rintro rfl
  cases rejected

/-- A fault is placed at a token. Where the message names a token found, it is the first one not taken:
a word with that text, at that place. -/
theorem parse_error_at_token {ts : List Token} {e : ParseError} (rejected : parse ts = .error e) :
    (∃ t ∈ ts, t.pos = e.pos) ∧
    ∀ text, NamesFound e.fault.message text →
      ∃ before t after, ts = before ++ t :: after ∧ isComment t = false ∧ t.text = text ∧ t.pos = e.pos ∧
        FirstUnread before t after e := by
  have some := ne_nil_of_rejected rejected
  have unchanged (us : List Token) : us.map Respelling.none.token = us := List.map_id us
  have outcome := outcome_wholeProgram .none ts
  generalize ran : wholeProgram (ts.length + 1) ts = r at outcome
  cases outcome with
  | ok _ _ =>
    rw [parse_of_ok ran] at rejected
    cases rejected
  | @error s fails =>
    obtain rfl : s.locate ts = e := Except.error.inj ((parse_of_error ran).symm.trans rejected)
    simp only [namesFound_message]
    cases fails with
    | ended unnamed _ =>
      refine ⟨⟨ts.getLast some, List.getLast_mem some, ?_⟩, ?_⟩
      · simp [Stuck.locate, List.getLast?_eq_some_getLast some]
      · intro text named
        simp [Stuck.locate, unnamed] at named
    | @behind t fault member unnamed _ =>
      refine ⟨⟨t, member, rfl⟩, ?_⟩
      intro text named
      simp [Stuck.locate, unnamed] at named
    | @ahead before after t fault split word names within again =>
      refine ⟨⟨t, by simp [split], rfl⟩, ?_⟩
      intro text named
      refine ⟨before, t, after, split, word, (names text named).symm, rfl, ?_, ?_⟩
      · rw [unchanged before] at within
        have less : before.length < ts.length + 1 := by
          rw [split, List.length_append, List.length_cons]
          omega
        exact reads_of_short less within
      · rintro kept ⟨post, rfl⟩
        have failed := again (List.prefix_append kept post)
        have same : fault.finding (Respelling.none.token t).text = fault := finding_found names
        rw [unchanged, same] at failed
        have less : (before ++ t :: kept).length < ts.length + 1 := by
          simp only [split, List.length_append, List.length_cons]
          omega
        exact parse_of_error (wholeProgram_of_error less failed)

/-- `const a = 1 # one`, then `# two` and `const` on lines of their own. -/
def unfinished : List Token :=
  [⟨.constWord, "const", ⟨1, 1⟩⟩, ⟨.ident, "a", ⟨1, 7⟩⟩, ⟨.equal, "=", ⟨1, 9⟩⟩, ⟨.number, "1", ⟨1, 11⟩⟩,
   ⟨.comment, "# one", ⟨1, 13⟩⟩, ⟨.comment, "# two", ⟨2, 1⟩⟩, ⟨.constWord, "const", ⟨3, 1⟩⟩]

theorem unfinished_at_token :
    parse unfinished = .error ⟨⟨3, 1⟩, .expected .semicolon (some "const")⟩ ∧
    NamesFound "expected Semicolon, found 'const'" "const" ∧
    (∃ t ∈ unfinished, t.pos = ⟨3, 1⟩) ∧
    ∃ before t after, unfinished = before ++ t :: after ∧ isComment t = false ∧ t.text = "const" ∧
      t.pos = ⟨3, 1⟩ ∧ FirstUnread before t after ⟨⟨3, 1⟩, .expected .semicolon (some "const")⟩ := by
  have rejected : parse unfinished = .error ⟨⟨3, 1⟩, .expected .semicolon (some "const")⟩ := rfl
  have named : NamesFound (ParseFault.expected .semicolon (some "const")).message "const" :=
    (namesFound_message _ _).mpr rfl
  obtain ⟨placed, found⟩ := parse_error_at_token rejected
  exact ⟨rejected, named, placed, found "const" named⟩

end RetroScript.Syntax
