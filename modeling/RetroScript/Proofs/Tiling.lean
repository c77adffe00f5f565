import Mathlib.Data.List.DropRight
import RetroScript.Proofs.Spelling

/-!
# Lexing tiles the source

What is read at the start of a text is the longest spelling that starts it, or none does
(`scan_fits`). So a source is cut into blanks and spellings, each as long as it can be, up to its end
or to a place where no spelling starts (`lexFrom_tiled`).
-/
namespace RetroScript.Token

/-- No spelling that starts `cs` is longer than `raw`. -/
def Longest (raw cs : List Char) : Prop :=
  ∀ kind more, more <+: cs → Spells kind more → more.length ≤ raw.length

/-- No spelling starts `cs`. -/
def Stuck (cs : List Char) : Prop := ∀ kind more, more <+: cs → ¬ Spells kind more

/-- What is read of a text that no spelling starts: one character, or a string up to the end of the
text or to a backslash that hides nothing. -/
def BreaksOff (raw rest : List Char) : Prop :=
  (∃ c, c ≠ '"' ∧ raw = [c]) ∨
  ∃ body ∈ contents, raw = '"' :: body ∧
    (rest = [] ∨ rest = ['\\'] ∨ ∃ more, rest = '\\' :: '\n' :: more)

/-- What a lexeme says about the text `cs` that it was read from. -/
inductive Fits (cs : List Char) : Lexeme → Prop
  | blank {raw rest : List Char} (here : cs = raw ++ rest) (spelled : Spells .whitespace raw)
      (longest : Longest raw cs) : Fits cs (.blank raw rest)
  | token {kind : Kind} {raw rest : List Char} (here : cs = raw ++ rest)
      (visible : kind ≠ .whitespace) (spelled : Spells kind raw) (longest : Longest raw cs) :
      Fits cs (.token kind raw (textOf kind raw) rest)
  | broken {raw rest : List Char} (here : cs = raw ++ rest) (off : BreaksOff raw rest)
      (stuck : Stuck cs) : Fits cs (.broken raw)

theorem longest_cons {c : Char} {raw cs : List Char}
    (bound : ∀ kind tail, tail <+: cs → Continues c tail kind → tail.length ≤ raw.length) :
    Longest (c :: raw) (c :: cs) := by
  intro kind more front spelled
  cases more with
  | nil => exact absurd spelled (not_spells_nil kind)
  | cons d tail =>
    obtain ⟨rfl, later⟩ := List.cons_prefix_cons.mp front
    exact Nat.succ_le_succ (bound kind tail later (spells_cons_iff.mp spelled))

theorem stuck_cons {c : Char} {cs : List Char}
    (none : ∀ kind tail, tail <+: cs → ¬ Continues c tail kind) : Stuck (c :: cs) := by
  intro kind more front spelled
  cases more with
  | nil => exact not_spells_nil kind spelled
  | cons d tail =>
    obtain ⟨rfl, later⟩ := List.cons_prefix_cons.mp front
    exact none kind tail later (spells_cons_iff.mp spelled)

/-! ### Runs of one class -/

theorem length_le_takeWhile {p : Char → Bool} {front cs : List Char} (start : front <+: cs)
    (holds : ∀ c ∈ front, p c = true) : front.length ≤ (cs.takeWhile p).length := by
  obtain ⟨rest, rfl⟩ := start
  rw [List.takeWhile_append_of_pos holds, List.length_append]
  exact Nat.le_add_right _ _

theorem mem_takeWhile {p : Char → Bool} {cs : List Char} : ∀ c ∈ cs.takeWhile p, p c = true :=
  List.all_eq_true.mp List.all_takeWhile

theorem longest_run {p : Char → Bool} {c : Char} {cs : List Char}
    (only : ∀ kind tail, Continues c tail kind → ∀ d ∈ tail, p d = true) :
    Longest (c :: cs.takeWhile p) (c :: cs) :=
  longest_cons fun kind tail front continued => length_le_takeWhile front (only kind tail continued)

theorem run_append {p : Char → Bool} {c : Char} {cs : List Char} :
    c :: cs = (c :: cs.takeWhile p) ++ cs.dropWhile p := by
  rw [List.cons_append, List.takeWhile_append_dropWhile]

theorem fits_plain {cs raw rest : List Char} {kind : Kind} (here : cs = raw ++ rest)
    (visible : kind ≠ .whitespace) (content : kind ≠ .string) (spelled : Spells kind raw)
    (longest : Longest raw cs) : Fits cs (plain kind raw rest) := by
  have text : textOf kind raw = String.ofList raw := by rw [textOf, if_neg content]
  rw [plain, ← text]
  exact .token here visible spelled longest

/-! ### Strings -/

theorem scanString_contents {body : List Char} (member : body ∈ contents)
    (raw text rest : List Char) :
    scanString raw text (body ++ '"' :: rest) =
      .token .string (raw.reverse ++ body ++ ['"']) (String.ofList (text.reverse ++ unescaped body))
        rest := by
  induction member using contents_induction generalizing raw text with
  | nil => simp [scanString, unescaped]
  | plain c body quote slash _ ih =>
    rw [List.cons_append, scanString, if_neg slash, ih, unescaped_cons slash]
    · simp
    · exact quote
    · exact fun _ _ same => absurd same slash
  | escape c body feed _ ih =>
    rw [List.cons_append, List.cons_append, scanString, if_neg feed, ih]
    simp [unescaped]

/-- A string is closed, or breaks off after some content. -/
theorem scanString_cases (raw text cs : List Char) :
    (∃ body ∈ contents, ∃ rest, cs = body ++ '"' :: rest) ∨
    ∃ body ∈ contents, ∃ rest, cs = body ++ rest ∧
      scanString raw text cs = .broken (raw.reverse ++ body) ∧
      (rest = [] ∨ rest = ['\\'] ∨ ∃ more, rest = '\\' :: '\n' :: more) := by
  fun_induction scanString raw text cs with
  | case1 raw => exact .inr ⟨[], nil_mem_contents, [], by simp⟩
  | case2 raw text rest => exact .inl ⟨[], nil_mem_contents, rest, rfl⟩
  | case3 raw text rest => exact .inr ⟨[], nil_mem_contents, '\\' :: '\n' :: rest, by simp⟩
  | case4 raw text c rest feed ih =>
    rcases ih with ⟨body, member, rest, rfl⟩ | ⟨body, member, rest, rfl, broken, off⟩
    · exact .inl ⟨'\\' :: c :: body, escape_mem_contents feed member, rest, rfl⟩
    · exact .inr ⟨'\\' :: c :: body, escape_mem_contents feed member, rest, rfl, by simp [broken], off⟩
  | case5 raw text rest _ lone =>
    cases rest with
    | nil => exact .inr ⟨[], nil_mem_contents, ['\\'], by simp⟩
    | cons d rest => exact (lone d rest rfl rfl).elim
  | case6 raw text c rest quote _ slash ih =>
    rcases ih with ⟨body, member, rest, rfl⟩ | ⟨body, member, rest, rfl, broken, off⟩
    · exact .inl ⟨c :: body, plain_mem_contents quote slash member, rest, rfl⟩
    · exact .inr ⟨c :: body, plain_mem_contents quote slash member, rest, rfl, by simp [broken], off⟩

theorem continues_quote {tail : List Char} {kind : Kind} :
    Continues '"' tail kind ↔ kind = .string ∧ ∃ body ∈ contents, tail = body ++ ['"'] := Iff.rfl

theorem textOf_quoted (body : List Char) :
    textOf .string ('"' :: (body ++ ['"'])) = String.ofList (unescaped body) := by
  simp [textOf]

theorem scanString_quoted {body : List Char} (member : body ∈ contents) (rest : List Char) :
    scanString ['"'] [] (body ++ '"' :: rest) =
      .token .string ('"' :: (body ++ ['"'])) (textOf .string ('"' :: (body ++ ['"']))) rest := by
  rw [scanString_contents member, textOf_quoted]
  rfl

theorem scanString_fits (cs : List Char) : Fits ('"' :: cs) (scanString ['"'] [] cs) := by
  -- Every string that starts here ends where `scanString` stops.
  have ends {kind : Kind} {tail : List Char} (front : tail <+: cs)
      (continued : Continues '"' tail kind) :
      ∃ text rest, scanString ['"'] [] cs = .token .string ('"' :: tail) text rest := by
    obtain ⟨-, body, member, rfl⟩ := continues_quote.mp continued
    obtain ⟨rest, rfl⟩ := front
    rw [List.append_assoc, List.singleton_append, scanString_quoted member]
    exact ⟨_, rest, rfl⟩
  rcases scanString_cases ['"'] [] cs with ⟨body, member, rest, rfl⟩ |
    ⟨body, member, rest, rfl, broken, off⟩
  · have found := scanString_quoted member rest
    rw [found]
    refine .token (by simp) (by decide) (spells_cons_iff.mpr ⟨rfl, body, member, rfl⟩) ?_
    refine longest_cons fun kind tail front continued => ?_
    obtain ⟨text, rest', same⟩ := ends front continued
    rw [found] at same
    obtain ⟨_, same, _⟩ := Lexeme.token.inj same
    exact (congrArg List.length (List.cons.inj same).2).ge
  · rw [broken]
    refine .broken rfl (.inr ⟨body, member, rfl, off⟩) ?_
    refine stuck_cons fun kind tail front continued => ?_
    obtain ⟨text, rest', same⟩ := ends front continued
    rw [broken] at same
    cases same

/-! ### Numbers -/

/-- The digits before a point are all the digits there. -/
theorem whole_eq_takeWhile {whole part cs : List Char} (digits : ∀ d ∈ whole, d.isDigit = true)
    (front : whole ++ '.' :: part <+: cs) :
    whole = cs.takeWhile Char.isDigit ∧ '.' :: part <+: cs.dropWhile Char.isDigit := by
  obtain ⟨rest, rfl⟩ := front
  rw [List.append_assoc, List.takeWhile_append_of_pos digits, List.dropWhile_append_of_pos digits]
  exact ⟨by simp [Char.isDigit], by simp [Char.isDigit]⟩

theorem longest_whole {c : Char} {cs : List Char} (digit : c.isDigit = true)
    (alone : ∀ d tail, cs.dropWhile Char.isDigit = '.' :: d :: tail → d.isDigit = false) :
    Longest (c :: cs.takeWhile Char.isDigit) (c :: cs) := by
  refine longest_cons fun kind tail front continued => ?_
  obtain ⟨-, whole, digits, rfl | ⟨part, ⟨some, fraction⟩, rfl⟩⟩ := (continues_digit digit).mp continued
  · exact length_le_takeWhile front digits
  · obtain ⟨-, rest, found⟩ := whole_eq_takeWhile digits front
    obtain ⟨d, part, rfl⟩ := List.exists_cons_of_ne_nil some
    have none := alone d (part ++ rest) found.symm
    rw [fraction d List.mem_cons_self] at none
    cases none

theorem longest_fraction {c d : Char} {cs tail : List Char} (digit : c.isDigit = true)
    (found : cs.dropWhile Char.isDigit = '.' :: d :: tail) (fraction : d.isDigit = true) :
    Longest (c :: (cs.takeWhile Char.isDigit ++ '.' :: d :: tail.takeWhile Char.isDigit)) (c :: cs) := by
  refine longest_cons fun kind more front continued => ?_
  rw [List.length_append, List.length_cons, List.length_cons]
  obtain ⟨-, whole, digits, rfl | ⟨part, ⟨_, digits'⟩, rfl⟩⟩ := (continues_digit digit).mp continued
  · have := length_le_takeWhile front digits
    omega
  · obtain ⟨same, rest⟩ := whole_eq_takeWhile digits front
    rw [found] at rest
    have short := length_le_takeWhile (List.cons_prefix_cons.mp rest).2 digits'
    rw [List.takeWhile_cons_of_pos fraction, List.length_cons] at short
    rw [List.length_append, List.length_cons, same]
    omega

theorem digits_run {d : Char} (digit : d.isDigit = true) (tail : List Char) :
    Digits (d :: tail.takeWhile Char.isDigit) :=
  digits_cons.mpr ⟨digit, mem_takeWhile⟩

theorem scanNumber_fits {c : Char} (digit : c.isDigit = true) (cs : List Char) :
    Fits (c :: cs) (scanNumber c cs) := by
  have number {tail : List Char} (continued : Continues c tail .number) {rest : List Char} :
      c :: cs = (c :: tail) ++ rest → Longest (c :: tail) (c :: cs) →
        Fits (c :: cs) (plain .number (c :: tail) rest) := fun here longest =>
    fits_plain here (by decide) (by decide) (spells_cons_iff.mpr continued) longest
  have whole : Continues c (cs.takeWhile Char.isDigit) .number :=
    (continues_digit digit).mpr ⟨rfl, _, mem_takeWhile, .inl rfl⟩
  unfold scanNumber
  dsimp only
  split
  · next d tail found =>
    split
    · next fraction =>
      refine number ((continues_digit digit).mpr
        ⟨rfl, _, mem_takeWhile, .inr ⟨_, digits_run fraction tail, rfl⟩⟩) ?_
        (longest_fraction digit found fraction)
      rw [List.cons_append, List.append_assoc, List.cons_append, List.cons_append,
        List.takeWhile_append_dropWhile, ← found, List.takeWhile_append_dropWhile]
    · next other =>
      refine number whole run_append (longest_whole digit fun e tail' found' => ?_)
      rw [found] at found'
      cases found'
      exact Bool.eq_false_of_not_eq_true other
  · next other =>
    exact number whole run_append (longest_whole digit fun d tail found => (other d tail found).elim)

theorem scanFraction_fits (cs : List Char) : Fits ('.' :: cs) (scanFraction cs) := by
  have stuck (none : ∀ d tail, cs = d :: tail → d.isDigit = false) : Stuck ('.' :: cs) := by
    refine stuck_cons fun kind part front continued => ?_
    obtain ⟨-, some, digits⟩ := continued
    obtain ⟨d, part, rfl⟩ := List.exists_cons_of_ne_nil some
    obtain ⟨rest, rfl⟩ := front
    cases (digits d List.mem_cons_self).symm.trans (none d _ rfl)
  have off : BreaksOff ['.'] cs := .inl ⟨'.', by decide, rfl⟩
  unfold scanFraction
  split
  · next d tail =>
    split
    · next digit =>
      refine fits_plain ?_ (by decide) (by decide)
        (spells_cons_iff.mpr ⟨rfl, digits_run digit tail⟩) ?_
      · rw [List.cons_append, ← run_append]
      · refine longest_cons fun kind part front continued => ?_
        have short := length_le_takeWhile front continued.2.2
        rwa [List.takeWhile_cons_of_pos digit] at short
    · next other =>
      refine .broken rfl off (stuck ?_)
      rintro e tail' same
      cases same
      exact Bool.eq_false_of_not_eq_true other
  · exact .broken rfl off (stuck (by rintro d tail same; cases same))

/-! ### Marks -/

section

variable {c : Char} {cs : List Char}

theorem mark_length_le {raw : List Char} {kind : Kind} (listed : (raw, kind) ∈ marks) :
    raw.length ≤ 2 := by
  have short : ∀ entry ∈ marks, entry.1.length ≤ 2 := by decide
  exact short _ listed

theorem fits_mark {raw rest : List Char} {kind : Kind} (here : c :: cs = raw ++ rest)
    (listed : (raw, kind) ∈ marks) (longest : Longest raw (c :: cs)) :
    Fits (c :: cs) (plain kind raw rest) := by
  have neither : ∀ entry ∈ marks, entry.2 ≠ .whitespace ∧ entry.2 ≠ .string := by decide
  obtain ⟨visible, content⟩ := neither _ listed
  exact fits_plain here visible content (.mark listed) longest

variable (other : ∀ tail kind, Continues c tail kind → (c :: tail, kind) ∈ marks)
include other

theorem fits_double {d : Char} {rest : List Char} {kind : Kind} (here : cs = d :: rest)
    (listed : ([c, d], kind) ∈ marks) : Fits (c :: cs) (plain kind [c, d] rest) := by
  refine fits_mark (by rw [here]; rfl) listed (longest_cons fun kind tail _ continued => ?_)
  exact Nat.le_of_succ_le_succ (mark_length_le (other tail kind continued))

theorem fits_single {kind : Kind} (listed : ([c], kind) ∈ marks)
    (alone : ∀ d rest, cs = d :: rest → ∀ kind, ([c, d], kind) ∉ marks) :
    Fits (c :: cs) (plain kind [c] cs) := by
  refine fits_mark rfl listed (longest_cons fun kind tail front continued => ?_)
  have listed' := other tail kind continued
  have short := mark_length_le listed'
  obtain ⟨rest, rfl⟩ := front
  rcases tail with _ | ⟨d, _ | ⟨e, tail⟩⟩
  · exact Nat.le_refl _
  · exact (alone d rest rfl kind listed').elim
  · simp at short

theorem scanMark_fits (quote : c ≠ '"') : Fits (c :: cs) (scanMark c cs) := by
  unfold scanMark
  split
  case h_25 =>
    refine .broken rfl (.inl ⟨c, quote, rfl⟩) (stuck_cons fun kind tail front continued => ?_)
    have listed := other tail kind continued
    obtain ⟨rest, rfl⟩ := front
    simp [marks] at listed
    grind
  -- A mark of one character that also starts one of two.
  case h_16 alone | h_17 alone | h_18 alone =>
    refine fits_single other (by decide) fun d rest same kind listed => ?_
    simp [marks] at listed
    exact alone rest (listed.1 ▸ same)
  all_goals
    first
    | exact fits_double other rfl (by decide)
    | exact fits_single other (by decide) fun d rest same kind listed => by simp [marks] at listed

end

/-! ### The lexeme at the start of a text -/

theorem scan_fits (c : Char) (cs : List Char) : Fits (c :: cs) (scan c cs) := by
  unfold scan
  split
  · next blank =>
    have run {kind : Kind} {tail : List Char} :
        Continues c tail kind ↔ kind = .whitespace ∧ ∀ d ∈ tail, isBlank d := by
      rw [Continues, if_pos blank]
    exact .blank run_append (spells_cons_iff.mpr (run.mpr ⟨rfl, mem_takeWhile⟩))
      (longest_run fun _ _ continued => (run.mp continued).2)
  split
  · next hash =>
    subst hash
    exact fits_plain run_append (by decide) (by decide)
      (spells_cons_iff.mpr ⟨rfl, mem_takeWhile⟩) (longest_run fun _ _ continued => continued.2)
  split
  · next quote => exact quote ▸ scanString_fits cs
  split
  · next digit => exact scanNumber_fits digit cs
  split
  · next point => exact point ▸ scanFraction_fits cs
  split
  · next start =>
    obtain ⟨visible, content⟩ := wordKind_ne (c :: cs.takeWhile isWordPart)
    exact fits_plain run_append visible content
      (spells_cons_iff.mpr ((continues_word start).mpr ⟨rfl, mem_takeWhile⟩))
      (longest_run fun _ _ continued => ((continues_word start).mp continued).2)
  · next blank hash quote digit point start =>
    refine scanMark_fits (fun tail kind continued => ?_) quote
    rwa [Continues, if_neg blank, if_neg hash, if_neg quote, if_neg digit, if_neg point,
      if_neg start] at continued

/-! ### Places -/

/-- The place after `before`: the line feeds are counted, and the characters since the last one. -/
def place (before : List Char) : Position :=
  ⟨1 + before.count '\n', 1 + (before.rtakeWhile (· ≠ '\n')).length⟩

theorem place_concat (before : List Char) (c : Char) :
    place (before ++ [c]) = (place before).next c := by
  by_cases feed : c = '\n'
  · subst feed
    simp [place, Position.next, Nat.add_assoc]
  · simp [place, Position.next, feed, List.count_append, Nat.add_assoc]

theorem place_append (before raw : List Char) :
    place (before ++ raw) = (place before).advance raw := by
  induction raw generalizing before with
  | nil => rw [List.append_nil]; rfl
  | cons c raw ih =>
    rw [List.append_cons, ih, place_concat]
    rfl

/-! ### The run over a text -/

/-- A token that `raw` spells. -/
structure Spelled (t : Token) (raw : List Char) : Prop where
  visible : t.kind ≠ .whitespace
  spelled : Spells t.kind raw
  text : t.text = textOf t.kind raw

/-- The texts that are cut into blanks and the tokens given, with what stands after them. -/
inductive Tiled : List Char → List Token → List Char → Prop
  | start (cs : List Char) : Tiled [] [] cs
  | blank {before raw rest : List Char} {tokens : List Token}
      (tiled : Tiled before tokens (raw ++ rest)) (spelled : Spells .whitespace raw)
      (longest : Longest raw (raw ++ rest)) :
      Tiled (before ++ raw) tokens rest
  | token {before raw rest : List Char} {tokens : List Token} {t : Token}
      (tiled : Tiled before tokens (raw ++ rest)) (spelled : Spelled t raw)
      (single : ∀ kind, Spells kind raw → kind = t.kind) (longest : Longest raw (raw ++ rest))
      (pos : t.pos = place before) : Tiled (before ++ raw) (tokens ++ [t]) rest

/-- Where and on what lexing stops, if it does. -/
def StopsAt (source : List Char) (e : LexError) : Prop :=
  ∃ before tokens raw rest, source = before ++ (raw ++ rest) ∧ Tiled before tokens (raw ++ rest) ∧
    e = ⟨place before, String.ofList raw⟩ ∧ BreaksOff raw rest ∧ Stuck (raw ++ rest)

theorem lexFrom_tiled (pos : Position) (cs : List Char) (read : List Token) {before : List Char}
    (tiled : Tiled before read.reverse cs) (here : pos = place before) :
    (∃ tokens, lexFrom pos cs read = .ok tokens ∧ Tiled (before ++ cs) tokens []) ∨
    ∃ e, lexFrom pos cs read = .error e ∧ StopsAt (before ++ cs) e := by
  fun_induction lexFrom pos cs read generalizing before with
  | case1 pos read => exact .inl ⟨_, rfl, by rwa [List.append_nil]⟩
  | case2 pos read c cs raw rest found ih =>
    have fits := scan_fits c cs
    rw [found] at fits
    cases fits with
    | blank same spelled longest =>
      rw [same] at tiled longest ⊢
      rw [← List.append_assoc]
      exact ih (.blank tiled spelled longest) (by rw [here, place_append])
  | case3 pos read c cs kind raw text rest found ih =>
    have fits := scan_fits c cs
    rw [found] at fits
    cases fits with
    | token same visible spelled longest =>
      rw [same] at tiled longest ⊢
      rw [← List.append_assoc]
      refine ih ?_ (by rw [here, place_append])
      rw [List.reverse_cons]
      exact .token tiled ⟨visible, spelled, rfl⟩ (fun _ other => other.unique spelled) longest here
  | case4 pos read c cs raw found =>
    have fits := scan_fits c cs
    rw [found] at fits
    cases fits with
    | broken same off stuck =>
      rw [same] at tiled stuck ⊢
      exact .inr ⟨_, rfl, before, _, raw, _, rfl, tiled, by rw [here], off, stuck⟩

/-- The tokens of a source and its blanks are all of it, each as long as it can be; or lexing stops
at the first place where no spelling starts. -/
theorem lex_tiles (source : String) :
    (∃ tokens, lex source = .ok tokens ∧ Tiled source.toList tokens []) ∨
    ∃ e, lex source = .error e ∧ StopsAt source.toList e :=
  lexFrom_tiled .start source.toList [] (.start _) rfl

end RetroScript.Token
