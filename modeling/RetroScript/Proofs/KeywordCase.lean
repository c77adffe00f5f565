import Mathlib
import RetroScript.Fault
import RetroScript.Proofs.Lookahead
import RetroScript.Proofs.Rendering

/-!
# The case of keywords

Keywords may be written in any case. Changing the case of letters changes no spelling into one of
another kind (`Spells.recase`), so a source that differs in the case of its keywords is cut at the same
places into tokens of the same kinds (`lexFrom_recased`), and the parser sees the kinds of keywords alone.
-/
namespace RetroScript.Token

/-- The letters in lower case. -/
def lower (cs : List Char) : List Char := cs.map Char.toLower

/-- Texts that differ in the case of keywords. Each text is cut into its lexemes, the longest spellings,
and what stands behind the last one considered is the same. -/
inductive Recased : List Char → List Char → Prop
  | same (cs : List Char) : Recased cs cs
  | keyword {kind : Kind} {raw raw' rest rest' : List Char} (keyword : kind.isKeyword = true)
      (spelled : Spells kind raw) (longest : Longest raw (raw ++ rest)) (letters : lower raw' = lower raw)
      (others : Recased rest rest') : Recased (raw ++ rest) (raw' ++ rest')
  | other {kind : Kind} {raw rest rest' : List Char} (spelled : Spells kind raw)
      (longest : Longest raw (raw ++ rest)) (others : Recased rest rest') : Recased (raw ++ rest) (raw ++ rest')

/-! ### Letters -/

theorem lower_lower (cs : List Char) : lower (lower cs) = lower cs := by
  rw [lower, lower, List.map_map]
  exact List.map_congr_left fun c _ => Char.toLower_toLower_eq_toLower c

theorem eq_or_letters {c d : Char} (same : d.toLower = c.toLower) :
    d = c ∨ d.isAlpha = true ∧ c.isAlpha = true := by
  have alike : d.isAlpha = c.isAlpha := by
    rw [← Char.isAlpha_toLower_eq_isAlpha, same, Char.isAlpha_toLower_eq_isAlpha]
  have keeps {c : Char} (other : c.isAlpha = false) : c.toLower = c := by
    apply Char.toLower_eq_of_not_isUpper
    intro upper
    rw [Char.isAlpha, upper, Bool.true_or] at other
    cases other
  cases letter : c.isAlpha with
  | true => exact .inr ⟨alike.trans letter, rfl⟩
  | false =>
    rw [keeps letter, keeps (alike.trans letter)] at same
    exact .inl same

/-- A class that has all letters or none does not depend on case. -/
theorem class_eq {p : Char → Bool} {b : Bool} (letters : ∀ c, c.isAlpha = true → p c = b) {c d : Char}
    (same : d.toLower = c.toLower) : p d = p c := by
  rcases eq_or_letters same with rfl | ⟨letter, letter'⟩
  · rfl
  · rw [letters d letter, letters c letter']

theorem eq_of_other {c d : Char} (same : d.toLower = c.toLower) (other : c.isAlpha = false) : d = c := by
  rcases eq_or_letters same with rfl | ⟨_, letter⟩
  · rfl
  · rw [other] at letter
    cases letter

theorem not_letter_of_all {cs : List Char} (plain : cs.all (!·.isAlpha) = true) : ∀ c ∈ cs, c.isAlpha = false := by
  intro c member
  simpa using List.all_eq_true.mp plain c member

theorem eq_of_others {raw raw' : List Char} (same : lower raw' = lower raw)
    (other : ∀ c ∈ raw, c.isAlpha = false) : raw' = raw := by
  induction raw generalizing raw' with
  | nil => exact List.map_eq_nil_iff.mp same
  | cons c raw ih =>
    obtain ⟨d, tail, rfl, first, later⟩ := List.map_eq_cons_iff.mp same
    obtain ⟨here, others⟩ := List.forall_mem_cons.mp other
    rw [eq_of_other first here, ih later others]

theorem forall_class {p : Char → Bool} {b : Bool} (letters : ∀ c, c.isAlpha = true → p c = b)
    {raw raw' : List Char} (same : lower raw' = lower raw) (holds : ∀ c ∈ raw, p c = true) :
    ∀ c ∈ raw', p c = true := by
  induction raw generalizing raw' with
  | nil =>
    obtain rfl := List.map_eq_nil_iff.mp same
    exact holds
  | cons c raw ih =>
    obtain ⟨d, tail, rfl, first, later⟩ := List.map_eq_cons_iff.mp same
    obtain ⟨here, others⟩ := List.forall_mem_cons.mp holds
    exact List.forall_mem_cons.mpr ⟨(class_eq letters first).trans here, ih later others⟩

/-! ### Spellings -/

theorem contents_recase {body : List Char} (member : body ∈ contents) {body' : List Char}
    (same : lower body' = lower body) : body' ∈ contents := by
  induction member using contents_induction generalizing body' with
  | nil =>
    obtain rfl := List.map_eq_nil_iff.mp same
    exact nil_mem_contents
  | plain c body quote slash _ ih =>
    obtain ⟨d, tail, rfl, first, later⟩ := List.map_eq_cons_iff.mp same
    refine plain_mem_contents ?_ ?_ (ih later)
    · rintro rfl
      exact quote (eq_of_other first.symm rfl)
    · rintro rfl
      exact slash (eq_of_other first.symm rfl)
  | escape c body feed _ ih =>
    obtain ⟨d, tail, rfl, first, later⟩ := List.map_eq_cons_iff.mp same
    obtain ⟨e, tail, rfl, second, later⟩ := List.map_eq_cons_iff.mp later
    obtain rfl := eq_of_other first rfl
    refine escape_mem_contents ?_ (ih later)
    rintro rfl
    exact feed (eq_of_other second.symm rfl)

theorem words_recase {raw raw' : List Char} (shape : raw ∈ words) (same : lower raw' = lower raw) :
    raw' ∈ words := by
  have start : ∀ c : Char, c.isAlpha = true → isWordStart c = true := by
    intro c letter
    rw [isWordStart, letter, Bool.true_or]
  have part : ∀ c : Char, c.isAlpha = true → isWordPart c = true := by
    intro c letter
    rw [isWordPart, Char.isAlphanum, letter, Bool.true_or, Bool.true_or]
  cases raw with
  | nil => exact absurd shape nil_notMem_oneOf_mul
  | cons c tail =>
    obtain ⟨d, tail', rfl, first, later⟩ := List.map_eq_cons_iff.mp same
    obtain ⟨starts, parts⟩ := mem_words.mp shape
    exact mem_words.mpr ⟨(class_eq start first).trans starts, forall_class part later parts⟩

theorem digit_not_letter {c : Char} (digit : c.isDigit = true) : c.isAlpha = false := by
  by_contra letter
  have start : isWordStart c = true := by rw [isWordStart, eq_true_of_ne_false letter, Bool.true_or]
  rw [isWordStart_not_digit start] at digit
  cases digit

theorem numbers_not_letter {raw : List Char} (shape : raw ∈ numbers) : ∀ c ∈ raw, c.isAlpha = false := by
  have digits {part : List Char} (digits : Digits part) : ∀ c ∈ part, c.isAlpha = false :=
    fun c member => digit_not_letter (digits.2 c member)
  have fraction {part : List Char} (fraction : Digits part) : ∀ c ∈ '.' :: part, c.isAlpha = false :=
    List.forall_mem_cons.mpr ⟨rfl, digits fraction⟩
  rcases mem_numbers.mp shape with whole | ⟨whole, part, before, behind, rfl⟩ | ⟨part, behind, rfl⟩
  · exact digits whole
  · exact List.forall_mem_append.mpr ⟨digits before, fraction behind⟩
  · exact fraction behind

/-- Case does not matter to what a text spells. -/
theorem Spells.recase {kind : Kind} {raw raw' : List Char} (spelled : Spells kind raw)
    (same : lower raw' = lower raw) : Spells kind raw' := by
  cases spelled with
  | blank shape =>
    have blanks : ∀ c ∈ [' ', '\t', '\r', '\n'], c.isAlpha = false := not_letter_of_all rfl
    rw [eq_of_others same fun c member => blanks c ((mem_someOf.mp shape).2 c member)]
    exact .blank shape
  | comment shape =>
    cases raw with
    | nil => exact absurd (.comment shape) (not_spells_nil _)
    | cons c tail =>
      obtain ⟨rfl, parts⟩ := mem_comments.mp shape
      obtain ⟨d, tail', rfl, first, later⟩ := List.map_eq_cons_iff.mp same
      have letters : ∀ c : Char, c.isAlpha = true → isCommentPart c = true := by
        intro c letter
        rw [isCommentPart, Bool.and_eq_true, decide_eq_true_eq, decide_eq_true_eq]
        refine ⟨?_, ?_⟩ <;> rintro rfl <;> cases letter
      exact .comment (mem_comments.mpr ⟨eq_of_other first rfl, forall_class letters later parts⟩)
  | string shape =>
    cases raw with
    | nil => exact absurd (.string shape) (not_spells_nil _)
    | cons c tail =>
      obtain ⟨rfl, body, member, rfl⟩ := mem_strings.mp shape
      obtain ⟨d, tail', rfl, first, later⟩ := List.map_eq_cons_iff.mp same
      rw [List.map_append] at later
      obtain ⟨body', last, rfl, inside, close⟩ := List.map_eq_append_iff.mp later
      obtain rfl : last = ['"'] := eq_of_others close (not_letter_of_all rfl)
      exact .string (mem_strings.mpr ⟨eq_of_other first rfl, body', contents_recase member inside, rfl⟩)
  | number shape =>
    rw [eq_of_others same (numbers_not_letter shape)]
    exact .number shape
  | keyword shape listed =>
    refine .keyword (words_recase shape same) ?_
    change (String.ofList (lower raw'), kind) ∈ keywords
    rwa [same]
  | ident shape unlisted =>
    refine .ident (words_recase shape same) fun kind => ?_
    change (String.ofList (lower raw'), kind) ∉ keywords
    rw [same]
    exact unlisted kind
  | mark listed =>
    have plain : ∀ entry ∈ marks, entry.1.all (!·.isAlpha) = true := by decide
    rw [eq_of_others same (not_letter_of_all (plain _ listed))]
    exact .mark listed

theorem Longest.recase {raw raw' cs cs' : List Char} (longest : Longest raw cs) (same : lower cs' = lower cs)
    (size : raw.length = raw'.length) : Longest raw' cs' := by
  intro kind more' front spelled
  obtain ⟨rest, rfl⟩ := front
  have split : lower more' = lower (cs.take more'.length) := by
    simp only [lower] at same ⊢
    rw [List.map_take, ← same, List.map_append]
    simp
  have short := longest kind _ (List.take_prefix _ cs) (spelled.recase split.symm)
  have length : (cs.take more'.length).length = more'.length := by
    have := congrArg List.length split
    simpa [lower] using this.symm
  omega

/-! ### Lexemes -/

/-- The longest spelling is the one read. -/
theorem lexFrom_spelled {kind : Kind} {raw rest : List Char} (spelled : Spells kind raw)
    (longest : Longest raw (raw ++ rest)) (pos : Position) (read : List Token) :
    lexFrom pos (raw ++ rest) read =
      lexFrom (pos.advance raw) rest
        (if kind = .whitespace then read else ⟨kind, textOf kind raw, pos⟩ :: read) := by
  have unique {kind' : Kind} {raw' rest' : List Char} (here : raw ++ rest = raw' ++ rest')
      (spelled' : Spells kind' raw') (longest' : Longest raw' (raw ++ rest)) : raw' = raw ∧ rest' = rest ∧ kind' = kind := by
    have short := longest kind' raw' ⟨rest', here.symm⟩ spelled'
    have short' := longest' kind raw ⟨rest, rfl⟩ spelled
    obtain ⟨rfl, rfl⟩ := List.append_inj here (Nat.le_antisymm short' short)
    exact ⟨rfl, rfl, spelled'.unique spelled⟩
  cases raw with
  | nil => exact absurd spelled (not_spells_nil kind)
  | cons c tail =>
    have fits := scan_fits c (tail ++ rest)
    generalize found : scan c (tail ++ rest) = lexeme at fits
    cases fits with
    | broken _ _ stuck => exact (stuck kind (c :: tail) ⟨rest, rfl⟩ spelled).elim
    | blank here spelled' longest' =>
      obtain ⟨rfl, rfl, rfl⟩ := unique here spelled' longest'
      exact lexFrom_blank found read
    | token here visible spelled' longest' =>
      obtain ⟨rfl, rfl, rfl⟩ := unique here spelled' longest'
      rw [if_neg visible]
      exact lexFrom_token found read

theorem advance_recase {raw raw' : List Char} (same : lower raw' = lower raw) (pos : Position) :
    pos.advance raw' = pos.advance raw := by
  induction raw generalizing raw' pos with
  | nil => rw [List.map_eq_nil_iff.mp same]
  | cons c raw ih =>
    obtain ⟨d, tail, rfl, first, later⟩ := List.map_eq_cons_iff.mp same
    have next : pos.next d = pos.next c := by
      have feed : decide (d = '\n') = decide (c = '\n') := by
        refine class_eq (p := fun c => decide (c = '\n')) (b := false) ?_ first
        intro c letter
        exact decide_eq_false (by rintro rfl; cases letter)
      simp only [Position.next, decide_eq_decide.mp feed]
    change (pos.next d).advance tail = (pos.next c).advance raw
    rw [next, ih later]

theorem Recased.lower_eq {cs cs' : List Char} (recased : Recased cs cs') : lower cs' = lower cs := by
  induction recased with
  | same cs => rfl
  | keyword _ _ _ letters _ ih =>
    simp only [lower, List.map_append] at letters ih ⊢
    rw [letters, ih]
  | other _ _ _ ih =>
    simp only [lower, List.map_append] at ih ⊢
    rw [ih]

/-- Tokens that differ in the case of a keyword, if at all. -/
structure SameButCase (t t' : Token) : Prop where
  kind : t'.kind = t.kind
  pos : t'.pos = t.pos
  text : t.kind.isKeyword = false → t'.text = t.text
  letters : lower t'.text.toList = lower t.text.toList

/-- Tokens that differ in the case of keywords, or the same fault. -/
inductive LexedAlike : Except LexError (List Token) → Except LexError (List Token) → Prop
  | ok {ts ts' : List Token} (tokens : List.Forall₂ SameButCase ts ts') : LexedAlike (.ok ts) (.ok ts')
  | error (e : LexError) : LexedAlike (.error e) (.error e)

theorem SameButCase.refl (t : Token) : SameButCase t t := ⟨rfl, rfl, fun _ => rfl, rfl⟩

theorem lexFrom_same (pos : Position) (cs : List Char) {read read' : List Token}
    (alike : List.Forall₂ SameButCase read read') : LexedAlike (lexFrom pos cs read) (lexFrom pos cs read') := by
  fun_induction lexFrom pos cs read generalizing read' with
  | case1 pos read =>
    rw [lexFrom]
    exact .ok (List.rel_reverse alike)
  | case2 pos read c cs raw rest found ih =>
    rw [lexFrom_blank found]
    exact ih alike
  | case3 pos read c cs kind raw text rest found ih =>
    rw [lexFrom_token found]
    exact ih (.cons (.refl _) alike)
  | case4 pos read c cs raw found =>
    rw [lexFrom]
    split <;> simp_all
    exact .error _

theorem isKeyword_ne {kind : Kind} (keyword : kind.isKeyword = true) : kind ≠ .whitespace ∧ kind ≠ .string := by
  constructor <;> rintro rfl <;> cases keyword

theorem lexFrom_recased {cs cs' : List Char} (recased : Recased cs cs') (pos : Position)
    {read read' : List Token} (alike : List.Forall₂ SameButCase read read') :
    LexedAlike (lexFrom pos cs read) (lexFrom pos cs' read') := by
  induction recased generalizing pos read read' with
  | same cs => exact lexFrom_same pos cs alike
  | @keyword kind raw raw' rest rest' keyword spelled longest letters others ih =>
    have whole : lower (raw' ++ rest') = lower (raw ++ rest) :=
      (Recased.keyword keyword spelled longest letters others).lower_eq
    have size : raw.length = raw'.length := by simpa [lower] using (congrArg List.length letters).symm
    obtain ⟨visible, content⟩ := isKeyword_ne keyword
    rw [lexFrom_spelled spelled longest, lexFrom_spelled (spelled.recase letters) (longest.recase whole size),
      advance_recase letters, if_neg visible, if_neg visible]
    refine ih _ (.cons ⟨rfl, rfl, fun other => ?_, ?_⟩ alike)
    · rw [keyword] at other
      cases other
    · simpa [textOf, content] using letters
  | @other kind raw rest rest' spelled longest others ih =>
    have whole : lower (raw ++ rest') = lower (raw ++ rest) := (Recased.other spelled longest others).lower_eq
    rw [lexFrom_spelled spelled longest, lexFrom_spelled spelled (longest.recase whole rfl)]
    refine ih _ ?_
    split
    · exact alike
    · exact .cons (.refl _) alike

theorem lexeme_cut {c : Char} {cs raw rest : List Char} {kind : Kind}
    (found : scan c cs = .blank raw rest ∧ kind = .whitespace ∨ ∃ text, scan c cs = .token kind raw text rest) :
    c :: cs = raw ++ rest ∧ Spells kind raw ∧ Longest raw (raw ++ rest) := by
  have fits := scan_fits c cs
  rcases found with ⟨found, rfl⟩ | ⟨text, found⟩
  · rw [found] at fits
    cases fits with
    | blank here spelled longest => exact ⟨here, spelled, here ▸ longest⟩
  · rw [found] at fits
    cases fits with
    | token here _ spelled longest => exact ⟨here, spelled, here ▸ longest⟩

/-- The keyword that the lexer finds may be written in another case. -/
theorem Recased.of_keyword {c : Char} {cs raw raw' rest rest' : List Char} {kind : Kind} {text : String}
    (found : scan c cs = .token kind raw text rest) (keyword : kind.isKeyword = true)
    (letters : lower raw' = lower raw) (others : Recased rest rest') : Recased (c :: cs) (raw' ++ rest') := by
  obtain ⟨here, spelled, longest⟩ := lexeme_cut (.inr ⟨text, found⟩)
  rw [here]
  exact .keyword keyword spelled longest letters others

theorem Recased.of_other {c : Char} {cs raw rest rest' : List Char} {kind : Kind}
    (found : scan c cs = .blank raw rest ∧ kind = .whitespace ∨ ∃ text, scan c cs = .token kind raw text rest)
    (others : Recased rest rest') : Recased (c :: cs) (raw ++ rest') := by
  obtain ⟨here, spelled, longest⟩ := lexeme_cut found
  rw [here]
  exact .other spelled longest others

/-- A keyword has the letters of one listed, and an identifier has those of none. -/
theorem Spelled.listed {t : Token} {raw : List Char} (spelled : Spelled t raw) :
    (t.kind.isKeyword = true → (String.ofList (lower t.text.toList), t.kind) ∈ keywords) ∧
      (t.kind = .ident → ∀ kind, (String.ofList (lower t.text.toList), kind) ∉ keywords) := by
  have written (plain : t.kind ≠ .string) : t.text.toList = raw := by
    rw [spelled.text, textOf, if_neg plain, String.toList_ofList]
  have never {kind : Kind} {P : Prop} (other : kind.isKeyword = false) (keyword : kind.isKeyword = true) : P :=
    absurd (other.symm.trans keyword) Bool.false_ne_true
  obtain ⟨kind, text, pos⟩ := t
  cases spelled.spelled with
  | keyword shape listed =>
    have apart : ∀ entry ∈ keywords, entry.2 ≠ .string ∧ entry.2 ≠ .ident := by decide
    obtain ⟨plain, other⟩ := apart _ listed
    rw [written plain]
    exact ⟨fun _ => listed, fun same => absurd same other⟩
  | ident shape unlisted =>
    rw [written fun same => Kind.noConfusion same]
    exact ⟨never rfl, fun _ => unlisted⟩
  | mark listed =>
    have apart : ∀ entry ∈ marks, entry.2.isKeyword = false ∧ entry.2 ≠ .ident := by decide
    obtain ⟨other, other'⟩ := apart _ listed
    exact ⟨never other, fun same => absurd same other'⟩
  | _ => exact ⟨never rfl, fun same => Kind.noConfusion same⟩

end RetroScript.Token

namespace RetroScript.Syntax

open Token (SameButCase LexedAlike Recased)

/-- The text of a token in lower case. -/
def lowerText (text : String) : String := String.ofList (Token.lower text.toList)

theorem lowerText_lowerText (text : String) : lowerText (lowerText text) = lowerText text := by
  rw [lowerText, lowerText, String.toList_ofList, Token.lower_lower]

/-- Keywords in lower case. -/
def Respelling.lowerCase : Respelling where
  token t := if t.kind.isKeyword then { t with text := lowerText t.text } else t
  kind t := by split <;> rfl
  pos t := by split <;> rfl
  text t other := by rw [if_neg (by simp [other])]

theorem lowerCase_eq {t t' : Token} (same : SameButCase t t') :
    Respelling.lowerCase.token t' = Respelling.lowerCase.token t := by
  obtain ⟨kind, pos, text, letters⟩ := same
  have lowered : lowerText t'.text = lowerText t.text := congrArg String.ofList letters
  cases keyword : t.kind.isKeyword with
  | true =>
    simp only [Respelling.lowerCase, keyword, kind, pos, lowered, ↓reduceIte]
  | false =>
    have keyword' : t'.kind.isKeyword = false := by rwa [kind]
    rw [Respelling.lowerCase.same keyword, Respelling.lowerCase.same keyword']
    cases t
    cases t'
    simp_all

theorem map_lowerCase_eq {ts ts' : List Token} (same : List.Forall₂ SameButCase ts ts') :
    ts'.map Respelling.lowerCase.token = ts.map Respelling.lowerCase.token := by
  induction same with
  | nil => rfl
  | cons first _ ih => rw [List.map_cons, List.map_cons, lowerCase_eq first, ih]

theorem lowerText_lowerCase (t : Token) : lowerText (Respelling.lowerCase.token t).text = lowerText t.text := by
  cases keyword : t.kind.isKeyword with
  | true => simp only [Respelling.lowerCase, keyword, lowerText_lowerText, ↓reduceIte]
  | false => rw [Respelling.lowerCase.same keyword]

/-- A fault with the text of the token found in lower case. -/
def ParseFault.lowered (fault : ParseFault) : ParseFault :=
  match fault.found? with
  | some text => fault.finding (lowerText text)
  | none => fault

theorem lowered_finding {fault : ParseFault} {t : Token} (names : ∀ text ∈ fault.found?, text = t.text) :
    (fault.finding (Respelling.lowerCase.token t).text).lowered = fault.lowered := by
  cases found : fault.found? with
  | none =>
    have unnamed (text : String) : fault.finding text = fault :=
      finding_found (by rw [found]; exact nofun)
    rw [unnamed]
  | some text =>
    have found' := found?_finding fault (Respelling.lowerCase.token t).text
    rw [found, Option.map_some] at found'
    simp only [ParseFault.lowered, found, found', finding_finding, lowerText_lowerCase, names text found]

/-! ### Programs -/

/-- What the parser of programs has come to on `ts`, in lower case. -/
inductive Lowered (ts : List Token) : Except ParseError Program → Except Stuck (List Item × List Token) → Prop
  | ok (items : List Item) (rest : List Token) : Lowered ts (.ok ⟨items⟩) (.ok (items, rest))
  | error {pos : Option Position} {fault fault' : ParseFault} (same : fault'.lowered = fault.lowered) :
      Lowered ts (.error (Stuck.locate ts ⟨pos, fault⟩)) (.error ⟨pos, fault'⟩)

theorem parse_lowered (ts : List Token) :
    Lowered ts (parse ts) (wholeProgram (ts.length + 1) (ts.map Respelling.lowerCase.token)) := by
  have outcome := outcome_wholeProgram .lowerCase ts
  generalize ran : wholeProgram (ts.length + 1) ts = r at outcome
  cases outcome with
  | @ok items taken rest split again =>
    have full := again.full
    rw [← split] at full
    rw [parse_of_ok ran, full]
    exact .ok items _
  | error fails =>
    rw [parse_of_error ran]
    cases fails with
    | @ahead before after t fault split _ names _ again =>
      have full := again (List.prefix_refl after)
      rw [← split] at full
      rw [full]
      exact .error (lowered_finding names)
    | ended _ again =>
      rw [again]
      exact .error rfl
    | behind _ _ again =>
      rw [again]
      exact .error rfl

theorem locate_pos_eq {ts ts' : List Token} (alike : List.Forall₂ SameButCase ts ts') (pos : Option Position)
    (fault fault' : ParseFault) : (Stuck.locate ts' ⟨pos, fault'⟩).pos = (Stuck.locate ts ⟨pos, fault⟩).pos := by
  have last (ts : List Token) :
      (ts.map Respelling.lowerCase.token).getLast?.map (·.pos) = ts.getLast?.map (·.pos) := by
    rw [List.getLast?_map, Option.map_map]
    exact congrArg (Option.map · ts.getLast?) (funext Respelling.lowerCase.pos)
  cases pos with
  | some pos => rfl
  | none =>
    simp only [Stuck.locate, Option.getD_none]
    rw [← last ts, ← last ts', map_lowerCase_eq alike]

theorem parse_recased {ts ts' : List Token} (alike : List.Forall₂ SameButCase ts ts') :
    (∃ p, parse ts = .ok p ∧ parse ts' = .ok p) ∨
    ∃ e e', parse ts = .error e ∧ parse ts' = .error e' ∧ e'.pos = e.pos ∧
      e'.fault.lowered = e.fault.lowered := by
  have lowered := parse_lowered ts
  have lowered' := parse_lowered ts'
  rw [map_lowerCase_eq alike, ← alike.length_eq] at lowered'
  generalize parse ts = result at lowered ⊢
  generalize parse ts' = result' at lowered' ⊢
  generalize wholeProgram (ts.length + 1) (ts.map Respelling.lowerCase.token) = run at lowered lowered'
  cases lowered with
  | ok items rest =>
    cases lowered'
    exact .inl ⟨_, rfl, rfl⟩
  | @error pos fault _ same =>
    cases lowered' with
    | @error _ fault' _ same' =>
      exact .inr ⟨_, _, rfl, rfl, locate_pos_eq alike pos fault fault', same'.symm.trans same⟩

/-- Keywords may be written in any case. Changing the case of keywords leaves the kinds and the places
of all tokens, and the texts of all that are no keywords; it gives the same program, or a fault at the
same place. A word is a keyword only as a whole. -/
theorem keyword_case_irrelevant {source source' : String} (recased : Recased source.toList source'.toList) :
    LexedAlike (Token.lex source) (Token.lex source') ∧
    (∀ ts, Token.lex source = .ok ts → ∀ t ∈ ts,
      (t.kind.isKeyword = true → (lowerText t.text, t.kind) ∈ Token.keywords) ∧
      (t.kind = .ident → ∀ kind, (lowerText t.text, kind) ∉ Token.keywords)) ∧
    ((∃ p, parseSource source = .ok p ∧ parseSource source' = .ok p) ∨
      (∃ e, parseSource source = .error (.lex e) ∧ parseSource source' = .error (.lex e)) ∨
      ∃ e e', parseSource source = .error (.parse e) ∧ parseSource source' = .error (.parse e') ∧
        e'.pos = e.pos ∧ e'.fault.lowered = e.fault.lowered) := by
  have lexed : LexedAlike (Token.lex source) (Token.lex source') := Token.lexFrom_recased recased .start .nil
  refine ⟨lexed, ?_, ?_⟩
  · intro ts read t member
    exact (Token.spelled_of_producible ⟨source, ts, read, t, member, rfl, rfl⟩).listed
  · unfold parseSource
    generalize Token.lex source = result at lexed ⊢
    generalize Token.lex source' = result' at lexed ⊢
    cases lexed with
    | error e => exact .inr (.inl ⟨e, rfl, rfl⟩)
    | ok alike =>
      rcases parse_recased alike with ⟨p, read, read'⟩ | ⟨e, e', failed, failed', place, fault⟩
      · exact .inl ⟨p, by simp only [read], by simp only [read']⟩
      · exact .inr (.inr ⟨e, e', by simp only [failed], by simp only [failed'], place, fault⟩)

theorem keyword_case_irrelevant_ends :
    Recased "const ends=true;#IF".toList "CoNST ends=TRUE;#IF".toList ∧
    ∃ p, parseSource "const ends=true;#IF" = .ok p ∧ parseSource "CoNST ends=TRUE;#IF" = .ok p := by
  have value : Recased "true;#IF".toList "TRUE;#IF".toList :=
    .of_keyword (show Token.scan 't' "rue;#IF".toList = .token .trueWord "true".toList _ ";#IF".toList from rfl)
      rfl (show Token.lower "TRUE".toList = Token.lower "true".toList from rfl) (.same _)
  have equal : Recased "=true;#IF".toList "=TRUE;#IF".toList :=
    .of_other (.inr ⟨_, show Token.scan '=' "true;#IF".toList = .token .equal "=".toList _ "true;#IF".toList
      from rfl⟩) value
  have name : Recased "ends=true;#IF".toList "ends=TRUE;#IF".toList :=
    .of_other (.inr ⟨_, show Token.scan 'e' "nds=true;#IF".toList = .token .ident "ends".toList _ "=true;#IF".toList
      from rfl⟩) equal
  have blank : Recased " ends=true;#IF".toList " ends=TRUE;#IF".toList :=
    .of_other (.inl ⟨show Token.scan ' ' "ends=true;#IF".toList = .blank " ".toList "ends=true;#IF".toList
      from rfl, rfl⟩) name
  have recased : Recased "const ends=true;#IF".toList "CoNST ends=TRUE;#IF".toList :=
    .of_keyword (show Token.scan 'c' "onst ends=true;#IF".toList =
        .token .constWord "const".toList _ " ends=true;#IF".toList from rfl)
      rfl (show Token.lower "CoNST".toList = Token.lower "const".toList from rfl) blank
  have parsed : ∃ p, parseSource "const ends=true;#IF" = .ok p := ⟨_, by cbv⟩
  obtain ⟨p, read⟩ := parsed
  refine ⟨recased, p, read, ?_⟩
  obtain ⟨-, -, ⟨q, same, same'⟩ | ⟨e, failed, -⟩ | ⟨e, _, failed, -⟩⟩ := keyword_case_irrelevant recased
  · rwa [← Except.ok.inj (same.symm.trans read)]
  · cases read.symm.trans failed
  · cases read.symm.trans failed

end RetroScript.Syntax
