import Mathlib.Computability.Language
import RetroScript.Token.Lexer

/-!
# Spellings

Each kind of lexeme has its spellings, given as regular languages over characters and, for the marks,
as a table. `spells_cons_iff` reads off the first character of a text which spellings it can start.
-/
namespace RetroScript.Token

open Computability

/-- The texts of one character. -/
def oneOf (p : Char → Prop) : Language Char := {cs | ∃ c, p c ∧ cs = [c]}

/-- The texts of one or more characters. -/
def someOf (p : Char → Prop) : Language Char := oneOf p * (oneOf p)∗

def Blank (c : Char) : Prop := c ∈ [' ', '\t', '\r', '\n']

def Digit (c : Char) : Prop := '0' ≤ c ∧ c ≤ '9'

def Letter (c : Char) : Prop := 'A' ≤ c ∧ c ≤ 'Z' ∨ 'a' ≤ c ∧ c ≤ 'z' ∨ c = '_'

def comments : Language Char := {['#']} * (oneOf fun c => c ≠ '\r' ∧ c ≠ '\n')∗

/-- What may stand between two quotes. -/
def contents : Language Char :=
  (oneOf (fun c => c ≠ '"' ∧ c ≠ '\\') + {['\\']} * oneOf (· ≠ '\n'))∗

def strings : Language Char := {['"']} * contents * {['"']}

def numbers : Language Char :=
  someOf Digit * (1 + {['.']} * someOf Digit) + {['.']} * someOf Digit

def words : Language Char := oneOf Letter * (oneOf fun c => Letter c ∨ Digit c)∗

def marks : List (List Char × Kind) :=
  [(['('], .lparen), ([')'], .rparen), (['\x7b'], .lbrace), (['\x7d'], .rbrace),
   (['['], .lbracket), ([']'], .rbracket), ([','], .comma), ([';'], .semicolon), ([':'], .colon),
   (['=', '>'], .arrow), (['&', '&'], .andAnd), (['|', '|'], .orOr), (['!', '='], .bangEqual),
   (['<', '='], .lessEqual), (['>', '='], .greaterEqual), (['<'], .less), (['>'], .greater),
   (['='], .equal), (['+'], .plus), (['-'], .minus), (['*'], .star), (['/'], .slash),
   (['%'], .percent), (['^'], .caret)]

/-- The spellings of a kind. A word is a keyword in any case, else an identifier. -/
inductive Spells : Kind → List Char → Prop
  | blank {raw : List Char} (shape : raw ∈ someOf Blank) : Spells .whitespace raw
  | comment {raw : List Char} (shape : raw ∈ comments) : Spells .comment raw
  | string {raw : List Char} (shape : raw ∈ strings) : Spells .string raw
  | number {raw : List Char} (shape : raw ∈ numbers) : Spells .number raw
  | keyword {kind : Kind} {raw : List Char} (shape : raw ∈ words)
      (listed : (String.ofList (raw.map Char.toLower), kind) ∈ keywords) : Spells kind raw
  | ident {raw : List Char} (shape : raw ∈ words)
      (unlisted : ∀ kind, (String.ofList (raw.map Char.toLower), kind) ∉ keywords) :
      Spells .ident raw
  | mark {kind : Kind} {raw : List Char} (listed : (raw, kind) ∈ marks) : Spells kind raw

/-! ### The characters of a spelling -/

theorem mem_oneOf {p : Char → Prop} {cs : List Char} : cs ∈ oneOf p ↔ ∃ c, p c ∧ cs = [c] := Iff.rfl

theorem mem_singleton {cs text : List Char} : cs ∈ ({text} : Language Char) ↔ cs = text := Iff.rfl

theorem mem_many {p : Char → Prop} {cs : List Char} : cs ∈ (oneOf p)∗ ↔ ∀ c ∈ cs, p c := by
  rw [Language.mem_kstar]
  constructor
  · rintro ⟨pieces, rfl, fit⟩ c inside
    obtain ⟨piece, member, inside⟩ := List.mem_flatten.mp inside
    obtain ⟨d, holds, rfl⟩ := fit piece member
    rwa [List.mem_singleton.mp inside]
  · intro holds
    refine ⟨cs.map fun c => [c], (List.flatMap_singleton' cs).symm, ?_⟩
    intro piece member
    obtain ⟨c, inside, rfl⟩ := List.mem_map.mp member
    exact ⟨c, holds c inside, rfl⟩

theorem cons_mem_oneOf_mul {p : Char → Prop} {l : Language Char} {c : Char} {cs : List Char} :
    c :: cs ∈ oneOf p * l ↔ p c ∧ cs ∈ l := by
  rw [Language.mem_mul]
  constructor
  · rintro ⟨_, ⟨d, holds, rfl⟩, rest, member, same⟩
    obtain ⟨rfl, rfl⟩ := List.cons.inj same
    exact ⟨holds, member⟩
  · rintro ⟨holds, member⟩
    exact ⟨[c], ⟨c, holds, rfl⟩, cs, member, rfl⟩

theorem cons_mem_singleton_mul {l : Language Char} {a c : Char} {cs : List Char} :
    c :: cs ∈ {[a]} * l ↔ c = a ∧ cs ∈ l := by
  have same : ({[a]} : Language Char) = oneOf (· = a) := by
    ext text
    simp [mem_oneOf, mem_singleton]
  rw [same, cons_mem_oneOf_mul]

theorem nil_notMem_oneOf_mul {p : Char → Prop} {l : Language Char} : [] ∉ oneOf p * l := by
  rw [Language.mem_mul]
  rintro ⟨_, ⟨d, _, rfl⟩, _, _, same⟩
  cases same

theorem mem_someOf {p : Char → Prop} {cs : List Char} :
    cs ∈ someOf p ↔ cs ≠ [] ∧ ∀ c ∈ cs, p c := by
  cases cs with
  | nil => simp [someOf, nil_notMem_oneOf_mul]
  | cons c cs => simp [someOf, cons_mem_oneOf_mul, mem_many]

theorem blank_iff {c : Char} : Blank c ↔ isBlank c = true := by
  simp [Blank, isBlank, or_assoc]

theorem digit_iff {c : Char} : Digit c ↔ c.isDigit = true := by
  simp [Digit, Char.isDigit, Char.le_def]

theorem letter_iff {c : Char} : Letter c ↔ isWordStart c = true := by
  have alpha : c.isAlpha = (decide ('A' ≤ c ∧ c ≤ 'Z') || 'a' ≤ c && c ≤ 'z') := rfl
  simp [Letter, isWordStart, alpha, or_assoc]

theorem letter_or_digit_iff {c : Char} : Letter c ∨ Digit c ↔ isWordPart c = true := by
  rw [letter_iff, digit_iff]
  simp only [isWordStart, isWordPart, Char.isAlphanum, Bool.or_eq_true]
  tauto

theorem mem_comments {c : Char} {tail : List Char} :
    c :: tail ∈ comments ↔ c = '#' ∧ ∀ d ∈ tail, isCommentPart d = true := by
  simp [comments, cons_mem_singleton_mul, mem_many, isCommentPart]

theorem mem_strings {c : Char} {tail : List Char} :
    c :: tail ∈ strings ↔ c = '"' ∧ ∃ body ∈ contents, tail = body ++ ['"'] := by
  rw [strings, mul_assoc, cons_mem_singleton_mul, Language.mem_mul]
  simp [mem_singleton, eq_comm]

theorem mem_words {c : Char} {tail : List Char} :
    c :: tail ∈ words ↔ isWordStart c = true ∧ ∀ d ∈ tail, isWordPart d = true := by
  simp [words, cons_mem_oneOf_mul, mem_many, letter_iff, ← letter_or_digit_iff]

/-- One or more digits. -/
def Digits (cs : List Char) : Prop := cs ≠ [] ∧ ∀ c ∈ cs, c.isDigit = true

theorem mem_digits {cs : List Char} : cs ∈ someOf Digit ↔ Digits cs := by
  simp [mem_someOf, Digits, digit_iff]

theorem mem_numbers {raw : List Char} :
    raw ∈ numbers ↔ Digits raw ∨ (∃ whole part, Digits whole ∧ Digits part ∧
      raw = whole ++ '.' :: part) ∨ ∃ part, Digits part ∧ raw = '.' :: part := by
  rw [numbers, mul_add, mul_one]
  simp only [Language.mem_add, Language.mem_mul, mem_singleton, mem_digits]
  constructor
  · rintro ((whole | ⟨whole, digits, _, ⟨_, rfl, part, digits', rfl⟩, rfl⟩) |
      ⟨_, rfl, part, digits, rfl⟩)
    · exact .inl whole
    · exact .inr (.inl ⟨whole, part, digits, digits', rfl⟩)
    · exact .inr (.inr ⟨part, digits, rfl⟩)
  · rintro (whole | ⟨whole, part, digits, digits', rfl⟩ | ⟨part, digits, rfl⟩)
    · exact .inl (.inl whole)
    · exact .inl (.inr ⟨whole, digits, _, ⟨_, rfl, part, digits', rfl⟩, rfl⟩)
    · exact .inr ⟨_, rfl, part, digits, rfl⟩

/-! ### The content of a string -/

theorem nil_mem_contents : [] ∈ contents := Language.nil_mem_kstar _

theorem append_mem_contents {piece body : List Char}
    (first : piece ∈ oneOf (fun c => c ≠ '"' ∧ c ≠ '\\') + {['\\']} * oneOf (· ≠ '\n'))
    (member : body ∈ contents) : piece ++ body ∈ contents := by
  obtain ⟨pieces, rfl, fit⟩ := member
  exact ⟨piece :: pieces, rfl, List.forall_mem_cons.mpr ⟨first, fit⟩⟩

theorem plain_mem_contents {c : Char} {body : List Char} (quote : c ≠ '"') (slash : c ≠ '\\')
    (member : body ∈ contents) : c :: body ∈ contents :=
  append_mem_contents (.inl ⟨c, ⟨quote, slash⟩, rfl⟩) member

theorem escape_mem_contents {c : Char} {body : List Char} (feed : c ≠ '\n')
    (member : body ∈ contents) : '\\' :: c :: body ∈ contents :=
  append_mem_contents (.inr (cons_mem_singleton_mul.mpr ⟨rfl, c, feed, rfl⟩)) member

theorem contents_induction {motive : (body : List Char) → body ∈ contents → Prop}
    (nil : motive [] nil_mem_contents)
    (plain : ∀ c body (quote : c ≠ '"') (slash : c ≠ '\\') (member : body ∈ contents),
      motive body member → motive (c :: body) (plain_mem_contents quote slash member))
    (escape : ∀ c body (feed : c ≠ '\n') (member : body ∈ contents),
      motive body member → motive ('\\' :: c :: body) (escape_mem_contents feed member))
    {body : List Char} (member : body ∈ contents) : motive body member := by
  obtain ⟨pieces, rfl, fit⟩ := member
  induction pieces with
  | nil => exact nil
  | cons piece pieces ih =>
    obtain ⟨first, later⟩ := List.forall_mem_cons.mp fit
    rcases first with ⟨c, ⟨quote, slash⟩, rfl⟩ | ⟨_, rfl, _, ⟨c, feed, rfl⟩, rfl⟩
    · exact plain c _ quote slash _ (ih later)
    · exact escape c _ feed _ (ih later)

/-- The text that the content of a string stands for. -/
def unescaped : List Char → List Char
  | [] => []
  | ['\\'] => []
  | '\\' :: c :: rest => unescape c :: unescaped rest
  | c :: rest => c :: unescaped rest

theorem unescaped_cons {c : Char} (slash : c ≠ '\\') (rest : List Char) :
    unescaped (c :: rest) = c :: unescaped rest := by
  simp [unescaped, slash]

/-- The text of a token that is spelled `raw`. -/
def textOf (kind : Kind) (raw : List Char) : String :=
  String.ofList (if kind = .string then unescaped raw.tail.dropLast else raw)

/-! ### Words -/

theorem wordKind_of_listed {raw : List Char} {kind : Kind}
    (listed : (String.ofList (raw.map Char.toLower), kind) ∈ keywords) : wordKind raw = kind := by
  have distinct : ∀ entry ∈ keywords, keywords.lookup entry.1 = some entry.2 := by decide
  rw [wordKind, distinct _ listed, Option.getD_some]

theorem wordKind_of_unlisted {raw : List Char}
    (unlisted : ∀ kind, (String.ofList (raw.map Char.toLower), kind) ∉ keywords) :
    wordKind raw = .ident := by
  have none : keywords.lookup (String.ofList (raw.map Char.toLower)) = none := by
    refine List.lookup_eq_none_iff.mpr ?_
    rintro entry member
    by_contra same
    obtain ⟨word, kind⟩ := entry
    obtain rfl : String.ofList (raw.map Char.toLower) = word := by simpa using same
    exact unlisted kind member
  rw [wordKind, none, Option.getD_none]

theorem spells_wordKind {raw : List Char} (shape : raw ∈ words) : Spells (wordKind raw) raw := by
  by_cases listed : ∃ kind, (String.ofList (raw.map Char.toLower), kind) ∈ keywords
  · obtain ⟨kind, listed⟩ := listed
    rw [wordKind_of_listed listed]
    exact .keyword shape listed
  · have unlisted := not_exists.mp listed
    rw [wordKind_of_unlisted unlisted]
    exact .ident shape unlisted

theorem wordKind_ne (raw : List Char) : wordKind raw ≠ .whitespace ∧ wordKind raw ≠ .string := by
  have neither : ∀ entry ∈ keywords, entry.2 ≠ .whitespace ∧ entry.2 ≠ .string := by decide
  by_cases listed : ∃ kind, (String.ofList (raw.map Char.toLower), kind) ∈ keywords
  · obtain ⟨kind, listed⟩ := listed
    rw [wordKind_of_listed listed]
    exact neither _ listed
  · rw [wordKind_of_unlisted (not_exists.mp listed)]
    decide

/-! ### Spellings by their first character -/

/-- The kind and the further characters of a spelling that starts with `c`. -/
def Continues (c : Char) (tail : List Char) (kind : Kind) : Prop :=
  if isBlank c then kind = .whitespace ∧ ∀ d ∈ tail, isBlank d
  else if c = '#' then kind = .comment ∧ ∀ d ∈ tail, isCommentPart d
  else if c = '"' then kind = .string ∧ ∃ body ∈ contents, tail = body ++ ['"']
  else if c.isDigit then
    kind = .number ∧ ∃ whole, (∀ d ∈ whole, d.isDigit) ∧
      (tail = whole ∨ ∃ part, Digits part ∧ tail = whole ++ '.' :: part)
  else if c = '.' then kind = .number ∧ Digits tail
  else if isWordStart c then kind = wordKind (c :: tail) ∧ ∀ d ∈ tail, isWordPart d
  else (c :: tail, kind) ∈ marks

theorem not_spells_nil (kind : Kind) : ¬ Spells kind [] := by
  have mark : ∀ entry ∈ marks, entry.1 ≠ [] := by decide
  intro spelled
  cases spelled with
  | blank shape => exact nil_notMem_oneOf_mul shape
  | comment shape => simp [comments, Language.mem_mul, mem_singleton] at shape
  | string shape => simp [strings, Language.mem_mul, mem_singleton] at shape
  | number shape => simp [mem_numbers, Digits] at shape
  | keyword shape | ident shape => exact nil_notMem_oneOf_mul shape
  | mark listed => exact mark _ listed rfl

/-- A class without the four blanks has no blank. -/
theorem not_blank_of {p : Char → Bool} {c : Char} (holds : p c = true)
    (apart : p ' ' = false ∧ p '\t' = false ∧ p '\r' = false ∧ p '\n' = false) :
    isBlank c = false := by
  by_contra blank
  simp only [isBlank, Bool.not_eq_false, Bool.or_eq_true, decide_eq_true_eq] at blank
  rcases blank with ((rfl | rfl) | rfl) | rfl <;> simp_all

theorem isWordStart_not_digit {c : Char} (start : isWordStart c = true) : c.isDigit = false := by
  by_contra digit
  obtain ⟨low, high⟩ := digit_iff.mpr (Bool.not_eq_false _ ▸ digit)
  rcases letter_iff.mpr start with ⟨upper, _⟩ | ⟨lower, _⟩ | rfl
  · exact absurd (Char.le_trans upper high) (by decide)
  · exact absurd (Char.le_trans lower high) (by decide)
  · exact absurd high (by decide)

theorem continues_digit {c : Char} {tail : List Char} {kind : Kind} (digit : c.isDigit = true) :
    Continues c tail kind ↔ kind = .number ∧ ∃ whole, (∀ d ∈ whole, d.isDigit) ∧
      (tail = whole ∨ ∃ part, Digits part ∧ tail = whole ++ '.' :: part) := by
  have blank : isBlank c = false := not_blank_of digit (by decide)
  have hash : c ≠ '#' := by rintro rfl; cases digit
  have quote : c ≠ '"' := by rintro rfl; cases digit
  simp [Continues, blank, hash, quote, digit]

theorem continues_word {c : Char} {tail : List Char} {kind : Kind} (start : isWordStart c = true) :
    Continues c tail kind ↔ kind = wordKind (c :: tail) ∧ ∀ d ∈ tail, isWordPart d := by
  have blank : isBlank c = false := not_blank_of start (by decide)
  have hash : c ≠ '#' := by rintro rfl; cases start
  have quote : c ≠ '"' := by rintro rfl; cases start
  have point : c ≠ '.' := by rintro rfl; cases start
  simp [Continues, blank, hash, quote, isWordStart_not_digit start, point, start]

theorem continues_mark {c : Char} {tail : List Char} {kind : Kind}
    (listed : (c :: tail, kind) ∈ marks) : Continues c tail kind := by
  have apart : ∀ entry ∈ marks, entry.1.head?.all (fun d => !isBlank d && d != '#' && d != '"' &&
      !d.isDigit && d != '.' && !isWordStart d) = true := by decide
  have start := apart _ listed
  simp only [List.head?_cons, Option.all_some, Bool.and_eq_true, Bool.not_eq_true', bne_iff_ne] at start
  obtain ⟨⟨⟨⟨⟨blank, hash⟩, quote⟩, digit⟩, point⟩, word⟩ := start
  simpa [Continues, blank, hash, quote, digit, point, word] using listed

theorem continues_of_number {c : Char} {tail : List Char} (shape : c :: tail ∈ numbers) :
    Continues c tail .number := by
  rcases mem_numbers.mp shape with ⟨_, digits⟩ | ⟨whole, part, ⟨some, digits⟩, fraction, same⟩ |
    ⟨part, fraction, same⟩
  · obtain ⟨digit, digits⟩ := List.forall_mem_cons.mp digits
    exact (continues_digit digit).mpr ⟨rfl, tail, digits, .inl rfl⟩
  · obtain ⟨d, whole, rfl⟩ := List.exists_cons_of_ne_nil some
    obtain ⟨rfl, rfl⟩ := List.cons.inj same
    obtain ⟨digit, digits⟩ := List.forall_mem_cons.mp digits
    exact (continues_digit digit).mpr ⟨rfl, whole, digits, .inr ⟨part, fraction, rfl⟩⟩
  · obtain ⟨rfl, rfl⟩ := List.cons.inj same
    exact ⟨rfl, fraction⟩

theorem continues_of_spells {c : Char} {tail : List Char} {kind : Kind}
    (spelled : Spells kind (c :: tail)) : Continues c tail kind := by
  cases spelled with
  | blank shape =>
    obtain ⟨blank, blanks⟩ := List.forall_mem_cons.mp (mem_someOf.mp shape).2
    simp only [blank_iff] at blank blanks
    rw [Continues, if_pos blank]
    exact ⟨rfl, blanks⟩
  | comment shape =>
    obtain ⟨rfl, parts⟩ := mem_comments.mp shape
    exact ⟨rfl, parts⟩
  | string shape =>
    obtain ⟨rfl, closed⟩ := mem_strings.mp shape
    exact ⟨rfl, closed⟩
  | number shape => exact continues_of_number shape
  | keyword shape listed =>
    obtain ⟨start, parts⟩ := mem_words.mp shape
    exact (continues_word start).mpr ⟨(wordKind_of_listed listed).symm, parts⟩
  | ident shape unlisted =>
    obtain ⟨start, parts⟩ := mem_words.mp shape
    exact (continues_word start).mpr ⟨(wordKind_of_unlisted unlisted).symm, parts⟩
  | mark listed => exact continues_mark listed

theorem digits_cons {c : Char} {cs : List Char} :
    Digits (c :: cs) ↔ c.isDigit = true ∧ ∀ d ∈ cs, d.isDigit = true := by
  simp [Digits]

theorem spells_of_continues {c : Char} {tail : List Char} {kind : Kind}
    (continued : Continues c tail kind) : Spells kind (c :: tail) := by
  unfold Continues at continued
  split at continued
  · next blank =>
    obtain ⟨rfl, blanks⟩ := continued
    exact .blank (mem_someOf.mpr ⟨List.cons_ne_nil _ _,
      List.forall_mem_cons.mpr ⟨blank_iff.mpr blank, fun d inside => blank_iff.mpr (blanks d inside)⟩⟩)
  split at continued
  · obtain ⟨rfl, parts⟩ := continued
    exact .comment (mem_comments.mpr ⟨by assumption, parts⟩)
  split at continued
  · obtain ⟨rfl, closed⟩ := continued
    exact .string (mem_strings.mpr ⟨by assumption, closed⟩)
  split at continued
  · next digit =>
    obtain ⟨rfl, whole, digits, rfl | ⟨part, fraction, rfl⟩⟩ := continued
    · exact .number (mem_numbers.mpr (.inl (digits_cons.mpr ⟨digit, digits⟩)))
    · exact .number (mem_numbers.mpr (.inr (.inl
        ⟨c :: whole, part, digits_cons.mpr ⟨digit, digits⟩, fraction, rfl⟩)))
  split at continued
  · next point =>
    obtain ⟨rfl, fraction⟩ := continued
    exact .number (mem_numbers.mpr (.inr (.inr ⟨tail, fraction, by rw [point]⟩)))
  split at continued
  · next start =>
    obtain ⟨rfl, parts⟩ := continued
    exact spells_wordKind (mem_words.mpr ⟨start, parts⟩)
  · exact .mark continued

theorem spells_cons_iff {c : Char} {tail : List Char} {kind : Kind} :
    Spells kind (c :: tail) ↔ Continues c tail kind :=
  ⟨continues_of_spells, spells_of_continues⟩

/-- A spelling has one kind. -/
theorem Spells.unique {raw : List Char} {kind kind' : Kind} (spelled : Spells kind raw)
    (spelled' : Spells kind' raw) : kind = kind' := by
  have single : ∀ entry ∈ marks, ∀ entry' ∈ marks, entry.1 = entry'.1 → entry.2 = entry'.2 := by
    decide
  cases raw with
  | nil => exact absurd spelled (not_spells_nil kind)
  | cons c tail =>
    rw [spells_cons_iff, Continues] at spelled spelled'
    split_ifs at spelled spelled'
    case neg => exact single _ spelled _ spelled' rfl
    all_goals exact spelled.1.trans spelled'.1.symm

end RetroScript.Token
