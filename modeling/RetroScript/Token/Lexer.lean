import RetroScript.Token

/-!
# Lexing

A source is cut from left to right into lexemes, each the longest that starts where the one before
it ended. Blanks separate lexemes and give no token; comments are tokens.
-/
namespace RetroScript.Token

/-- A text that starts no lexeme, and where. -/
structure LexError where
  pos : Position
  text : String
  deriving DecidableEq, Repr

def isBlank (c : Char) : Bool := c = ' ' || c = '\t' || c = '\r' || c = '\n'

def isWordStart (c : Char) : Bool := c.isAlpha || c = '_'

def isWordPart (c : Char) : Bool := c.isAlphanum || c = '_'

def isCommentPart (c : Char) : Bool := c ≠ '\r' && c ≠ '\n'

/-- What stands at the start of a text. -/
inductive Lexeme where
  /-- Blanks up to the rest. -/
  | blank (raw rest : List Char)
  /-- A token: its kind, spelling and text, and the rest. -/
  | token (kind : Kind) (raw : List Char) (text : String) (rest : List Char)
  /-- No lexeme can be completed; `raw` is what was read of it. -/
  | broken (raw : List Char)

/-- A lexeme whose text is its spelling. -/
def plain (kind : Kind) (raw rest : List Char) : Lexeme := .token kind raw (String.ofList raw) rest

/-- The character that a backslash and `c` stand for. -/
def unescape (c : Char) : Char :=
  match c with
  | 'n' => '\n'
  | 't' => '\t'
  | 'r' => '\r'
  | '0' => '\x00'
  | other => other

/-- The content of a string after its opening quote, read up to its end or to where it breaks off.
`raw` and `text` are what has been read so far, last character first. A backslash hides the
character after it, but not a line feed. -/
def scanString (raw text : List Char) : List Char → Lexeme
  | [] => .broken raw.reverse
  | '"' :: rest => .token .string ('"' :: raw).reverse (String.ofList text.reverse) rest
  | '\\' :: c :: rest =>
    if c = '\n' then .broken raw.reverse
    else scanString (c :: '\\' :: raw) (unescape c :: text) rest
  | c :: rest => if c = '\\' then .broken raw.reverse else scanString (c :: raw) (c :: text) rest

/-- The digits and at most one point of a number that starts with the digit `c`. -/
def scanNumber (c : Char) (cs : List Char) : Lexeme :=
  let whole := c :: cs.takeWhile Char.isDigit
  let rest := cs.dropWhile Char.isDigit
  match rest with
  | '.' :: d :: tail =>
    if d.isDigit then
      plain .number (whole ++ '.' :: d :: tail.takeWhile Char.isDigit) (tail.dropWhile Char.isDigit)
    else plain .number whole rest
  | _ => plain .number whole rest

/-- A number that starts with a point. -/
def scanFraction (cs : List Char) : Lexeme :=
  match cs with
  | d :: tail =>
    if d.isDigit then
      plain .number ('.' :: d :: tail.takeWhile Char.isDigit) (tail.dropWhile Char.isDigit)
    else .broken ['.']
  | [] => .broken ['.']

/-- The operator or mark that starts with `c`, two characters before one. -/
def scanMark (c : Char) (cs : List Char) : Lexeme :=
  match c, cs with
  | '=', '>' :: rest => plain .arrow ['=', '>'] rest
  | '&', '&' :: rest => plain .andAnd ['&', '&'] rest
  | '|', '|' :: rest => plain .orOr ['|', '|'] rest
  | '!', '=' :: rest => plain .bangEqual ['!', '='] rest
  | '<', '=' :: rest => plain .lessEqual ['<', '='] rest
  | '>', '=' :: rest => plain .greaterEqual ['>', '='] rest
  | '(', rest => plain .lparen ['('] rest
  | ')', rest => plain .rparen [')'] rest
  | '\x7b', rest => plain .lbrace ['\x7b'] rest
  | '\x7d', rest => plain .rbrace ['\x7d'] rest
  | '[', rest => plain .lbracket ['['] rest
  | ']', rest => plain .rbracket [']'] rest
  | ',', rest => plain .comma [','] rest
  | ';', rest => plain .semicolon [';'] rest
  | ':', rest => plain .colon [':'] rest
  | '<', rest => plain .less ['<'] rest
  | '>', rest => plain .greater ['>'] rest
  | '=', rest => plain .equal ['='] rest
  | '+', rest => plain .plus ['+'] rest
  | '-', rest => plain .minus ['-'] rest
  | '*', rest => plain .star ['*'] rest
  | '/', rest => plain .slash ['/'] rest
  | '%', rest => plain .percent ['%'] rest
  | '^', rest => plain .caret ['^'] rest
  | c, _ => .broken [c]

/-- The lexeme at the start of `c :: cs`. -/
def scan (c : Char) (cs : List Char) : Lexeme :=
  if isBlank c then .blank (c :: cs.takeWhile isBlank) (cs.dropWhile isBlank)
  else if c = '#' then
    plain .comment (c :: cs.takeWhile isCommentPart) (cs.dropWhile isCommentPart)
  else if c = '"' then scanString ['"'] [] cs
  else if c.isDigit then scanNumber c cs
  else if c = '.' then scanFraction cs
  else if isWordStart c then
    let word := c :: cs.takeWhile isWordPart
    plain (wordKind word) word (cs.dropWhile isWordPart)
  else scanMark c cs

/-- What is left after a lexeme. -/
def Lexeme.rest : Lexeme → List Char
  | .blank _ rest => rest
  | .token _ _ _ rest => rest
  | .broken _ => []

@[simp] theorem rest_plain (kind : Kind) (raw rest : List Char) :
    (plain kind raw rest).rest = rest := rfl

@[simp] theorem rest_blank (raw rest : List Char) : (Lexeme.blank raw rest).rest = rest := rfl

@[simp] theorem rest_token (kind : Kind) (raw : List Char) (text : String) (rest : List Char) :
    (Lexeme.token kind raw text rest).rest = rest := rfl

@[simp] theorem rest_broken (raw : List Char) : (Lexeme.broken raw).rest = [] := rfl

theorem length_dropWhile_le (p : Char → Bool) (cs : List Char) :
    (cs.dropWhile p).length ≤ cs.length :=
  (List.dropWhile_sublist p).length_le

theorem scanString_rest_le (raw text cs : List Char) :
    (scanString raw text cs).rest.length ≤ cs.length := by
  fun_induction scanString raw text cs <;> simp_all <;> omega

theorem scanNumber_rest_le (c : Char) (cs : List Char) :
    (scanNumber c cs).rest.length ≤ cs.length := by
  have whole := length_dropWhile_le Char.isDigit cs
  unfold scanNumber
  dsimp only
  split
  · next d tail found =>
    have fraction := length_dropWhile_le Char.isDigit tail
    split
    · rw [found] at whole
      simp only [List.length_cons] at whole
      simp only [rest_plain]
      omega
    · exact whole
  · simpa only [rest_plain] using whole

theorem scanFraction_rest_le (cs : List Char) : (scanFraction cs).rest.length ≤ cs.length := by
  unfold scanFraction
  split
  · next d tail =>
    have := length_dropWhile_le Char.isDigit tail
    split
    · simp only [rest_plain, List.length_cons]; omega
    · simp
  · simp

theorem scanMark_rest_le (c : Char) (cs : List Char) : (scanMark c cs).rest.length ≤ cs.length := by
  unfold scanMark
  split <;> simp

/-- A lexeme takes at least the first character. -/
theorem scan_rest_le (c : Char) (cs : List Char) : (scan c cs).rest.length ≤ cs.length := by
  unfold scan
  repeat' split
  all_goals
    first
    | exact length_dropWhile_le _ _
    | exact scanString_rest_le _ _ _
    | exact scanNumber_rest_le _ _
    | exact scanFraction_rest_le _
    | exact scanMark_rest_le _ _

/-- The tokens of a text that starts at `pos`, after those already read (last one first). -/
def lexFrom (pos : Position) (cs : List Char) (before : List Token) :
    Except LexError (List Token) :=
  match cs with
  | [] => .ok before.reverse
  | c :: cs =>
    match _found : scan c cs with
    | .blank raw rest => lexFrom (pos.advance raw) rest before
    | .token kind raw text rest => lexFrom (pos.advance raw) rest (⟨kind, text, pos⟩ :: before)
    | .broken raw => .error ⟨pos, String.ofList raw⟩
termination_by cs.length
decreasing_by
  all_goals
    have := scan_rest_le c cs
    simp only [_found, rest_blank, rest_token] at this
    simp only [List.length_cons]
    omega

/-- The tokens of a source text. -/
def lex (source : String) : Except LexError (List Token) :=
  lexFrom .start source.toList []

end RetroScript.Token
