import RetroScript.Source.Position

/-! Tokens: a kind, a text and a place. Keywords differ from identifiers by spelling alone. -/
namespace RetroScript

namespace Token

inductive Kind where
  | whitespace | comment
  | defWord | endWord | letWord | constWord | delWord | returnWord | ifWord | elseWord | whileWord
  | trueWord | falseWord | nullWord
  | string | number | ident
  | lparen | rparen | lbrace | rbrace | lbracket | rbracket
  | comma | semicolon | colon | arrow
  | andAnd | orOr | bangEqual | lessEqual | greaterEqual | less | greater | equal
  | plus | minus | star | slash | percent | caret
  | error
  deriving DecidableEq, Repr

/-- The name that messages use for a kind. -/
def Kind.name : Kind → String
  | .whitespace => "Whitespace"
  | .comment => "Comment"
  | .defWord => "Def"
  | .endWord => "End"
  | .letWord => "Let"
  | .constWord => "Const"
  | .delWord => "Del"
  | .returnWord => "Return"
  | .ifWord => "If"
  | .elseWord => "Else"
  | .whileWord => "While"
  | .trueWord => "True"
  | .falseWord => "False"
  | .nullWord => "Null"
  | .string => "String"
  | .number => "Number"
  | .ident => "Ident"
  | .lparen => "LParen"
  | .rparen => "RParen"
  | .lbrace => "LBrace"
  | .rbrace => "RBrace"
  | .lbracket => "LBracket"
  | .rbracket => "RBracket"
  | .comma => "Comma"
  | .semicolon => "Semicolon"
  | .colon => "Colon"
  | .arrow => "Arrow"
  | .andAnd => "AndAnd"
  | .orOr => "OrOr"
  | .bangEqual => "BangEqual"
  | .lessEqual => "LessEqual"
  | .greaterEqual => "GreaterEqual"
  | .less => "Less"
  | .greater => "Greater"
  | .equal => "Equal"
  | .plus => "Plus"
  | .minus => "Minus"
  | .star => "Star"
  | .slash => "Slash"
  | .percent => "Percent"
  | .caret => "Caret"
  | .error => "Error"

/-- The keywords with their lower-case spelling. -/
def keywords : List (String × Kind) :=
  [("def", .defWord), ("end", .endWord), ("let", .letWord), ("const", .constWord), ("del", .delWord),
   ("return", .returnWord), ("if", .ifWord), ("else", .elseWord), ("while", .whileWord),
   ("true", .trueWord), ("false", .falseWord), ("null", .nullWord)]

/-- The kind of a word: a keyword in any case, else an identifier. -/
def wordKind (word : List Char) : Kind :=
  (keywords.lookup (String.ofList (word.map Char.toLower))).getD .ident

end Token

/-- A token of the source. The text of a string is its content, unquoted and unescaped. -/
structure Token where
  kind : Token.Kind
  text : String
  pos : Position
  deriving DecidableEq, Repr

end RetroScript
