import RetroScript.Proofs.Grammar
import RetroScript.Proofs.NumberText

/-!
# Printing programs

`Program.print` writes a tree as tokens. A binary operand stands in parentheses where its operator is
too loose for its place, an anonymous function has its body in braces, and a remark is a comment.
-/
namespace RetroScript.Syntax

open Token (Kind)

/-- The text of a word that has one text only. -/
def spelling : Kind → String
  | .defWord => "def"
  | .endWord => "end"
  | .letWord => "let"
  | .constWord => "const"
  | .delWord => "del"
  | .returnWord => "return"
  | .ifWord => "if"
  | .elseWord => "else"
  | .whileWord => "while"
  | .trueWord => "true"
  | .falseWord => "false"
  | .nullWord => "null"
  | .lparen => "("
  | .rparen => ")"
  | .lbrace => "\x7b"
  | .rbrace => "\x7d"
  | .lbracket => "["
  | .rbracket => "]"
  | .comma => ","
  | .semicolon => ";"
  | .colon => ":"
  | .arrow => "=>"
  | .equal => "="
  | .minus => "-"
  | _ => ""

/-- A word of this kind; printed words have no place. -/
def fixed (kind : Kind) : Token := ⟨kind, spelling kind, .none⟩

def ident (name : String) : Token := ⟨.ident, name, .none⟩

def quoted (text : String) : Token := ⟨.string, text, .none⟩

def numeral (x : Float) : Token := ⟨.number, Number.text x, .none⟩

def Operator.word (op : Operator) : Token := ⟨op.kind, op.symbol, .none⟩

/-- A remark behind its mark. The blank keeps marks at the start of the remark from being taken for
marks of the comment. -/
def comment (text : String) : Token := ⟨.comment, "# " ++ text, .none⟩

def printNumber (x : Float) : List Token :=
  if Number.isNegative x then [fixed .minus, numeral (-x)] else [numeral x]

/-- The tier that the left operand of an operator may have. -/
def Operator.leftTier (op : Operator) : Nat := if op = .pow then 0 else op.tier

/-- Parentheses around a phrase of tier `tier` where tier `n` is the loosest allowed. -/
def enclose (tier n : Nat) (ts : List Token) : List Token :=
  if n < tier then fixed .lparen :: ts ++ [fixed .rparen] else ts

def printMoreNames : List String → List Token
  | [] => []
  | name :: names => fixed .comma :: ident name :: printMoreNames names

def printNames : List String → List Token
  | [] => []
  | name :: names => ident name :: printMoreNames names

mutual

/-- An expression where tier `n` is the loosest allowed. -/
def Expr.print : Expr → Nat → List Token
  | .number _ x, _ => printNumber x
  | .bool _ b, _ => [fixed (if b then .trueWord else .falseWord)]
  | .null _, _ => [fixed .nullWord]
  | .string _ s, _ => [quoted s]
  | .array _ items, _ => fixed .lbracket :: printItems items ++ [fixed .rbracket]
  | .map _ entries, _ => fixed .lbrace :: printEntries entries ++ [fixed .rbrace]
  | .variable _ name, _ => [ident name]
  | .index _ base key, _ =>
    base.print 0 ++ (fixed .lbracket :: key.print topTier ++ [fixed .rbracket])
  | .lambda _ params body, _ =>
    fixed .lparen :: printNames params ++
      (fixed .rparen :: fixed .arrow :: fixed .lbrace :: printBlock body ++ [fixed .rbrace])
  | .call _ name args more, _ =>
    ident name :: fixed .lparen :: printItems args ++ (fixed .rparen :: printGroups more)
  | .binary _ op left right, n =>
    enclose op.tier n (left.print op.leftTier ++ op.word :: right.print (op.tier - 1))

def printItems : List Expr → List Token
  | [] => []
  | e :: es => e.print topTier ++ printMoreItems es

def printMoreItems : List Expr → List Token
  | [] => []
  | e :: es => fixed .comma :: e.print topTier ++ printMoreItems es

def printEntries : List (String × Expr) → List Token
  | [] => []
  | (key, e) :: es => quoted key :: fixed .colon :: e.print topTier ++ printMoreEntries es

def printMoreEntries : List (String × Expr) → List Token
  | [] => []
  | (key, e) :: es =>
    fixed .comma :: quoted key :: fixed .colon :: e.print topTier ++ printMoreEntries es

def printGroups : List (List Expr) → List Token
  | [] => []
  | g :: gs => fixed .lparen :: printItems g ++ (fixed .rparen :: printGroups gs)

def printIndexes : List Expr → List Token
  | [] => []
  | e :: es => fixed .lbracket :: e.print topTier ++ (fixed .rbracket :: printIndexes es)

def Command.print : Command → List Token
  | .remark _ text => [comment text]
  | .assign _ name indexes value =>
    fixed .letWord :: ident name :: printIndexes indexes ++
      (fixed .equal :: value.print topTier ++ [fixed .semicolon])
  | .delete _ name indexes =>
    fixed .delWord :: ident name :: printIndexes indexes ++ [fixed .semicolon]
  | .result _ value => fixed .returnWord :: value.print topTier ++ [fixed .semicolon]
  | .branch _ condition yes no =>
    fixed .ifWord :: fixed .lparen :: condition.print topTier ++
      (fixed .rparen :: printBlock yes ++ (printOtherwise no ++ [fixed .endWord]))
  | .loop _ condition body =>
    fixed .whileWord :: fixed .lparen :: condition.print topTier ++
      (fixed .rparen :: printBlock body ++ [fixed .endWord])
  | .define _ name params body =>
    fixed .defWord :: ident name :: fixed .lparen :: printNames params ++
      (fixed .rparen :: printBlock body ++ [fixed .endWord])
  | .call _ name args more =>
    ident name :: fixed .lparen :: printItems args ++
      (fixed .rparen :: printGroups more ++ [fixed .semicolon])

/-- The second branch; an empty one is left out. -/
def printOtherwise : List Command → List Token
  | [] => []
  | c :: cs => fixed .elseWord :: c.print ++ printBlock cs

def printBlock : List Command → List Token
  | [] => []
  | c :: cs => c.print ++ printBlock cs

end

def Item.print : Item → List Token
  | .remark text => [comment text]
  | .const _ name value =>
    fixed .constWord :: ident name :: fixed .equal :: value.print topTier ++ [fixed .semicolon]
  | .assign pos name indexes value => (Command.assign pos name indexes value).print
  | .define pos name params body => (Command.define pos name params body).print

def Program.print (p : Program) : List Token := p.items.flatMap Item.print

theorem printOtherwise_cons (c : Command) (cs : List Command) :
    printOtherwise (c :: cs) = fixed .elseWord :: printBlock (c :: cs) := by
  rw [printOtherwise, printBlock]
  rfl

end RetroScript.Syntax
