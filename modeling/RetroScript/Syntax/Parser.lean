import RetroScript.Decimal.Reader
import RetroScript.Syntax.Tree
import RetroScript.Text.Blank
import RetroScript.Token

/-!
# Parsing

A program is read from a list of tokens with one token of lookahead, two where a name may start a
call or a function. A comment is a remark where an item or a command may start and is passed over
everywhere else.

Each parser for a phrase takes the parsers for the phrases nested inside it (`Inner`). The knot is
tied over a bound on the nesting depth; the number of tokens is such a bound, because every level of
nesting starts with a token of its own.
-/
namespace RetroScript.Syntax

open Token (Kind)

/-- Why a list of tokens is no program. -/
inductive ParseFault where
  /-- Another token was needed; the text is that of the token found, none at the end of input. -/
  | expected (kind : Kind) (found : Option String)
  | expectedItem (found : String)
  | expectedCommand (found : String)
  | expectedKey
  /-- The input ended inside a block. -/
  | unclosed (kind : Kind)
  | deleteWhole
  | duplicateParameter (name : String)
  | endOfInput
  | unexpected (found : String)
  | invalidNumber (text : String)
  deriving DecidableEq, Repr

def ParseFault.message : ParseFault → String
  | .expected kind (some found) => "expected " ++ kind.name ++ ", found '" ++ found ++ "'"
  | .expected kind none => "expected " ++ kind.name ++ " at end of input"
  | .expectedItem found => "expected const, let or def, found '" ++ found ++ "'"
  | .expectedCommand found => "expected a command, found '" ++ found ++ "'"
  | .expectedKey => "expected a map key"
  | .unclosed kind => "unexpected end of input, expected " ++ kind.name
  | .deleteWhole => "del expects an array or map element"
  | .duplicateParameter name => "duplicate parameter '" ++ name ++ "'"
  | .endOfInput => "unexpected end of input"
  | .unexpected found => "unexpected token '" ++ found ++ "'"
  | .invalidNumber text => "invalid number '" ++ text ++ "'"

/-- A fault with its place. -/
structure ParseError where
  pos : Position
  fault : ParseFault
  deriving DecidableEq, Repr

/-- A fault where a parser stopped; no place means the end of input. -/
structure Stuck where
  pos : Option Position
  fault : ParseFault
  deriving DecidableEq, Repr

/-- A parser takes tokens off the front of those that are left. -/
abbrev Parser := StateT (List Token) (Except Stuck)

/-! ### Looking ahead and taking tokens -/

def isComment (t : Token) : Bool := t.kind = .comment

/-- The tokens from the next one on that is no comment. -/
def skipComments (ts : List Token) : List Token := ts.dropWhile isComment

/-- The next token that is no comment. -/
def peek : Parser (Option Token) := do return (skipComments (← get)).head?

def peekIs (kind : Kind) : Parser Bool := do return (← peek).any (·.kind = kind)

/-- Whether the second of the next tokens that are no comments has this kind. -/
def secondIs (kind : Kind) : Parser Bool := do
  return (skipComments (skipComments (← get)).tail).head?.any (·.kind = kind)

/-- Passes over the next token. -/
def advance : Parser Unit := modify fun ts => (skipComments ts).tail

/-- Fails at the next token. -/
def stuck {α : Type} (fault : ParseFault) : Parser α := do
  throw ⟨(← peek).map (·.pos), fault⟩

/-- Takes a token of the given kind. -/
def eat (kind : Kind) : Parser Token := do
  match ← peek with
  | some t =>
    if t.kind = kind then
      advance
      return t
    else stuck (.expected kind (some t.text))
  | none => stuck (.expected kind none)

def eatName : Parser String := do return (← eat .ident).text

/-! ### Lists -/

/-- Further items after `done` (last one first), each behind a comma. -/
def moreItems {α : Type} (item : Parser α) : Nat → List α → Parser (List α)
  | 0, done => return done.reverse
  | n + 1, done => do
    if ← peekIs .comma then
      advance
      let next ← item
      moreItems item n (next :: done)
    else return done.reverse

/-- Items separated by commas, and the token that closes them. -/
def listUntil {α : Type} (bound : Nat) (close : Kind) (item : Parser α) : Parser (List α) := do
  let items ← if ← peekIs close then pure [] else do
    let first ← item
    moreItems item bound [first]
  let _ ← eat close
  return items

/-- The first name that stands twice in a list. -/
def firstDuplicate? : List String → List String → Option String
  | _, [] => none
  | seen, name :: rest => if seen.contains name then some name else firstDuplicate? (name :: seen) rest

/-- Parameter names and the closing parenthesis. A name given twice is reported where the list
starts. -/
def params (bound : Nat) : Parser (List String) := do
  let start := (← peek).map (·.pos)
  let names ← listUntil bound .rparen eatName
  match firstDuplicate? [] names with
  | some name => throw ⟨start, .duplicateParameter name⟩
  | none => return names

/-! ### Expressions -/

/-- What ends a block: `end`, `else` or `end`, or a closing brace. -/
inductive Ending where
  | endWord
  | elseWord
  | brace
  deriving DecidableEq, Repr

def Ending.closes : Ending → Kind → Bool
  | .endWord, kind => kind = .endWord
  | .elseWord, kind => kind = .elseWord || kind = .endWord
  | .brace, kind => kind = .rbrace

/-- The kind that a message names when the input ends first. -/
def Ending.expected : Ending → Kind
  | .endWord => .endWord
  | .elseWord => .elseWord
  | .brace => .rbrace

/-- The parsers for nested phrases, and a bound on the length of lists and chains. -/
structure Inner where
  bound : Nat
  expr : Parser Expr
  block : Ending → Parser (List Command)

/-- Whether parameters, a closing parenthesis and an arrow stand ahead, just after an opening
parenthesis. -/
def arrowAhead (first wantName : Bool) : List Token → Bool
  | [] => false
  | t :: rest =>
    match t.kind with
    | .comment => arrowAhead first wantName rest
    | .rparen => (first || !wantName) && (skipComments rest).head?.any (·.kind = .arrow)
    | .ident => wantName && arrowAhead false false rest
    | .comma => !wantName && arrowAhead false true rest
    | _ => false

/-- Whether an anonymous function with parenthesised parameters starts here. -/
def lambdaAhead : Parser Bool := do
  match skipComments (← get) with
  | t :: rest => return t.kind = .lparen && arrowAhead true true rest
  | [] => return false

/-- The arrow and the body of an anonymous function at `pos`. An expression is a body that returns
its value. -/
def lambdaBody (inner : Inner) (pos : Position) : Parser (List Command) := do
  let _ ← eat .arrow
  if ← peekIs .lbrace then
    advance
    let body ← inner.block .brace
    let _ ← eat .rbrace
    return body
  else
    return [.result pos (← inner.expr)]

def number (negative : Bool) : Parser Float := do
  let t ← eat .number
  match Decimal.read? t.text with
  | some x => return if negative then -x else x
  | none => throw ⟨some t.pos, .invalidNumber t.text⟩

/-- A map entry: a name or a string, a colon, a value. -/
def entry (inner : Inner) : Parser (String × Expr) := do
  match ← peek with
  | some t =>
    if t.kind = .ident ∨ t.kind = .string then
      advance
      let _ ← eat .colon
      return (t.text, ← inner.expr)
    else stuck .expectedKey
  | none => stuck .expectedKey

/-- Further argument lists after `done` (last one first). -/
def moreGroups (inner : Inner) : Nat → List (List Expr) → Parser (List (List Expr))
  | 0, done => return done.reverse
  | n + 1, done => do
    if ← peekIs .lparen then
      advance
      let args ← listUntil inner.bound .rparen inner.expr
      moreGroups inner n (args :: done)
    else return done.reverse

/-- A name and its argument lists, at least one. -/
def callee (inner : Inner) : Parser (String × List Expr × List (List Expr)) := do
  let name ← eatName
  let _ ← eat .lparen
  let args ← listUntil inner.bound .rparen inner.expr
  let more ← moreGroups inner inner.bound []
  return (name, args, more)

/-- Phrases that start with a name: a function of one parameter, a call, or a variable. -/
def named (inner : Inner) (pos : Position) : Parser Expr := do
  if ← secondIs .arrow then
    let param ← eatName
    return .lambda pos [param] (← lambdaBody inner pos)
  else if ← secondIs .lparen then
    let (name, args, more) ← callee inner
    return .call pos name args more
  else
    return .variable pos (← eatName)

/-- Phrases that start with a parenthesis: a function, or an expression that stands for itself. -/
def parenthesised (inner : Inner) (pos : Position) : Parser Expr := do
  if ← lambdaAhead then
    advance
    let names ← params inner.bound
    return .lambda pos names (← lambdaBody inner pos)
  else
    advance
    let e ← inner.expr
    let _ ← eat .rparen
    return e

/-- A number behind a sign; a sign before anything else is no expression. -/
def signedNumber (t : Token) : Parser Expr := do
  if ← secondIs .number then
    advance
    return .number t.pos (← number (t.kind = .minus))
  else stuck (.unexpected t.text)

def atom (inner : Inner) : Parser Expr := do
  match ← peek with
  | none => stuck .endOfInput
  | some t =>
    match t.kind with
    | .number => return .number t.pos (← number false)
    | .minus | .plus => signedNumber t
    | .trueWord => do advance; return .bool t.pos true
    | .falseWord => do advance; return .bool t.pos false
    | .nullWord => do advance; return .null t.pos
    | .string => do advance; return .string t.pos t.text
    | .lbracket => do advance; return .array t.pos (← listUntil inner.bound .rbracket inner.expr)
    | .lbrace => do advance; return .map t.pos (← listUntil inner.bound .rbrace (entry inner))
    | .lparen => parenthesised inner t.pos
    | .ident => named inner t.pos
    | _ => stuck (.unexpected t.text)

/-- Index suffixes of `base`. -/
def moreIndexes (inner : Inner) : Nat → Expr → Parser Expr
  | 0, base => return base
  | n + 1, base => do
    if ← peekIs .lbracket then
      let bracket ← eat .lbracket
      let key ← inner.expr
      let _ ← eat .rbracket
      moreIndexes inner n (.index bracket.pos base key)
    else return base

def indexed (inner : Inner) : Parser Expr := do
  let base ← atom inner
  moreIndexes inner inner.bound base

/-- At most one exponent. -/
def power (inner : Inner) : Parser Expr := do
  let base ← indexed inner
  if ← peekIs .caret then
    advance
    let exponent ← indexed inner
    return .binary base.pos .pow base exponent
  else return base

/-- Further operands of a chain that has read `left`. -/
def moreOperands (operator : Kind → Option Operator) (operand : Parser Expr) :
    Nat → Expr → Parser Expr
  | 0, left => return left
  | n + 1, left => do
    match (← peek).bind (operator ·.kind) with
    | some op =>
      advance
      let right ← operand
      moreOperands operator operand n (.binary left.pos op left right)
    | none => return left

/-- Operands joined by operators of one tier, grouped to the left. -/
def chain (bound : Nat) (operator : Kind → Option Operator) (operand : Parser Expr) :
    Parser Expr := do
  let first ← operand
  moreOperands operator operand bound first

def productOperator : Kind → Option Operator
  | .star => some .mul
  | .slash => some .div
  | .percent => some .mod
  | _ => none

def sumOperator : Kind → Option Operator
  | .plus => some .add
  | .minus => some .sub
  | _ => none

def comparisonOperator : Kind → Option Operator
  | .equal => some .eq
  | .bangEqual => some .ne
  | .less => some .lt
  | .lessEqual => some .le
  | .greater => some .gt
  | .greaterEqual => some .ge
  | _ => none

def logicOperator : Kind → Option Operator
  | .andAnd => some .and
  | .orOr => some .or
  | _ => none

def product (inner : Inner) : Parser Expr := chain inner.bound productOperator (power inner)

def sum (inner : Inner) : Parser Expr := chain inner.bound sumOperator (product inner)

def comparison (inner : Inner) : Parser Expr := chain inner.bound comparisonOperator (sum inner)

def logic (inner : Inner) : Parser Expr := chain inner.bound logicOperator (comparison inner)

/-! ### Commands -/

/-- Bracketed indexes after `done` (last one first). -/
def placeIndexes (inner : Inner) : Nat → List Expr → Parser (List Expr)
  | 0, done => return done.reverse
  | n + 1, done => do
    if ← peekIs .lbracket then
      advance
      let key ← inner.expr
      let _ ← eat .rbracket
      placeIndexes inner n (key :: done)
    else return done.reverse

/-- A name and its indexes. -/
def place (inner : Inner) : Parser (String × List Expr) := do
  let name ← eatName
  return (name, ← placeIndexes inner inner.bound [])

/-- The assignment that starts with `let`, up to its value. -/
def assignment (inner : Inner) : Parser (String × List Expr × Expr) := do
  let _ ← eat .letWord
  let (name, indexes) ← place inner
  let _ ← eat .equal
  return (name, indexes, ← inner.expr)

/-- The definition that starts with `def`. -/
def definition (inner : Inner) : Parser (String × List String × List Command) := do
  let _ ← eat .defWord
  let name ← eatName
  let _ ← eat .lparen
  let names ← params inner.bound
  let body ← inner.block .endWord
  let _ ← eat .endWord
  return (name, names, body)

def condition (inner : Inner) : Parser Expr := do
  let _ ← eat .lparen
  let e ← inner.expr
  let _ ← eat .rparen
  return e

/-- The commands behind `else`, if any, and the final `end`. -/
def otherwise (inner : Inner) : Parser (List Command) := do
  let body ← if ← peekIs .elseWord then do
      advance
      inner.block .endWord
    else pure []
  let _ ← eat .endWord
  return body

/-- The command that starts with token `t`. -/
def command (inner : Inner) (t : Token) : Parser Command := do
  match t.kind with
  | .letWord =>
    let (name, indexes, value) ← assignment inner
    let _ ← eat .semicolon
    return .assign t.pos name indexes value
  | .delWord =>
    advance
    let (name, indexes) ← place inner
    if indexes.isEmpty then throw ⟨some t.pos, .deleteWhole⟩
    let _ ← eat .semicolon
    return .delete t.pos name indexes
  | .returnWord =>
    advance
    let value ← inner.expr
    let _ ← eat .semicolon
    return .result t.pos value
  | .ifWord =>
    advance
    let test ← condition inner
    let yes ← inner.block .elseWord
    let no ← otherwise inner
    return .branch t.pos test yes no
  | .whileWord =>
    advance
    let test ← condition inner
    let body ← inner.block .endWord
    let _ ← eat .endWord
    return .loop t.pos test body
  | .defWord =>
    let (name, names, body) ← definition inner
    return .define t.pos name names body
  | .ident =>
    if ← secondIs .lparen then
      let (name, args, more) ← callee inner
      let _ ← eat .semicolon
      return .call t.pos name args more
    else stuck (.expectedCommand t.text)
  | _ => stuck (.expectedCommand t.text)

/-- The text of a comment without its marks and outer blanks. -/
def remarkText (text : String) : String :=
  String.ofList (Text.trim (text.toList.dropWhile (· = '#')))

/-- A comment that stands first. -/
def remark? : Parser (Option Token) := do
  match ← get with
  | t :: rest =>
    if isComment t then
      set rest
      return some t
    else return none
  | [] => return none

/-- Further commands of a block after `done` (last one first), up to its ending. -/
def moreCommands (inner : Inner) (ending : Ending) : Nat → List Command → Parser (List Command)
  | 0, done => return done.reverse
  | n + 1, done => do
    match ← remark? with
    | some t => moreCommands inner ending n (.remark t.pos (remarkText t.text) :: done)
    | none =>
      match ← peek with
      | none => stuck (.unclosed ending.expected)
      | some t =>
        if ending.closes t.kind then return done.reverse
        else
          let next ← command inner t
          moreCommands inner ending n (next :: done)

/-! ### Tying the knot -/

mutual

/-- Expressions nested at most `n` levels deep. -/
def expr : Nat → Parser Expr
  | 0 => stuck .endOfInput
  | n + 1 => logic ⟨n + 1, expr n, block n⟩

/-- Blocks nested at most `n` levels deep; the token that ends one is left. -/
def block : Nat → Ending → Parser (List Command)
  | 0, _ => stuck .endOfInput
  | n + 1, ending => moreCommands ⟨n + 1, expr n, block n⟩ ending (n + 1) []

end

/-- The parsers for phrases nested at most `n` levels deep. -/
def inner (n : Nat) : Inner := ⟨n, expr n, block n⟩

/-! ### Programs -/

/-- The item that starts with token `t`. -/
def item (inner : Inner) (t : Token) : Parser Item := do
  match t.kind with
  | .constWord =>
    advance
    let name ← eatName
    let _ ← eat .equal
    let value ← inner.expr
    let _ ← eat .semicolon
    return .const t.pos name value
  | .letWord =>
    let (name, indexes, value) ← assignment inner
    let _ ← eat .semicolon
    return .assign t.pos name indexes value
  | .defWord =>
    let (name, names, body) ← definition inner
    return .define t.pos name names body
  | _ => stuck (.expectedItem t.text)

/-- Further items after `done` (last one first), up to the end of input. -/
def moreProgram (inner : Inner) : Nat → List Item → Parser (List Item)
  | 0, done => return done.reverse
  | n + 1, done => do
    match ← remark? with
    | some t => moreProgram inner n (.remark (remarkText t.text) :: done)
    | none =>
      match ← peek with
      | none => return done.reverse
      | some t =>
        let next ← item inner t
        moreProgram inner n (next :: done)

/-- A fault at the end of input is reported at the last token. -/
def Stuck.locate (tokens : List Token) (s : Stuck) : ParseError :=
  ⟨s.pos.getD ((tokens.getLast?.map (·.pos)).getD .none), s.fault⟩

/-- Reads a program from its tokens. -/
def parse (tokens : List Token) : Except ParseError Program :=
  let bound := tokens.length + 1
  match moreProgram (inner bound) bound [] tokens with
  | .ok (items, _) => .ok ⟨items⟩
  | .error s => .error (s.locate tokens)

end RetroScript.Syntax
