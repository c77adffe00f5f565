import RetroScript.Proofs.Parsing

/-!
# Parsing with a cursor

The parser once more, with everything in it that could go wrong. The tokens stay as they are and a cursor
moves over them. A run is given some time: so many rounds of a loop and so many levels of nesting. One that needs more
is cut off, and is not taken for one that has ended. A step over the end, a look at a token that is not there and
a round of a loop that takes no token each halt the run.

That none of this happens, and that a run ends as `parse` does, is shown in `Proofs.Progress`.
-/
namespace RetroScript.Syntax

open Token (Kind)

/-- Why a run is given up. -/
inductive Halt where
  /-- The tokens are no program. -/
  | stuck (s : Stuck)
  /-- The cursor would pass the end, or a token was asked for where there is none. -/
  | overrun
  /-- A round of a loop has left the cursor where it was. -/
  | stalled
  /-- A loop or the nesting goes on when the time is up. -/
  | unfinished

/-- What a run reads, and how many rounds a loop is given. -/
structure Input where
  tokens : List Token
  rounds : Nat

/-- A run from a place of the cursor on. -/
abbrev Cursor := ReaderT Input (StateT Nat (Except Halt))

namespace Cursor

/-! ### Looking ahead and taking tokens -/

/-- The words from the cursor on. -/
def lookahead : Cursor (List Token) := do return words ((← read).tokens.drop (← get))

def peek : Cursor (Option Token) := do return (← lookahead).head?

def peekIs (kind : Kind) : Cursor Bool := do return (← peek).any (·.kind = kind)

def secondIs (kind : Kind) : Cursor Bool := do return (← lookahead)[1]?.any (·.kind = kind)

def step : Cursor Unit := do
  let pos ← get
  if pos < (← read).tokens.length then set (pos + 1) else throw .overrun

/-- Goes on only if a round that started at `start` has taken a token. -/
def moved (start : Nat) : Cursor Unit := do
  if start < (← get) then return () else throw .stalled

/-- At most `n` rounds of a loop. A round may go on with `again`. -/
def repeatFor {σ β : Type} (round : (σ → Cursor β) → σ → Cursor β) : Nat → σ → Cursor β
  | 0, _ => throw .unfinished
  | n + 1, s => do
    let start ← get
    round (fun next => do moved start; repeatFor round n next) s

def loop {σ β : Type} (round : (σ → Cursor β) → σ → Cursor β) (s : σ) : Cursor β := do
  repeatFor round (← read).rounds s

def passComments : Cursor Unit :=
  loop (fun again _ => do
    if (← read).tokens[← get]?.any isComment then
      step
      again ()
    else return ()) ()

/-- Passes over the next word. -/
def advance : Cursor Unit := do
  passComments
  step

/-- Fails at the next word. -/
def stuck {α : Type} (fault : ParseFault) : Cursor α := do
  throw (.stuck ⟨(← peek).map (·.pos), fault⟩)

def eat (kind : Kind) : Cursor Token := do
  match ← peek with
  | some t =>
    if t.kind = kind then
      advance
      return t
    else stuck (.expected kind (some t.text))
  | none => stuck (.expected kind none)

def eatName : Cursor String := do return (← eat .ident).text

/-- The text of a comment that stands at the cursor. -/
def remark? : Cursor (Option String) := do
  match (← read).tokens[← get]? with
  | some t =>
    if isComment t then
      step
      return some (remarkText t.text)
    else return none
  | none => return none

def previous : Cursor Token := do
  match ← get with
  | 0 => throw .overrun
  | pos + 1 =>
    match (← read).tokens[pos]? with
    | some t => return t
    | none => throw .overrun

/-! ### Lists -/

def listUntil {α : Type} (close : Kind) (item : Cursor α) : Cursor (List α) := do
  let items ← if ← peekIs close then pure [] else do
    let first ← item
    loop (fun again done => do
      if ← peekIs .comma then
        advance
        let next ← item
        again (next :: done)
      else return done.reverse) [first]
  let _ ← eat close
  return items

def params : Cursor (List String) := do
  let start := (← peek).map (·.pos)
  let names ← listUntil .rparen eatName
  match firstDuplicate? [] names with
  | some name => throw (.stuck ⟨start, .duplicateParameter name⟩)
  | none => return names

/-! ### Expressions -/

/-- The runs over nested phrases. -/
structure Nested where
  expr : Cursor Expr
  block : Ending → Cursor (List Command)

def lambdaAhead : Cursor Bool := do
  match ← lookahead with
  | t :: rest => return t.kind = .lparen && arrowAhead true true rest
  | [] => return false

def lambdaBody (nested : Nested) (pos : Position) : Cursor (List Command) := do
  let _ ← eat .arrow
  if ← peekIs .lbrace then
    advance
    let body ← nested.block .brace
    let _ ← eat .rbrace
    return body
  else
    return [.result pos (← nested.expr)]

def number (negative : Bool) : Cursor Float := do
  let t ← eat .number
  match Decimal.read? t.text with
  | some x => return if negative then -x else x
  | none => throw (.stuck ⟨some t.pos, .invalidNumber t.text⟩)

def entry (nested : Nested) : Cursor (String × Expr) := do
  match ← peek with
  | some t =>
    if t.kind = .ident ∨ t.kind = .string then
      advance
      let _ ← eat .colon
      return (t.text, ← nested.expr)
    else stuck .expectedKey
  | none => stuck .expectedKey

def callee (nested : Nested) : Cursor (String × List Expr × List (List Expr)) := do
  let name ← eatName
  let _ ← eat .lparen
  let args ← listUntil .rparen nested.expr
  let more ← loop (fun again done => do
    if ← peekIs .lparen then
      advance
      let args ← listUntil .rparen nested.expr
      again (args :: done)
    else return done.reverse) []
  return (name, args, more)

def named (nested : Nested) (pos : Position) : Cursor Expr := do
  if ← secondIs .arrow then
    let param ← eatName
    return .lambda pos [param] (← lambdaBody nested pos)
  else if ← secondIs .lparen then
    let (name, args, more) ← callee nested
    return .call pos name args more
  else
    return .variable pos (← eatName)

def parenthesised (nested : Nested) (pos : Position) : Cursor Expr := do
  if ← lambdaAhead then
    advance
    let names ← params
    return .lambda pos names (← lambdaBody nested pos)
  else
    advance
    let e ← nested.expr
    let _ ← eat .rparen
    return e

def signedNumber (t : Token) : Cursor Expr := do
  if ← secondIs .number then
    advance
    return .number t.pos (← number (t.kind = .minus))
  else stuck (.unexpected t.text)

def atom (nested : Nested) : Cursor Expr := do
  match ← peek with
  | none => stuck .endOfInput
  | some t =>
    match t.kind with
    | .number => return .number t.pos (← number false)
    | .minus | .plus => signedNumber t
    | .trueWord => do advance; return .bool t.pos true
    | .falseWord => do advance; return .bool t.pos false
    | .nullWord => do advance; return .null t.pos
    | .string => do advance; return .string t.pos t.text
    | .lbracket => do advance; return .array t.pos (← listUntil .rbracket nested.expr)
    | .lbrace => do advance; return .map t.pos (← listUntil .rbrace (entry nested))
    | .lparen => parenthesised nested t.pos
    | .ident => named nested t.pos
    | _ => stuck (.unexpected t.text)

def indexed (nested : Nested) : Cursor Expr := do
  let base ← atom nested
  loop (fun again base => do
    if ← peekIs .lbracket then
      let bracket ← eat .lbracket
      let key ← nested.expr
      let _ ← eat .rbracket
      again (.index bracket.pos base key)
    else return base) base

def power (nested : Nested) : Cursor Expr := do
  let base ← indexed nested
  if ← peekIs .caret then
    advance
    let exponent ← indexed nested
    return .binary base.pos .pow base exponent
  else return base

def chain (operator : Kind → Option Operator) (operand : Cursor Expr) : Cursor Expr := do
  let first ← operand
  loop (fun again left => do
    match (← peek).bind (operator ·.kind) with
    | some op =>
      advance
      let right ← operand
      again (.binary left.pos op left right)
    | none => return left) first

def product (nested : Nested) : Cursor Expr := chain productOperator (power nested)

def sum (nested : Nested) : Cursor Expr := chain sumOperator (product nested)

def comparison (nested : Nested) : Cursor Expr := chain comparisonOperator (sum nested)

def logic (nested : Nested) : Cursor Expr := chain logicOperator (comparison nested)

/-! ### Commands -/

def place (nested : Nested) : Cursor (String × List Expr) := do
  let name ← eatName
  let keys ← loop (fun again done => do
    if ← peekIs .lbracket then
      advance
      let key ← nested.expr
      let _ ← eat .rbracket
      again (key :: done)
    else return done.reverse) []
  return (name, keys)

def assignment (nested : Nested) : Cursor (String × List Expr × Expr) := do
  let _ ← eat .letWord
  let (name, indexes) ← place nested
  let _ ← eat .equal
  return (name, indexes, ← nested.expr)

def definition (nested : Nested) : Cursor (String × List String × List Command) := do
  let _ ← eat .defWord
  let name ← eatName
  let _ ← eat .lparen
  let names ← params
  let body ← nested.block .endWord
  let _ ← eat .endWord
  return (name, names, body)

def condition (nested : Nested) : Cursor Expr := do
  let _ ← eat .lparen
  let e ← nested.expr
  let _ ← eat .rparen
  return e

def otherwise (nested : Nested) : Cursor (List Command) := do
  let body ← if ← peekIs .elseWord then do
      advance
      nested.block .endWord
    else pure []
  let _ ← eat .endWord
  return body

def command (nested : Nested) (t : Token) : Cursor Command := do
  match t.kind with
  | .letWord =>
    let (name, indexes, value) ← assignment nested
    let _ ← eat .semicolon
    return .assign t.pos name indexes value
  | .delWord =>
    advance
    let (name, indexes) ← place nested
    if indexes.isEmpty then throw (.stuck ⟨some t.pos, .deleteWhole⟩)
    let _ ← eat .semicolon
    return .delete t.pos name indexes
  | .returnWord =>
    advance
    let value ← nested.expr
    let _ ← eat .semicolon
    return .result t.pos value
  | .ifWord =>
    advance
    let test ← condition nested
    let yes ← nested.block .elseWord
    let no ← otherwise nested
    return .branch t.pos test yes no
  | .whileWord =>
    advance
    let test ← condition nested
    let body ← nested.block .endWord
    let _ ← eat .endWord
    return .loop t.pos test body
  | .defWord =>
    let (name, names, body) ← definition nested
    return .define t.pos name names body
  | .ident =>
    if ← secondIs .lparen then
      let (name, args, more) ← callee nested
      let _ ← eat .semicolon
      return .call t.pos name args more
    else stuck (.expectedCommand t.text)
  | _ => stuck (.expectedCommand t.text)

/-- Commands up to an ending. A remark has the place of the token before the cursor. -/
def commands (nested : Nested) (ending : Ending) : Cursor (List Command) :=
  loop (fun again done => do
    match ← remark? with
    | some text =>
      let t ← previous
      again (.remark t.pos text :: done)
    | none =>
      match ← peek with
      | none => stuck (.unclosed ending.expected)
      | some t =>
        if ending.closes t.kind then return done.reverse
        else
          let next ← command nested t
          again (next :: done)) []

/-- The runs over phrases nested at most `n` levels deep. -/
def nested : Nat → Nested
  | 0 => ⟨throw .unfinished, fun _ => throw .unfinished⟩
  | n + 1 => ⟨logic (nested n), commands (nested n)⟩

/-! ### Programs -/

def item (nested : Nested) (t : Token) : Cursor Item := do
  match t.kind with
  | .constWord =>
    advance
    let name ← eatName
    let _ ← eat .equal
    let value ← nested.expr
    let _ ← eat .semicolon
    return .const t.pos name value
  | .letWord =>
    let (name, indexes, value) ← assignment nested
    let _ ← eat .semicolon
    return .assign t.pos name indexes value
  | .defWord =>
    let (name, names, body) ← definition nested
    return .define t.pos name names body
  | _ => stuck (.expectedItem t.text)

def program (nested : Nested) : Cursor (List Item) :=
  loop (fun again done => do
    match ← remark? with
    | some text => again (.remark text :: done)
    | none =>
      match ← peek with
      | none => return done.reverse
      | some t =>
        let next ← item nested t
        again (next :: done)) []

/-- A run over all the tokens, with the time `n`. -/
def parse (n : Nat) (tokens : List Token) : Except Halt (List Item × Nat) := program (nested n) ⟨tokens, n⟩ 0

/-! ### Running -/

variable {α β σ : Type} {input : Input} {t : Token} {pos pos' start n : Nat}

/-- Running on after what has succeeded. -/
theorem bind_run {c : Cursor α} {f : α → Cursor β} {x : α} (ran : c input pos = .ok (x, pos')) :
    (c >>= f) input pos = f x input pos' := by
  change (c input pos >>= fun r => f r.1 input r.2) = _
  rw [ran]
  rfl

theorem get_bind {f : Nat → Cursor α} : (get >>= f) input pos = f pos input pos := rfl

theorem read_bind {f : Input → Cursor α} : (read >>= f) input pos = f input input pos := rfl

theorem peek_bind {f : Option Token → Cursor α} :
    (peek >>= f) input pos = f (words (input.tokens.drop pos)).head? input pos := rfl

theorem peekIs_bind {kind : Kind} {f : Bool → Cursor α} :
    (peekIs kind >>= f) input pos = f ((words (input.tokens.drop pos)).head?.any (·.kind = kind)) input pos := rfl

theorem secondIs_bind {kind : Kind} {f : Bool → Cursor α} :
    (secondIs kind >>= f) input pos =
      f ((words (input.tokens.drop pos)).tail.head?.any (·.kind = kind)) input pos := by
  rw [List.head?_tail]
  rfl

theorem lambdaAhead_bind {f : Bool → Cursor α} :
    (lambdaAhead >>= f) input pos = f ((words (input.tokens.drop pos)).head?.any (·.kind = .lparen) &&
      arrowAhead true true (words (input.tokens.drop pos)).tail) input pos := by
  refine bind_run ?_
  rw [lambdaAhead, bind_run (rfl : lookahead input pos = .ok (words (input.tokens.drop pos), pos))]
  cases words (input.tokens.drop pos) with
  | nil => rfl
  | cons t rest => rfl

theorem step_run (less : pos < input.tokens.length) : step input pos = .ok ((), pos + 1) := by
  rw [step, get_bind, read_bind, if_pos less]
  rfl

theorem moved_bind {f : Unit → Cursor α} (less : start < pos) : (moved start >>= f) input pos = f () input pos := by
  refine bind_run ?_
  rw [moved, get_bind, if_pos less]
  rfl

theorem repeatFor_succ {round : (σ → Cursor β) → σ → Cursor β} {s : σ} :
    repeatFor round (n + 1) s input pos = round (fun next => do moved pos; repeatFor round n next) s input pos := rfl

theorem loop_run {round : (σ → Cursor β) → σ → Cursor β} {s : σ} :
    loop round s input pos = repeatFor round input.rounds s input pos := rfl

theorem remark?_of_comment (found : input.tokens[pos]? = some t) (comment : isComment t = true) :
    remark? input pos = .ok (some (remarkText t.text), pos + 1) := by
  have less := (List.getElem?_eq_some_iff.mp found).1
  rw [remark?, read_bind, get_bind, found]
  dsimp only
  rw [if_pos comment, bind_run (step_run less)]
  rfl

theorem remark?_of_other (other : ∀ t ∈ input.tokens[pos]?, isComment t = false) :
    remark? input pos = .ok (none, pos) := by
  rw [remark?, read_bind, get_bind]
  cases found : input.tokens[pos]? with
  | none => rfl
  | some t =>
    dsimp only
    rw [if_neg (by simp [other t found])]
    rfl

theorem previous_run (found : input.tokens[pos]? = some t) : previous input (pos + 1) = .ok (t, pos + 1) := by
  rw [previous, get_bind]
  dsimp only
  rw [read_bind, found]
  rfl

end Cursor
end RetroScript.Syntax
