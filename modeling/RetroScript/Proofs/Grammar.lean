import RetroScript.Decimal.Reader
import RetroScript.Proofs.Trees
import RetroScript.Token

/-!
# The grammar

`Program.Derives ts p` says that the words `ts` are the yield of a derivation with tree `p`. It says
nothing about how the tree is found. Each rule gives its words from left to right, and every node
takes the place of the word that starts it, a binary node that of its left operand.

Expressions stand on tiers: a phrase of tier `n` is built with operators of tier `n` or tighter, and
an operator of its own tier stands on the left only.
-/
namespace RetroScript.Syntax

open Token (Kind)

/-- How loosely an operator binds. Values are on tier zero. -/
def Operator.tier : Operator → Nat
  | .pow => 1
  | .mul | .div | .mod => 2
  | .add | .sub => 3
  | .eq | .ne | .lt | .le | .gt | .ge => 4
  | .and | .or => 5

/-- The kind of word that writes an operator. -/
def Operator.kind : Operator → Kind
  | .pow => .caret
  | .mul => .star
  | .div => .slash
  | .mod => .percent
  | .add => .plus
  | .sub => .minus
  | .eq => .equal
  | .ne => .bangEqual
  | .lt => .less
  | .le => .lessEqual
  | .gt => .greater
  | .ge => .greaterEqual
  | .and => .andAnd
  | .or => .orOr

/-- The loosest tier, that of whole expressions. -/
def topTier : Nat := 5

/-! ### Lists of phrases -/

/-- Phrases that each stand behind a comma. -/
inductive CommaLed : List (List Token) → List Token → Prop
  | nil : CommaLed [] []
  | cons {ts us : List Token} {more : List (List Token)} (c : Token) (comma : c.kind = .comma)
      (others : CommaLed more us) : CommaLed (ts :: more) (c :: ts ++ us)

/-- Phrases with a comma between neighbours. -/
inductive Joined : List (List Token) → List Token → Prop
  | nil : Joined [] []
  | cons {ts us : List Token} {more : List (List Token)} (others : CommaLed more us) :
      Joined (ts :: more) (ts ++ us)

/-- Different names between parentheses. -/
inductive Params : List Token → List String → Prop
  | list (l r : Token) {names : List Token} {ts : List Token} (opens : l.kind = .lparen)
      (idents : ∀ t ∈ names, t.kind = .ident) (joined : Joined (names.map ([·])) ts)
      (distinct : (names.map (·.text)).Nodup) (closes : r.kind = .rparen) :
      Params (l :: ts ++ [r]) (names.map (·.text))

/-! ### Expressions and commands -/

mutual

/-- Phrases of a tier. An exponent is a value, so there is one at most. -/
inductive Phrase : Nat → List Token → Expr → Prop
  | value {ts : List Token} {e : Expr} (value : Primary ts e) : Phrase 0 ts e
  | power (t : Token) {ts us : List Token} {a b : Expr} (caret : t.kind = .caret)
      (left : Phrase 0 ts a) (right : Phrase 0 us b) :
      Phrase 1 (ts ++ t :: us) (.binary a.pos .pow a b)
  | looser {n : Nat} {ts : List Token} {e : Expr} (phrase : Phrase n ts e) : Phrase (n + 1) ts e
  | binary (t : Token) (op : Operator) {n : Nat} {ts us : List Token} {a b : Expr}
      (tier : op.tier = n + 2) (kind : t.kind = op.kind)
      (left : Phrase (n + 2) ts a) (right : Phrase (n + 1) us b) :
      Phrase (n + 2) (ts ++ t :: us) (.binary a.pos op a b)

/-- Values, and elements of values. -/
inductive Primary : List Token → Expr → Prop
  | number (t : Token) {x : Float} (kind : t.kind = .number)
      (reads : Decimal.read? t.text = some x) : Primary [t] (.number t.pos x)
  | signed (s t : Token) {x : Float} (sign : s.kind = .minus ∨ s.kind = .plus)
      (kind : t.kind = .number) (reads : Decimal.read? t.text = some x) :
      Primary [s, t] (.number s.pos (if s.kind = .minus then -x else x))
  | bool (t : Token) (b : Bool) (kind : t.kind = if b then .trueWord else .falseWord) :
      Primary [t] (.bool t.pos b)
  | null (t : Token) (kind : t.kind = .nullWord) : Primary [t] (.null t.pos)
  | string (t : Token) (kind : t.kind = .string) : Primary [t] (.string t.pos t.text)
  | array (l r : Token) {parts : List (List Token × Expr)} {ts : List Token}
      (opens : l.kind = .lbracket) (items : ∀ p ∈ parts, Phrase topTier p.1 p.2)
      (joined : Joined (parts.map (·.1)) ts) (closes : r.kind = .rbracket) :
      Primary (l :: ts ++ [r]) (.array l.pos (parts.map (·.2)))
  | map (l r : Token) {parts : List (List Token × String × Expr)} {ts : List Token}
      (opens : l.kind = .lbrace) (entries : ∀ p ∈ parts, Entry p.1 p.2)
      (joined : Joined (parts.map (·.1)) ts) (closes : r.kind = .rbrace) :
      Primary (l :: ts ++ [r]) (.map l.pos (parts.map (·.2)))
  | variable (t : Token) (kind : t.kind = .ident) : Primary [t] (.variable t.pos t.text)
  | call (t : Token) {ts : List Token} {args : List Expr} {more : List (List Expr)}
      (kind : t.kind = .ident) (applied : Applied ts args more) :
      Primary (t :: ts) (.call t.pos t.text args more)
  | nested (l r : Token) {ts : List Token} {e : Expr} (opens : l.kind = .lparen)
      (phrase : Phrase topTier ts e) (closes : r.kind = .rparen) : Primary (l :: ts ++ [r]) e
  | unary (t arrow : Token) {ts : List Token} {body : List Command} (kind : t.kind = .ident)
      (arrowKind : arrow.kind = .arrow) (rest : Body t.pos ts body) :
      Primary (t :: arrow :: ts) (.lambda t.pos [t.text] body)
  | lambda (l arrow : Token) {ts us : List Token} {names : List String} {body : List Command}
      (params : Params (l :: ts) names) (arrowKind : arrow.kind = .arrow)
      (rest : Body l.pos us body) :
      Primary (l :: ts ++ arrow :: us) (.lambda l.pos names body)
  | index (l r : Token) {ts us : List Token} {base key : Expr} (value : Primary ts base)
      (opens : l.kind = .lbracket) (phrase : Phrase topTier us key) (closes : r.kind = .rbracket) :
      Primary (ts ++ (l :: us ++ [r])) (.index l.pos base key)

/-- A name or a string, a colon, a value. -/
inductive Entry : List Token → String × Expr → Prop
  | pair (t colon : Token) {ts : List Token} {e : Expr} (kind : t.kind = .ident ∨ t.kind = .string)
      (colonKind : colon.kind = .colon) (phrase : Phrase topTier ts e) :
      Entry (t :: colon :: ts) (t.text, e)

/-- Arguments between parentheses. -/
inductive Arguments : List Token → List Expr → Prop
  | list (l r : Token) {parts : List (List Token × Expr)} {ts : List Token}
      (opens : l.kind = .lparen) (items : ∀ p ∈ parts, Phrase topTier p.1 p.2)
      (joined : Joined (parts.map (·.1)) ts) (closes : r.kind = .rparen) :
      Arguments (l :: ts ++ [r]) (parts.map (·.2))

/-- One list of arguments and any number of further ones. -/
inductive Applied : List Token → List Expr → List (List Expr) → Prop
  | groups {ts : List Token} {args : List Expr} {more : List (List Token × List Expr)}
      (first : Arguments ts args) (others : ∀ g ∈ more, Arguments g.1 g.2) :
      Applied (ts ++ (more.map (·.1)).flatten) args (more.map (·.2))

/-- The body of an anonymous function at a place: a block if it begins with a brace, else an
expression whose value is returned. -/
inductive Body : Position → List Token → List Command → Prop
  | block (l r : Token) {pos : Position} {ts : List Token} {body : List Command}
      (opens : l.kind = .lbrace) (commands : Block ts body) (closes : r.kind = .rbrace) :
      Body pos (l :: ts ++ [r]) body
  | result {pos : Position} {ts : List Token} {e : Expr} (phrase : Phrase topTier ts e)
      (other : ∀ t ∈ ts.head?, t.kind ≠ .lbrace) : Body pos ts [.result pos e]

/-- Indexes in brackets, behind a name. -/
inductive Indexes : List Token → List Expr → Prop
  | nil : Indexes [] []
  | cons (l r : Token) {ts us : List Token} {key : Expr} {keys : List Expr}
      (opens : l.kind = .lbracket) (phrase : Phrase topTier ts key) (closes : r.kind = .rbracket)
      (others : Indexes us keys) : Indexes (l :: ts ++ r :: us) (key :: keys)

inductive Statement : List Token → Command → Prop
  | assign (l name eq semi : Token) {ts us : List Token} {indexes : List Expr} {value : Expr}
      (word : l.kind = .letWord) (ident : name.kind = .ident) (place : Indexes ts indexes)
      (eqKind : eq.kind = .equal) (phrase : Phrase topTier us value)
      (closes : semi.kind = .semicolon) :
      Statement (l :: name :: ts ++ eq :: us ++ [semi]) (.assign l.pos name.text indexes value)
  | delete (l name semi : Token) {ts : List Token} {indexes : List Expr} (word : l.kind = .delWord)
      (ident : name.kind = .ident) (place : Indexes ts indexes) (some : indexes ≠ [])
      (closes : semi.kind = .semicolon) :
      Statement (l :: name :: ts ++ [semi]) (.delete l.pos name.text indexes)
  | result (l semi : Token) {ts : List Token} {value : Expr} (word : l.kind = .returnWord)
      (phrase : Phrase topTier ts value) (closes : semi.kind = .semicolon) :
      Statement (l :: ts ++ [semi]) (.result l.pos value)
  | branch (l stop : Token) {ts us vs : List Token} {condition : Expr} {yes no : List Command}
      (word : l.kind = .ifWord) (test : Condition ts condition) (body : Block us yes)
      (other : Otherwise vs no) (closes : stop.kind = .endWord) :
      Statement (l :: ts ++ us ++ vs ++ [stop]) (.branch l.pos condition yes no)
  | loop (l stop : Token) {ts us : List Token} {condition : Expr} {body : List Command}
      (word : l.kind = .whileWord) (test : Condition ts condition) (commands : Block us body)
      (closes : stop.kind = .endWord) :
      Statement (l :: ts ++ us ++ [stop]) (.loop l.pos condition body)
  | define (l name stop : Token) {ts us : List Token} {names : List String} {body : List Command}
      (word : l.kind = .defWord) (ident : name.kind = .ident) (params : Params ts names)
      (commands : Block us body) (closes : stop.kind = .endWord) :
      Statement (l :: name :: ts ++ us ++ [stop]) (.define l.pos name.text names body)
  | call (t semi : Token) {ts : List Token} {args : List Expr} {more : List (List Expr)}
      (kind : t.kind = .ident) (applied : Applied ts args more)
      (closes : semi.kind = .semicolon) :
      Statement (t :: ts ++ [semi]) (.call t.pos t.text args more)

/-- A condition between parentheses. -/
inductive Condition : List Token → Expr → Prop
  | nested (l r : Token) {ts : List Token} {e : Expr} (opens : l.kind = .lparen)
      (phrase : Phrase topTier ts e) (closes : r.kind = .rparen) : Condition (l :: ts ++ [r]) e

/-- The second branch, if any. -/
inductive Otherwise : List Token → List Command → Prop
  | none : Otherwise [] []
  | some (l : Token) {ts : List Token} {body : List Command} (word : l.kind = .elseWord)
      (commands : Block ts body) : Otherwise (l :: ts) body

inductive Block : List Token → List Command → Prop
  | nil : Block [] []
  | cons {ts us : List Token} {c : Command} {cs : List Command} (first : Statement ts c)
      (others : Block us cs) : Block (ts ++ us) (c :: cs)

end

/-! ### Programs -/

inductive Item.Derives : List Token → Item → Prop
  | const (l name eq semi : Token) {ts : List Token} {value : Expr} (word : l.kind = .constWord)
      (ident : name.kind = .ident) (eqKind : eq.kind = .equal) (phrase : Phrase topTier ts value)
      (closes : semi.kind = .semicolon) :
      Item.Derives (l :: name :: eq :: ts ++ [semi]) (.const l.pos name.text value)
  | assign {ts : List Token} {pos : Position} {name : String} {indexes : List Expr} {value : Expr}
      (statement : Statement ts (.assign pos name indexes value)) :
      Item.Derives ts (.assign pos name indexes value)
  | define {ts : List Token} {pos : Position} {name : String} {params : List String}
      {body : List Command} (statement : Statement ts (.define pos name params body)) :
      Item.Derives ts (.define pos name params body)

/-- The words of a program are those of its items. -/
inductive Program.Derives : List Token → Program → Prop
  | nil : Program.Derives [] ⟨[]⟩
  | cons {ts us : List Token} {i : Item} {is : List Item} (first : Item.Derives ts i)
      (others : Program.Derives us ⟨is⟩) : Program.Derives (ts ++ us) ⟨i :: is⟩

end RetroScript.Syntax
