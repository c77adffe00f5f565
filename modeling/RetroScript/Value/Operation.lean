import RetroScript.Fault
import RetroScript.Number.Binary
import RetroScript.Value.Display

/-!
# Binary operations

Addition joins texts unless both operands are numbers. Numbers, strings and booleans are compared
with their own kind only.
-/
namespace RetroScript.Syntax.Operator

def fault {α : Type} (op : Operator) (f : OperandFault) : Except Fault α :=
  .error (.invalidOperands op f)

/-- Applies `f` to two numbers. -/
def onNumbers (op : Operator) (l r : Value) (f : Float → Float → Except Fault Value) :
    Except Fault Value :=
  match l, r with
  | .number a, .number b => f a b
  | .number _, _ => op.fault .rightNotNumber
  | _, _ => op.fault .leftNotNumber

/-- Applies `f` to two booleans. -/
def onBooleans (op : Operator) (l r : Value) (f : Bool → Bool → Bool) : Except Fault Value :=
  match l, r with
  | .bool a, .bool b => .ok (.bool (f a b))
  | .bool _, _ => op.fault .rightNotBoolean
  | _, _ => op.fault .leftNotBoolean

def compareNumbers (op : Operator) (a b : Float) : Bool :=
  match op with
  | .eq => a == b
  | .ne => !(a == b)
  | .lt => decide (a < b)
  | .le => decide (a ≤ b)
  | .gt => decide (b < a)
  | .ge => decide (b ≤ a)
  | _ => false

/-- Texts are ordered by their characters, first difference first. -/
def compareStrings (op : Operator) (a b : String) : Bool :=
  match op with
  | .eq => a == b
  | .ne => !(a == b)
  | .lt => decide (a < b)
  | .le => !decide (b < a)
  | .gt => decide (b < a)
  | .ge => !decide (a < b)
  | _ => false

def compareBooleans (op : Operator) (a b : Bool) : Except Fault Value :=
  match op with
  | .eq => .ok (.bool (a == b))
  | .ne => .ok (.bool (a != b))
  | _ => op.fault .booleanOrder

def compareValues (op : Operator) (l r : Value) : Except Fault Value :=
  match l, r with
  | .number a, .number b => .ok (.bool (op.compareNumbers a b))
  | .string a, .string b => .ok (.bool (op.compareStrings a b))
  | .bool a, .bool b => op.compareBooleans a b
  | .number _, _ | .string _, _ | .bool _, _ => op.fault (.unlike l.kind r.kind)
  | _, _ => op.fault (.incomparable l.kind)

/-- The value of `l op r`. -/
def apply (h : Heap) (op : Operator) (l r : Value) : Except Fault Value :=
  match op with
  | .add =>
    match l, r with
    | .number a, .number b => .ok (.number (a + b))
    | _, _ => .ok (.string (l.text h ++ r.text h))
  | .sub => op.onNumbers l r fun a b => .ok (.number (a - b))
  | .mul => op.onNumbers l r fun a b => .ok (.number (a * b))
  | .div => op.onNumbers l r fun a b => .ok (.number (a / b))
  | .mod => op.onNumbers l r fun a b =>
    match Number.remainder? a b with
    | some x => .ok (.number x)
    | none => op.fault .divisionByZero
  | .pow => op.onNumbers l r fun a b => .ok (.number (a.pow b))
  | .eq | .ne | .lt | .le | .gt | .ge => op.compareValues l r
  | .and => op.onBooleans l r (· && ·)
  | .or => op.onBooleans l r (· || ·)

end RetroScript.Syntax.Operator
