import Lox.Value.Basic
import Lox.Value.Error

/-!
# Operators on values

What operators do to the values of their operands. Equality is defined on all values, `+` on numbers
and on strings, and all other operators on numbers alone.
-/

namespace Lox

/-- An operator applied to its operand. -/
def UnaryOp.apply : UnaryOp → Value → Except RuntimeError.Cause Value
  | negate, .number x => .ok (.number (-x))
  | negate, _ => .error .operandNotNumber
  | not, v => .ok (.bool (!v.isTruthy))

/-- An operator on numbers. Equality and `+` have rules of their own and are left to `apply`. -/
def BinaryOp.onNumbers (x y : Float) : BinaryOp → Value
  | add => .number (x + y)
  | subtract => .number (x - y)
  | multiply => .number (x * y)
  | divide => .number (x / y)
  | equal => .bool (x == y)
  | notEqual => .bool (x != y)
  | greater => .bool (y < x)
  | greaterEqual => .bool (y ≤ x)
  | less => .bool (x < y)
  | lessEqual => .bool (x ≤ y)

/-- An operator applied to its operands. -/
def BinaryOp.apply (op : BinaryOp) (left right : Value) : Except RuntimeError.Cause Value :=
  match op with
  | equal => .ok (.bool (left.equals right))
  | notEqual => .ok (.bool (!left.equals right))
  | add =>
    match left, right with
    | .number x, .number y => .ok (.number (x + y))
    | .string x, .string y => .ok (.string (x ++ y))
    | _, _ => .error .operandsNotAddable
  | op =>
    match left, right with
    | .number x, .number y => .ok (op.onNumbers x y)
    | _, _ => .error .operandsNotNumbers

/-- Whether the left operand is already the result. -/
def LogicalOp.decides : LogicalOp → Value → Bool
  | or, left => left.isTruthy
  | and, left => !left.isTruthy

end Lox
