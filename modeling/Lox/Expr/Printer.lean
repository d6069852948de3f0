import Lox.Expr.Basic

/-!
# Expressions in brackets

`Expr.render` writes an expression with its operator or form in front and brackets around it, so
that its shape can be seen: `1 + 2 * 3` becomes `(+ 1.0 (* 2.0 3.0))`.
-/

namespace Lox

/-- A value as it stands in a tree. Strings have no quotes there. -/
def Literal.render : Literal → String
  | number value => Number.inTree value
  | string contents => contents
  | bool value => if value then "true" else "false"
  | nil => "nil"

namespace Expr

mutual

/-- An expression in brackets. -/
def render : Expr → String
  | literal _ value => value.render
  | unary _ _ mark right => "(" ++ mark.text ++ " " ++ render right ++ ")"
  | binary _ _ mark left right => "(" ++ mark.text ++ " " ++ render left ++ " " ++
      render right ++ ")"
  | logical _ _ mark left right => "(" ++ mark.text ++ " " ++ render left ++ " " ++
      render right ++ ")"
  | grouping _ inner => "(group " ++ render inner ++ ")"
  | var _ name => name.text
  | assign _ name value => "(= " ++ name.text ++ " " ++ render value ++ ")"
  | call _ callee _ arguments => "(call " ++ render callee ++ renderAll arguments ++ ")"
  | get _ object name => "(. " ++ render object ++ " " ++ name.text ++ ")"
  | set _ object name value =>
    "(.= " ++ render object ++ " " ++ name.text ++ " " ++ render value ++ ")"
  | this _ _ => "this"
  | super _ _ method => "(super " ++ method.text ++ ")"

/-- Expressions with a blank in front of each. -/
def renderAll : List Expr → String
  | [] => ""
  | e :: rest => " " ++ render e ++ renderAll rest

end

end Expr

end Lox
