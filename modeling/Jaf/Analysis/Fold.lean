import Jaf.Tree.Expr
import Jaf.Value

/-!
# Constant folding

Folding replaces an operator whose operands are literals by the literal it amounts to, from the leaves
up. Integers wrap around at 32 bits. What would trap stays as it is: division by zero, a shift by a
count outside 0 to 31; so does a comparison with something that is not a number. A conditional with a
literal condition becomes the branch it selects, and a comma list loses the literals before its last
item, since they have no effect.

Folding never looks at types. A literal that replaces an operator keeps the operator's note.
-/

namespace Jaf

/-- The value of a literal expression. -/
def Expr.literal? : Expr → Option Value
  | int _ v => some (.int v)
  | float _ v => some (.float v)
  | string _ v => some (.string v)
  | _ => none

/-- The literal expression of a value. -/
def Value.toExpr (n : Note) : Value → Expr
  | int v => .int n v
  | float v => .float n v
  | string v => .string n v

/-- What a unary operator makes of a literal. -/
def UnaryOp.fold? : UnaryOp → Value → Option Value
  | neg, .int v => some (.int (-v))
  | neg, .float v => some (.float (-v))
  | not, .int v => some (.ofBool (v = 0))
  | bitNot, .int v => some (.int (~~~v))
  | _, _ => none

namespace BinaryOp

/-- What a binary operator makes of two integers. -/
def foldInt? (op : BinaryOp) (a b : Int32) : Option Value :=
  match op with
  | add => some (.int (a + b))
  | sub => some (.int (a - b))
  | mul => some (.int (a * b))
  | div => if b = 0 then none else some (.int (a / b))
  | mod => if b = 0 then none else some (.int (a % b))
  | bitAnd => some (.int (a &&& b))
  | bitOr => some (.int (a ||| b))
  | bitXor => some (.int (a ^^^ b))
  | shl => if 0 ≤ b ∧ b < 32 then some (.int (a <<< b)) else none
  | shr => if 0 ≤ b ∧ b < 32 then some (.int (a >>> b)) else none
  | logAnd => some (.ofBool (a ≠ 0 ∧ b ≠ 0))
  | logOr => some (.ofBool (a ≠ 0 ∨ b ≠ 0))
  | eq | ne | lt | le | gt | ge => some (.ofBool (op.holds (compare a.toInt b.toInt)))

/-- What a binary operator makes of two floats. -/
def foldFloat? (op : BinaryOp) (a b : Float32) : Option Value :=
  match op with
  | add => some (.float (a + b))
  | sub => some (.float (a - b))
  | mul => some (.float (a * b))
  | div => if b == 0 then none else some (.float (a / b))
  | eq | ne | lt | le | gt | ge => (compareFloat? a b).map fun o => .ofBool (op.holds o)
  | _ => none

/-- What a binary operator makes of two strings, which are ordered by their characters. -/
def foldString? (op : BinaryOp) (a b : String) : Option Value :=
  match op with
  | add => some (.string (a ++ b))
  | eq | ne | lt | le | gt | ge => some (.ofBool (op.holds (compareOfLessAndEq a b)))
  | _ => none

/-- What a binary operator makes of two literals; an integer beside a float counts as a float. -/
def fold? (op : BinaryOp) (a b : Value) : Option Value :=
  match a, b with
  | .int a, .int b => op.foldInt? a b
  | .string a, .string b => op.foldString? a b
  | a, b => do op.foldFloat? (← a.float?) (← b.float?)

end BinaryOp

/-- What a cast makes of a literal. -/
def TypeKind.fold? : TypeKind → Value → Option Value
  | int, .int v => some (.int v)
  | int, .float v => some (.int (truncateFloat v))
  | float, .int v => some (.float (nearestFloat v))
  | float, .float v => some (.float v)
  | _, _ => none

namespace Expr

/-- A folded operator: its value if it has one, and otherwise the operator as it stands. -/
def orKeep (n : Note) (value : Option Value) (kept : Expr) : Expr :=
  match value with
  | some v => v.toExpr n
  | none => kept

/-- The items of a comma list that matter: all but the literals before the last one. -/
def effective : List Expr → List Expr
  | [] => []
  | [last] => [last]
  | e :: es => if e.isLiteral then effective es else e :: effective es

/-- A comma list of items that matter; one item alone needs no list. -/
def ofItems (n : Note) : List Expr → Expr
  | [e] => e
  | es => comma n es

mutual

/-- Folds the constants of an expression. -/
def fold : Expr → Expr
  | int n v => int n v
  | float n v => float n v
  | string n v => string n v
  | ident n name b => ident n name b
  | unary n op e =>
    let e := e.fold
    orKeep n (do op.fold? (← e.literal?)) (unary n op e)
  | binary n op l r =>
    let l := l.fold
    let r := r.fold
    orKeep n (do op.fold? (← l.literal?) (← r.literal?)) (binary n op l r)
  | cast n target e =>
    let e := e.fold
    orKeep n (do target.fold? (← e.literal?)) (cast n target e)
  | ternary n c y o =>
    let y := y.fold
    let o := o.fold
    match c.fold with
    | int _ v => if v = 0 then o else y
    | c => ternary n c y o
  | comma n es => ofItems n (effective (foldList es))
  | assign n op t v => assign n op t.fold v.fold
  | call n name args k => call n name (foldList args) k
  | member n o f p => member n o.fold f p

/-- Folds the constants of each expression of a list. -/
def foldList : List Expr → List Expr
  | [] => []
  | e :: es => e.fold :: foldList es

end

end Expr

end Jaf
