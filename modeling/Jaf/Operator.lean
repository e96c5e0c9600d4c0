/-!
# Operators

The operators of expressions. Binary operators fall into classes that decide both what they may be
applied to and how they fold: arithmetic on numbers, comparisons on numbers or strings, and the
rest on integers alone. How tightly a binary operator binds is a number from 1 to 10.
-/

namespace Jaf

/-- Operators with one operand. -/
inductive UnaryOp where
  | neg
  | not
  | bitNot
  | preInc
  | preDec
  | postInc
  | postDec
deriving DecidableEq, Repr

/-- Operators with two operands, assignment apart. -/
inductive BinaryOp where
  | add
  | sub
  | mul
  | div
  | mod
  | bitAnd
  | bitOr
  | bitXor
  | shl
  | shr
  | logAnd
  | logOr
  | eq
  | ne
  | lt
  | le
  | gt
  | ge
deriving DecidableEq, Repr

/-- Assignment, plain or combined with a binary operator. -/
inductive AssignOp where
  | set
  | add
  | sub
  | mul
  | div
  | mod
  | bitAnd
  | bitOr
  | bitXor
  | shl
  | shr
deriving DecidableEq, Repr

namespace UnaryOp

/-- The operator as it is written, whichever side of its operand it stands on. -/
def text : UnaryOp → String
  | neg => "-"
  | not => "!"
  | bitNot => "~"
  | preInc | postInc => "++"
  | preDec | postDec => "--"

/-- The name the tree dump gives the operator. -/
def tag : UnaryOp → String
  | neg => "Neg"
  | not => "Not"
  | bitNot => "BitNot"
  | preInc => "PreInc"
  | preDec => "PreDec"
  | postInc => "PostInc"
  | postDec => "PostDec"

end UnaryOp

namespace BinaryOp

/-- The operator as it is written. -/
def text : BinaryOp → String
  | add => "+"
  | sub => "-"
  | mul => "*"
  | div => "/"
  | mod => "%"
  | bitAnd => "&"
  | bitOr => "|"
  | bitXor => "^"
  | shl => "<<"
  | shr => ">>"
  | logAnd => "&&"
  | logOr => "||"
  | eq => "=="
  | ne => "!="
  | lt => "<"
  | le => "<="
  | gt => ">"
  | ge => ">="

/-- The name the tree dump gives the operator. -/
def tag : BinaryOp → String
  | add => "Add"
  | sub => "Sub"
  | mul => "Mul"
  | div => "Div"
  | mod => "Mod"
  | bitAnd => "BitAnd"
  | bitOr => "BitOr"
  | bitXor => "BitXor"
  | shl => "Shl"
  | shr => "Shr"
  | logAnd => "LogAnd"
  | logOr => "LogOr"
  | eq => "Eq"
  | ne => "Ne"
  | lt => "Lt"
  | le => "Le"
  | gt => "Gt"
  | ge => "Ge"

/-- How tightly the operator binds, 10 being the tightest. -/
def precedence : BinaryOp → Nat
  | logOr => 1
  | logAnd => 2
  | bitOr => 3
  | bitXor => 4
  | bitAnd => 5
  | eq | ne => 6
  | lt | le | gt | ge => 7
  | shl | shr => 8
  | add | sub => 9
  | mul | div | mod => 10

/-- The operators that take numbers of either kind to a number. -/
def isArithmetic : BinaryOp → Bool
  | add | sub | mul | div => true
  | _ => false

/-- The operators that compare two numbers or two strings. -/
def isComparison : BinaryOp → Bool
  | eq | ne | lt | le | gt | ge => true
  | _ => false

/-- Whether a comparison holds of two values in the given order; no other operator ever does. -/
def holds : BinaryOp → Ordering → Bool
  | eq, o => o == .eq
  | ne, o => o != .eq
  | lt, o => o == .lt
  | le, o => o != .gt
  | gt, o => o == .gt
  | ge, o => o != .lt
  | _, _ => false

end BinaryOp

namespace AssignOp

/-- The binary operator that a compound assignment applies before it stores. -/
def binary? : AssignOp → Option BinaryOp
  | set => none
  | add => some .add
  | sub => some .sub
  | mul => some .mul
  | div => some .div
  | mod => some .mod
  | bitAnd => some .bitAnd
  | bitOr => some .bitOr
  | bitXor => some .bitXor
  | shl => some .shl
  | shr => some .shr

/-- The operator as it is written. -/
def text (op : AssignOp) : String :=
  match op.binary? with
  | none => "="
  | some b => b.text ++ "="

/-- The name the tree dump gives the operator. -/
def tag : AssignOp → String
  | set => "Assign"
  | add => "AddAssign"
  | sub => "SubAssign"
  | mul => "MulAssign"
  | div => "DivAssign"
  | mod => "ModAssign"
  | bitAnd => "AndAssign"
  | bitOr => "OrAssign"
  | bitXor => "XorAssign"
  | shl => "ShlAssign"
  | shr => "ShrAssign"

end AssignOp

end Jaf
