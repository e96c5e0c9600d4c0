import Jaf.Literal
import Jaf.Parser.Stream
import Jaf.Tree.Expr

/-!
# Parsing expressions

The grammar has seven layers, from comma lists down to literals, and the inner layers come back to
the outer ones inside parentheses, arguments and operands. Each layer is written as a parser over the
parsers one level further in (`ExprParsers`), and uses those only after it has consumed a token.
`exprParsers n` ties the knot for `n` levels, and a closed parser takes as many levels as there are
lexemes left.

Binary operators are read by climbing precedences: an operand, then operators that bind at least as
tightly as asked, each with a right operand that binds tighter still.
-/

namespace Jaf

/-- The expression parsers that the layers of the grammar come back to. -/
structure ExprParsers (φ : Type) where
  expression : Parser φ Expr
  assignment : Parser φ Expr
  conditional : Parser φ Expr
  binary : Nat → Parser φ Expr
  unary : Parser φ Expr

variable {φ : Type} [Feed φ]

namespace ExprParsers

open Jaf.Parser

/-- The value of a literal, at the literal's place. -/
def literal (span : Span) (make : Note → Except SyntaxCause Expr) : Parser φ Expr := do
  match make (.ofSpan span) with
  | .ok e => return e
  | .error cause => failAt span cause

/-- The value of a numeric literal, or the error of one that has none. -/
def numeric {α : Type} (cause : SyntaxCause) (make : Note → α → Expr) (value : Option α) (n : Note) :
    Except SyntaxCause Expr :=
  match value with
  | some v => .ok (make n v)
  | none => .error cause

/-- The arguments of a call after the opening parenthesis, through the closing one. -/
def arguments (inner : ExprParsers φ) : Parser φ (List Expr) := do
  if ← accept (.symbol .rightParen) then
    return []
  else
    let args ← loop (fun args => do
      let args := args ++ [← inner.assignment]
      if ← accept (.symbol .comma) then return .again args else return .done args) []
    expect (.symbol .rightParen)
    return args

/-- Literals, names, calls and expressions in parentheses. -/
def primary (inner : ExprParsers φ) : Parser φ Expr := do
  let start ← span
  match ← kind with
  | .int text =>
    advance
    literal start (numeric (.integerOutOfRange text) .int (intLiteral? text))
  | .hex text =>
    advance
    literal start (numeric (.integerOutOfRange text) .int (hexLiteral? text))
  | .float text =>
    advance
    literal start (numeric (.malformedFloat text) .float (floatLiteral? text))
  | .string text =>
    advance
    literal start fun n => (stringLiteral text).map (.string n)
  | .name text =>
    advance
    if ← accept (.symbol .leftParen) then
      let args ← arguments inner
      return .call (.ofSpan (start.merge (← previous))) text args none
    else
      return .ident (.ofSpan start) text none
  | .symbol .leftParen =>
    advance
    let e ← inner.expression
    expect (.symbol .rightParen)
    return e.moveTo (start.merge (← previous))
  | _ => unexpected .expression

/-- What can follow an expression: a member access or a step, any number of times. -/
def suffixes (e : Expr) : Parser φ Expr :=
  loop (fun e => do
    match ← kind with
    | .symbol .dot =>
      advance
      let field ← name
      return .again (.member (.ofSpan (e.span.merge (← previous))) e field none)
    | .symbol .plusPlus =>
      advance
      return .again (.unary (.ofSpan (e.span.merge (← previous))) .postInc e)
    | .symbol .minusMinus =>
      advance
      return .again (.unary (.ofSpan (e.span.merge (← previous))) .postDec e)
    | .symbol .leftParen => failAt (← span) .notAFunctionName
    | _ => return .done e) e

/-- The operator that a symbol stands for in front of its operand. -/
def unaryOp? : Token.Kind → Option UnaryOp
  | .symbol .minus => some .neg
  | .symbol .bang => some .not
  | .symbol .tilde => some .bitNot
  | .symbol .plusPlus => some .preInc
  | .symbol .minusMinus => some .preDec
  | _ => none

/-- The type a cast names. -/
def castTarget? : Token.Kind → Option TypeKind
  | .keyword .kwInt => some .int
  | .keyword .kwFloat => some .float
  | _ => none

/-- The operand of an operator that stood at `start`; the least integer is one literal with its sign. -/
def operand (inner : ExprParsers φ) (start : Span) (op : UnaryOp) : Parser φ Expr := do
  let here ← span
  if op = .neg ∧ (← kind) = .int "2147483648" then
    advance
    return .int ⟨start.merge here, some .int⟩ Int32.minValue
  else
    let e ← inner.unary
    return .unary (.ofSpan (start.merge e.span)) op e

/-- A cast whose opening parenthesis stood at `start`. -/
def castTail (inner : ExprParsers φ) (start : Span) (target : TypeKind) : Parser φ Expr := do
  advance
  expect (.symbol .rightParen)
  let e ← inner.unary
  return .cast (.ofSpan (start.merge e.span)) target e

/-- An operand with the operators and casts in front of it; a plus sign there has no meaning. -/
def unaryLayer (inner : ExprParsers φ) : Parser φ Expr := do
  let start ← span
  match ← kind with
  | .symbol .plus =>
    advance
    inner.unary
  | .symbol .leftParen =>
    match castTarget? (← lookahead) with
    | some target =>
      advance
      castTail inner start target
    | none => primary inner >>= suffixes
  | k =>
    match unaryOp? k with
    | some op =>
      advance
      operand inner start op
    | none => primary inner >>= suffixes

/-- Operands joined by binary operators that bind at least as tightly as `least`. -/
def binaryLayer (inner : ExprParsers φ) (least : Nat) : Parser φ Expr := do
  let first ← unaryLayer inner
  loop (fun left => do
    match (← kind).binary? with
    | some op =>
      if op.precedence < least then
        return .done left
      else
        advance
        let right ← inner.binary (op.precedence + 1)
        return .again (.binary (.ofSpan (left.span.merge right.span)) op left right)
    | none => return .done left) first

/-- A condition with its two branches, or just an operand. -/
def conditionalLayer (inner : ExprParsers φ) : Parser φ Expr := do
  let condition ← binaryLayer inner 1
  if ← accept (.symbol .question) then
    let yes ← inner.expression
    expect (.symbol .colon)
    let no ← inner.conditional
    return .ternary (.ofSpan (condition.span.merge no.span)) condition yes no
  else
    return condition

/-- An assignment, which groups to the right, or just a conditional. -/
def assignmentLayer (inner : ExprParsers φ) : Parser φ Expr := do
  let target ← conditionalLayer inner
  match (← kind).assign? with
  | some op =>
    advance
    let value ← inner.assignment
    return .assign (.ofSpan (target.span.merge value.span)) op target value
  | none => return target

/-- Assignments separated by commas. -/
def expressionLayer (inner : ExprParsers φ) : Parser φ Expr := do
  let first ← assignmentLayer inner
  if ← at? (.symbol .comma) then
    let items ← loop (fun items => do
      if ← accept (.symbol .comma) then
        return .again (items ++ [← inner.assignment])
      else
        return .done items) [first]
    return .comma (.ofSpan (first.span.merge (← previous))) items
  else
    return first

end ExprParsers

/--
The expression parsers for a bounded number of levels. Each is a function of the stream, so that a
level is built only when it is reached.
-/
def exprParsers : Nat → ExprParsers φ
  | 0 => ⟨.giveUp, .giveUp, .giveUp, fun _ => .giveUp, .giveUp⟩
  | n + 1 => {
      expression := fun s => (exprParsers n).expressionLayer s
      assignment := fun s => (exprParsers n).assignmentLayer s
      conditional := fun s => (exprParsers n).conditionalLayer s
      binary := fun least s => (exprParsers n).binaryLayer least s
      unary := fun s => (exprParsers n).unaryLayer s }

namespace Parser

/-- Parses an expression, commas included. -/
def expression : Parser φ Expr := fun s => (exprParsers (depth s)).expression s

/-- Parses an expression without a comma at the top. -/
def assignment : Parser φ Expr := fun s => (exprParsers (depth s)).assignment s

/-- Parses an expression without a comma or an assignment at the top. -/
def conditional : Parser φ Expr := fun s => (exprParsers (depth s)).conditional s

/-- Parses an expression in parentheses, which leave no trace. -/
def condition : Parser φ Expr := do
  expect (.symbol .leftParen)
  let e ← expression
  expect (.symbol .rightParen)
  return e

end Parser

end Jaf
