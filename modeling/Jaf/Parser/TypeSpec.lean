import Jaf.Parser.Expr
import Jaf.Tree.TypeSpec

/-!
# Parsing types

A type is one word, the name of a struct seen before, or a struct or enumeration with or without a
body. A struct name counts as seen from where it is written, its own body included. Types come back to
types inside struct bodies, after the opening brace has been consumed; the layer below is written over
the parser for those and `typeSpec` ties the knot.

Enumerations are read to their end and leave only their name: no later step accepts them, and the
message should speak of the enumeration and not of its braces.
-/

namespace Jaf.Parser

variable {φ : Type} [Feed φ]

/-- One member declaration of a struct body, which may declare several members. -/
def members (inner : Parser φ TypeSpec) : Parser φ (List VarDecl) := do
  let start ← span
  let type ← inner
  if ← accept (.symbol .semicolon) then
    return [.plain none type (start.merge (← previous))]
  else
    let decls ← loop (fun ((type, decls) : TypeSpec × List VarDecl) => do
      let field ← name
      let decls := decls ++ [.plain (some field) type (start.merge (← previous))]
      if ← accept (.symbol .comma) then return .again (type.forNext, decls) else return .done decls)
      (type, [])
    expect (.symbol .semicolon)
    return decls

/-- A struct after its keyword, which stood at `start`. -/
def structTail (inner : Parser φ TypeSpec) (start : Span) : Parser φ TypeSpec := do
  let tag ← name?
  if let some text := tag then addTypeName text
  if ← accept (.symbol .leftBrace) then
    let decls ← loop (fun decls => do
      match ← kind with
      | .symbol .rightBrace => return .done decls
      | .eof => failAt start .unterminatedStruct
      | _ => return .again (decls ++ (← members inner))) []
    expect (.symbol .rightBrace)
    return .body tag decls (start.merge (← previous))
  else
    match tag with
    | some text => return .named text (start.merge (← previous))
    | none => unexpected .structNameOrBody

/-- The names between the braces of an enumeration, with or without values. -/
def enumerators : Parser φ Unit :=
  loop (fun () => do
    if ← at? (.symbol .rightBrace) then
      return .done ()
    else
      let _ ← name
      if ← accept (.symbol .eq) then
        let _ ← conditional
      if ← accept (.symbol .comma) then return .again () else return .done ()) ()

/-- An enumeration after its keyword, which stood at `start`. -/
def enumTail (start : Span) : Parser φ TypeSpec := do
  let tag ← name?
  if ← accept (.symbol .leftBrace) then
    enumerators
    expect (.symbol .rightBrace)
  return ⟨.enum, tag, none, none, start.merge (← previous)⟩

/-- A type, over the parser for the types inside a struct body. -/
def typeLayer (inner : Parser φ TypeSpec) : Parser φ TypeSpec := do
  let start ← span
  let word (k : TypeKind) : Parser φ TypeSpec := do
    advance
    return .simple k start
  match ← kind with
  | .keyword .kwVoid => word .void
  | .keyword .kwInt => word .int
  | .keyword .kwFloat => word .float
  | .keyword .kwString => word .string
  | .keyword .kwStruct =>
    advance
    structTail inner start
  | .keyword .kwEnum =>
    advance
    enumTail start
  | .name text =>
    if ← isTypeName text then
      advance
      return .named text start
    else
      unexpected .type
  | _ => unexpected .type

/-- The type parser for a bounded number of levels. -/
def typeSpecN : Nat → Parser φ TypeSpec
  | 0 => giveUp
  | n + 1 => typeLayer (typeSpecN n)

/-- Parses a type. -/
def typeSpec : Parser φ TypeSpec := fun s => typeSpecN (depth s) s

/-- Whether the current token is a `void` that a parenthesis closes at once. -/
def atLoneVoid : Parser φ Bool := do
  if ← at? (.keyword .kwVoid) then return (← lookahead) = .symbol .rightParen else return false

/-- Parses a parameter list, parentheses included. A lone `void` in it means that there are none. -/
def parameters : Parser φ (List VarDecl) := do
  expect (.symbol .leftParen)
  if ← accept (.symbol .rightParen) then
    return []
  else if ← atLoneVoid then
    advance
    advance
    return []
  else
    let params ← loop (fun params => do
      let start ← span
      let type ← typeSpec
      let label ← name?
      let params := params ++ [.plain label type (start.merge (← previous))]
      if ← accept (.symbol .comma) then return .again params else return .done params) []
    expect (.symbol .rightParen)
    return params

end Jaf.Parser
