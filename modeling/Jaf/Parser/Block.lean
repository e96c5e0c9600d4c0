import Jaf.Parser.TypeSpec
import Jaf.Tree.Block

/-!
# Parsing declarations, statements and scripts

A declaration begins with a type, and nothing else does, so one look at the current token tells it
from a statement. Statements come back to statements after their first token, and to blocks after an
opening brace; as for expressions, each form is written over the parsers one level further in.

A declaration with several declarators is several declarations. They share the place where the type
begins.
-/

namespace Jaf

/-- The parsers that statements and declarations come back to. -/
structure BlockParsers (φ : Type) where
  item : Parser φ (List Item)
  stmt : Parser φ Stmt

variable {φ : Type} [Feed φ]

namespace BlockParsers

open Jaf.Parser

/-- A sequence of declarations and statements in braces. -/
def block (inner : BlockParsers φ) : Parser φ Block := do
  let start ← span
  expect (.symbol .leftBrace)
  let items ← loop (fun items => do
    match ← kind with
    | .symbol .rightBrace => return .done items
    | .eof => failAt start .unterminatedBlock
    | _ => return .again (items ++ (← inner.item))) []
  expect (.symbol .rightBrace)
  return ⟨items, start.merge (← previous)⟩

/-- The declarators after a type that began at `start`; the first name has been consumed. -/
def declarators (start : Span) (type : TypeSpec) (first : String) : Parser φ (List Item) := do
  let items ← loop (fun ((label, type, items) : String × TypeSpec × List Item) => do
    let init ← do if ← accept (.symbol .eq) then some <$> assignment else pure none
    let decl : VarDecl := ⟨some label, type, init, none, start.merge (← previous)⟩
    let items := items ++ [.var decl]
    if ← accept (.symbol .comma) then
      return .again (← name, type.forNext, items)
    else
      return .done items) (first, type, [])
  expect (.symbol .semicolon)
  return items

/-- A declaration: a type alone, a function, or variables. -/
def declaration (inner : BlockParsers φ) : Parser φ (List Item) := do
  let start ← span
  let type ← typeSpec
  if ← accept (.symbol .semicolon) then
    return [.var (.plain none type (start.merge (← previous)))]
  else
    let label ← name
    if ← at? (.symbol .leftParen) then
      let params ← parameters
      let body ← block inner
      return [.func ⟨label, type, params, none, start.merge body.span⟩ body]
    else
      declarators start type label

/-- The first clause of a for loop, through its semicolon. -/
def forInit (inner : BlockParsers φ) : Parser φ Block := do
  let start ← span
  let items ← do
    if ← startsType then declaration inner
    else if ← accept (.symbol .semicolon) then pure []
    else
      let e ← expression
      expect (.symbol .semicolon)
      pure [.stmt (.expr e.span e)]
  return ⟨items, start.merge (← previous)⟩

/-- An expression, unless the given symbol stands here. -/
def exprBefore (stop : Symbol) : Parser φ (Option Expr) := do
  if ← at? (.symbol stop) then return none else return some (← expression)

/-- A for loop after its keyword. -/
def forTail (inner : BlockParsers φ) (finish : Parser φ Span) : Parser φ Stmt := do
  expect (.symbol .leftParen)
  let init ← forInit inner
  let condition ← exprBefore .semicolon
  expect (.symbol .semicolon)
  let update ← exprBefore .rightParen
  expect (.symbol .rightParen)
  let body ← inner.stmt
  return .forLoop (← finish) init condition update body

/-- An `if` after its keyword; an `else` that follows belongs to it. -/
def ifTail (inner : BlockParsers φ) (finish : Parser φ Span) : Parser φ Stmt := do
  let test ← condition
  let yes ← inner.stmt
  if ← accept (.keyword .kwElse) then
    let no ← inner.stmt
    return .ifElse (← finish) test yes no
  else
    return .ifThen (← finish) test yes

/-- An expression and a semicolon. -/
def exprTail (finish : Parser φ Span) : Parser φ Stmt := do
  let e ← expression
  expect (.symbol .semicolon)
  return .expr (← finish) e

/-- A statement. -/
def stmtLayer (inner : BlockParsers φ) : Parser φ Stmt := do
  let start ← span
  -- the place of the statement, once its last token has been consumed
  let finish : Parser φ Span := do return start.merge (← previous)
  match ← kind with
  | .symbol .leftBrace =>
    let body ← block inner
    return .compound (← finish) body
  | .symbol .semicolon =>
    advance
    return .empty (← finish)
  | .keyword .kwIf =>
    advance
    ifTail inner finish
  | .keyword .kwWhile =>
    advance
    let test ← condition
    let body ← inner.stmt
    return .whileLoop (← finish) test body
  | .keyword .kwDo =>
    advance
    let body ← inner.stmt
    expect (.keyword .kwWhile)
    let test ← condition
    expect (.symbol .semicolon)
    return .doLoop (← finish) body test
  | .keyword .kwFor =>
    advance
    forTail inner finish
  | .keyword .kwSwitch =>
    advance
    let value ← condition
    let body ← block inner
    return .switch (← finish) value body
  | .keyword .kwCase =>
    advance
    let value ← conditional
    expect (.symbol .colon)
    let body ← inner.stmt
    return .caseLabel (← finish) value body
  | .keyword .kwDefault =>
    advance
    expect (.symbol .colon)
    let body ← inner.stmt
    return .defaultLabel (← finish) body
  | .keyword .kwBreak =>
    advance
    expect (.symbol .semicolon)
    return .breakOut (← finish)
  | .keyword .kwContinue =>
    advance
    expect (.symbol .semicolon)
    return .continueOn (← finish)
  | .keyword .kwReturn =>
    advance
    let value ← exprBefore .semicolon
    expect (.symbol .semicolon)
    return .returnFrom (← finish) value
  | .keyword .kwGoto =>
    advance
    let target ← name
    expect (.symbol .semicolon)
    return .goto (← finish) target
  | .name text =>
    if (← lookahead) = .symbol .colon then
      advance
      advance
      let body ← inner.stmt
      return .label (← finish) text body
    else
      exprTail finish
  | _ => exprTail finish

/-- What can stand in a block: a declaration, which may give several items, or a statement. -/
def itemLayer (inner : BlockParsers φ) : Parser φ (List Item) := do
  if ← startsType then declaration inner else return [.stmt (← stmtLayer inner)]

end BlockParsers

/--
The statement parsers for a bounded number of levels. Each is a function of the stream, so that a
level is built only when it is reached.
-/
def blockParsers : Nat → BlockParsers φ
  | 0 => ⟨.giveUp, .giveUp⟩
  | n + 1 => {
      item := fun s => (blockParsers n).itemLayer s
      stmt := fun s => (blockParsers n).stmtLayer s }

namespace Parser

/-- Parses a declaration. -/
def declaration : Parser φ (List Item) := fun s => (blockParsers (depth s)).declaration s

/-- Parses a script: declarations up to the end of file. -/
def script : Parser φ Block := do
  let start ← span
  let items ← loop (fun items => do
    if ← at? .eof then return .done items
    else if ← startsType then return .again (items ++ (← declaration))
    else unexpected .declaration) []
  return ⟨items, start.merge (← previous)⟩

end Parser

/-- Runs a parser from the first lexeme of a feed on. -/
def Parser.run {α : Type} (p : Parser φ α) (feed : φ) : Except ParseError α :=
  match Feed.next feed with
  | (.ok first, feed) => (p ⟨first, feed, .point 0, []⟩).map (·.1)
  | (.error bad, _) => .error (.badText bad)

/-- The syntax tree of a script. -/
def Block.parse (source : String) : Except ParseError Block :=
  Parser.script.run (Reader.ofSource source)

end Jaf
