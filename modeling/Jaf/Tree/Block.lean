import Jaf.Tree.TypeSpec

/-!
# Blocks, declarations and statements

A script is a block of declarations. A function body is a block of declarations and statements, and
so are a compound statement, the body of a switch and the first clause of a for loop. An `if` with an
`else` and one without are two forms of statement, since they end in different places.
-/

namespace Jaf

/-- All of a function definition but its body; `number` is known once the function is numbered. -/
structure FuncHead where
  name : String
  result : TypeSpec
  params : List VarDecl
  number : Option Nat
  span : Span

mutual

/-- A sequence of declarations and statements. -/
structure Block where
  items : List Item
  span : Span

/-- What stands in a block: a variable, a function or a statement. -/
inductive Item where
  | var (decl : VarDecl)
  | func (head : FuncHead) (body : Block)
  | stmt (stmt : Stmt)

/-- Statements. -/
inductive Stmt where
  | expr (span : Span) (value : Expr)
  | empty (span : Span)
  | compound (span : Span) (body : Block)
  | ifThen (span : Span) (condition : Expr) (yes : Stmt)
  | ifElse (span : Span) (condition : Expr) (yes no : Stmt)
  | whileLoop (span : Span) (condition : Expr) (body : Stmt)
  | doLoop (span : Span) (body : Stmt) (condition : Expr)
  | forLoop (span : Span) (init : Block) (condition update : Option Expr) (body : Stmt)
  | switch (span : Span) (value : Expr) (body : Block)
  | caseLabel (span : Span) (value : Expr) (stmt : Stmt)
  | defaultLabel (span : Span) (stmt : Stmt)
  | label (span : Span) (name : String) (stmt : Stmt)
  | goto (span : Span) (name : String)
  | breakOut (span : Span)
  | continueOn (span : Span)
  | returnFrom (span : Span) (value : Option Expr)

end

/-- The place of a statement. -/
def Stmt.span : Stmt → Span
  | expr s _ | empty s | compound s _ | ifThen s _ _ | ifElse s _ _ _ | whileLoop s _ _
  | doLoop s _ _ | forLoop s _ _ _ _ | switch s _ _ | caseLabel s _ _ | defaultLabel s _
  | label s _ _ | goto s _ | breakOut s | continueOn s | returnFrom s _ => s

end Jaf
