import Jaf.Decimal.Shortest
import Jaf.Text.Outline
import Jaf.Text.Quoted
import Jaf.Tree.Block

/-!
# Syntax trees as outlines

Every node shows all it holds: its parts, its place, and what analysis has found out so far.
-/

namespace Jaf

open Outline

/-- A text as an outline. -/
def Outline.quoted (s : String) : Outline := atom (quote s)

/-- A place as an outline. -/
def Span.outline (s : Span) : Outline := record "Span" [("start", number s.start), ("end", number s.stop)]

/-- A type as an outline. -/
def ValueType.outline : ValueType → Outline
  | void => atom "Void"
  | int => atom "Int"
  | float => atom "Float"
  | string => atom "String"
  | struct n => tuple "Struct" [number n]

/-- The meaning of a name as an outline. -/
def VarRef.outline : VarRef → Outline
  | .local n => tuple "Local" [number n]
  | .global n => tuple "Global" [number n]

/-- The form of an expression with its note. -/
def exprNode (n : Note) (form : Outline) : Outline :=
  record "Expr"
    [("kind", form), ("span", n.span.outline), ("ty", option (n.type.map ValueType.outline))]

/-- The form of a statement with its place. -/
def stmtNode (p : Span) (form : Outline) : Outline :=
  record "Stmt" [("kind", form), ("span", p.outline)]

mutual

/-- An expression as an outline. -/
def Expr.outline : Expr → Outline
  | .int n v => exprNode n (tuple "IntLiteral" [atom (toString v.toInt)])
  | .float n v => exprNode n (tuple "FloatLiteral" [atom (floatText v)])
  | .string n v => exprNode n (tuple "StringLiteral" [quoted v])
  | .ident n name b =>
    exprNode n (record "Identifier" [("name", quoted name), ("binding", option (b.map VarRef.outline))])
  | .unary n op e => exprNode n (record "Unary" [("op", atom op.tag), ("operand", e.outline)])
  | .binary n op l r =>
    exprNode n (record "Binary" [("op", atom op.tag), ("left", l.outline), ("right", r.outline)])
  | .assign n op t v =>
    exprNode n (record "Assign" [("op", atom op.tag), ("target", t.outline), ("value", v.outline)])
  | .ternary n c y o =>
    exprNode n (record "Ternary"
      [("condition", c.outline), ("then_expr", y.outline), ("else_expr", o.outline)])
  | .call n name args k =>
    exprNode n (record "Call"
      [("name", quoted name), ("args", list (Expr.outlines args)), ("func_no", option (k.map number))])
  | .cast n t e => exprNode n (record "Cast" [("target", atom t.tag), ("expr", e.outline)])
  | .member n o f p =>
    exprNode n (record "Member"
      [("object", o.outline), ("field", quoted f), ("member_no", option (p.map number))])
  | .comma n es => exprNode n (tuple "Comma" [list (Expr.outlines es)])

/-- Expressions as outlines. -/
def Expr.outlines : List Expr → List Outline
  | [] => []
  | e :: es => e.outline :: Expr.outlines es

end

mutual

/-- A written type as an outline. -/
def TypeSpec.outline : TypeSpec → Outline
  | ⟨kind, name, number?, members, span⟩ =>
    record "TypeSpecifier"
      [("kind", atom kind.tag), ("name", option (name.map quoted)),
        ("struct_no", option (number?.map number)),
        ("members", match members with
          | some decls => option (some (list (VarDecl.outlines decls)))
          | none => option none),
        ("span", span.outline)]

/-- A declaration as an outline. -/
def VarDecl.outline : VarDecl → Outline
  | ⟨name, type, init, slot, span⟩ =>
    record "VarDecl"
      [("name", option (name.map quoted)), ("ty", type.outline), ("init", option (init.map Expr.outline)),
        ("var_no", option (slot.map number)), ("span", span.outline)]

/-- Declarations as outlines. -/
def VarDecl.outlines : List VarDecl → List Outline
  | [] => []
  | d :: ds => d.outline :: VarDecl.outlines ds

end

mutual

/-- A block as an outline. -/
def Block.outline : Block → Outline
  | ⟨items, span⟩ => record "Block" [("items", list (Item.outlines items)), ("span", span.outline)]

/-- Items as outlines. -/
def Item.outlines : List Item → List Outline
  | [] => []
  | i :: is => i.outline :: Item.outlines is

/-- An item as an outline. -/
def Item.outline : Item → Outline
  | .var d => tuple "Declaration" [tuple "Variable" [d.outline]]
  | .func h body =>
    tuple "Declaration" [tuple "Function" [record "FuncDecl"
      [("name", quoted h.name), ("return_type", h.result.outline),
        ("params", list (h.params.map VarDecl.outline)), ("body", body.outline),
        ("func_no", option (h.number.map number)), ("span", h.span.outline)]]]
  | .stmt s => tuple "Statement" [s.outline]

/-- A statement as an outline. -/
def Stmt.outline : Stmt → Outline
  | .expr p e => stmtNode p (tuple "Expr" [e.outline])
  | .empty p => stmtNode p (atom "Empty")
  | .compound p b => stmtNode p (tuple "Compound" [b.outline])
  | .ifThen p c y =>
    stmtNode p (record "If"
      [("condition", c.outline), ("then_branch", y.outline), ("else_branch", option none)])
  | .ifElse p c y n =>
    stmtNode p (record "If"
      [("condition", c.outline), ("then_branch", y.outline), ("else_branch", option (some n.outline))])
  | .whileLoop p c b => stmtNode p (record "While" [("condition", c.outline), ("body", b.outline)])
  | .doLoop p b c => stmtNode p (record "DoWhile" [("body", b.outline), ("condition", c.outline)])
  | .forLoop p i c u b =>
    stmtNode p (record "For"
      [("init", i.outline), ("condition", option (c.map Expr.outline)),
        ("update", option (u.map Expr.outline)), ("body", b.outline)])
  | .switch p e b => stmtNode p (record "Switch" [("expr", e.outline), ("body", b.outline)])
  | .caseLabel p e b => stmtNode p (record "Case" [("value", e.outline), ("stmt", b.outline)])
  | .defaultLabel p b => stmtNode p (tuple "Default" [b.outline])
  | .label p name b => stmtNode p (record "Labeled" [("label", quoted name), ("stmt", b.outline)])
  | .goto p name => stmtNode p (tuple "Goto" [quoted name])
  | .breakOut p => stmtNode p (atom "Break")
  | .continueOn p => stmtNode p (atom "Continue")
  | .returnFrom p e => stmtNode p (tuple "Return" [option (e.map Expr.outline)])

end

end Jaf
