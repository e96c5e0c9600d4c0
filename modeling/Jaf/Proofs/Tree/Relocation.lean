import Jaf.Parser.Block
import Jaf.Proofs.Tree.Clauses

/-!
# Trees in other places

All that is ever done with places is to copy them and to merge them. A `Relocation` moves places and goes along
with merging, and applied to each place of a tree it gives the same tree elsewhere. Two relocations matter.
`Relocation.same` leaves everything where it is. `Relocation.nowhere` moves everything to one spot, so that two
trees are the same up to their places if they are equal once they are moved there (`Block.placeless`).
-/

namespace Jaf

/-- A way to move places that goes along with merging them. -/
structure Relocation where
  place : Span → Span
  merge : ∀ p q, place (p.merge q) = (place p).merge (place q)

namespace Relocation

attribute [simp] merge

variable (M : Relocation)

/-- A note elsewhere. -/
def note (n : Note) : Note := ⟨M.place n.span, n.type⟩

@[simp] theorem note_mk (p : Span) (t : Option ValueType) : M.note ⟨p, t⟩ = ⟨M.place p, t⟩ := rfl

@[simp] theorem note_ofSpan (p : Span) : M.note (.ofSpan p) = .ofSpan (M.place p) := rfl

mutual

/-- An expression elsewhere. -/
@[simp] def expr : Expr → Expr
  | .int n v => .int (M.note n) v
  | .float n v => .float (M.note n) v
  | .string n v => .string (M.note n) v
  | .ident n name b => .ident (M.note n) name b
  | .unary n op e => .unary (M.note n) op (expr e)
  | .binary n op l r => .binary (M.note n) op (expr l) (expr r)
  | .assign n op t v => .assign (M.note n) op (expr t) (expr v)
  | .ternary n c y o => .ternary (M.note n) (expr c) (expr y) (expr o)
  | .call n name args k => .call (M.note n) name (exprs args) k
  | .cast n t e => .cast (M.note n) t (expr e)
  | .member n o field p => .member (M.note n) (expr o) field p
  | .comma n es => .comma (M.note n) (exprs es)

/-- Expressions elsewhere. -/
def exprs : List Expr → List Expr
  | [] => []
  | e :: es => expr e :: exprs es

end

mutual

/-- A type elsewhere. -/
@[simp] def type : TypeSpec → TypeSpec
  | ⟨kind, name, number, none, p⟩ => ⟨kind, name, number, none, M.place p⟩
  | ⟨kind, name, number, some ds, p⟩ => ⟨kind, name, number, some (decls ds), M.place p⟩

/-- A declaration elsewhere. -/
@[simp] def decl : VarDecl → VarDecl
  | ⟨name, t, init, slot, p⟩ => ⟨name, type t, init.map M.expr, slot, M.place p⟩

/-- Declarations elsewhere. -/
def decls : List VarDecl → List VarDecl
  | [] => []
  | d :: ds => decl d :: decls ds

end

/-- The head of a function elsewhere. -/
@[simp] def head (h : FuncHead) : FuncHead :=
  ⟨h.name, M.type h.result, M.decls h.params, h.number, M.place h.span⟩

mutual

/-- A block elsewhere. -/
@[simp] def block : Block → Block
  | ⟨is, p⟩ => ⟨items is, M.place p⟩

/-- An item elsewhere. -/
@[simp] def item : Item → Item
  | .var d => .var (M.decl d)
  | .func h body => .func (M.head h) (block body)
  | .stmt x => .stmt (stmt x)

/-- Items elsewhere. -/
def items : List Item → List Item
  | [] => []
  | i :: is => item i :: items is

/-- A statement elsewhere. -/
@[simp] def stmt : Stmt → Stmt
  | .expr p e => .expr (M.place p) (M.expr e)
  | .empty p => .empty (M.place p)
  | .compound p b => .compound (M.place p) (block b)
  | .ifThen p c y => .ifThen (M.place p) (M.expr c) (stmt y)
  | .ifElse p c y n => .ifElse (M.place p) (M.expr c) (stmt y) (stmt n)
  | .whileLoop p c b => .whileLoop (M.place p) (M.expr c) (stmt b)
  | .doLoop p b c => .doLoop (M.place p) (stmt b) (M.expr c)
  | .forLoop p i c u b => .forLoop (M.place p) (block i) (c.map M.expr) (u.map M.expr) (stmt b)
  | .switch p e b => .switch (M.place p) (M.expr e) (block b)
  | .caseLabel p e b => .caseLabel (M.place p) (M.expr e) (stmt b)
  | .defaultLabel p b => .defaultLabel (M.place p) (stmt b)
  | .label p name b => .label (M.place p) name (stmt b)
  | .goto p name => .goto (M.place p) name
  | .breakOut p => .breakOut (M.place p)
  | .continueOn p => .continueOn (M.place p)
  | .returnFrom p e => .returnFrom (M.place p) (e.map M.expr)

end

/-- A token elsewhere. -/
def token (t : Token) : Token := ⟨t.kind, M.place t.span⟩

/-! ## Parts -/

@[simp] theorem exprs_eq_map (es : List Expr) : M.exprs es = es.map M.expr := by
  induction es with
  | nil => rfl
  | cons e es ih => rw [exprs, ih, List.map_cons]

@[simp] theorem decls_eq_map (ds : List VarDecl) : M.decls ds = ds.map M.decl := by
  induction ds with
  | nil => rfl
  | cons d ds ih => rw [decls, ih, List.map_cons]

@[simp] theorem items_eq_map (is : List Item) : M.items is = is.map M.item := by
  induction is with
  | nil => rfl
  | cons i is ih => rw [items, ih, List.map_cons]

theorem note_expr (e : Expr) : (M.expr e).note = M.note e.note := by cases e <;> rfl

@[simp] theorem span_expr (e : Expr) : (M.expr e).span = M.place e.span := by
  rw [Expr.span, note_expr]
  rfl

@[simp] theorem span_block (b : Block) : (M.block b).span = M.place b.span := by cases b; rfl

@[simp] theorem moveTo_expr (e : Expr) (p : Span) : M.expr (e.moveTo p) = (M.expr e).moveTo (M.place p) := by
  cases e <;> rfl

@[simp] theorem type_simple (k : TypeKind) (p : Span) : M.type (.simple k p) = .simple k (M.place p) := rfl

@[simp] theorem type_named (name : String) (p : Span) : M.type (.named name p) = .named name (M.place p) := rfl

@[simp] theorem type_body (name : Option String) (ds : List VarDecl) (p : Span) :
    M.type (.body name ds p) = .body name (ds.map M.decl) (M.place p) := by
  simp [TypeSpec.body]

@[simp] theorem decl_plain (name : Option String) (t : TypeSpec) (p : Span) :
    M.decl (.plain name t p) = .plain name (M.type t) (M.place p) := by
  simp [VarDecl.plain]

/-- The type that later declarators get does not depend on places. -/
@[simp] theorem type_forNext (t : TypeSpec) : M.type t.forNext = (M.type t).forNext := by
  obtain ⟨kind, name, number, members, span⟩ := t
  cases members with
  | none => rfl
  | some decls => cases name <;> rfl

/-! ## Clauses -/

/-- A clause elsewhere. -/
def clause : Clause → Clause
  | .value e => .value (e.map M.expr)
  | .result p e => .result (M.place p) (e.map M.expr)
  | .scope b => .scope (M.block b)
  | .opening b => .opening (M.block b)
  | .inner x => .inner (M.stmt x)

@[simp] theorem clauses_stmt (x : Stmt) : (M.stmt x).clauses = x.clauses.map M.clause := by
  cases x <;> rfl

@[simp] theorem isScope_stmt (x : Stmt) : (M.stmt x).isScope = x.isScope := by
  cases x <;> rfl

/-- Statements are put together elsewhere as they are here. -/
theorem stmt_withClauses {x : Stmt} {cs : List Clause} (h : (x.withClauses cs).clauses = cs) :
    (M.stmt x).withClauses (cs.map M.clause) = M.stmt (x.withClauses cs) := by
  revert h
  fun_cases Stmt.withClauses x cs
  case case13 =>
    -- clauses that do not fit are not put in
    rintro rfl
    rw [← clauses_stmt, Stmt.withClauses_clauses]
  all_goals exact fun _ => rfl

/-! ## Staying in place -/

/-- Everything stays where it is. -/
def same : Relocation := ⟨id, fun _ _ => rfl⟩

mutual

@[simp] theorem expr_same : ∀ e : Expr, same.expr e = e
  | .int .. | .float .. | .string .. | .ident .. => rfl
  | .unary _ _ e | .cast _ _ e | .member _ e _ _ => by rw [expr, expr_same e]; rfl
  | .binary _ _ e e' | .assign _ _ e e' => by rw [expr, expr_same e, expr_same e']; rfl
  | .ternary _ c y o => by rw [expr, expr_same c, expr_same y, expr_same o]; rfl
  | .call _ _ es _ | .comma _ es => by rw [expr, exprs_same es]; rfl

theorem exprs_same : ∀ es : List Expr, same.exprs es = es
  | [] => rfl
  | e :: es => by rw [exprs, expr_same e, exprs_same es]

end

theorem option_same (e : Option Expr) : e.map same.expr = e := by
  cases e <;> simp

mutual

@[simp] theorem type_same : ∀ t : TypeSpec, same.type t = t
  | ⟨_, _, _, none, _⟩ => rfl
  | ⟨_, _, _, some ds, _⟩ => by rw [type, decls_same ds]; rfl

@[simp] theorem decl_same : ∀ d : VarDecl, same.decl d = d
  | ⟨_, t, init, _, _⟩ => by rw [decl, type_same t, option_same]; rfl

theorem decls_same : ∀ ds : List VarDecl, same.decls ds = ds
  | [] => rfl
  | d :: ds => by rw [decls, decl_same d, decls_same ds]

end

theorem items_same {is : List Item} (h : ∀ i ∈ is, same.item i = i) : same.items is = is := by
  rw [items_eq_map]
  exact (List.map_congr_left h).trans (List.map_id is)

theorem clause_same {c : Clause} (h : c.Has (fun b => same.block b = b) fun x => same.stmt x = x) :
    same.clause c = c := by
  cases c with
  | value e => exact congrArg Clause.value (option_same e)
  | result p e => exact congrArg (Clause.result p) (option_same e)
  | scope b => exact congrArg Clause.scope h
  | opening b => exact congrArg Clause.opening h
  | inner x => exact congrArg Clause.inner h

/-- All of a program stays as it is. -/
theorem tree_same : TreeRules (fun b => same.block b = b) (fun i => same.item i = i)
    fun x => same.stmt x = x where
  block items p hitems := by
    rw [block, items_same hitems]
    rfl
  var d := by rw [item, decl_same]
  func h body hbody := by
    rw [item, head, type_same, decls_same, hbody]
    rfl
  stmt x hx := by rw [item, hx]
  clauses x hx := by
    have hclauses : x.clauses.map same.clause = x.clauses :=
      (List.map_congr_left fun c hc => clause_same (hx c hc)).trans (List.map_id _)
    calc same.stmt x = (same.stmt x).withClauses (same.stmt x).clauses := (same.stmt x).withClauses_clauses.symm
      _ = (same.stmt x).withClauses x.clauses := by rw [clauses_stmt, hclauses]
      _ = x := by cases x <;> rfl

@[simp] theorem block_same (b : Block) : same.block b = b := tree_same.forBlock b

end Relocation

/-! ## Losing all places -/

/-- The place of what has none. -/
def Span.nowhere : Span := .point 0

/-- Everything goes to one spot. -/
def Relocation.nowhere : Relocation := ⟨fun _ => .nowhere, fun _ _ => rfl⟩

/-- A block without places. -/
def Block.placeless (b : Block) : Block := Relocation.nowhere.block b

end Jaf
