import Jaf.Tree.Block
import Mathlib.Data.List.Forall2

/-!
# The clauses of statements

There are many forms of statements, but most of what is said of statements does not depend on the form. It
depends on what a statement is made of: values, blocks and further statements, in a certain order.
`Stmt.clauses` lists these in the order in which analysis comes to them, and `Stmt.withClauses` puts others
in their place.

`TreeRules` is induction on programs along the clauses: a property of statements is shown for any statement
whose clauses have it, and never form by form. The forms are looked at in this module, and where something
that is defined form by form is read off the clauses.
-/

namespace Jaf

/-! ## Clauses -/

/-- What a statement is made of. -/
inductive Clause where
  /-- A value that need not be there. -/
  | value (e : Option Expr)
  /-- What a return at the given place returns. -/
  | result (span : Span) (e : Option Expr)
  /-- A block with a scope of its own. -/
  | scope (body : Block)
  /-- A block whose declarations are for the clauses after it. -/
  | opening (body : Block)
  /-- A statement inside of the statement. -/
  | inner (x : Stmt)

/-- The clauses of a statement. The condition of a loop comes before the body, wherever it is written. -/
def Stmt.clauses : Stmt → List Clause
  | .expr _ e => [.value (some e)]
  | .compound _ b => [.scope b]
  | .ifThen _ e x | .whileLoop _ e x | .doLoop _ x e | .caseLabel _ e x => [.value (some e), .inner x]
  | .ifElse _ e y n => [.value (some e), .inner y, .inner n]
  | .forLoop _ i e u x => [.opening i, .value e, .value u, .inner x]
  | .switch _ e b => [.value (some e), .scope b]
  | .defaultLabel _ x | .label _ _ x => [.inner x]
  | .returnFrom p e => [.result p e]
  | .empty _ | .goto _ _ | .breakOut _ | .continueOn _ => []

/-- Whether a statement is a scope for its clauses. -/
def Stmt.isScope : Stmt → Bool
  | .forLoop _ _ _ _ _ => true
  | _ => false

/-- A statement of the same form with other clauses; clauses that do not fit the form change nothing. -/
def Stmt.withClauses : Stmt → List Clause → Stmt
  | .expr p _, [.value (some e)] => .expr p e
  | .compound p _, [.scope b] => .compound p b
  | .ifThen p _ _, [.value (some e), .inner x] => .ifThen p e x
  | .whileLoop p _ _, [.value (some e), .inner x] => .whileLoop p e x
  | .doLoop p _ _, [.value (some e), .inner x] => .doLoop p x e
  | .caseLabel p _ _, [.value (some e), .inner x] => .caseLabel p e x
  | .ifElse p _ _ _, [.value (some e), .inner y, .inner n] => .ifElse p e y n
  | .forLoop p _ _ _ _, [.opening i, .value e, .value u, .inner x] => .forLoop p i e u x
  | .switch p _ _, [.value (some e), .scope b] => .switch p e b
  | .defaultLabel p _, [.inner x] => .defaultLabel p x
  | .label p name _, [.inner x] => .label p name x
  | .returnFrom p _, [.result _ e] => .returnFrom p e
  | x, _ => x

/-- The items whose declarations are for the clauses after a clause. -/
def Clause.opened : Clause → List Item
  | .opening b => b.items
  | _ => []

/-- Two clauses of the same kind; a value is there in both or in none. -/
inductive Clause.Like : Clause → Clause → Prop
  | none : Like (.value none) (.value none)
  | value {e e' : Expr} : Like (.value (some e)) (.value (some e'))
  | result {p : Span} {e e' : Option Expr} : Like (.result p e) (.result p e')
  | scope {b b' : Block} : Like (.scope b) (.scope b')
  | opening {b b' : Block} : Like (.opening b) (.opening b')
  | inner {x x' : Stmt} : Like (.inner x) (.inner x')

theorem Clause.Like.refl (c : Clause) : Clause.Like c c := by
  cases c with
  | value e => cases e <;> constructor
  | _ => constructor

namespace Stmt

@[simp] theorem withClauses_clauses (x : Stmt) : x.withClauses x.clauses = x := by
  cases x <;> rfl

@[simp] theorem isScope_withClauses (x : Stmt) (cs : List Clause) : (x.withClauses cs).isScope = x.isScope := by
  unfold withClauses
  split <;> rfl

theorem clauses_withClauses {x : Stmt} {cs : List Clause} (h : List.Forall₂ Clause.Like x.clauses cs) :
    (x.withClauses cs).clauses = cs := by
  -- each clause is one of the kind that the form of the statement has at its place
  cases x with
  | empty | goto | breakOut | continueOn =>
      cases h
      rfl
  | expr | compound | defaultLabel | label | returnFrom =>
      obtain _ | ⟨h, hs⟩ := h
      cases h
      cases hs
      rfl
  | ifThen | whileLoop | doLoop | caseLabel | switch =>
      obtain _ | ⟨h, _ | ⟨h', hs⟩⟩ := h
      cases h
      cases h'
      cases hs
      rfl
  | ifElse =>
      obtain _ | ⟨h, _ | ⟨h', _ | ⟨h'', hs⟩⟩⟩ := h
      cases h
      cases h'
      cases h''
      cases hs
      rfl
  | forLoop =>
      obtain _ | ⟨h, _ | ⟨he, _ | ⟨hu, _ | ⟨h', hs⟩⟩⟩⟩ := h
      cases h
      cases h'
      cases hs
      cases he <;> cases hu <;> rfl

/-- Only a statement that is a scope declares something for its own clauses. -/
theorem opened_clauses {x : Stmt} (hx : x.isScope = false) : ∀ c ∈ x.clauses, c.opened = [] := by
  cases x with
  | forLoop => cases hx
  | _ => simp [clauses, Clause.opened]

end Stmt

/-! ## Induction along the clauses -/

/-- What is known of the tree that a clause holds: `B` of a block and `S` of a statement. -/
def Clause.Has (B : Block → Prop) (S : Stmt → Prop) : Clause → Prop
  | .value _ | .result _ _ => True
  | .scope b | .opening b => B b
  | .inner x => S x

/-- What has to be shown to know `B` of all blocks, `I` of all items and `S` of all statements. -/
structure TreeRules (B : Block → Prop) (I : Item → Prop) (S : Stmt → Prop) : Prop where
  block : ∀ items p, (∀ i ∈ items, I i) → B ⟨items, p⟩
  var : ∀ d, I (.var d)
  func : ∀ h body, B body → I (.func h body)
  stmt : ∀ x, S x → I (.stmt x)
  clauses : ∀ x, (∀ c ∈ x.clauses, c.Has B S) → S x

namespace TreeRules

variable {B : Block → Prop} {I : Item → Prop} {S : Stmt → Prop}

mutual

theorem forBlock (h : TreeRules B I S) : ∀ b, B b
  | ⟨items, p⟩ => h.block items p (h.forItems items)

theorem forItems (h : TreeRules B I S) : ∀ items : List Item, ∀ i ∈ items, I i
  | [] => List.forall_mem_nil I
  | i :: items => List.forall_mem_cons.mpr ⟨h.forItem i, h.forItems items⟩

theorem forItem (h : TreeRules B I S) : ∀ i, I i
  | .var d => h.var d
  | .func head body => h.func head body (h.forBlock body)
  | .stmt x => h.stmt x (h.forStmt x)

theorem forStmt (h : TreeRules B I S) : ∀ x, S x
  | .expr _ _ | .returnFrom _ _ => h.clauses _ (List.forall_mem_singleton.mpr trivial)
  | .compound _ b => h.clauses _ (List.forall_mem_singleton.mpr (h.forBlock b))
  | .ifThen _ _ x | .whileLoop _ _ x | .doLoop _ x _ | .caseLabel _ _ x =>
    h.clauses _ (List.forall_mem_cons.mpr ⟨trivial, List.forall_mem_singleton.mpr (h.forStmt x)⟩)
  | .ifElse _ _ y n => by
    have hno : ∀ c ∈ [Clause.inner n], c.Has B S := List.forall_mem_singleton.mpr (h.forStmt n)
    exact h.clauses _ (List.forall_mem_cons.mpr ⟨trivial, List.forall_mem_cons.mpr ⟨h.forStmt y, hno⟩⟩)
  | .forLoop _ i _ _ x => by
    have hbody : ∀ c ∈ [Clause.inner x], c.Has B S := List.forall_mem_singleton.mpr (h.forStmt x)
    exact h.clauses _ (List.forall_mem_cons.mpr ⟨h.forBlock i,
      List.forall_mem_cons.mpr ⟨trivial, List.forall_mem_cons.mpr ⟨trivial, hbody⟩⟩⟩)
  | .switch _ _ b =>
    h.clauses _ (List.forall_mem_cons.mpr ⟨trivial, List.forall_mem_singleton.mpr (h.forBlock b)⟩)
  | .defaultLabel _ x | .label _ _ x => h.clauses _ (List.forall_mem_singleton.mpr (h.forStmt x))
  | .empty _ | .goto _ _ | .breakOut _ | .continueOn _ => h.clauses _ (List.forall_mem_nil _)

end

theorem has (h : TreeRules B I S) (c : Clause) : c.Has B S := by
  cases c with
  | value | result => trivial
  | scope b | opening b => exact h.forBlock b
  | inner x => exact h.forStmt x

end TreeRules

/-! ## Lists along the clauses -/

/--
A list that is read off a program in the order of the clauses, such as the list of its declarations. What is
listed of a scope may have something around it (`scope`).
-/
structure TreeList (κ : Type) where
  block : Block → List κ
  item : Item → List κ
  stmt : Stmt → List κ
  clause : Clause → List κ
  scope : List κ → List κ
  block_eq : ∀ items p, block ⟨items, p⟩ = items.flatMap item
  item_stmt : ∀ x, item (.stmt x) = stmt x
  stmt_eq : ∀ x, stmt x =
    if x.isScope then scope (x.clauses.flatMap clause) else x.clauses.flatMap clause
  clause_scope : ∀ b, clause (.scope b) = scope (block b)
  clause_opening : ∀ b, clause (.opening b) = block b
  clause_inner : ∀ x, clause (.inner x) = stmt x

end Jaf
