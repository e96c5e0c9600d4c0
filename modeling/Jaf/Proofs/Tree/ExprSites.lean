import Jaf.Proofs.Tree.Clauses

/-!
# Where expressions stand

Statements about a whole program speak of all expressions in it. `Block.sites` lists them, each with the
place it stands at: the function around it, the variables declared before it in the blocks around it,
and what the place asks for, as a return asks for the result type of the function. The variables are
read off the text alone: a variable belongs to the block its declaration stands in, from the end of
the declaration on, and a for loop has a block of its own that starts with its first clause.

The grammar has room for expressions that are none of the program's business: the initializer of a
parameter, of a struct member, of a declaration without a name. These are the strays of a block, and
`Block.sites` does not list them. A script that has been parsed has no strays.
-/

namespace Jaf

/-! ## Declarations -/

mutual

/-- The declarations in a block, at any depth. -/
@[simp] def Block.declarations : Block → List Item
  | ⟨items, _⟩ => Item.declarationsOf items

/-- The declarations among items and inside of them. -/
@[simp] def Item.declarationsOf : List Item → List Item
  | [] => []
  | i :: is => i.declarations ++ Item.declarationsOf is

/-- An item itself, unless it is a statement, and the declarations inside of it. -/
@[simp] def Item.declarations : Item → List Item
  | .var d => [.var d]
  | .func h body => .func h body :: body.declarations
  | .stmt x => x.declarations

/-- The declarations inside of a statement. -/
@[simp] def Stmt.declarations : Stmt → List Item
  | .compound _ b | .switch _ _ b => b.declarations
  | .ifThen _ _ x | .whileLoop _ _ x | .doLoop _ x _ | .caseLabel _ _ x | .defaultLabel _ x
  | .label _ _ x => x.declarations
  | .ifElse _ _ y n => y.declarations ++ n.declarations
  | .forLoop _ i _ _ x => i.declarations ++ x.declarations
  | .expr _ _ | .empty _ | .goto _ _ | .breakOut _ | .continueOn _ | .returnFrom _ _ => []

end

mutual

/-- The expressions inside of a type. -/
@[simp] def TypeSpec.exprs : TypeSpec → List Expr
  | ⟨_, _, _, none, _⟩ => []
  | ⟨_, _, _, some decls, _⟩ => VarDecl.exprsOf decls

/-- The expressions inside of members or parameters. -/
@[simp] def VarDecl.exprsOf : List VarDecl → List Expr
  | [] => []
  | ⟨_, type, init, _, _⟩ :: ds => init.toList ++ type.exprs ++ VarDecl.exprsOf ds

end

/-- The expressions of a declaration that stand where none belongs. -/
def Item.strays : Item → List Expr
  | .var d => (if d.name.isSome then [] else d.init.toList) ++ d.type.exprs
  | .func h _ => h.result.exprs ++ VarDecl.exprsOf h.params
  | .stmt _ => []

/-- The expressions of declarations that stand where none belongs. -/
def Item.straysOf (is : List Item) : List Expr := is.flatMap Item.strays

@[simp] theorem Item.straysOf_nil : Item.straysOf [] = [] := rfl

@[simp] theorem Item.straysOf_cons {i : Item} {is : List Item} :
    Item.straysOf (i :: is) = i.strays ++ Item.straysOf is := rfl

@[simp] theorem Item.straysOf_append {is js : List Item} :
    Item.straysOf (is ++ js) = Item.straysOf is ++ Item.straysOf js := List.flatMap_append

/-- The expressions of a block that stand where none belongs. -/
def Block.strays (b : Block) : List Expr := Item.straysOf b.declarations

/-- Whether an item is a declaration and not a statement. -/
def Item.isDeclaration : Item → Bool
  | .var _ | .func _ _ => true
  | .stmt _ => false

/-! ## Places -/

/--
The surroundings of an expression: the name of the function it is in, and what each block around it
has declared so far, the innermost block and the oldest declaration first.
-/
structure Context where
  function : Option String
  blocks : List (List VarDecl)

namespace Context

/-- Outside of functions. -/
def outside : Context := ⟨none, []⟩

/-- At the start of a function body, where the parameters have been declared. -/
def body (h : FuncHead) : Context := ⟨some h.name, [h.params]⟩

/-- At the start of a block. -/
def enter (σ : Context) : Context := { σ with blocks := [] :: σ.blocks }

/-- After an item of the innermost block. -/
def after (σ : Context) : Item → Context
  | .var d => if d.name.isSome then { σ with blocks := σ.blocks.modifyHead (· ++ [d]) } else σ
  | _ => σ

/-- After some items of the innermost block. -/
def afterAll (σ : Context) (items : List Item) : Context := items.foldl after σ

@[simp] theorem after_function (σ : Context) (i : Item) :
    (σ.after i).function = σ.function := by
  cases i with
  | var d => unfold after; dsimp only; split <;> rfl
  | func | stmt => rfl

@[simp] theorem afterAll_function (σ : Context) (items : List Item) :
    (σ.afterAll items).function = σ.function := by
  induction items generalizing σ with
  | nil => rfl
  | cons i items ih => exact (ih (σ.after i)).trans (σ.after_function i)

end Context

/-- What an expression is there for. -/
inductive Role where
  | value
  | result
  | initial (slot : Option Nat)

/-- An expression of a program and its place. -/
structure Site where
  expr : Expr
  role : Role
  context : Context

/-- The place of a variable's initializer. -/
def VarDecl.sites (σ : Context) (d : VarDecl) : List Site :=
  match d.name, d.init with
  | some _, some e => [⟨e, .initial d.slot, σ⟩]
  | _, _ => []

/-- The place of an expression that need not be there. -/
def Expr.sites (σ : Context) (role : Role) (e : Option Expr) : List Site :=
  (e.map fun e => ⟨e, role, σ⟩).toList

mutual

/-- The places of the expressions in a block that starts in the given context. -/
@[simp] def Block.sitesIn (σ : Context) : Block → List Site
  | ⟨items, _⟩ => Item.sitesOf σ items

/-- The places of the expressions in items. -/
@[simp] def Item.sitesOf : Context → List Item → List Site
  | _, [] => []
  | σ, i :: is => i.sitesIn σ ++ Item.sitesOf (σ.after i) is

/-- The places of the expressions in an item. -/
@[simp] def Item.sitesIn (σ : Context) : Item → List Site
  | .var d => d.sites σ
  | .func h body => body.sitesIn (.body h)
  | .stmt x => x.sitesIn σ

/--
The places of the expressions in a statement, in the order in which they are looked at: the condition
of a loop comes before the body, wherever it is written. No statement declares anything in the block it
stands in.
-/
@[simp] def Stmt.sitesIn (σ : Context) : Stmt → List Site
  | .expr _ e => [⟨e, .value, σ⟩]
  | .compound _ b => b.sitesIn σ.enter
  | .ifThen _ e x | .whileLoop _ e x | .doLoop _ x e | .caseLabel _ e x =>
    ⟨e, .value, σ⟩ :: x.sitesIn σ
  | .ifElse _ e y n => ⟨e, .value, σ⟩ :: (y.sitesIn σ ++ n.sitesIn σ)
  | .forLoop _ i e u x =>
    let inner := σ.enter.afterAll i.items
    i.sitesIn σ.enter ++ (Expr.sites inner .value e ++ (Expr.sites inner .value u ++ x.sitesIn inner))
  | .switch _ e b => ⟨e, .value, σ⟩ :: b.sitesIn σ.enter
  | .defaultLabel _ x | .label _ _ x => x.sitesIn σ
  | .returnFrom _ e => Expr.sites σ .result e
  | .empty _ | .goto _ _ | .breakOut _ | .continueOn _ => []

end

/-- The places of things that stand one after the other, each in the context after the ones before it. -/
def Context.sitesEach {τ : Type} (after : Context → τ → Context) (sites : Context → τ → List Site) :
    Context → List τ → List Site
  | _, [] => []
  | σ, t :: ts => sites σ t ++ (after σ t).sitesEach after sites ts

/-- The places of all expressions of a program. -/
def Block.sites (b : Block) : List Site := b.sitesIn .outside

/-! ## Places and contexts -/

/-- The places of a part carry the given expressions, whatever its context. -/
def Carries (sites : Context → List Site) (es : List Expr) : Prop :=
  ∀ σ, (sites σ).map Site.expr = es

namespace Carries

variable {sites sites' : Context → List Site} {es es' : List Expr}

theorem nil : Carries (fun _ => []) [] := fun _ => rfl

theorem append (h : Carries sites es) (h' : Carries sites' es') :
    Carries (fun σ => sites σ ++ sites' σ) (es ++ es') := by
  intro σ
  rw [List.map_append, h σ, h' σ]

theorem within (g : Context → Context) (h : Carries sites es) : Carries (fun σ => sites (g σ)) es :=
  fun σ => h (g σ)

/-- Two parts of the program as it stands. -/
theorem both {xs xs' : List Site} (h : Carries sites (xs.map Site.expr))
    (h' : Carries sites' (xs'.map Site.expr)) :
    Carries (fun σ => sites σ ++ sites' σ) ((xs ++ xs').map Site.expr) := by
  rw [List.map_append]
  exact h.append h'

end Carries

theorem VarDecl.carries (d : VarDecl) (σ : Context) :
    Carries (fun σ => d.sites σ) ((d.sites σ).map Site.expr) := by
  intro σ'
  unfold VarDecl.sites
  split <;> rfl

theorem Expr.carries (σ : Context) (role : Role) (e : Option Expr) :
    Carries (fun σ => Expr.sites σ role e) ((Expr.sites σ role e).map Site.expr) := by
  intro σ'
  cases e <;> rfl

/-! ### Clauses -/

/-- The declarations inside of a clause. -/
def Clause.declarations : Clause → List Item
  | .value _ | .result _ _ => []
  | .scope b | .opening b => b.declarations
  | .inner x => x.declarations

theorem Stmt.declarations_clauses (x : Stmt) :
    x.declarations = x.clauses.flatMap Clause.declarations := by
  cases x <;> simp [Stmt.clauses, Clause.declarations]

theorem Item.declarationsOf_eq_flatMap (is : List Item) :
    Item.declarationsOf is = is.flatMap Item.declarations := by
  induction is with
  | nil => rfl
  | cons i is ih => rw [Item.declarationsOf, List.flatMap_cons, ih]

/-- The declarations of a program, at any depth. -/
def TreeList.declarations : TreeList Item where
  block := Block.declarations
  item := Item.declarations
  stmt := Stmt.declarations
  clause := Clause.declarations
  scope is := is
  block_eq items _ := Item.declarationsOf_eq_flatMap items
  item_stmt _ := rfl
  stmt_eq x := by
    rw [ite_self]
    exact x.declarations_clauses
  clause_scope _ := rfl
  clause_opening _ := rfl
  clause_inner _ := rfl

/-- The context of the clauses after a clause. -/
def Context.afterClause (σ : Context) (c : Clause) : Context := σ.afterAll c.opened

/-- The context of the clauses of a statement. -/
def Context.inside (σ : Context) (x : Stmt) : Context := if x.isScope then σ.enter else σ

@[simp] theorem Context.inside_withClauses (σ : Context) (x : Stmt) (cs : List Clause) :
    σ.inside (x.withClauses cs) = σ.inside x := by
  rw [Context.inside, Context.inside, Stmt.isScope_withClauses]

theorem Context.foldl_afterClause (σ : Context) (cs : List Clause) :
    cs.foldl Context.afterClause σ = σ.afterAll (cs.flatMap Clause.opened) := by
  induction cs generalizing σ with
  | nil => rfl
  | cons c cs ih =>
      rw [List.foldl_cons, ih, List.flatMap_cons, Context.afterClause, Context.afterAll, Context.afterAll,
        Context.afterAll, List.foldl_append]

/-- The places of the expressions in a clause. -/
def Clause.sitesIn (σ : Context) : Clause → List Site
  | .value e => Expr.sites σ .value e
  | .result _ e => Expr.sites σ .result e
  | .scope b => b.sitesIn σ.enter
  | .opening b => b.sitesIn σ
  | .inner x => x.sitesIn σ

theorem Stmt.sitesIn_clauses (σ : Context) (x : Stmt) :
    x.sitesIn σ = (σ.inside x).sitesEach Context.afterClause Clause.sitesIn x.clauses := by
  cases x <;> simp [Stmt.clauses, Context.sitesEach, Clause.sitesIn, Context.afterClause, Clause.opened,
    Context.inside, Stmt.isScope, Expr.sites, Context.afterAll]

theorem Item.sitesOf_eq_sitesEach (σ : Context) (is : List Item) :
    Item.sitesOf σ is = σ.sitesEach Context.after Item.sitesIn is := by
  induction is generalizing σ with
  | nil => rfl
  | cons i is ih => simp only [Item.sitesOf, Context.sitesEach, ih]

/-! ### The same in every context -/

/-- The same expressions in every context. -/
def Steady (sites : Context → List Site) : Prop := ∀ σ, Carries sites ((sites σ).map Site.expr)

theorem Steady.each {τ : Type} {after : Context → τ → Context} {sites : Context → τ → List Site}
    {ts : List τ} (h : ∀ t ∈ ts, Steady fun σ => sites σ t) :
    Steady fun σ => σ.sitesEach after sites ts := by
  induction ts with
  | nil => exact fun _ => .nil
  | cons t ts ih =>
      obtain ⟨ht, hts⟩ := List.forall_mem_cons.mp h
      exact fun σ => (ht σ).both ((ih hts (after σ t)).within (after · t))

theorem Clause.steady_of_has {c : Clause}
    (h : c.Has (fun b => Steady fun σ => b.sitesIn σ) fun x => Steady fun σ => x.sitesIn σ) :
    Steady fun σ => c.sitesIn σ := by
  cases c with
  | value e => exact fun σ => Expr.carries σ .value e
  | result p e => exact fun σ => Expr.carries σ .result e
  | scope b => exact fun σ => (h σ.enter).within (·.enter)
  | opening | inner => exact h

/-- The parts of a program have the same expressions in every context. -/
theorem TreeRules.steady : TreeRules (fun b => Steady fun σ => b.sitesIn σ)
    (fun i => Steady fun σ => i.sitesIn σ) fun x => Steady fun σ => x.sitesIn σ where
  block items p hitems := by
    simp only [Block.sitesIn, Item.sitesOf_eq_sitesEach]
    exact .each hitems
  var d := d.carries
  func _ _ _ _ _ := rfl
  stmt _ hx := hx
  clauses x hx := by
    have hclauses : ∀ c ∈ x.clauses, Steady fun σ => c.sitesIn σ := fun c hc => c.steady_of_has (hx c hc)
    simp only [Stmt.sitesIn_clauses]
    exact fun σ => (Steady.each hclauses (σ.inside x)).within (·.inside x)

theorem Item.steady (i : Item) : Steady fun σ => i.sitesIn σ := TreeRules.steady.forItem i

theorem Clause.steady (c : Clause) : Steady fun σ => c.sitesIn σ :=
  c.steady_of_has (TreeRules.steady.has c)

end Jaf
