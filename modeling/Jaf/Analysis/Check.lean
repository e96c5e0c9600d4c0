import Jaf.Analysis.Fold
import Jaf.Analysis.Infer
import Jaf.Analysis.Session
import Jaf.Tree.Block

/-!
# Checking function bodies and initial values

The last pass goes through the program with the scopes of the place it is at. It derives the type of
every expression, demands the type that the place asks for, and folds constants. A variable is declared
after its initializer, which therefore does not see it. A global may only start with a constant, and
the constant is recorded. Every block that is entered is left again, also when something in it fails.
-/

namespace Jaf

/-- A session and the scopes of the place a check is at. -/
structure Checker where
  session : Session
  scopes : Scopes

namespace Checker

/-- A checker outside of functions. -/
def ofSession (s : Session) : Checker := ⟨s, .empty⟩

/-- The tables. -/
def container (k : Checker) : Container := k.session.container

/-- What names mean at the place the check is at. -/
def lookup (k : Checker) : Lookup := .ofScopes k.scopes k.container

/-- The function the check is in. -/
def function (k : Checker) (span : Span) : Except SemanticError Function :=
  match k.scopes.function? >>= (k.container.functions[·]?) with
  | some f => .ok f
  | none => .error ⟨span, .outsideFunction⟩

/-- The type of a slot of the function the check is in. -/
def slotType (k : Checker) (slot : Nat) (span : Span) : Except SemanticError ValueType := do
  match (← k.function span).vars[slot]? with
  | some v => .ok v.type.valueType
  | none => .error ⟨span, .unknownSlot slot⟩

/-- Leaves the innermost block. -/
def leave (k : Checker) : Checker := { k with scopes := k.scopes.leave }

/-- Does a step inside of a block; there are no blocks outside of functions. -/
def inBlock {τ α : Type} (k : Checker) (step : Checker → Step Checker τ α) : Step Checker τ α :=
  match k.scopes.enterBlock? with
  | some scopes => (step { k with scopes }).mapState leave
  | none => step k

/-- Does a step inside of a function body. -/
def inFunction {τ α : Type} (k : Checker) (number argCount : Nat)
    (step : Checker → Step Checker τ α) : Step Checker τ α :=
  (step { k with scopes := k.scopes.enterFunction number argCount }).mapState leave

end Checker

/-! ## Expressions and declarations -/

/-- Derives the types of an expression and folds its constants. -/
def Expr.check (e : Expr) (k : Checker) : Step Checker Expr Unit :=
  match e.infer k.lookup with
  | ⟨e, .ok _⟩ => .done e.fold k ()
  | ⟨e, .error err⟩ => .ofResult e k (.error err)

/-- Checks an expression if there is one. -/
def Expr.checkOption (e : Option Expr) (k : Checker) : Step Checker (Option Expr) Unit :=
  match e with
  | some e => (e.check k).map some
  | none => .done none k ()

/-- Checks an expression that must have the given type. -/
def Expr.checkTyped (e : Expr) (expected : ValueType) (k : Checker) : Step Checker Expr Unit :=
  (e.check k).andThen id fun e _ k => .ofResult e k (e.require expected)

/-- Checks the initial value of a global of a given name and slot, and records it. -/
def Expr.checkInitval (e : Expr) (name : String) (slot : Nat) (expected : ValueType) (k : Checker) :
    Step Checker Expr Unit :=
  (e.checkTyped expected k).andThen id fun e _ k =>
    match e.literal? with
    | some value => .done e { k with session := k.session.addInitval name ⟨slot, value⟩ } ()
    | none => .fail e k e.span .notConstant

/-- Checks a global. -/
def VarDecl.checkGlobal (d : VarDecl) (k : Checker) : Step Checker VarDecl Unit :=
  match d.name, d.slot, d.init with
  | none, _, _ => .done d k ()
  | some name, none, _ => .fail d k d.span (.unknownVariable name)
  | some _, some _, none => .done d k ()
  | some name, some slot, some init =>
    match k.container.globals[slot]? with
    | none => .fail d k d.span (.unknownVariable name)
    | some g =>
      (init.checkInitval name slot g.type.valueType k).map fun init => { d with init := some init }

/-- Checks the initializer of a local at a given slot, if it has one. -/
def VarDecl.checkInit (d : VarDecl) (slot : Nat) (k : Checker) : Step Checker VarDecl Unit :=
  match d.init with
  | none => .done d k ()
  | some init =>
    match k.slotType slot d.span with
    | .error e => .ofResult d k (.error e)
    | .ok expected => (init.checkTyped expected k).map fun init => { d with init := some init }

/-- Checks a local, and declares it after its initializer. -/
def VarDecl.checkLocal (d : VarDecl) (k : Checker) : Step Checker VarDecl Unit :=
  match d.name, d.slot with
  | none, _ => .done d k ()
  | some name, none => .fail d k d.span (.unknownVariable name)
  | some _, some slot =>
    (d.checkInit slot k).andThen id fun d _ k =>
      match k.scopes.declare k.container slot d.span with
      | .ok scopes => .done d { k with scopes } ()
      | .error e => .ofResult d k (.error e)

/-- Checks a variable, which is a global outside of functions and a local inside. -/
def VarDecl.check (d : VarDecl) (k : Checker) : Step Checker VarDecl Unit :=
  if k.scopes.isGlobal then d.checkGlobal k else d.checkLocal k

/-- Checks a return: its value must have the result type, and a missing value counts as void. -/
def Expr.checkReturn (e : Option Expr) (span : Span) (k : Checker) : Step Checker (Option Expr) Unit :=
  match k.function span with
  | .error err => .ofResult e k (.error err)
  | .ok f =>
    let expected := f.result.valueType
    match e with
    | some e => (e.checkTyped expected k).map some
    | none =>
      if expected = .void then .done none k () else .fail none k span (.mismatch expected .void)

/-! ## Blocks and statements -/

mutual

/-- Checks the items of a block, in the scopes as they are. -/
def Block.check : Block → Checker → Step Checker Block Unit
  | ⟨items, span⟩, k => (Item.checkAll items k).map (⟨·, span⟩)

/-- Checks items one after the other. -/
def Item.checkAll : List Item → Checker → Step Checker (List Item) Unit
  | [], k => .done [] k ()
  | i :: is, k => (i.check k).andThen (· :: is) fun i _ k => (Item.checkAll is k).map (i :: ·)

/-- Checks an item. -/
def Item.check : Item → Checker → Step Checker Item Unit
  | .var d, k => (d.check k).map .var
  | .func h body, k =>
    match h.number with
    | none => .fail (.func h body) k h.span .nestedFunction
    | some n =>
      match k.container.functions[n]? with
      | none => .fail (.func h body) k h.span (.unknownFunction h.name)
      | some f =>
        let k := { k with session := k.session.note (.functionEntered h.name) }
        (k.inFunction n f.argCount fun k => body.check k).map (.func h ·)
  | .stmt x, k => (x.check k).map .stmt

/-- Checks a statement. -/
def Stmt.check : Stmt → Checker → Step Checker Stmt Unit
  | .expr p e, k => (e.check k).map (.expr p ·)
  | .compound p b, k => (k.inBlock fun k => b.check k).map (.compound p ·)
  | .ifThen p e y, k =>
    (e.check k).andThen (.ifThen p · y) fun e _ k => (y.check k).map (.ifThen p e ·)
  | .ifElse p e y n, k =>
    (e.check k).andThen (.ifElse p · y n) fun e _ k =>
      (y.check k).andThen (.ifElse p e · n) fun y _ k => (n.check k).map (.ifElse p e y ·)
  | .whileLoop p e b, k =>
    (e.check k).andThen (.whileLoop p · b) fun e _ k => (b.check k).map (.whileLoop p e ·)
  | .doLoop p b e, k =>
    (e.check k).andThen (.doLoop p b ·) fun e _ k => (b.check k).map (.doLoop p · e)
  | .forLoop p i e u b, k =>
    k.inBlock fun k =>
      (i.check k).andThen (.forLoop p · e u b) fun i _ k =>
        (Expr.checkOption e k).andThen (.forLoop p i · u b) fun e _ k =>
          (Expr.checkOption u k).andThen (.forLoop p i e · b) fun u _ k =>
            (b.check k).map (.forLoop p i e u ·)
  | .switch p e b, k =>
    (e.check k).andThen (.switch p · b) fun e _ k =>
      (k.inBlock fun k => b.check k).map (.switch p e ·)
  | .caseLabel p e b, k =>
    (e.check k).andThen (.caseLabel p · b) fun e _ k => (b.check k).map (.caseLabel p e ·)
  | .defaultLabel p b, k => (b.check k).map (.defaultLabel p ·)
  | .label p name b, k => (b.check k).map (.label p name ·)
  | .returnFrom p e, k => (Expr.checkReturn e p k).map (.returnFrom p ·)
  | .empty p, k => .done (.empty p) k ()
  | .goto p name, k => .done (.goto p name) k ()
  | .breakOut p, k => .done (.breakOut p) k ()
  | .continueOn p, k => .done (.continueOn p) k ()

end

/-- Checks a program, outside of functions to begin with. -/
def Block.checkProgram (b : Block) (s : Session) : Step Checker Block Unit :=
  b.check (.ofSession s)

end Jaf
