import Jaf.Analysis.Types

/-!
# Numbers for functions, globals and locals

Top-level declarations are entered into the tables in source order. The slots of a function go first to
its parameters and then to every named variable of its body, however deeply nested, in source order;
a slot is not shared between blocks that are never active together. A function is entered only once
its whole body has been numbered, so a function that fails leaves nothing in the tables.
-/

namespace Jaf

/-- Gives the next slot to a variable; one without a name needs none. -/
def VarDecl.allot (c : Container) (d : VarDecl) (vars : List Variable) :
    Step (List Variable) VarDecl Unit :=
  match d.name with
  | none => .done d vars ()
  | some name =>
    let d := { d with slot := some vars.length }
    match d.type.encode with
    | .ok t => .done d (vars ++ [c.newVariable name t]) ()
    | .error e => .ofResult d vars (.error e)

/-- Gives the first slots to parameters, which must have names. -/
def VarDecl.allotParams (c : Container) :
    List VarDecl → List Variable → Step (List Variable) (List VarDecl) Unit
  | [], vars => .done [] vars ()
  | d :: ds, vars =>
    if d.name.isSome then
      (d.allot c vars).andThen (· :: ds) fun d _ vars => (allotParams c ds vars).map (d :: ·)
    else .fail (d :: ds) vars d.span .unnamedParameter

mutual

/-- Gives slots to the variables of a block. -/
def Block.allotLocals (c : Container) : Block → List Variable → Step (List Variable) Block Unit
  | ⟨items, span⟩, vars => (Item.allotLocalsOf c items vars).map (⟨·, span⟩)

/-- Gives slots to the variables of a list of items. -/
def Item.allotLocalsOf (c : Container) :
    List Item → List Variable → Step (List Variable) (List Item) Unit
  | [], vars => .done [] vars ()
  | i :: is, vars =>
    (i.allotLocals c vars).andThen (· :: is) fun i _ vars =>
      (Item.allotLocalsOf c is vars).map (i :: ·)

/-- Gives slots to the variables of an item; a function has no place inside of another. -/
def Item.allotLocals (c : Container) : Item → List Variable → Step (List Variable) Item Unit
  | .var d, vars => (d.allot c vars).map .var
  | .func h body, vars => .fail (.func h body) vars h.span .nestedFunction
  | .stmt x, vars => (x.allotLocals c vars).map .stmt

/-- Gives slots to the variables of a statement. -/
def Stmt.allotLocals (c : Container) : Stmt → List Variable → Step (List Variable) Stmt Unit
  | .compound p b, vars => (b.allotLocals c vars).map (.compound p ·)
  | .ifThen p e y, vars => (y.allotLocals c vars).map (.ifThen p e ·)
  | .ifElse p e y n, vars =>
    (y.allotLocals c vars).andThen (.ifElse p e · n) fun y _ vars =>
      (n.allotLocals c vars).map (.ifElse p e y ·)
  | .whileLoop p e b, vars => (b.allotLocals c vars).map (.whileLoop p e ·)
  | .doLoop p b e, vars => (b.allotLocals c vars).map (.doLoop p · e)
  | .forLoop p i e u b, vars =>
    (i.allotLocals c vars).andThen (.forLoop p · e u b) fun i _ vars =>
      (b.allotLocals c vars).map (.forLoop p i e u ·)
  | .switch p e b, vars => (b.allotLocals c vars).map (.switch p e ·)
  | .caseLabel p e b, vars => (b.allotLocals c vars).map (.caseLabel p e ·)
  | .defaultLabel p b, vars => (b.allotLocals c vars).map (.defaultLabel p ·)
  | .label p name b, vars => (b.allotLocals c vars).map (.label p name ·)
  | .expr p e, vars => .done (.expr p e) vars ()
  | .empty p, vars => .done (.empty p) vars ()
  | .goto p name, vars => .done (.goto p name) vars ()
  | .breakOut p, vars => .done (.breakOut p) vars ()
  | .continueOn p, vars => .done (.continueOn p) vars ()
  | .returnFrom p e, vars => .done (.returnFrom p e) vars ()

end

/-- Gives slots to all variables of a function: parameters, then locals. The value is their list. -/
def FuncHead.allotVars (c : Container) (h : FuncHead) (body : Block) :
    Step (List Variable) (FuncHead × Block) Nat :=
  (VarDecl.allotParams c h.params []).andThen (fun params => ({ h with params }, body))
    fun params _ vars =>
      (body.allotLocals c vars).andThen (fun body => ({ h with params }, body)) fun body _ all =>
        .done ({ h with params }, body) all vars.length

/-- Enters a top-level function into the tables. -/
def FuncHead.allot (h : FuncHead) (body : Block) (s : Session) : Step Session (FuncHead × Block) Unit :=
  if (s.container.functionNo? h.name).isSome then
    .fail (h, body) s h.span (.nameRedefined h.name)
  else
    match h.result.encode with
    | .error e => .ofResult (h, body) s (.error e)
    | .ok result =>
      match h.allotVars s.container body with
      | ⟨tree, _, .error e⟩ => .ofResult tree s (.error e)
      | ⟨(h, body), vars, .ok argCount⟩ =>
        let number := some s.container.functions.length
        .done ({ h with number }, body) (s.addFunction ⟨h.name, result, argCount, vars⟩) ()

/-- Enters a top-level variable into the tables; one without a name is there for its type alone. -/
def VarDecl.allotGlobal (d : VarDecl) (s : Session) : Step Session VarDecl Unit :=
  match d.name with
  | none => .done d s ()
  | some name =>
    if (s.container.globalNo? name).isSome then .fail d s d.span (.nameRedefined name)
    else
      match d.type.encode with
      | .error e => .ofResult d s (.error e)
      | .ok t => .done { d with slot := some s.container.globals.length } (s.addGlobal name t) ()

/-- Enters a top-level item into the tables. -/
def Item.allot (i : Item) (s : Session) : Step Session Item Unit :=
  match i with
  | .var d => (d.allotGlobal s).map .var
  | .func h body => (h.allot body s).map fun (h, body) => .func h body
  | .stmt x => .done (.stmt x) s ()

/-- Enters top-level items into the tables, up to the first that fails. -/
def Item.allotAll : List Item → Session → Step Session (List Item) Unit
  | [], s => .done [] s ()
  | i :: is, s => (i.allot s).andThen (· :: is) fun i _ s => (allotAll is s).map (i :: ·)

/-- Enters the declarations of a program into the tables. -/
def Block.allot (b : Block) (s : Session) : Step Session Block Unit :=
  (Item.allotAll b.items s).map fun items => { b with items }

end Jaf
