import Jaf.Analysis.Outcome
import Jaf.Analysis.Session
import Jaf.Tree.Block

/-!
# Struct definitions and type names

A program may use a struct before its definition, and two structs may refer to each other. So types are
settled in two walks over all declarations, however deeply nested. The first enters every struct
definition into the struct table, an outer one before those in its body, with no members yet. The
second replaces each type name by the number of the struct and writes the members of each struct.

A declaration that is nothing but a type name announces a struct that may never be defined; both walks
pass over it.
-/

namespace Jaf

namespace TypeSpec

/-- The type code of a type whose names are bound. -/
def encode (t : TypeSpec) : Except SemanticError TypeCode :=
  match t.kind, t.structNo with
  | .void, _ => .ok (.scalar .void)
  | .int, _ => .ok (.scalar .int)
  | .float, _ => .ok (.scalar .float)
  | .string, _ => .ok (.scalar .string)
  | .struct, some n => .ok (.struct n)
  | .struct, none | .typedef, _ => .error ⟨t.span, .unknownType (t.name.getD "")⟩
  | .enum, _ => .error ⟨t.span, .unsupportedType .enum⟩

/-! ## Entering definitions into the table -/

mutual

/-- Enters a struct definition and those in its body into the struct table, and gives its number. -/
def register : TypeSpec → Session → Step Session TypeSpec Nat
  | ⟨kind, name, number, members, span⟩, s =>
    match name with
    | none => .fail ⟨kind, name, number, members, span⟩ s span .anonymousStruct
    | some text =>
      if (s.container.structNo? text).isSome then
        .fail ⟨kind, name, number, members, span⟩ s span (.structRedefined text)
      else
        let n := s.container.structs.length
        match members with
        | none => .done ⟨kind, name, some n, none, span⟩ (s.addStruct text) n
        | some decls =>
          (registerMembers decls (s.addStruct text)).andThen
            (fun decls => ⟨kind, name, some n, some decls, span⟩) fun decls _ s =>
              .done ⟨kind, name, some n, some decls, span⟩ s n

/-- Enters the struct definitions that stand as member types. -/
def registerMembers : List VarDecl → Session → Step Session (List VarDecl) Unit
  | [], s => .done [] s ()
  | ⟨name, type, init, slot, span⟩ :: ds, s =>
    if type.isUnregistered then
      (register type s).andThen (fun type => ⟨name, type, init, slot, span⟩ :: ds) fun type _ s =>
        (registerMembers ds s).map (⟨name, type, init, slot, span⟩ :: ·)
    else (registerMembers ds s).map (⟨name, type, init, slot, span⟩ :: ·)

end

/-- Enters a type into the struct table if it is a definition that is not there yet. -/
def registerNew (t : TypeSpec) (s : Session) : Step Session TypeSpec Unit :=
  if t.isUnregistered then (t.register s).andThen id fun t _ s => .done t s ()
  else .done t s ()

/-- The number of a struct with a body, which is entered into the table unless it has one. -/
def number (t : TypeSpec) (s : Session) : Step Session TypeSpec Nat :=
  match t.structNo with
  | some n => .done t s n
  | none => t.register s

/-! ## Binding names and writing members -/

/-- Replaces a type name by the number of the struct it means. -/
def bindName (t : TypeSpec) (s : Session) : Step Session TypeSpec Unit :=
  let name := t.name.getD ""
  match s.container.structNo? name with
  | some n => .done { t with kind := .struct, structNo := some n } s ()
  | none => .fail t s t.span (.unknownType name)

/-- The variable record of a member whose type is bound; a member without a name has none. -/
def memberRecord (c : Container) (d : VarDecl) : Except SemanticError (List Variable) :=
  match d.name with
  | none => .ok []
  | some name => d.type.encode.map fun t => [c.newVariable name t]

/-- Binds the types of members, one after the other, and gives their variable records. -/
def bindMembers (bind : TypeSpec → Session → Step Session TypeSpec Unit) :
    List VarDecl → Session → Step Session (List VarDecl) (List Variable)
  | [], s => .done [] s []
  | d :: ds, s =>
    if d.isForward then (bindMembers bind ds s).map (d :: ·)
    else
      (bind d.type s).andThen (fun t => { d with type := t } :: ds) fun t _ s =>
        let d := { d with type := t }
        match memberRecord s.container d with
        | .error e => .ofResult (d :: ds) s (.error e)
        | .ok records =>
          (bindMembers bind ds s).andThen (d :: ·) fun ds others s =>
            .done (d :: ds) s (records ++ others)

/-- Binds a type whose bodies are nested at most `n` deep. -/
def bindWithin : Nat → TypeSpec → Session → Step Session TypeSpec Unit
  | n, t, s =>
    match t.kind, n with
    | .typedef, _ => t.bindName s
    | .enum, _ => .fail t s t.span (.unsupportedType .enum)
    | .struct, n + 1 =>
      if t.members.isSome then
        (t.number s).andThen id fun t no s =>
          (bindMembers (bindWithin n) (t.members.getD []) s).andThen
            (fun decls => { t with members := some decls }) fun decls records s =>
              .done { t with members := some decls } (s.setMembers no records) ()
      else .done t s ()
    | _, _ => .done t s ()

mutual

/-- How deeply struct bodies are nested in a type. -/
def height : TypeSpec → Nat
  | ⟨_, _, _, none, _⟩ => 0
  | ⟨_, _, _, some decls, _⟩ => heightOf decls + 1

/-- How deeply struct bodies are nested in the types of members. -/
def heightOf : List VarDecl → Nat
  | [] => 0
  | ⟨_, type, _, _, _⟩ :: ds => max type.height (heightOf ds)

end

/-- Binds the names in a type, and writes the members of the structs defined in it. -/
def bind (t : TypeSpec) (s : Session) : Step Session TypeSpec Unit := bindWithin t.height t s

end TypeSpec

/-! ## Every type of a program -/

section Walk

variable {σ : Type} (f : TypeSpec → σ → Step σ TypeSpec Unit)

/-- Updates the types of parameters. -/
def VarDecl.updateTypes : List VarDecl → σ → Step σ (List VarDecl) Unit
  | [], s => .done [] s ()
  | d :: ds, s =>
    (f d.type s).andThen (fun t => { d with type := t } :: ds) fun t _ s =>
      (updateTypes ds s).map ({ d with type := t } :: ·)

/-- Updates the result and parameter types of a function. -/
def FuncHead.updateTypes (h : FuncHead) (s : σ) : Step σ FuncHead Unit :=
  (f h.result s).andThen (fun t => { h with result := t }) fun t _ s =>
    (VarDecl.updateTypes f h.params s).map fun params => { h with result := t, params }

mutual

/-- Updates the types of all declarations in a block, in source order. -/
def Block.updateTypes : Block → σ → Step σ Block Unit
  | ⟨items, span⟩, s => (Item.updateTypesOf items s).map (⟨·, span⟩)

/-- Updates the types of all declarations in a list of items. -/
def Item.updateTypesOf : List Item → σ → Step σ (List Item) Unit
  | [], s => .done [] s ()
  | i :: is, s =>
    (i.updateTypes s).andThen (· :: is) fun i _ s =>
      (Item.updateTypesOf is s).map (i :: ·)

/-- Updates the types of all declarations in an item. -/
def Item.updateTypes : Item → σ → Step σ Item Unit
  | .var d, s =>
    if d.isForward then .done (.var d) s ()
    else (f d.type s).map fun t => .var { d with type := t }
  | .func h body, s =>
    (h.updateTypes f s).andThen (.func · body) fun h _ s => (body.updateTypes s).map (.func h ·)
  | .stmt x, s => (x.updateTypes s).map .stmt

/-- Updates the types of all declarations in a statement. -/
def Stmt.updateTypes : Stmt → σ → Step σ Stmt Unit
  | .compound p b, s => (b.updateTypes s).map (.compound p ·)
  | .ifThen p c y, s => (y.updateTypes s).map (.ifThen p c ·)
  | .ifElse p c y n, s =>
    (y.updateTypes s).andThen (.ifElse p c · n) fun y _ s =>
      (n.updateTypes s).map (.ifElse p c y ·)
  | .whileLoop p c b, s => (b.updateTypes s).map (.whileLoop p c ·)
  | .doLoop p b c, s => (b.updateTypes s).map (.doLoop p · c)
  | .forLoop p i c u b, s =>
    (i.updateTypes s).andThen (.forLoop p · c u b) fun i _ s =>
      (b.updateTypes s).map (.forLoop p i c u ·)
  | .switch p e b, s => (b.updateTypes s).map (.switch p e ·)
  | .caseLabel p e b, s => (b.updateTypes s).map (.caseLabel p e ·)
  | .defaultLabel p b, s => (b.updateTypes s).map (.defaultLabel p ·)
  | .label p name b, s => (b.updateTypes s).map (.label p name ·)
  | .expr p e, s => .done (.expr p e) s ()
  | .empty p, s => .done (.empty p) s ()
  | .goto p name, s => .done (.goto p name) s ()
  | .breakOut p, s => .done (.breakOut p) s ()
  | .continueOn p, s => .done (.continueOn p) s ()
  | .returnFrom p e, s => .done (.returnFrom p e) s ()

end

end Walk

/-- Settles all types of a program. -/
def Block.bindTypes (b : Block) (s : Session) : Step Session Block Unit :=
  (b.updateTypes TypeSpec.registerNew s).andThen id fun b _ s => b.updateTypes TypeSpec.bind s

end Jaf
