import Jaf.Analysis

/-!
# What a check cannot see

A check reads names, types and numbers off the tables. It reads neither the version of the container nor
the second names of variables, and it never looks at the initial values and the log that it writes. So a
change of the session that touches only these can be made before a check or after it: the two commute.

`Container.visible` is what is left of a container when all that no check looks at is gone. What names mean
is the same by a container and by what is visible of it (`Lookup.ofScopes_visible`), so the types that are
derived are the same (`Expr.infer_plain`). `Session.Unseen` says of a change of sessions that it keeps what
is visible and goes along with what a check writes; what a check reads is then not changed
(`Session.Unseen.reads`).
-/

namespace Jaf

/-! ## Second names -/

/-- A variable with the given second name. -/
def Variable.withSecond (second : Option String) (v : Variable) : Variable :=
  { v with secondName := second }

/-- A struct whose members have the given second name. -/
def Struct.withSecond (second : Option String) (s : Struct) : Struct :=
  { s with members := s.members.map (Variable.withSecond second) }

/-- A function whose variables have the given second name. -/
def Function.withSecond (second : Option String) (f : Function) : Function :=
  { f with vars := f.vars.map (Variable.withSecond second) }

/-- A container of the given version, all of whose variables have the given second name. -/
def Container.styled (version : Nat) (second : Option String) (c : Container) : Container where
  version
  structs := c.structs.map (Struct.withSecond second)
  functions := c.functions.map (Function.withSecond second)
  globals := c.globals.map (Variable.withSecond second)
  initvals := c.initvals

/-- What a check sees of a container: no version, no second names and no initial values. -/
def Container.visible (c : Container) : Container := { c.styled 0 none with initvals := [] }

variable {second : Option String} {c : Container}

theorem Function.params_withSecond (f : Function) :
    (f.withSecond second).params = f.params.map (Variable.withSecond second) :=
  List.map_take.symm

theorem Function.paramTypes_withSecond (f : Function) :
    (f.withSecond second).params.map (·.type.valueType) = f.params.map (·.type.valueType) := by
  rw [Function.params_withSecond, List.map_map]
  rfl

theorem Function.getElem?_withSecond (f : Function) (slot : Nat) :
    (f.withSecond second).vars[slot]? = (f.vars[slot]?).map (Variable.withSecond second) := List.getElem?_map ..

theorem Container.function_visible (n : Nat) :
    c.visible.functions[n]? = (c.functions[n]?).map (Function.withSecond none) := List.getElem?_map ..

theorem Container.global_visible (n : Nat) :
    c.visible.globals[n]? = (c.globals[n]?).map (Variable.withSecond none) := List.getElem?_map ..

theorem Struct.member?_withSecond (s : Struct) (name : String) :
    (s.withSecond second).member? name =
      (s.member? name).map (Prod.map id (Variable.withSecond second)) := by
  unfold Struct.member? Struct.withSecond
  rw [List.zipIdx_map, List.find?_map, Option.map_map, Option.map_map]
  rfl

/-! ## What names mean -/

theorem Frame.find?_visible (frame : Frame) (name : String) :
    frame.find? c.visible name = (frame.find? c name).map (Prod.map id (Variable.withSecond none)) := by
  unfold Frame.find?
  rw [Container.function_visible]
  cases c.functions[frame.function]? with
  | none => rfl
  | some f =>
      dsimp only [Option.map_some, Option.bind_eq_bind, Option.bind_some]
      induction frame.slots.reverse with
      | nil => rfl
      | cons slot slots ih =>
          rw [List.findSome?_cons, List.findSome?_cons, f.getElem?_withSecond, ih]
          cases f.vars[slot]? with
          | none => rfl
          | some v =>
              have hname : (v.withSecond none).name = v.name := rfl
              dsimp only [Option.map_some]
              rw [hname]
              by_cases h : v.name = name
              · rw [if_pos h, if_pos h]; rfl
              · rw [if_neg h, if_neg h]

theorem Container.structNo?_visible (name : String) : c.visible.structNo? name = c.structNo? name := by
  show (c.structs.map (Struct.withSecond none)).findIdx? _ = _
  rw [List.findIdx?_map]
  rfl

theorem Container.functionNo?_visible (name : String) :
    c.visible.functionNo? name = c.functionNo? name := by
  show (c.functions.map (Function.withSecond none)).findIdx? _ = _
  rw [List.findIdx?_map]
  rfl

theorem Container.globalNo?_visible (name : String) : c.visible.globalNo? name = c.globalNo? name := by
  show (c.globals.map (Variable.withSecond none)).findIdx? _ = _
  rw [List.findIdx?_map]
  rfl

theorem Scopes.find?_visible (scopes : Scopes) (name : String) :
    scopes.find? c.visible name =
      (scopes.find? c name).map (Prod.map id (Variable.withSecond none)) := by
  have hframes : scopes.frames.findSome? (·.find? c.visible name) =
      (scopes.frames.findSome? (·.find? c name)).map (Prod.map id (Variable.withSecond none)) := by
    induction scopes.frames with
    | nil => rfl
    | cons frame frames ih =>
        rw [List.findSome?_cons, List.findSome?_cons, ih, Frame.find?_visible]
        cases frame.find? c name <;> rfl
  unfold Scopes.find?
  rw [hframes]
  cases scopes.frames.findSome? (·.find? c name) with
  | some found => rfl
  | none =>
      dsimp only [Option.map_none, Option.bind_eq_bind]
      rw [Container.globalNo?_visible]
      cases c.globalNo? name with
      | none => rfl
      | some n =>
          dsimp only [Option.bind_some]
          rw [Container.global_visible]
          cases c.globals[n]? <;> rfl

theorem Scopes.declare_visible (scopes : Scopes) (slot : Nat) (span : Span) :
    scopes.declare c.visible slot span = scopes.declare c slot span := by
  unfold Scopes.declare
  cases scopes.frames with
  | nil => rfl
  | cons frame outer =>
      dsimp only
      rw [Container.function_visible]
      cases c.functions[frame.function]? with
      | none => rfl
      | some f =>
          dsimp only [Option.map_some]
          simp only [Function.getElem?_withSecond, Option.any_map]
          cases f.vars[slot]? <;> rfl

/-- What names mean, without second names. -/
def Lookup.plain (env : Lookup) : Lookup where
  var? := env.var?
  function? name := (env.function? name).map (Prod.map id (Function.withSecond none))
  struct? n := (env.struct? n).map (Struct.withSecond none)

/-- Names mean the same by what is visible of a container, but for second names. -/
theorem Lookup.ofScopes_visible (scopes : Scopes) :
    Lookup.ofScopes scopes c.visible = (Lookup.ofScopes scopes c).plain := by
  have hvar : ∀ name, (Lookup.ofScopes scopes c.visible).var? name =
      (Lookup.ofScopes scopes c).var? name := by
    intro name
    show (scopes.find? c.visible name).map _ = (scopes.find? c name).map _
    rw [Scopes.find?_visible, Option.map_map]
    rfl
  have hfunction : ∀ name, (Lookup.ofScopes scopes c.visible).function? name =
      (Lookup.ofScopes scopes c).plain.function? name := by
    intro name
    dsimp only [Lookup.plain, Lookup.ofScopes, Option.bind_eq_bind]
    rw [Container.functionNo?_visible]
    cases c.functionNo? name with
    | none => rfl
    | some n =>
        dsimp only [Option.bind_some]
        rw [Container.function_visible]
        cases c.functions[n]? <;> rfl
  have hstruct : ∀ n, (Lookup.ofScopes scopes c.visible).struct? n =
      (Lookup.ofScopes scopes c).plain.struct? n := fun n => List.getElem?_map ..
  show Lookup.mk _ _ _ = Lookup.mk _ _ _
  congr 1
  · exact funext hvar
  · exact funext hfunction
  · exact funext hstruct

/-! ## Types of expressions -/

namespace Expr

variable (env : Lookup)

theorem settleMember_plain (n : Note) (object : Expr) (field : String) (position : Option Nat)
    (t : ValueType) :
    settleMember env.plain n object field position t = settleMember env n object field position t := by
  cases t with
  | struct k =>
      dsimp only [settleMember, Lookup.plain]
      cases env.struct? k with
      | none => rfl
      | some s =>
          dsimp only [Option.map_some]
          rw [Struct.member?_withSecond]
          cases s.member? field <;> rfl
  | _ => rfl

mutual

/-- **Deriving types does not look at second names.** -/
theorem infer_plain : ∀ e : Expr, e.infer env.plain = e.infer env
  | int _ _ | float _ _ | string _ _ | ident _ _ _ => by simp only [infer, Lookup.plain]
  | unary _ _ e => by simp only [infer, infer_plain e]
  | binary _ _ l r => by simp only [infer, infer_plain l, infer_plain r]
  | assign _ _ t v => by simp only [infer, infer_plain t, infer_plain v]
  | ternary _ c y o => by simp only [infer, infer_plain c, infer_plain y, infer_plain o]
  | call n name args k => by
    have hfunction : env.plain.function? name =
        (env.function? name).map (Prod.map id (Function.withSecond none)) := rfl
    rw [infer, infer, hfunction]
    cases env.function? name with
    | none => rfl
    | some found =>
        obtain ⟨no, f⟩ := found
        dsimp only [Option.map_some, Prod.map, id]
        rw [Function.paramTypes_withSecond]
        simp only [inferArgs_plain args]
        rfl
  | cast _ _ e => by simp only [infer, infer_plain e]
  | member _ o _ _ => by simp only [infer, infer_plain o, settleMember_plain]
  | comma _ es => by simp only [infer, inferItems_plain es]

theorem inferArgs_plain : ∀ (es : List Expr) (ts : List ValueType),
    inferArgs env.plain es ts = inferArgs env es ts
  | [], _ => by simp only [inferArgs]
  | e :: es, ts => by
    cases ts with
    | nil => simp only [inferArgs]
    | cons t ts => simp only [inferArgs, infer_plain e, inferArgs_plain es]

theorem inferItems_plain : ∀ (es : List Expr) (last : ValueType),
    inferItems env.plain es last = inferItems env es last
  | [], _ => by simp only [inferItems]
  | e :: es, _ => by simp only [inferItems, infer_plain e, inferItems_plain es]

end

end Expr

/-! ## What a check reads -/

/-- A checker that has only what a check can see. -/
def Checker.visible (k : Checker) : Checker := ⟨⟨k.container.visible, []⟩, k.scopes⟩

namespace Checker

variable (k : Checker)

theorem infer_visible (e : Expr) : e.infer k.visible.lookup = e.infer k.lookup := by
  show e.infer (Lookup.ofScopes k.scopes k.container.visible) = _
  rw [Lookup.ofScopes_visible, Expr.infer_plain]
  rfl

/-- The function that a check is in, but for second names. -/
theorem function_visible (span : Span) :
    k.visible.function span = (k.function span).map (Function.withSecond none) := by
  have hscopes : k.visible.scopes = k.scopes := rfl
  unfold Checker.function
  rw [hscopes]
  cases k.scopes.function? with
  | none => rfl
  | some n =>
      have hcontainer : k.visible.container = k.container.visible := rfl
      dsimp only [Option.bind_eq_bind, Option.bind_some]
      rw [hcontainer, Container.function_visible]
      cases k.container.functions[n]? <;> rfl

theorem slotType_visible (slot : Nat) (span : Span) :
    k.visible.slotType slot span = k.slotType slot span := by
  unfold slotType
  rw [function_visible]
  cases k.function span with
  | error e => rfl
  | ok f =>
      dsimp only [Except.map, bind, Except.bind]
      rw [f.getElem?_withSecond]
      cases f.vars[slot]? <;> rfl

theorem resultType_visible (span : Span) :
    (k.visible.function span).map (·.result.valueType) =
      (k.function span).map (·.result.valueType) := by
  rw [function_visible]
  cases k.function span <;> rfl

theorem globalType_visible (slot : Nat) :
    (k.visible.container.globals[slot]?).map (·.type.valueType) =
      (k.container.globals[slot]?).map (·.type.valueType) := by
  show (k.container.visible.globals[slot]?).map _ = _
  rw [Container.global_visible, Option.map_map]
  rfl

theorem argCount_visible (n : Nat) :
    (k.visible.container.functions[n]?).map (·.argCount) =
      (k.container.functions[n]?).map (·.argCount) := by
  show (k.container.visible.functions[n]?).map _ = _
  rw [Container.function_visible, Option.map_map]
  rfl

end Checker

/-! ## Changes that a check cannot see -/

/-- A change of sessions that keeps what is visible and goes along with what a check writes. -/
structure Session.Unseen (g : Session → Session) : Prop where
  visible : ∀ s, (g s).container.visible = s.container.visible
  note : ∀ s e, g (s.note e) = (g s).note e
  addInitval : ∀ s name v, g (s.addInitval name v) = (g s).addInitval name v

/-- A checker with its session changed. -/
def Checker.via (g : Session → Session) (k : Checker) : Checker := { k with session := g k.session }

variable {g : Session → Session} {k : Checker}

/-- What can be read off what is visible is not changed. -/
theorem Session.Unseen.reads (hg : Session.Unseen g) {α : Type} (f : Checker → α)
    (hf : ∀ k, f k.visible = f k) : f (k.via g) = f k := by
  have hvisible : (k.via g).visible = k.visible := by
    show Checker.mk ⟨(g k.session).container.visible, []⟩ k.scopes = _
    rw [hg.visible]
    rfl
  rw [← hf, ← hf k, hvisible]

/-- What can be read off what is visible of a container is not changed. -/
theorem Session.Unseen.tables (hg : Session.Unseen g) {α : Type} (f : Container → α)
    (hf : ∀ c, f c.visible = f c) (s : Session) : f (g s).container = f s.container := by
  rw [← hf, hg.visible, hf]

end Jaf
