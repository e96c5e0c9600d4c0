import Jaf.Analysis.Outcome
import Jaf.Analysis.Scopes

/-!
# The types of expressions

Types are derived from the leaves up and written into the tree, together with what the names in it
mean. Arithmetic takes numbers of either kind, with a float as the result if there is a float among
them, and `+` also joins strings. Comparisons take two numbers or two strings and give an integer. All
other operators are for integers. There is no conversion anywhere else: assignments, arguments and the
branches of a conditional must have exactly the type that is asked for.

An operand whose type is at fault is not always where the error is reported; `BinaryOp.culprit` says
which of the two operand types a message names.
-/

namespace Jaf

/-- What the names in an expression mean. -/
structure Lookup where
  var? : String → Option (VarRef × ValueType)
  function? : String → Option (Nat × Function)
  struct? : Nat → Option Struct

/-- What names mean in the given scopes. -/
def Lookup.ofScopes (s : Scopes) (c : Container) : Lookup where
  var? name := (s.find? c name).map fun (ref, v) => (ref, v.type.valueType)
  function? name := do
    let n ← c.functionNo? name
    let f ← c.functions[n]?
    return (n, f)
  struct? n := c.structs[n]?

namespace BinaryOp

/-- The type a binary operator gives to operands of the given types, if it takes them. -/
def type? (op : BinaryOp) (l r : ValueType) : Option ValueType :=
  let numbers := l.isNumeric && r.isNumeric
  let strings := l = .string && r = .string
  if op.isArithmetic then
    if numbers then some (if l = .float ∨ r = .float then .float else .int)
    else if strings && op = .add then some .string
    else none
  else if op.isComparison then
    if numbers || strings then some .int else none
  else
    if l = .int ∧ r = .int then some .int else none

/-- The operand type that a message names when an operator does not take its operands. -/
def culprit (op : BinaryOp) (l r : ValueType) : ValueType :=
  if op.isArithmetic || op.isComparison then
    if l.isNumeric || (l = .string && !r.isNumeric) then r else l
  else
    if l = .int then r else l

/-- The type of a binary operation, or the error of one that is not allowed. -/
def typed (op : BinaryOp) (l r : ValueType) (span : Span) : Except SemanticError ValueType :=
  match op.type? l r with
  | some t => .ok t
  | none => .error ⟨span, .badOperand op.text (op.culprit l r)⟩

end BinaryOp

/-- The type of a unary operation on an operand of type `t`, or the error of one that is not allowed. -/
def UnaryOp.typed (op : UnaryOp) (operand : Expr) (t : ValueType) (span : Span) :
    Except SemanticError ValueType :=
  let bad : Except SemanticError ValueType := .error ⟨operand.span, .badOperand op.text t⟩
  match op with
  | neg => if t.isNumeric then .ok t else bad
  | not | bitNot => if t = .int then .ok t else bad
  | preInc | preDec | postInc | postDec =>
    if operand.isPlace then if t = .int then .ok t else bad
    else .error ⟨span, .notAssignable⟩

/-- The type of an assignment, which is that of its target, or the error of one that does not fit. -/
def AssignOp.typed (op : AssignOp) (target value : ValueType) (span valueSpan : Span) :
    Except SemanticError ValueType := do
  let stored ← match op.binary? with
    | some b => b.typed target value span
    | none => .ok value
  if stored = target then .ok target else .error ⟨valueSpan, .mismatch target stored⟩

/-- The type that a cast of a number gives; only numbers are cast to. -/
def TypeKind.castType? : TypeKind → Option ValueType
  | int => some .int
  | float => some .float
  | _ => none

namespace Expr

/-- Demands that an expression has the given type; one without a type counts as void. -/
def require (e : Expr) (expected : ValueType) : Except SemanticError Unit :=
  let found := e.type?.getD .void
  if found = expected then .ok () else .error ⟨e.span, .mismatch expected found⟩

/-- An expression whose parts are done, with its type written into its note. -/
def settle (n : Note) (build : Note → Expr) (type : Except SemanticError ValueType) :
    Outcome Expr ValueType :=
  match type with
  | .ok t => ⟨build (n.typed t), .ok t⟩
  | .error e => ⟨build n, .error e⟩

/-- A member access whose object is done and has type `t`. -/
def settleMember (env : Lookup) (n : Note) (object : Expr) (field : String) (position : Option Nat)
    (t : ValueType) : Outcome Expr ValueType :=
  let stuck := member n object field position
  match t with
  | .struct k =>
    match env.struct? k with
    | none => .fail stuck object.span (.notAStruct t)
    | some s =>
      match s.member? field with
      | none => .fail stuck n.span (.noMember s.name field)
      | some (i, m) =>
        .done (member (n.typed m.type.valueType) object field (some i)) m.type.valueType
  | _ => .fail stuck object.span (.notAStruct t)

mutual

/-- Derives the type of an expression and writes it and all that it depends on into the tree. -/
def infer (env : Lookup) : Expr → Outcome Expr ValueType
  | int n v => .done (int (n.typed .int) v) .int
  | float n v => .done (float (n.typed .float) v) .float
  | string n v => .done (string (n.typed .string) v) .string
  | ident n name b =>
    match env.var? name with
    | some (ref, t) => .done (ident (n.typed t) name (some ref)) t
    | none => .fail (ident n name b) n.span (.unknownVariable name)
  | unary n op e =>
    (e.infer env).andThen (unary n op ·) fun e t =>
      settle n (unary · op e) (op.typed e t n.span)
  | binary n op l r =>
    (l.infer env).andThen (binary n op · r) fun l lt =>
      (r.infer env).andThen (binary n op l ·) fun r rt =>
        settle n (binary · op l r) (op.typed lt rt n.span)
  | assign n op target value =>
    (target.infer env).andThen (assign n op · value) fun target tt =>
      if target.isPlace then
        (value.infer env).andThen (assign n op target ·) fun value vt =>
          settle n (assign · op target value) (op.typed tt vt n.span value.span)
      else .fail (assign n op target value) target.span .notAssignable
  | ternary n c y o =>
    (c.infer env).andThen (ternary n · y o) fun c ct =>
      if ct = .int then
        (y.infer env).andThen (ternary n c · o) fun y yt =>
          (o.infer env).andThen (ternary n c y ·) fun o ot =>
            settle n (ternary · c y o)
              (if yt = ot then .ok yt else .error ⟨o.span, .mismatch yt ot⟩)
      else .fail (ternary n c y o) c.span (.badOperand "?:" ct)
  | call n name args k =>
    match env.function? name with
    | none => .fail (call n name args k) n.span (.unknownFunction name)
    | some (no, f) =>
      let params := f.params.map (·.type.valueType)
      if args.length = params.length then
        (inferArgs env args params).andThen (call n name · k) fun args _ =>
          .done (call (n.typed f.result.valueType) name args (some no)) f.result.valueType
      else .fail (call n name args k) n.span (.argumentCount name params.length args.length)
  | cast n target e =>
    (e.infer env).andThen (cast n target ·) fun e t =>
      if t.isNumeric then
        settle n (cast · target e) <|
          match target.castType? with
          | some t => .ok t
          | none => .error ⟨n.span, .unsupportedType target⟩
      else .fail (cast n target e) e.span (.badOperand "cast" t)
  | member n object field p =>
    (object.infer env).andThen (member n · field p) fun object t =>
      settleMember env n object field p t
  | comma n es =>
    (inferItems env es .void).andThen (comma n ·) fun es t => .done (comma (n.typed t) es) t

/-- Derives the types of arguments and demands those of the parameters. -/
def inferArgs (env : Lookup) : List Expr → List ValueType → Outcome (List Expr) Unit
  | e :: es, t :: ts =>
    (e.infer env).andThen (· :: es) fun e _ =>
      match e.require t with
      | .ok () => (inferArgs env es ts).map (e :: ·)
      | .error err => ⟨e :: es, .error err⟩
  | es, _ => .done es ()

/-- Derives the types of the items of a comma list; the value is the type of the last one. -/
def inferItems (env : Lookup) : List Expr → ValueType → Outcome (List Expr) ValueType
  | [], last => .done [] last
  | e :: es, _ =>
    (e.infer env).andThen (· :: es) fun e t => (inferItems env es t).map (e :: ·)

end

end Expr

end Jaf
