import Jaf.Tree.Expr
import Jaf.Value

/-!
# What expressions mean

An expression is run on a store, which holds a datum for every variable. A run ends with a datum or
with a trap, and it leaves a store and a record of the calls and assignments it made, in their order.

Integers are the residues modulo `2 ^ 32` between `-2 ^ 31` and `2 ^ 31 - 1`: an operation is done on
whole numbers and the result is brought back into that range. Division by zero and a shift by a count
outside 0 to 31 trap. Single-precision numbers come with their operations as given; an integer beside
one of them is converted first. What a comparison says of two floats that are not in order is left
open, and so is all that a called function does.

Some expressions also stand for storage. A name and a member access do, and a conditional or a comma
list stands for the storage of the part it selects; anything else is a datum of its own, and writing to
a member of that is recorded and has no other effect. So the meaning of an expression has two sides, its
value and its place, and it is put together from the meanings of its parts.
-/

namespace Jaf

/-- What a variable holds or an expression evaluates to. -/
inductive Datum where
  | void
  | scalar (value : Value)
  | record (members : List Datum)

namespace Datum

/-- The datum at the end of a path of member positions. -/
def get? : Datum → List Nat → Option Datum
  | d, [] => some d
  | record ds, i :: path => ds[i]?.bind (·.get? path)
  | _, _ :: _ => none

/-- Replaces the datum at the end of a path of member positions. -/
def set? : Datum → List Nat → Datum → Option Datum
  | _, [], new => some new
  | record ds, i :: path, new =>
    ds[i]?.bind fun d => (d.set? path new).map fun d => record (ds.set i d)
  | _, _ :: _, _ => none

end Datum

/-- Storage: a variable or a datum that belongs to no variable, and the way to a member of it. -/
structure Place where
  root : VarRef ⊕ Datum
  path : List Nat

/-- What every variable holds. -/
abbrev Store := VarRef → Datum

/-- Why a run stops without a datum. -/
inductive Trap where
  | divisionByZero
  | shiftCount
  /-- The expression makes no sense: a missing member, an operand of the wrong kind. -/
  | illFormed
  /-- A called function stopped. -/
  | raised (code : Nat)

/-- A call with its arguments, or an assignment with its target. -/
inductive Event where
  | called (function : Nat) (args : List Datum)
  | assigned (place : Place) (value : Datum)

/-- The store and the calls and assignments made so far, the first one first. -/
structure World where
  store : Store
  events : List Event

/-- A run: it changes the world and ends with a result or a trap. -/
abbrev Run := ExceptT Trap (StateM World)

/-- All that the meaning of an expression depends on besides the store. -/
structure Machine where
  /-- What the function of a given number does with its arguments and the store. -/
  call : Nat → List Datum → Store → Except Trap Datum × Store
  /-- Whether a comparison holds of two floats that are not in order. -/
  unordered : BinaryOp → Float32 → Float32 → Bool

/-! ## Operators on values -/

/-- The value of a unary operator. -/
def UnaryOp.apply : UnaryOp → Value → Except Trap Value
  | neg, .int v => .ok (.int (.ofInt (-v.toInt)))
  | neg, .float v => .ok (.float (-v))
  | not, .int v => .ok (.ofBool (v = 0))
  | bitNot, .int v => .ok (.int (.ofInt (-v.toInt - 1)))
  | _, _ => .error .illFormed

namespace BinaryOp

/-- The value of a binary operator on integers; the logical ones do not get as far as this. -/
def onInts (op : BinaryOp) (a b : Int32) : Except Trap Value :=
  let x := a.toInt
  let y := b.toInt
  match op with
  | add => .ok (.int (.ofInt (x + y)))
  | sub => .ok (.int (.ofInt (x - y)))
  | mul => .ok (.int (.ofInt (x * y)))
  | div => if y = 0 then .error .divisionByZero else .ok (.int (.ofInt (x.tdiv y)))
  | mod => if y = 0 then .error .divisionByZero else .ok (.int (.ofInt (x.tmod y)))
  | bitAnd => .ok (.int (a &&& b))
  | bitOr => .ok (.int (a ||| b))
  | bitXor => .ok (.int (a ^^^ b))
  | shl =>
    if 0 ≤ y ∧ y < 32 then .ok (.int (.ofInt (x * (Nat.pow 2 y.toNat : Nat))))
    else .error .shiftCount
  | shr =>
    if 0 ≤ y ∧ y < 32 then .ok (.int (.ofInt (x / (Nat.pow 2 y.toNat : Nat))))
    else .error .shiftCount
  | eq => .ok (.ofBool (x = y))
  | ne => .ok (.ofBool (x ≠ y))
  | lt => .ok (.ofBool (x < y))
  | le => .ok (.ofBool (x ≤ y))
  | gt => .ok (.ofBool (y < x))
  | ge => .ok (.ofBool (y ≤ x))
  | logAnd | logOr => .error .illFormed

/-- The value of a binary operator on floats. -/
def onFloats (m : Machine) (op : BinaryOp) (a b : Float32) : Except Trap Value :=
  let compared (test : Ordering → Bool) : Except Trap Value :=
    .ok (.ofBool (match compareFloat? a b with
      | some o => test o
      | none => m.unordered op a b))
  match op with
  | add => .ok (.float (a + b))
  | sub => .ok (.float (a - b))
  | mul => .ok (.float (a * b))
  | div => .ok (.float (a / b))
  | eq => compared Ordering.isEq
  | ne => compared Ordering.isNe
  | lt => compared Ordering.isLT
  | le => compared Ordering.isLE
  | gt => compared Ordering.isGT
  | ge => compared Ordering.isGE
  | _ => .error .illFormed

/-- The value of a binary operator on strings. -/
def onStrings (op : BinaryOp) (a b : String) : Except Trap Value :=
  match op with
  | add => .ok (.string (a ++ b))
  | eq => .ok (.ofBool (a = b))
  | ne => .ok (.ofBool (a ≠ b))
  | lt => .ok (.ofBool (a < b))
  | le => .ok (.ofBool (¬ b < a))
  | gt => .ok (.ofBool (b < a))
  | ge => .ok (.ofBool (¬ a < b))
  | _ => .error .illFormed

/-- The value of a binary operator on operands that have both been evaluated. -/
def apply (m : Machine) (op : BinaryOp) : Value → Value → Except Trap Value
  | .int a, .int b => op.onInts a b
  | .int a, .float b => op.onFloats m (nearestFloat a) b
  | .float a, .int b => op.onFloats m a (nearestFloat b)
  | .float a, .float b => op.onFloats m a b
  | .string a, .string b => op.onStrings a b
  | _, _ => .error .illFormed

end BinaryOp

/-- The value of a cast. -/
def TypeKind.convert : TypeKind → Value → Except Trap Value
  | int, .int v => .ok (.int v)
  | int, .float v => .ok (.int (truncateFloat v))
  | float, .int v => .ok (.float (nearestFloat v))
  | float, .float v => .ok (.float v)
  | _, _ => .error .illFormed

/-! ## Reading and writing -/

namespace Run

/-- Ends with a value or a trap, as given. -/
def ofResult {α : Type} : Except Trap α → Run α
  | .ok a => pure a
  | .error t => throw t

/-- The value of a datum that is no record. -/
def scalar : Datum → Run Value
  | .scalar v => pure v
  | _ => throw .illFormed

/-- Whether a datum counts as true; only integers do or do not. -/
def truth : Datum → Run Bool
  | .scalar (.int v) => pure (v ≠ 0)
  | _ => throw .illFormed

/-- What stands at a place. -/
def load (p : Place) : Run Datum := do
  let w ← get
  let whole := match p.root with
    | .inl ref => w.store ref
    | .inr d => d
  match whole.get? p.path with
  | some d => pure d
  | none => throw .illFormed

/-- Writes to a place, and records that. -/
def save (p : Place) (new : Datum) : Run Unit := do
  let w ← get
  let events := w.events ++ [.assigned p new]
  match p.root with
  | .inl ref =>
    match (w.store ref).set? p.path new with
    | some d => set (⟨fun r => if r = ref then d else w.store r, events⟩ : World)
    | none => throw .illFormed
  | .inr d =>
    match d.set? p.path new with
    | some _ => set (⟨w.store, events⟩ : World)
    | none => throw .illFormed

/-- Calls the function of a given number, and records that. -/
def invoke (m : Machine) (number : Option Nat) (args : List Datum) : Run Datum := do
  match number with
  | none => throw .illFormed
  | some n =>
    let w ← get
    let (result, store) := m.call n args w.store
    set (⟨store, w.events ++ [.called n args]⟩ : World)
    ofResult result

end Run

/-! ## The two sides of a meaning -/

/-- What an expression evaluates to, and the storage it stands for. -/
structure Meaning where
  value : Run Datum
  place : Run Place

namespace Meaning

/-- An expression that stands for no storage of a variable. -/
def ofValue (value : Run Datum) : Meaning := ⟨value, do return ⟨.inr (← value), []⟩⟩

/-- An expression that stands for storage; its value is what is there. -/
def ofPlace (place : Run Place) : Meaning := ⟨do Run.load (← place), place⟩

/-- A name with its binding. -/
def named (binding : Option VarRef) : Meaning :=
  ofPlace (match binding with
    | some ref => pure ⟨.inl ref, []⟩
    | none => throw .illFormed)

/-- The member at a position of what an expression stands for. -/
def member (x : Meaning) (position : Option Nat) : Meaning :=
  ofPlace do
    let p ← x.place
    match position with
    | some i => pure ⟨p.root, p.path ++ [i]⟩
    | none => throw .illFormed

/-- One of two expressions, selected by a condition; the other one is not run. -/
def choose (c y o : Meaning) : Meaning where
  value := do if ← Run.truth (← c.value) then y.value else o.value
  place := do if ← Run.truth (← c.value) then y.place else o.place

/-- One expression after the other, the last one for its meaning and the others for their effects. -/
def sequence : List Meaning → Meaning
  | [] => ofValue (pure .void)
  | [x] => x
  | x :: xs => {
      value := do
        let _ ← x.value
        (sequence xs).value
      place := do
        let _ ← x.value
        (sequence xs).place }

/-- Adds to an integer in storage; the value is the one before or the one after. -/
def step (x : Meaning) (amount : Int) (after : Bool) : Run Datum := do
  let p ← x.place
  match ← Run.load p with
  | .scalar (.int v) =>
    let new := Datum.scalar (.int (.ofInt (v.toInt + amount)))
    Run.save p new
    return if after then new else .scalar (.int v)
  | _ => throw .illFormed

/-- An assignment: the target's storage, the value, what is to be stored, and only then the storing. -/
def assign (m : Machine) (op : AssignOp) (target value : Meaning) : Run Datum := do
  let p ← target.place
  let d ← value.value
  let new ← match op.binary? with
    | none => pure d
    | some b => do
      let old ← Run.scalar (← Run.load p)
      return .scalar (← Run.ofResult (b.apply m old (← Run.scalar d)))
  Run.save p new
  return new

end Meaning

/-- A unary operator on an operand. -/
def UnaryOp.run (op : UnaryOp) (x : Meaning) : Run Datum :=
  match op with
  | preInc => x.step 1 true
  | preDec => x.step (-1) true
  | postInc => x.step 1 false
  | postDec => x.step (-1) false
  | neg | not | bitNot => do return .scalar (← Run.ofResult (op.apply (← Run.scalar (← x.value))))

/-- A binary operator on operands; the logical ones run the second only if it matters. -/
def BinaryOp.run (m : Machine) (op : BinaryOp) (x y : Meaning) : Run Datum :=
  match op with
  | logAnd => do
    if ← Run.truth (← x.value) then return .scalar (.ofBool (← Run.truth (← y.value)))
    else return .scalar (.ofBool false)
  | logOr => do
    if ← Run.truth (← x.value) then return .scalar (.ofBool true)
    else return .scalar (.ofBool (← Run.truth (← y.value)))
  | op => do
    let a ← Run.scalar (← x.value)
    let b ← Run.scalar (← y.value)
    return .scalar (← Run.ofResult (op.apply m a b))

namespace Expr

mutual

/-- The meaning of an expression. -/
def meaning (m : Machine) : Expr → Meaning
  | int _ v => .ofValue (pure (.scalar (.int v)))
  | float _ v => .ofValue (pure (.scalar (.float v)))
  | string _ v => .ofValue (pure (.scalar (.string v)))
  | ident _ _ b => .named b
  | unary _ op e => .ofValue (op.run (e.meaning m))
  | binary _ op l r => .ofValue (op.run m (l.meaning m) (r.meaning m))
  | assign _ op t v => .ofValue (Meaning.assign m op (t.meaning m) (v.meaning m))
  | ternary _ c y o => .choose (c.meaning m) (y.meaning m) (o.meaning m)
  | call _ _ args k =>
    .ofValue do Run.invoke m k (← (meanings m args).mapM (·.value))
  | cast _ t e =>
    .ofValue do return .scalar (← Run.ofResult (t.convert (← Run.scalar (← (e.meaning m).value))))
  | member _ o _ p => (o.meaning m).member p
  | comma _ es => .sequence (meanings m es)

/-- The meanings of expressions. -/
def meanings (m : Machine) : List Expr → List Meaning
  | [] => []
  | e :: es => e.meaning m :: meanings m es

end

/-- How evaluating an expression ends: a datum or a trap, the store, and the calls and assignments. -/
structure Evaluation where
  result : Except Trap Datum
  store : Store
  events : List Event

/-- Evaluates an expression on a store. -/
def evaluate (m : Machine) (e : Expr) (s : Store) : Evaluation :=
  let (result, w) := ((e.meaning m).value.run).run ⟨s, []⟩
  ⟨result, w.store, w.events⟩

end Expr

end Jaf
