import Jaf.Proofs.Analysis.FoldMeaning
import Jaf.Proofs.Analysis.TypeRules

/-!
# Constant expressions

Which expressions have a value that can be known before anything runs, and what that value is. The
evaluator `Expr.constant?` says so in terms of the meaning of operators on whole numbers. It has no value
for division by zero, for a shift by a count outside 0 to 31, for a comparison of floats that are not in
order, and for anything that reads a variable, calls a function or stores something. Of a conditional it
looks only at the branch that is selected, and a comma list has a value if all its items have one.

Folding an expression leaves a literal exactly if the evaluator has a value, and then it is the literal of
that value (`literal?_fold`). So folding finds every constant there is.
-/

namespace Jaf

/-! ## Operators on known values -/

namespace BinaryOp

/-- The value of a binary operator on two integers that are both known. -/
def ofInts? (op : BinaryOp) (a b : Int32) : Option Value :=
  match op with
  | logAnd => some (.ofBool (a ≠ 0 ∧ b ≠ 0))
  | logOr => some (.ofBool (a ≠ 0 ∨ b ≠ 0))
  | op => (op.onInts a b).toOption

/-- The value of a binary operator on two floats that are both known. -/
def ofFloats? (op : BinaryOp) (a b : Float32) : Option Value :=
  let compared (test : Ordering → Bool) : Option Value := (compareFloat? a b).map fun o => .ofBool (test o)
  match op with
  | add => some (.float (a + b))
  | sub => some (.float (a - b))
  | mul => some (.float (a * b))
  | div => if b == 0 then none else some (.float (a / b))
  | eq => compared Ordering.isEq
  | ne => compared Ordering.isNe
  | lt => compared Ordering.isLT
  | le => compared Ordering.isLE
  | gt => compared Ordering.isGT
  | ge => compared Ordering.isGE
  | _ => none

/-- The value of a binary operator on two known values; an integer beside a float is converted. -/
def ofValues? (op : BinaryOp) : Value → Value → Option Value
  | .int a, .int b => op.ofInts? a b
  | .int a, .float b => op.ofFloats? (nearestFloat a) b
  | .float a, .int b => op.ofFloats? a (nearestFloat b)
  | .float a, .float b => op.ofFloats? a b
  | .string a, .string b => (op.onStrings a b).toOption
  | _, _ => none

end BinaryOp

/-! ## The evaluator -/

namespace Expr

mutual

/-- The value of an expression that can be known before anything runs. -/
def constant? : Expr → Option Value
  | int _ v => some (.int v)
  | float _ v => some (.float v)
  | string _ v => some (.string v)
  | unary _ op e => do (op.apply (← e.constant?)).toOption
  | binary _ op l r => do op.ofValues? (← l.constant?) (← r.constant?)
  | cast _ target e => do (target.convert (← e.constant?)).toOption
  | ternary _ c y o =>
    match c.constant? with
    | some (.int v) => if v = 0 then o.constant? else y.constant?
    | _ => none
  | comma _ es => lastConstant? es
  | ident _ _ _ | assign _ _ _ _ | call _ _ _ _ | member _ _ _ _ => none

/-- The value of the last expression of a list, if all of them have one. -/
def lastConstant? : List Expr → Option Value
  | [] => none
  | [e] => e.constant?
  | e :: es => do let _ ← e.constant?; lastConstant? es

end

end Expr

/-! ## Folding finds the values of operators -/

theorem UnaryOp.fold?_eq (op : UnaryOp) (v : Value) : op.fold? v = (op.apply v).toOption := by
  cases h : op.fold? v with
  | some w => rw [apply_of_fold? h]; rfl
  | none =>
      cases op with
      | neg =>
          cases v with
          | int | float => cases h
          | string => rfl
      | not | bitNot =>
          cases v with
          | int => cases h
          | float | string => rfl
      | _ => cases v <;> rfl

theorem TypeKind.fold?_eq (t : TypeKind) (v : Value) : t.fold? v = (t.convert v).toOption := by
  cases t <;> cases v <;> rfl

namespace BinaryOp

theorem foldInt?_eq (op : BinaryOp) (a b : Int32) : op.foldInt? a b = op.ofInts? a b := by
  by_cases hand : op = logAnd
  · rw [hand]; rfl
  by_cases hor : op = logOr
  · rw [hor]; rfl
  have hrange : 0 ≤ b ∧ b < 32 ↔ 0 ≤ b.toInt ∧ b.toInt < 32 := by
    rw [Int32.le_iff_toInt_le, Int32.lt_iff_toInt_lt]; rfl
  have hzero : b = 0 ↔ b.toInt = 0 := by rw [← Int32.toInt_inj]; rfl
  have hmeant : op.ofInts? a b = (op.onInts a b).toOption := by
    cases op with
    | logAnd => exact absurd rfl hand
    | logOr => exact absurd rfl hor
    | _ => rfl
  rw [hmeant]
  cases h : op.foldInt? a b with
  | some v => rw [onInts_of_foldInt? h hand hor]; rfl
  | none =>
      -- what folding leaves alone is what traps
      cases op with
      | div | mod =>
          rw [foldInt?, ite_eq_left_iff] at h
          have hb : b.toInt = 0 := hzero.mp (Classical.byContradiction fun hb => by cases h hb)
          rw [onInts, if_pos hb]
          rfl
      | shl | shr =>
          rw [foldInt?, ite_eq_right_iff] at h
          rw [onInts, if_neg fun hb => by cases h (hrange.mpr hb)]
          rfl
      | _ => cases h

theorem foldFloat?_eq (op : BinaryOp) (a b : Float32) : op.foldFloat? a b = op.ofFloats? a b := by
  cases op with
  | eq | ne | lt | le | gt | ge =>
      unfold foldFloat? ofFloats?
      cases compareFloat? a b with
      | none => rfl
      | some o => cases o <;> rfl
  | _ => rfl

theorem foldString?_eq (op : BinaryOp) (a b : String) :
    op.foldString? a b = (op.onStrings a b).toOption := by
  cases op with
  | eq | ne | lt | le | gt | ge => rw [onStrings_of_isComparison rfl]; rfl
  | _ => rfl

/-- Folding two literals gives the value of the operator, whenever it has one. -/
theorem fold?_eq (op : BinaryOp) (a b : Value) : op.fold? a b = op.ofValues? a b := by
  match a, b with
  | .int a, .int b => exact op.foldInt?_eq a b
  | .string a, .string b => exact op.foldString?_eq a b
  | .int a, .float b => exact op.foldFloat?_eq (nearestFloat a) b
  | .float a, .int b => exact op.foldFloat?_eq a (nearestFloat b)
  | .float a, .float b => exact op.foldFloat?_eq a b
  | .int _, .string _ | .float _, .string _ | .string _, .int _ | .string _, .float _ => rfl

end BinaryOp

/-! ## Folding finds the values of expressions -/

namespace Expr

@[simp] theorem literal?_toExpr (n : Note) (v : Value) : (v.toExpr n).literal? = some v := by
  cases v <;> rfl

theorem literal?_orKeep (n : Note) (value : Option Value) {kept : Expr} (h : kept.literal? = none) :
    (orKeep n value kept).literal? = value := by
  cases value with
  | none => exact h
  | some v => exact literal?_toExpr n v

theorem lastConstant?_cons (e : Expr) {es : List Expr} (h : es ≠ []) :
    lastConstant? (e :: es) = e.constant?.bind fun _ => lastConstant? es := by
  obtain ⟨x, xs, rfl⟩ := List.exists_cons_of_ne_nil h
  rw [lastConstant?]
  · rfl
  · exact fun hnil => by cases hnil

theorem literal?_of_not_isLiteral {e : Expr} (h : ¬e.isLiteral = true) : e.literal? = none := by
  cases e with
  | int | float | string => exact absurd rfl h
  | _ => rfl

/-- A comma list is a literal once all its items are. -/
theorem literal?_ofItems (n : Note) {es : List Expr} (hes : ∀ e ∈ es, e.fold.literal? = e.constant?) :
    (ofItems n (effective (es.map fold))).literal? = lastConstant? es := by
  induction es with
  | nil => rfl
  | cons e es ih =>
      obtain ⟨he, hes⟩ := List.forall_mem_cons.mp hes
      cases es with
      | nil => rw [lastConstant?, ← he]; rfl
      | cons x xs =>
          rw [lastConstant?_cons e (List.cons_ne_nil x xs), ← he, ← ih hes, List.map_cons, List.map_cons,
            effective]
          split
          next hlit =>
            obtain ⟨v, hv⟩ := literal?_of_isLiteral hlit
            rw [hv]
            rfl
          next hlit =>
            -- an item that stays keeps the list from being a literal
            rw [literal?_of_not_isLiteral hlit]
            have hne := effective_ne_nil (List.cons_ne_nil x.fold (xs.map fold))
            obtain ⟨y, ys, hys⟩ := List.exists_cons_of_ne_nil hne
            rw [hys]
            rfl
          next => exact List.cons_ne_nil _ _

/-- **Folding finds exactly the constants.** What is left is a literal just if the expression has a value. -/
theorem literal?_fold (e : Expr) : e.fold.literal? = e.constant? := by
  induction e using induct with
  | int | float | string => rfl
  | ident => rfl
  | unary n op e ih =>
      rw [fold, literal?_orKeep n _ rfl, constant?, ih]
      cases e.constant? with
      | none => rfl
      | some v => exact op.fold?_eq v
  | binary n op l r ihl ihr =>
      rw [fold, literal?_orKeep n _ rfl, constant?, ihl, ihr]
      cases l.constant? with
      | none => rfl
      | some a =>
          cases r.constant? with
          | none => rfl
          | some b => exact op.fold?_eq a b
  | cast n t e ih =>
      rw [fold, literal?_orKeep n _ rfl, constant?, ih]
      cases e.constant? with
      | none => rfl
      | some v => exact t.fold?_eq v
  | ternary n c y o ihc ihy iho =>
      rw [fold, constant?, ← ihc, ← ihy, ← iho]
      cases c.fold with
      | int m v => exact apply_ite literal? (v = 0) o.fold y.fold
      | _ => rfl
  | comma n es ih => rw [fold, foldList_eq_map, constant?, literal?_ofItems n ih]
  | assign | call | member => rw [fold, constant?]; rfl

/-! ## Values, notes and types -/

/-- Notes say nothing about values. -/
theorem constant?_erase (e : Expr) : e.erase.constant? = e.constant? := by
  induction e using induct with
  | int | float | string | ident => rfl
  | unary n op e ih | cast n t e ih => rw [erase, constant?, constant?, ih]
  | binary n op l r ihl ihr => rw [erase, constant?, constant?, ihl, ihr]
  | ternary n c y o ihc ihy iho => rw [erase, constant?, constant?, ihc, ihy, iho]
  | assign | call | member => rw [erase, constant?, constant?]
  | comma n es ih =>
      rw [erase, constant?, constant?]
      induction es with
      | nil => rfl
      | cons e es hrest =>
          obtain ⟨he, hes⟩ := List.forall_mem_cons.mp ih
          rw [eraseAll]
          cases es with
          | nil => rw [eraseAll, lastConstant?, lastConstant?, he]
          | cons x xs =>
              rw [lastConstant?_cons e (List.cons_ne_nil x xs), ← hrest hes, ← he]
              exact lastConstant?_cons _ (List.cons_ne_nil _ _)

/-- A derivation keeps the value of an expression. -/
theorem constant?_of_infer {env : Lookup} {e x : Expr} {t : ValueType}
    (h : e.infer env = ⟨x, .ok t⟩) : x.constant? = e.constant? := by
  rw [← constant?_erase x, erase_of_infer h, constant?_erase]

/-- The value of an expression is of its type. -/
theorem HasType.constant {env : Lookup} {e : Expr} {t : ValueType} {v : Value}
    (h : HasType env e t) (hv : e.constant? = some v) : v.type = t := by
  obtain ⟨x, hx⟩ := infer_of_hasType h
  obtain ⟨hsettled, htype⟩ := infer_settled e hx
  obtain ⟨hfold, hkept⟩ := fold_settled hsettled
  have hlit : x.fold.literal? = some v := by rw [literal?_fold, constant?_of_infer hx, hv]
  have hfound := type_of_literal hfold hlit
  rw [hkept, htype] at hfound
  exact (Option.some.inj hfound).symm

end Expr

end Jaf
