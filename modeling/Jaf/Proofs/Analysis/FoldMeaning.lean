import Jaf.Proofs.Analysis.ExprMeaning
import Jaf.Proofs.Analysis.FoldShapes
import Jaf.Proofs.Tree.ExprNodes

/-!
# Folding keeps the meaning of expressions

Folding computes with machine integers, and the meaning of an operator is given on whole numbers; the
first part of this file says that the two agree wherever folding computes at all. What folding leaves
alone needs no argument: division by zero, a shift by too much and a comparison of floats that are not
in order stay in the tree and do what they did.

With that, a folded tree means the same as the tree it comes from, on both sides of its meaning. This
holds of every tree, typed or not, because folding only ever replaces an operator by the value it would
have, a conditional by the branch it would run, and drops only literals.
-/

namespace Jaf

/-! ## Machine integers and whole numbers -/

theorem ofInt_tdiv_toInt (a b : Int32) : Int32.ofInt (a.toInt.tdiv b.toInt) = a / b := by
  rw [Int32.ofInt_eq_iff_bmod_eq_toInt, Int32.toInt_div]

theorem ofInt_tmod_toInt (a b : Int32) : Int32.ofInt (a.toInt.tmod b.toInt) = a % b := by
  rw [← Int32.toInt_mod, Int32.ofInt_toInt]

theorem ofInt_not (a : Int32) : Int32.ofInt (-a.toInt - 1) = ~~~a := by
  rw [Int32.not_eq_neg_sub, Int32.ofInt_sub, Int32.ofInt_neg, Int32.ofInt_toInt]; rfl

/-- A shift count in range is what the machine shifts by. -/
theorem shift_count {b : Int32} (h : 0 ≤ b.toInt ∧ b.toInt < 32) :
    (b.toBitVec.smod 32).toNat = b.toInt.toNat := by
  have hint : (b.toBitVec.smod 32).toInt = b.toInt := by
    rw [BitVec.toInt_smod, show (32 : BitVec 32).toInt = 32 from rfl]
    exact Int.fmod_eq_of_lt h.1 h.2
  have := BitVec.toInt_eq_toNat_cond (b.toBitVec.smod 32)
  omega

theorem ofInt_shl {a b : Int32} (h : 0 ≤ b.toInt ∧ b.toInt < 32) :
    Int32.ofInt (a.toInt * (Nat.pow 2 b.toInt.toNat : Nat)) = a <<< b := by
  have htwo : BitVec.ofInt 32 (Nat.pow 2 b.toInt.toNat : Nat) = BitVec.twoPow 32 b.toInt.toNat := by
    rw [BitVec.ofInt_natCast]
    exact BitVec.eq_of_toNat_eq (by simp)
  rw [← Int32.toBitVec_inj, Int32.toBitVec_shiftLeft, BitVec.shiftLeft_eq', shift_count h,
    BitVec.shiftLeft_eq_mul_twoPow, Int32.toBitVec_ofInt, BitVec.ofInt_mul, htwo]
  exact congrArg (· * _) BitVec.ofInt_toInt

theorem ofInt_shr {a b : Int32} (h : 0 ≤ b.toInt ∧ b.toInt < 32) :
    Int32.ofInt (a.toInt / (Nat.pow 2 b.toInt.toNat : Nat)) = a >>> b := by
  have hshift : (a >>> b).toInt = a.toInt / (Nat.pow 2 b.toInt.toNat : Nat) := by
    show (a >>> b).toBitVec.toInt = _
    rw [Int32.toBitVec_shiftRight, BitVec.sshiftRight_eq', shift_count h, BitVec.toInt_sshiftRight,
      Int.shiftRight_eq_div_pow]
    rfl
  rw [← hshift, Int32.ofInt_toInt]

/-! ## Operators -/

theorem UnaryOp.apply_of_fold? {op : UnaryOp} {v w : Value} (h : op.fold? v = some w) :
    op.apply v = .ok w := by
  fun_cases UnaryOp.fold? op v with
  | case1 a =>
      cases h
      rw [apply, Int32.ofInt_neg, Int32.ofInt_toInt]
  | case2 a => cases h; rfl
  | case3 a => cases h; rfl
  | case4 a => cases h; rw [apply, ofInt_not]
  | case5 => simp [fold?] at h

namespace BinaryOp

/-- A comparison of integers goes by the order of the whole numbers. -/
theorem onInts_of_isComparison {op : BinaryOp} (h : op.isComparison = true) (a b : Int32) :
    op.onInts a b = .ok (.ofBool (op.holds (compare a.toInt b.toInt))) := by
  have hlt := Int.compare_eq_lt (a := a.toInt) (b := b.toInt)
  have heq := Int.compare_eq_eq (a := a.toInt) (b := b.toInt)
  have hgt := Int.compare_eq_gt (a := a.toInt) (b := b.toInt)
  revert hlt heq hgt
  generalize compare a.toInt b.toInt = o
  intro hlt heq hgt
  cases op with
  | eq | ne | lt | le | gt | ge =>
      simp only [onInts, holds, ne_eq, ← Int.not_lt, ← hlt, ← heq, ← hgt]
      cases o <;> rfl
  | _ => cases h

/-- A comparison of strings goes by the order of their characters. -/
theorem onStrings_of_isComparison {op : BinaryOp} (h : op.isComparison = true) (a b : String) :
    op.onStrings a b = .ok (.ofBool (op.holds (compareOfLessAndEq a b))) := by
  have hlt : compareOfLessAndEq a b = .lt ↔ a < b := compareOfLessAndEq_eq_lt
  have heq : compareOfLessAndEq a b = .eq ↔ a = b :=
    compareOfLessAndEq_eq_eq String.le_refl String.not_le
  have hgt : compareOfLessAndEq a b = .gt ↔ b < a :=
    compareOfLessAndEq_eq_gt String.le_antisymm String.le_total String.not_le a b
  revert hlt heq hgt
  generalize compareOfLessAndEq a b = o
  intro hlt heq hgt
  cases op with
  | eq | ne | lt | le | gt | ge =>
      simp only [onStrings, holds, ne_eq, ← hlt, ← heq, ← hgt]
      cases o <;> rfl
  | _ => cases h

/-- What folding makes of integers is what the operator makes of them, if it gets as far as that. -/
theorem onInts_of_foldInt? {op : BinaryOp} {a b : Int32} {v : Value}
    (h : op.foldInt? a b = some v) (hand : op ≠ logAnd) (hor : op ≠ logOr) :
    op.onInts a b = .ok v := by
  have hrange : 0 ≤ b ∧ b < 32 ↔ 0 ≤ b.toInt ∧ b.toInt < 32 := by
    rw [Int32.le_iff_toInt_le, Int32.lt_iff_toInt_lt]; rfl
  have hzero : b = 0 ↔ b.toInt = 0 := by rw [← Int32.toInt_inj]; rfl
  cases op with
  | add => cases h; rw [onInts, Int32.ofInt_add, Int32.ofInt_toInt, Int32.ofInt_toInt]
  | sub => cases h; rw [onInts, Int32.ofInt_sub, Int32.ofInt_toInt, Int32.ofInt_toInt]
  | mul => cases h; rw [onInts, Int32.ofInt_mul, Int32.ofInt_toInt, Int32.ofInt_toInt]
  | bitAnd | bitOr | bitXor => cases h; rfl
  | div =>
      rw [foldInt?, Option.ite_none_left_eq_some, hzero] at h
      rw [onInts, if_neg h.1, ofInt_tdiv_toInt]
      exact congrArg _ (Option.some.inj h.2)
  | mod =>
      rw [foldInt?, Option.ite_none_left_eq_some, hzero] at h
      rw [onInts, if_neg h.1, ofInt_tmod_toInt]
      exact congrArg _ (Option.some.inj h.2)
  | shl =>
      rw [foldInt?, Option.ite_none_right_eq_some, hrange] at h
      rw [onInts, if_pos h.1, ofInt_shl h.1]
      exact congrArg _ (Option.some.inj h.2)
  | shr =>
      rw [foldInt?, Option.ite_none_right_eq_some, hrange] at h
      rw [onInts, if_pos h.1, ofInt_shr h.1]
      exact congrArg _ (Option.some.inj h.2)
  | logAnd => exact absurd rfl hand
  | logOr => exact absurd rfl hor
  | eq | ne | lt | le | gt | ge => cases h; exact onInts_of_isComparison rfl a b

theorem onStrings_of_foldString? {op : BinaryOp} {a b : String} {v : Value}
    (h : op.foldString? a b = some v) : op.onStrings a b = .ok v := by
  cases op with
  | add => cases h; rfl
  | eq | ne | lt | le | gt | ge => cases h; exact onStrings_of_isComparison rfl a b
  | _ => cases h

theorem onFloats_of_foldFloat? (m : Machine) {op : BinaryOp} {a b : Float32} {v : Value}
    (h : op.foldFloat? a b = some v) : op.onFloats m a b = .ok v := by
  cases op with
  | add | sub | mul => cases h; rfl
  | div =>
      rw [foldFloat?, Option.ite_none_left_eq_some] at h
      exact congrArg _ (Option.some.inj h.2)
  | eq | ne | lt | le | gt | ge =>
      rw [foldFloat?, Option.map_eq_some_iff] at h
      obtain ⟨o, ho, rfl⟩ := h
      simp only [onFloats, ho]
      cases o <;> rfl
  | _ => cases h

/-- What folding makes of two literals is what the operator makes of their values. -/
theorem apply_of_fold? (m : Machine) {op : BinaryOp} {a b v : Value} (h : op.fold? a b = some v)
    (hand : op ≠ logAnd) (hor : op ≠ logOr) : op.apply m a b = .ok v := by
  match a, b with
  | .int a, .int b => exact onInts_of_foldInt? h hand hor
  | .string a, .string b => exact onStrings_of_foldString? h
  | .int a, .float b | .float a, .int b | .float a, .float b => exact onFloats_of_foldFloat? m h
  | .int a, .string b | .float a, .string b | .string a, .int b | .string a, .float b => cases h

end BinaryOp

/-! ## Runs of literals -/

namespace Meaning

/-- The meaning of a literal. -/
def literal (v : Value) : Meaning := ofValue (pure (.scalar v))

theorem sequence_cons (x : Meaning) {xs : List Meaning} (h : xs ≠ []) :
    sequence (x :: xs) =
      ⟨do let _ ← x.value; (sequence xs).value, do let _ ← x.value; (sequence xs).place⟩ := by
  obtain ⟨y, ys, rfl⟩ := List.exists_cons_of_ne_nil h
  rfl

/-- Running a literal for its effects does nothing. -/
theorem sequence_literal (v : Value) {xs : List Meaning} (h : xs ≠ []) :
    sequence (literal v :: xs) = sequence xs := by
  rw [sequence_cons _ h]
  rfl

/-- A condition that is a literal selects its branch without further ado. -/
theorem choose_literal (v : Int32) (y o : Meaning) :
    choose (literal (.int v)) y o = if v = 0 then o else y := by
  by_cases hv : v = 0
  · subst hv; rfl
  · have htrue : Run.truth (.scalar (.int v)) = pure true := by
      rw [Run.truth, decide_eq_true hv]
    rw [if_neg hv]
    show Meaning.mk (do if ← Run.truth (.scalar (.int v)) then y.value else o.value)
      (do if ← Run.truth (.scalar (.int v)) then y.place else o.place) = y
    rw [htrue]
    rfl

end Meaning

theorem UnaryOp.run_literal {op : UnaryOp} {v w : Value} (h : op.fold? v = some w) :
    op.run (.literal v) = pure (.scalar w) := by
  have happly := apply_of_fold? h
  cases op with
  | neg | not | bitNot =>
      show (do return .scalar (← Run.ofResult (UnaryOp.apply _ v)) : Run Datum) = _
      rw [happly]
      rfl
  | _ => simp [fold?] at h

/-- Only integers are folded by a logical operator. -/
theorem BinaryOp.ints_of_fold? {op : BinaryOp} {a b v : Value} (h : op.fold? a b = some v)
    (hop : op = logAnd ∨ op = logOr) : ∃ x y, a = .int x ∧ b = .int y ∧ op.foldInt? x y = some v := by
  match a, b with
  | .int x, .int y => exact ⟨x, y, rfl, rfl, h⟩
  | .int _, .float _ | .float _, .int _ | .float _, .float _ | .string _, .string _ =>
      rcases hop with rfl | rfl <;> cases h
  | .int _, .string _ | .float _, .string _ | .string _, .int _ | .string _, .float _ => cases h

theorem BinaryOp.run_literal (m : Machine) {op : BinaryOp} {a b v : Value}
    (h : op.fold? a b = some v) : op.run m (.literal a) (.literal b) = pure (.scalar v) := by
  by_cases hand : op = logAnd
  · obtain ⟨x, y, rfl, rfl, hv⟩ := ints_of_fold? h (.inl hand)
    subst hand
    cases hv
    show (if (decide (x ≠ 0)) = true then pure (.scalar (.ofBool (y ≠ 0)))
      else pure (.scalar (.ofBool false)) : Run Datum) = _
    by_cases hx : x = 0 <;> simp [hx]
  by_cases hor : op = logOr
  · obtain ⟨x, y, rfl, rfl, hv⟩ := ints_of_fold? h (.inr hor)
    subst hor
    cases hv
    show (if (decide (x ≠ 0)) = true then pure (.scalar (.ofBool true))
      else pure (.scalar (.ofBool (y ≠ 0))) : Run Datum) = _
    by_cases hx : x = 0 <;> simp [hx]
  have hrun : op.run m (.literal a) (.literal b) =
      (do return .scalar (← Run.ofResult (op.apply m a b)) : Run Datum) := by
    cases op with
    | logAnd => exact absurd rfl hand
    | logOr => exact absurd rfl hor
    | _ => rfl
  rw [hrun, apply_of_fold? m h hand hor]
  rfl

theorem TypeKind.convert_of_fold? {t : TypeKind} {v w : Value} (h : t.fold? v = some w) :
    t.convert v = .ok w := by
  fun_cases TypeKind.fold? t v with
  | case5 => simp [fold?] at h
  | _ => cases h; rfl

namespace Expr

variable (m : Machine)

theorem meaning_toExpr (n : Note) (v : Value) : (v.toExpr n).meaning m = .literal v := by
  cases v <;> rw [Value.toExpr, meaning] <;> rfl

theorem meaning_of_literal {e : Expr} {v : Value} (h : e.literal? = some v) :
    e.meaning m = .literal v := by
  rw [eq_toExpr h, meaning_toExpr]

theorem meanings_eq_map (es : List Expr) : meanings m es = es.map (·.meaning m) := by
  induction es with
  | nil => rfl
  | cons e es ih => rw [meanings, ih]; rfl

theorem sequence_effective (es : List Expr) :
    Meaning.sequence (meanings m (effective es)) = .sequence (meanings m es) := by
  have hne : ∀ {es : List Expr}, es ≠ [] → meanings m es ≠ [] := by
    intro es h
    rw [meanings_eq_map]
    exact fun h' => h (List.map_eq_nil_iff.mp h')
  fun_induction effective es with
  | case1 => rfl
  | case2 last => rfl
  | case3 e es hes hlit ih =>
      obtain ⟨v, hv⟩ := literal?_of_isLiteral hlit
      rw [ih, meanings, meaning_of_literal m hv, Meaning.sequence_literal v (hne fun h => hes h)]
  | case4 e es hes _ ih =>
      rw [meanings, meanings, Meaning.sequence_cons _ (hne fun h => hes h),
        Meaning.sequence_cons _ (hne (effective_ne_nil fun h => hes h)), ih]

theorem meaning_ofItems (n : Note) (es : List Expr) :
    (ofItems n es).meaning m = .sequence (meanings m es) := by
  rcases ofItems_cases n es with ⟨e, rfl, h⟩ | h
  · rw [h, meanings, meanings]; rfl
  · rw [h, meaning]

/-- Folding changes neither what an expression evaluates to nor the storage it stands for. -/
theorem meaning_fold (e : Expr) : e.fold.meaning m = e.meaning m := by
  have hlist : ∀ es : List Expr, (∀ e ∈ es, e.fold.meaning m = e.meaning m) →
      meanings m (foldList es) = meanings m es := by
    intro es ih
    rw [foldList_eq_map, meanings_eq_map, meanings_eq_map, List.map_map]
    exact List.map_congr_left ih
  induction e using Expr.induct with
  | int | float | string | ident => rw [fold]
  | unary n op e ih =>
      rw [fold]
      refine orKeep_cases (P := fun x => x.meaning m = _) (fun w hw => ?_) ?_
      · obtain ⟨v, hv, hw⟩ := Option.bind_eq_some_iff.mp hw
        rw [meaning_toExpr, meaning, ← ih, meaning_of_literal m hv, UnaryOp.run_literal hw]
        rfl
      · rw [meaning, meaning, ih]
  | binary n op l r ihl ihr =>
      rw [fold]
      refine orKeep_cases (P := fun x => x.meaning m = _) (fun w hw => ?_) ?_
      · obtain ⟨a, ha, hw⟩ := Option.bind_eq_some_iff.mp hw
        obtain ⟨b, hb, hw⟩ := Option.bind_eq_some_iff.mp hw
        rw [meaning_toExpr, meaning, ← ihl, ← ihr, meaning_of_literal m ha, meaning_of_literal m hb,
          BinaryOp.run_literal m hw]
        rfl
      · rw [meaning, meaning, ihl, ihr]
  | cast n t e ih =>
      rw [fold]
      refine orKeep_cases (P := fun x => x.meaning m = _) (fun w hw => ?_) ?_
      · obtain ⟨v, hv, hw⟩ := Option.bind_eq_some_iff.mp hw
        rw [meaning_toExpr, meaning, ← ih, meaning_of_literal m hv]
        show _ = Meaning.ofValue (do return .scalar (← Run.ofResult (t.convert v)))
        rw [TypeKind.convert_of_fold? hw]
        rfl
      · rw [meaning, meaning, ih]
  | ternary n c y o ihc ihy iho =>
      rcases fold_ternary (n := n) (c := c) (y := y) (o := o) with ⟨k, v, hc, h⟩ | h
      · have hlit : (int k v).meaning m = .literal (.int v) := meaning_toExpr m k (.int v)
        rw [h, meaning, ← ihc, hc, hlit, Meaning.choose_literal]
        split
        · exact iho
        · exact ihy
      · rw [h, meaning, meaning, ihc, ihy, iho]
  | assign n op t v iht ihv => rw [fold, meaning, meaning, iht, ihv]
  | call n name args k ih => rw [fold, meaning, meaning, hlist args ih]
  | member n o f p ih => rw [fold, meaning, meaning, ih]
  | comma n es ih => rw [fold, meaning_ofItems, sequence_effective, hlist es ih, meaning]

/-- Evaluating a folded expression ends as evaluating the expression does: with the same datum or the
same trap, the same store, and the same calls and assignments in the same order. -/
theorem evaluate_fold (e : Expr) (s : Store) : e.fold.evaluate m s = e.evaluate m s := by
  rw [evaluate, meaning_fold, evaluate]

end Expr

end Jaf
