import Jaf.Analysis.Fold

/-!
# The shapes folding can leave

Folding a node either replaces it by a literal, or puts one of its parts in its place, or keeps it
around its folded parts. The lemmas here say which of these can happen to which node, so that what is
proved about folding further on never has to open its definition.
-/

namespace Jaf.Expr

/-! ## Literals -/

@[simp] theorem note_toExpr (n : Note) (v : Value) : (v.toExpr n).note = n := by cases v <;> rfl

@[simp] theorem type?_toExpr (n : Note) (v : Value) : (v.toExpr n).type? = n.type := by
  rw [type?, note_toExpr]

/-- A literal expression is written by its value and its note. -/
theorem eq_toExpr {e : Expr} {v : Value} (h : e.literal? = some v) : e = v.toExpr e.note := by
  cases e with
  | int | float | string => cases h; rfl
  | _ => cases h

theorem literal?_of_isLiteral {e : Expr} (h : e.isLiteral = true) : ∃ v, e.literal? = some v := by
  cases e with
  | int | float | string => exact ⟨_, rfl⟩
  | _ => cases h

/-! ## Operators and casts -/

/-- An operator is replaced by its value, if it has one, and else stays. -/
theorem orKeep_cases {P : Expr → Prop} {n : Note} {value : Option Value} {kept : Expr}
    (literal : ∀ v, value = some v → P (v.toExpr n)) (keep : P kept) : P (orKeep n value kept) := by
  cases value with
  | none => exact keep
  | some v => exact literal v rfl

/-! ## Conditionals -/

/-- A conditional becomes the branch that a literal condition selects, and else stays. -/
theorem fold_ternary {n : Note} {c y o : Expr} :
    (∃ m v, c.fold = int m v ∧ (ternary n c y o).fold = if v = 0 then o.fold else y.fold) ∨
      (ternary n c y o).fold = ternary n c.fold y.fold o.fold := by
  rw [fold]
  cases c.fold with
  | int m v => exact .inl ⟨m, v, rfl, rfl⟩
  | _ => exact .inr rfl

/-! ## Comma lists -/

theorem foldList_eq_map (es : List Expr) : foldList es = es.map fold := by
  induction es with
  | nil => rfl
  | cons e es ih => rw [foldList, ih]; rfl

/-- Only literals are dropped from a comma list. -/
theorem effective_sublist (es : List Expr) : (effective es).Sublist es := by
  fun_induction effective es with
  | case1 => exact .slnil
  | case2 last => exact List.Sublist.refl [last]
  | case3 e es _ _ ih => exact ih.cons e
  | case4 e es _ _ ih => exact ih.cons_cons e

theorem effective_ne_nil {es : List Expr} (h : es ≠ []) : effective es ≠ [] := by
  fun_induction effective es with
  | case1 => exact h
  | case2 last => exact List.cons_ne_nil last []
  | case3 e es hne _ ih => exact ih fun h => hne h
  | case4 e es => exact List.cons_ne_nil e _

/-- The last item of a comma list is never dropped. -/
theorem getLast?_effective (es : List Expr) : (effective es).getLast? = es.getLast? := by
  have step : ∀ (e : Expr) {es : List Expr}, es ≠ [] → (e :: es).getLast? = es.getLast? := by
    intro e es h
    obtain ⟨x, xs, rfl⟩ := List.exists_cons_of_ne_nil h
    exact List.getLast?_cons_cons
  fun_induction effective es with
  | case1 => rfl
  | case2 last => rfl
  | case3 e es hne _ ih =>
      rw [ih, step e (fun h => hne h)]
  | case4 e es hne _ ih =>
      have hes : es ≠ [] := fun h => hne h
      rw [step e (effective_ne_nil hes), ih, step e hes]

/-- A comma list with one item left becomes that item, and else stays. -/
theorem ofItems_cases (n : Note) (es : List Expr) :
    (∃ e, es = [e] ∧ ofItems n es = e) ∨ ofItems n es = comma n es := by
  match es with
  | [] => exact .inr rfl
  | [e] => exact .inl ⟨e, rfl, rfl⟩
  | _ :: _ :: _ => exact .inr rfl

/-! ## Storage -/

/-- Folding never turns storage into something that is none. -/
theorem isPlace_fold {e : Expr} (h : e.isPlace = true) : e.fold.isPlace = true := by
  cases e with
  | ident | member => rw [fold]; rfl
  | _ => cases h

end Jaf.Expr
