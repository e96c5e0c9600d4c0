import Jaf.Proofs.Analysis.ConstantExprs

/-!
# Expressions with nothing left to fold

`Expr.Stuck` looks at one node and says that nothing can be folded there: no operator and no cast has a
value on literal operands, no condition is an integer literal, and a comma list has neither literals before
its last item nor just one item. An expression is reduced if this holds of all its nodes.

A node is folded after its parts, and what takes its place is a literal or a part that has been folded
already. So one walk over the tree leaves a reduced expression (`reduced_fold`). A reduced expression is
what folding does not change (`fold_eq_self_iff`), and a second walk has nothing to do.
-/

namespace Jaf.Expr

/-- Nothing can be folded at this node. -/
def Stuck : Expr → Prop
  | unary _ op e => ∀ a, e.literal? = some a → (op.apply a).toOption = none
  | binary _ op l r => ∀ a b, l.literal? = some a → r.literal? = some b → op.ofValues? a b = none
  | cast _ t e => ∀ a, e.literal? = some a → (t.convert a).toOption = none
  | ternary _ c _ _ => ∀ v, c.literal? ≠ some (.int v)
  | comma _ es => es.length ≠ 1 ∧ ∀ e ∈ es.dropLast, e.isLiteral = false
  | _ => True

/-- Nothing can be folded anywhere in the expression. -/
def Reduced (e : Expr) : Prop := e.Each Stuck

/-! ## Nodes -/

/-- Folding leaves an operator as it stands just if nothing can be folded there. -/
theorem stuck_unary {n : Note} {op : UnaryOp} {e : Expr} :
    (unary n op e).Stuck ↔ (do op.fold? (← e.literal?)) = none := by
  cases hlit : e.literal? with
  | none => simp [Stuck, hlit]
  | some a =>
      show _ ↔ op.fold? a = none
      rw [op.fold?_eq]
      simp [Stuck, hlit]

theorem stuck_binary {n : Note} {op : BinaryOp} {l r : Expr} :
    (binary n op l r).Stuck ↔ (do op.fold? (← l.literal?) (← r.literal?)) = none := by
  cases hl : l.literal? with
  | none => simp [Stuck, hl]
  | some a =>
      cases hr : r.literal? with
      | none => simp [Stuck, hr]
      | some b =>
          show _ ↔ op.fold? a b = none
          rw [op.fold?_eq]
          simp [Stuck, hl, hr]

theorem stuck_cast {n : Note} {t : TypeKind} {e : Expr} :
    (cast n t e).Stuck ↔ (do t.fold? (← e.literal?)) = none := by
  cases hlit : e.literal? with
  | none => simp [Stuck, hlit]
  | some a =>
      show _ ↔ t.fold? a = none
      rw [t.fold?_eq]
      simp [Stuck, hlit]

/-! ## Comma lists -/

/-- Once the literals before the last item have been dropped, none is left there. -/
theorem dropLast_effective (es : List Expr) : ∀ e ∈ (effective es).dropLast, e.isLiteral = false := by
  fun_induction effective es with
  | case1 => exact fun e he => absurd he List.not_mem_nil
  | case2 last => exact fun e he => absurd he List.not_mem_nil
  | case3 e es _ _ ih => exact ih
  | case4 e es hne hlit ih =>
      rw [List.dropLast_cons_of_ne_nil (effective_ne_nil fun h => hne h)]
      exact List.forall_mem_cons.mpr ⟨Bool.eq_false_iff.mpr hlit, ih⟩

theorem effective_of_dropLast {es : List Expr} (h : ∀ e ∈ es.dropLast, e.isLiteral = false) :
    effective es = es := by
  fun_induction effective es with
  | case1 => rfl
  | case2 last => rfl
  | case3 e es hne hlit ih =>
      rw [List.dropLast_cons_of_ne_nil fun h => hne h] at h
      exact absurd hlit (Bool.eq_false_iff.mp (List.forall_mem_cons.mp h).1)
  | case4 e es hne hlit ih =>
      rw [List.dropLast_cons_of_ne_nil fun h => hne h] at h
      rw [ih (List.forall_mem_cons.mp h).2]

theorem ofItems_of_length_ne (n : Note) {es : List Expr} (h : es.length ≠ 1) : ofItems n es = comma n es := by
  rcases ofItems_cases n es with ⟨e, rfl, _⟩ | hcomma
  · exact absurd rfl h
  · exact hcomma

/-- A comma list of reduced items is reduced, once only those that matter are left. -/
theorem reduced_ofItems (n : Note) {es : List Expr} (h : ∀ e ∈ es, e.Reduced) :
    (ofItems n (effective es)).Reduced := by
  have hitems : ∀ e ∈ effective es, e.Reduced := fun e he => h e ((effective_sublist _).subset he)
  by_cases hlength : (effective es).length = 1
  · obtain ⟨e, he⟩ := List.length_eq_one_iff.mp hlength
    rw [he] at hitems ⊢
    exact hitems e (List.mem_singleton_self e)
  · rw [ofItems_of_length_ne n hlength]
    exact each_comma.mpr ⟨⟨hlength, dropLast_effective es⟩, hitems⟩

/-! ## One walk is enough -/

theorem reduced_orKeep {n : Note} {value : Option Value} {kept : Expr} (h : value = none → kept.Reduced) :
    (orKeep n value kept).Reduced := by
  cases value with
  | none => exact h rfl
  | some v => cases v <;> simp [orKeep, Value.toExpr, Reduced, Stuck]

/-- Folding leaves nothing that can be folded, whatever the tree. -/
theorem reduced_fold (e : Expr) : e.fold.Reduced := by
  induction e using induct with
  | int | float | string | ident => rw [fold]; simp [Reduced, Stuck]
  | unary n op e ih =>
      rw [fold]
      exact reduced_orKeep fun hnone => each_unary.mpr ⟨stuck_unary.mpr hnone, ih⟩
  | binary n op l r ihl ihr =>
      rw [fold]
      exact reduced_orKeep fun hnone => each_binary.mpr ⟨stuck_binary.mpr hnone, ihl, ihr⟩
  | cast n t e ih =>
      rw [fold]
      exact reduced_orKeep fun hnone => each_cast.mpr ⟨stuck_cast.mpr hnone, ih⟩
  | ternary n c y o ihc ihy iho =>
      rw [fold]
      cases hc : c.fold with
      | int m v =>
          -- the branch that is put in its place has been folded
          dsimp only
          split
          · exact iho
          · exact ihy
      | _ =>
          rw [hc] at ihc
          exact each_ternary.mpr ⟨fun v hv => (by cases hv), ihc, ihy, iho⟩
  | comma n es ih =>
      rw [fold, foldList_eq_map]
      refine reduced_ofItems n fun x hx => ?_
      obtain ⟨e, he, rfl⟩ := List.mem_map.mp hx
      exact ih e he
  | assign n op t v iht ihv =>
      rw [fold]
      exact each_assign.mpr ⟨trivial, iht, ihv⟩
  | call n name args k ih =>
      rw [fold, foldList_eq_map]
      refine each_call.mpr ⟨trivial, fun x hx => ?_⟩
      obtain ⟨e, he, rfl⟩ := List.mem_map.mp hx
      exact ih e he
  | member n o f p ih =>
      rw [fold]
      exact each_member.mpr ⟨trivial, ih⟩

/-- An expression in which nothing can be folded is not changed by folding. -/
theorem fold_of_reduced {e : Expr} (h : e.Reduced) : e.fold = e := by
  have hmap : ∀ {es : List Expr}, (∀ e ∈ es, e.fold = e) → foldList es = es := by
    intro es hes
    rw [foldList_eq_map, List.map_congr_left hes, List.map_id']
  induction e using induct with
  | int | float | string | ident => rw [fold]
  | unary n op e ih =>
      obtain ⟨hstuck, he⟩ := each_unary.mp h
      rw [fold, ih he, stuck_unary.mp hstuck]
      rfl
  | binary n op l r ihl ihr =>
      obtain ⟨hstuck, hl, hr⟩ := each_binary.mp h
      rw [fold, ihl hl, ihr hr, stuck_binary.mp hstuck]
      rfl
  | cast n t e ih =>
      obtain ⟨hstuck, he⟩ := each_cast.mp h
      rw [fold, ih he, stuck_cast.mp hstuck]
      rfl
  | ternary n c y o ihc ihy iho =>
      obtain ⟨hstuck, hc, hy, ho⟩ := each_ternary.mp h
      rw [fold, ihc hc, ihy hy, iho ho]
      cases c with
      | int m v => exact absurd rfl (hstuck v)
      | _ => rfl
  | comma n es ih =>
      obtain ⟨⟨hlength, hdrop⟩, hes⟩ := each_comma.mp h
      rw [fold, hmap fun e he => ih e he (hes e he), effective_of_dropLast hdrop,
        ofItems_of_length_ne n hlength]
  | assign n op t v iht ihv =>
      obtain ⟨_, ht, hv⟩ := each_assign.mp h
      rw [fold, iht ht, ihv hv]
  | call n name args k ih =>
      obtain ⟨_, hargs⟩ := each_call.mp h
      rw [fold, hmap fun e he => ih e he (hargs e he)]
  | member n o f p ih =>
      obtain ⟨_, ho⟩ := each_member.mp h
      rw [fold, ih ho]

theorem fold_eq_self_iff {e : Expr} : e.fold = e ↔ e.Reduced :=
  ⟨fun h => h ▸ reduced_fold e, fold_of_reduced⟩

/-- Folding a second time changes nothing. -/
theorem fold_fold (e : Expr) : e.fold.fold = e.fold := fold_of_reduced (reduced_fold e)

/--
**Folding is done after one walk.** It leaves an expression with nothing to fold in it, and these are just the
expressions that it does not change. So folding again changes nothing, neither a node nor a place nor a type.
-/
theorem fold_idempotent (e : Expr) :
    e.fold.fold = e.fold ∧ e.fold.Reduced ∧ (e.fold = e ↔ e.Reduced) :=
  ⟨fold_fold e, reduced_fold e, fold_eq_self_iff⟩

end Jaf.Expr
