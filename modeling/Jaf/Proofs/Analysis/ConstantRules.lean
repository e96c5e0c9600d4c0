import Jaf.Proofs.Analysis.ConstantExprs

/-!
# What a constant expression denotes, rule by rule

The rules here say which expressions have a value before anything runs, and which value that is. They do
not say in what order or how to find it. Operators are given by their meaning on whole numbers: an integer
result is the exact one brought back into 32 bits with a sign, division truncates, and where an operator
has no value, as on a divisor 0, no rule applies. Of a conditional only the branch that is selected has to
have a value, and of a comma list every item does.

Folding leaves a literal for exactly the expressions to which the rules give a value, and it is the literal
of that value (`Expr.fold_finds_constants`). Neither types nor places play a part in this.
-/

namespace Jaf

theorem ok_of_toOption {ε α : Type} {r : Except ε α} {a : α} (h : r.toOption = some a) : r = .ok a := by
  cases r with
  | error e => cases h
  | ok b => cases h; rfl

namespace Expr

/-- The value of an expression that can be known before anything runs. -/
inductive Denotes : Expr → Value → Prop
  | int (n : Note) (v : Int32) : Denotes (int n v) (.int v)
  | float (n : Note) (v : Float32) : Denotes (float n v) (.float v)
  | string (n : Note) (v : String) : Denotes (string n v) (.string v)
  | unary {n : Note} {op : UnaryOp} {e : Expr} {a v : Value} : Denotes e a → op.apply a = .ok v →
      Denotes (unary n op e) v
  | binary {n : Note} {op : BinaryOp} {l r : Expr} {a b v : Value} : Denotes l a → Denotes r b →
      op.ofValues? a b = some v → Denotes (binary n op l r) v
  | cast {n : Note} {t : TypeKind} {e : Expr} {a v : Value} : Denotes e a → t.convert a = .ok v →
      Denotes (cast n t e) v
  | yes {n : Note} {c y o : Expr} {k : Int32} {v : Value} : Denotes c (.int k) → k ≠ 0 → Denotes y v →
      Denotes (ternary n c y o) v
  | no {n : Note} {c y o : Expr} {v : Value} : Denotes c (.int 0) → Denotes o v →
      Denotes (ternary n c y o) v
  | last {n : Note} {e : Expr} {v : Value} : Denotes e v → Denotes (comma n [e]) v
  | item {n : Note} {e : Expr} {es : List Expr} {a v : Value} : Denotes e a → Denotes (comma n es) v →
      Denotes (comma n (e :: es)) v

/-! ## The rules and the evaluator -/

/-- The evaluator finds every value that the rules give. -/
theorem Denotes.constant? {e : Expr} {v : Value} (h : e.Denotes v) : e.constant? = some v := by
  induction h with
  | int | float | string => rfl
  | unary _ hv ih => rw [Expr.constant?, ih]; exact congrArg Except.toOption hv
  | binary _ _ hv ihl ihr => rw [Expr.constant?, ihl, ihr]; exact hv
  | cast _ hv ih => rw [Expr.constant?, ih]; exact congrArg Except.toOption hv
  | yes _ hk _ ihc ihy => rw [Expr.constant?, ihc]; exact (if_neg hk).trans ihy
  | no _ _ ihc iho => rw [Expr.constant?, ihc]; exact (if_pos rfl).trans iho
  | last _ ih => rw [Expr.constant?, lastConstant?, ih]
  | @item n e es a v _ _ ih ihs =>
      rw [Expr.constant?] at ihs
      have hes : es ≠ [] := by
        rintro rfl
        cases ihs
      rw [Expr.constant?, lastConstant?_cons e hes, ih]
      exact ihs

/-- A comma list denotes what its last item does, if every item denotes something. -/
theorem denotes_comma {n : Note} {es : List Expr} {v : Value}
    (hes : ∀ e ∈ es, ∀ w, e.constant? = some w → e.Denotes w) (h : lastConstant? es = some v) :
    (comma n es).Denotes v := by
  induction es with
  | nil => cases h
  | cons e es ih =>
      obtain ⟨he, hes⟩ := List.forall_mem_cons.mp hes
      cases es with
      | nil => exact .last (he v h)
      | cons x xs =>
          rw [lastConstant?_cons e (List.cons_ne_nil x xs)] at h
          obtain ⟨a, ha, hrest⟩ := Option.bind_eq_some_iff.mp h
          exact .item (he a ha) (ih hes hrest)

/-- Every value that the evaluator finds follows from the rules. -/
theorem denotes_of_constant? {e : Expr} {v : Value} (h : e.constant? = some v) : e.Denotes v := by
  induction e using induct generalizing v with
  | int n k => cases h; exact .int n k
  | float n k => cases h; exact .float n k
  | string n k => cases h; exact .string n k
  | unary n op e ih =>
      rw [Expr.constant?] at h
      obtain ⟨a, ha, hv⟩ := Option.bind_eq_some_iff.mp h
      exact .unary (ih ha) (ok_of_toOption hv)
  | binary n op l r ihl ihr =>
      rw [Expr.constant?] at h
      obtain ⟨a, ha, h⟩ := Option.bind_eq_some_iff.mp h
      obtain ⟨b, hb, hv⟩ := Option.bind_eq_some_iff.mp h
      exact .binary (ihl ha) (ihr hb) hv
  | cast n t e ih =>
      rw [Expr.constant?] at h
      obtain ⟨a, ha, hv⟩ := Option.bind_eq_some_iff.mp h
      exact .cast (ih ha) (ok_of_toOption hv)
  | ternary n c y o ihc ihy iho =>
      rw [Expr.constant?] at h
      split at h
      next k hk =>
        split at h
        next hzero => subst hzero; exact .no (ihc hk) (iho h)
        next hone => exact .yes (ihc hk) hone (ihy h)
      next => cases h
  | comma n es ih =>
      rw [Expr.constant?] at h
      exact denotes_comma (fun e he w hw => ih e he hw) h
  | ident | assign | call | member => cases h

theorem denotes_iff {e : Expr} {v : Value} : e.Denotes v ↔ e.fold.literal? = some v := by
  rw [literal?_fold]
  exact ⟨Denotes.constant?, denotes_of_constant?⟩

/-! ## The main theorem -/

/--
**Folding finds every constant, and its value.** What is left of an expression is a literal just if the rules
give the expression a value, and then it is the literal of that value. This holds of every tree.
-/
theorem fold_finds_constants (e : Expr) :
    (e.fold.isLiteral = true ↔ ∃ v, e.Denotes v) ∧
      ∀ v, e.Denotes v ↔ e.fold = v.toExpr e.fold.note := by
  have hvalue : ∀ v, e.Denotes v ↔ e.fold = v.toExpr e.fold.note := by
    refine fun v => ⟨fun h => eq_toExpr (denotes_iff.mp h), fun h => denotes_iff.mpr ?_⟩
    rw [h, literal?_toExpr]
  refine ⟨⟨fun h => ?_, fun h => ?_⟩, hvalue⟩
  · obtain ⟨v, hv⟩ := literal?_of_isLiteral h
    exact ⟨v, denotes_iff.mpr hv⟩
  · obtain ⟨v, hv⟩ := h
    rw [(hvalue v).mp hv]
    cases v <;> rfl

/-- The least integer is its own quotient by -1, and the remainder is 0. -/
example : BinaryOp.div.ofValues? (.int Int32.minValue) (.int (-1)) = some (.int Int32.minValue) ∧
    BinaryOp.mod.ofValues? (.int Int32.minValue) (.int (-1)) = some (.int 0) := by decide

end Expr

end Jaf
