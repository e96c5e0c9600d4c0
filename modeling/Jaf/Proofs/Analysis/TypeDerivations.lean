import Jaf.Analysis.Infer
import Jaf.Proofs.Analysis.StepOutcomes
import Jaf.Proofs.Tree.ExprNodes

/-!
# Taking derivations apart

A derivation of a type that succeeds has derived types for all parts of the expression and has found
the operator, the function or the member in order. There is an equation for each form of expression that
says exactly this, with the trees that the parts are left as, so that no proof about derivations has to
look into `Expr.infer` again. Lists of expressions are derived item by item, and `Expr.Infers` says so.
-/

namespace Jaf

/-! ## Operators -/

/-- Whether a unary operator takes an operand of type `t`; a step needs storage to work on. -/
def UnaryOp.accepts : UnaryOp → (place : Bool) → ValueType → Bool
  | neg, _, t => t.isNumeric
  | not, _, t | bitNot, _, t => t = .int
  | preInc, place, t | preDec, place, t | postInc, place, t | postDec, place, t => place && t = .int

/-- The type of what an assignment stores, if the operator combined with it takes its operands. -/
def AssignOp.type? (op : AssignOp) (target value : ValueType) : Option ValueType :=
  match op.binary? with
  | some b => b.type? target value
  | none => some value

theorem UnaryOp.typed_eq_ok {op : UnaryOp} {e : Expr} {s t : ValueType} {p : Span} :
    op.typed e s p = .ok t ↔ op.accepts e.isPlace s = true ∧ s = t := by
  cases op <;> simp only [typed, accepts] <;> (repeat' split) <;> simp_all

theorem BinaryOp.typed_eq_ok {op : BinaryOp} {l r t : ValueType} {p : Span} :
    op.typed l r p = .ok t ↔ op.type? l r = some t := by
  unfold typed
  cases op.type? l r <;> simp

theorem AssignOp.typed_eq_ok {op : AssignOp} {target value t : ValueType} {p q : Span} :
    op.typed target value p q = .ok t ↔ op.type? target value = some target ∧ target = t := by
  -- what is stored decides alone, wherever it comes from
  have stored : ∀ s : ValueType, (if s = target then Except.ok target
      else Except.error (⟨q, .mismatch target s⟩ : SemanticError)) = .ok t ↔
        some s = some target ∧ target = t := by
    intro s
    by_cases h : s = target
    · simp [h]
    · simp [h]
  unfold typed type?
  cases op.binary? with
  | none => exact stored value
  | some b =>
      simp only [BinaryOp.typed]
      cases b.type? target value with
      | none => simp [bind, Except.bind]
      | some s => exact stored s

namespace Expr

variable {env : Lookup} {n : Note} {x : Expr} {t : ValueType}

theorem settle_eq_ok {build : Note → Expr} {type : Except SemanticError ValueType} :
    settle n build type = ⟨x, .ok t⟩ ↔ type = .ok t ∧ build (n.typed t) = x := by
  unfold settle
  cases type with
  | error err => simp
  | ok s =>
      constructor
      · intro h; cases h; exact ⟨rfl, rfl⟩
      · rintro ⟨h, h'⟩; cases h; simp [h']

theorem settleMember_eq_ok {o : Expr} {field : String} {p : Option Nat} {s : ValueType} :
    settleMember env n o field p s = ⟨x, .ok t⟩ ↔
      ∃ k st i m, s = .struct k ∧ env.struct? k = some st ∧ st.member? field = some (i, m) ∧
        m.type.valueType = t ∧ member (n.typed t) o field (some i) = x := by
  unfold settleMember
  cases s with
  | void | int | float | string => simp
  | struct k =>
      dsimp only
      cases hs : env.struct? k with
      | none => simp [hs]
      | some st =>
          dsimp only
          cases hm : st.member? field with
          | none => simp [hs, hm]
          | some im =>
              obtain ⟨i, m⟩ := im
              simp only [Outcome.done_eq_ok]
              constructor
              · rintro ⟨hx, ht⟩
                exact ⟨k, st, i, m, rfl, hs, hm, ht, by rw [← ht]; exact hx⟩
              · rintro ⟨k', st', i', m', hk, hs', hm', ht, hx⟩
                cases hk
                rw [hs] at hs'; cases hs'
                rw [hm] at hm'; cases hm'
                exact ⟨by rw [ht]; exact hx, ht⟩

theorem require_eq_ok {e : Expr} : e.require t = .ok () ↔ e.type?.getD .void = t := by
  unfold require
  by_cases h : e.type?.getD .void = t
  · simp [h]
  · simp [h]

/-! ## Single expressions -/

-- every lemma here starts from an equation of `infer`, so they are made once, in advance
attribute [local simp] infer

theorem infer_ident_eq_ok {name : String} {b : Option VarRef} :
    (ident n name b).infer env = ⟨x, .ok t⟩ ↔
      ∃ ref, env.var? name = some (ref, t) ∧ ident (n.typed t) name (some ref) = x := by
  rw [infer]
  cases hv : env.var? name with
  | none => simp
  | some found =>
      obtain ⟨ref, s⟩ := found
      simp only [Outcome.done_eq_ok]
      constructor
      · rintro ⟨rfl, rfl⟩; exact ⟨ref, rfl, rfl⟩
      · rintro ⟨ref', h, hx⟩; cases h; exact ⟨hx, rfl⟩

theorem infer_unary_eq_ok {op : UnaryOp} {e : Expr} :
    (unary n op e).infer env = ⟨x, .ok t⟩ ↔
      ∃ e', e.infer env = ⟨e', .ok t⟩ ∧ op.accepts e'.isPlace t = true ∧
        unary (n.typed t) op e' = x := by
  simp only [infer, Outcome.andThen_eq_ok, settle_eq_ok, UnaryOp.typed_eq_ok]
  constructor
  · rintro ⟨e', s, he, ⟨hop, rfl⟩, hx⟩; exact ⟨e', he, hop, hx⟩
  · rintro ⟨e', he, hop, hx⟩; exact ⟨e', t, he, ⟨hop, rfl⟩, hx⟩

theorem infer_binary_eq_ok {op : BinaryOp} {l r : Expr} :
    (binary n op l r).infer env = ⟨x, .ok t⟩ ↔
      ∃ l' lt r' rt, l.infer env = ⟨l', .ok lt⟩ ∧ r.infer env = ⟨r', .ok rt⟩ ∧
        op.type? lt rt = some t ∧ binary (n.typed t) op l' r' = x := by
  simp only [infer, Outcome.andThen_eq_ok, settle_eq_ok, BinaryOp.typed_eq_ok]
  constructor
  · rintro ⟨l', lt, hl, r', rt, hr, hop, hx⟩; exact ⟨l', lt, r', rt, hl, hr, hop, hx⟩
  · rintro ⟨l', lt, r', rt, hl, hr, hop, hx⟩; exact ⟨l', lt, hl, r', rt, hr, hop, hx⟩

theorem infer_assign_eq_ok {op : AssignOp} {target value : Expr} :
    (assign n op target value).infer env = ⟨x, .ok t⟩ ↔
      ∃ a v s, target.infer env = ⟨a, .ok t⟩ ∧ a.isPlace = true ∧ value.infer env = ⟨v, .ok s⟩ ∧
        op.type? t s = some t ∧ assign (n.typed t) op a v = x := by
  simp only [infer, Outcome.andThen_eq_ok]
  constructor
  · rintro ⟨a, t', ha, h⟩
    by_cases hp : a.isPlace = true
    · simp only [hp, if_true, Outcome.andThen_eq_ok, settle_eq_ok, AssignOp.typed_eq_ok] at h
      obtain ⟨v, s, hv, ⟨hop, rfl⟩, hx⟩ := h
      exact ⟨a, v, s, ha, hp, hv, hop, hx⟩
    · simp [hp] at h
  · rintro ⟨a, v, s, ha, hp, hv, hop, hx⟩
    refine ⟨a, t, ha, ?_⟩
    simp only [hp, if_true, Outcome.andThen_eq_ok, settle_eq_ok, AssignOp.typed_eq_ok]
    exact ⟨v, s, hv, ⟨hop, trivial⟩, hx⟩

theorem infer_ternary_eq_ok {c y o : Expr} :
    (ternary n c y o).infer env = ⟨x, .ok t⟩ ↔
      ∃ c' y' o', c.infer env = ⟨c', .ok .int⟩ ∧ y.infer env = ⟨y', .ok t⟩ ∧
        o.infer env = ⟨o', .ok t⟩ ∧ ternary (n.typed t) c' y' o' = x := by
  simp only [infer, Outcome.andThen_eq_ok]
  constructor
  · rintro ⟨c', ct, hc, h⟩
    by_cases hct : ct = .int
    · simp only [hct, if_true, Outcome.andThen_eq_ok, settle_eq_ok] at h
      obtain ⟨y', yt, hy, o', ot, ho, hty, hx⟩ := h
      by_cases heq : yt = ot
      · simp only [heq, if_true, Except.ok.injEq] at hty
        rw [hct] at hc
        rw [heq, hty] at hy
        rw [hty] at ho
        exact ⟨c', y', o', hc, hy, ho, hx⟩
      · simp [heq] at hty
    · simp [hct] at h
  · rintro ⟨c', y', o', hc, hy, ho, hx⟩
    refine ⟨c', .int, hc, ?_⟩
    simp only [if_true, Outcome.andThen_eq_ok, settle_eq_ok]
    exact ⟨y', t, hy, o', t, ho, by simp, hx⟩

theorem infer_cast_eq_ok {target : TypeKind} {e : Expr} :
    (cast n target e).infer env = ⟨x, .ok t⟩ ↔
      ∃ e' s, e.infer env = ⟨e', .ok s⟩ ∧ s.isNumeric = true ∧ target.castType? = some t ∧
        cast (n.typed t) target e' = x := by
  simp only [infer, Outcome.andThen_eq_ok]
  constructor
  · rintro ⟨e', s, he, h⟩
    by_cases hs : s.isNumeric = true
    · simp only [hs, if_true, settle_eq_ok] at h
      obtain ⟨hty, hx⟩ := h
      refine ⟨e', s, he, hs, ?_, hx⟩
      cases hc : target.castType? with
      | none => rw [hc] at hty; simp at hty
      | some u => rw [hc] at hty; simpa using hty
    · simp [hs] at h
  · rintro ⟨e', s, he, hs, hc, hx⟩
    refine ⟨e', s, he, ?_⟩
    simp only [hs, if_true, hc, settle_eq_ok]
    exact ⟨trivial, hx⟩

theorem infer_member_eq_ok {o : Expr} {field : String} {p : Option Nat} :
    (member n o field p).infer env = ⟨x, .ok t⟩ ↔
      ∃ o' k st i m, o.infer env = ⟨o', .ok (.struct k)⟩ ∧ env.struct? k = some st ∧
        st.member? field = some (i, m) ∧ m.type.valueType = t ∧
        member (n.typed t) o' field (some i) = x := by
  simp only [infer, Outcome.andThen_eq_ok, settleMember_eq_ok]
  constructor
  · rintro ⟨o', s, ho, k, st, i, m, rfl, hst, hm, ht, hx⟩
    exact ⟨o', k, st, i, m, ho, hst, hm, ht, hx⟩
  · rintro ⟨o', k, st, i, m, ho, hst, hm, ht, hx⟩
    exact ⟨o', .struct k, ho, k, st, i, m, rfl, hst, hm, ht, hx⟩

/-! ## Lists of expressions -/

/-- The types of some expressions are derived one by one, leaving the trees `es'`. -/
inductive Infers (env : Lookup) : (es es' : List Expr) → (ts : List ValueType) → Prop
  | nil : Infers env [] [] []
  | cons {e e' : Expr} {t : ValueType} {es es' : List Expr} {ts : List ValueType} :
      e.infer env = ⟨e', .ok t⟩ → Infers env es es' ts → Infers env (e :: es) (e' :: es') (t :: ts)

theorem Infers.length_eq {es es' : List Expr} {ts : List ValueType} (h : Infers env es es' ts) :
    es.length = ts.length := by
  induction h with
  | nil => rfl
  | cons _ _ ih => simp [ih]

theorem inferItems_eq_ok {es es' : List Expr} {last : ValueType} :
    inferItems env es last = ⟨es', .ok t⟩ ↔
      ∃ ts, Infers env es es' ts ∧ ts.getLast?.getD last = t := by
  induction es generalizing es' last with
  | nil =>
      rw [inferItems, Outcome.done_eq_ok]
      constructor
      · rintro ⟨rfl, rfl⟩; exact ⟨[], .nil, rfl⟩
      · rintro ⟨ts, h, rfl⟩; cases h; exact ⟨rfl, rfl⟩
  | cons e es ih =>
      simp only [inferItems, Outcome.andThen_eq_ok, Outcome.map_eq_ok, ih]
      -- an item in front of others only decides the type if there are no others
      have hlast : ∀ (s : ValueType) (ts : List ValueType),
          (s :: ts).getLast?.getD last = ts.getLast?.getD s := by
        intro s ts
        cases ts <;> simp [List.getLast?_cons]
      constructor
      · rintro ⟨e', s, he, es'', ⟨ts, hes, ht⟩, rfl⟩
        exact ⟨s :: ts, .cons he hes, (hlast s ts).trans ht⟩
      · rintro ⟨ts, h, ht⟩
        cases h with
        | @cons _ e' s _ es'' ts he hes =>
            exact ⟨e', s, he, es'', ⟨ts, hes, (hlast s ts).symm.trans ht⟩, rfl⟩

theorem infer_comma_eq_ok {es : List Expr} :
    (comma n es).infer env = ⟨x, .ok t⟩ ↔
      ∃ es' ts, Infers env es es' ts ∧ ts.getLast?.getD .void = t ∧ comma (n.typed t) es' = x := by
  simp only [infer, Outcome.andThen_eq_ok, Outcome.done_eq_ok, inferItems_eq_ok]
  constructor
  · rintro ⟨es', s, ⟨ts, hes, ht⟩, hx, rfl⟩; exact ⟨es', ts, hes, ht, hx⟩
  · rintro ⟨es', ts, hes, ht, hx⟩; exact ⟨es', t, ⟨ts, hes, ht⟩, hx, rfl⟩

/-- What is derived for a call, its arguments apart. -/
theorem infer_call_iff_inferArgs {name : String} {args : List Expr} {k : Option Nat} :
    (call n name args k).infer env = ⟨x, .ok t⟩ ↔
      ∃ no f args', env.function? name = some (no, f) ∧
        args.length = (f.params.map (·.type.valueType)).length ∧
        inferArgs env args (f.params.map (·.type.valueType)) = ⟨args', .ok ()⟩ ∧
        f.result.valueType = t ∧ call (n.typed t) name args' (some no) = x := by
  rw [infer]
  cases hf : env.function? name with
  | none => simp
  | some found =>
      obtain ⟨no, f⟩ := found
      dsimp only
      constructor
      · intro h
        split at h
        next hlen =>
          obtain ⟨args', u, hargs, h⟩ := Outcome.andThen_eq_ok.mp h
          obtain ⟨hx, ht⟩ := Outcome.done_eq_ok.mp h
          exact ⟨no, f, args', rfl, hlen, hargs, ht, by rw [← ht]; exact hx⟩
        next => simp at h
      · rintro ⟨no', f', args', h, hlen, hargs, ht, hx⟩
        cases h
        rw [if_pos hlen, Outcome.andThen_eq_ok]
        exact ⟨args', (), hargs, Outcome.done_eq_ok.mpr ⟨by rw [ht]; exact hx, ht⟩⟩

/-- The root of what a derivation leaves carries the derived type. -/
theorem type?_of_infer {e : Expr} (h : e.infer env = ⟨x, .ok t⟩) : x.type? = some t := by
  cases e with
  | int | float | string =>
      rw [infer, Outcome.done_eq_ok] at h
      obtain ⟨rfl, rfl⟩ := h
      rfl
  | ident => obtain ⟨_, _, rfl⟩ := infer_ident_eq_ok.mp h; rfl
  | unary => obtain ⟨_, _, _, rfl⟩ := infer_unary_eq_ok.mp h; rfl
  | binary => obtain ⟨_, _, _, _, _, _, _, rfl⟩ := infer_binary_eq_ok.mp h; rfl
  | assign => obtain ⟨_, _, _, _, _, _, _, rfl⟩ := infer_assign_eq_ok.mp h; rfl
  | ternary => obtain ⟨_, _, _, _, _, _, rfl⟩ := infer_ternary_eq_ok.mp h; rfl
  | call => obtain ⟨_, _, _, _, _, _, _, rfl⟩ := infer_call_iff_inferArgs.mp h; rfl
  | cast => obtain ⟨_, _, _, _, _, rfl⟩ := infer_cast_eq_ok.mp h; rfl
  | member => obtain ⟨_, _, _, _, _, _, _, _, _, rfl⟩ := infer_member_eq_ok.mp h; rfl
  | comma => obtain ⟨_, _, _, _, rfl⟩ := infer_comma_eq_ok.mp h; rfl

theorem inferArgs_eq_ok {es es' : List Expr} {ts : List ValueType} (hlen : es.length = ts.length) :
    inferArgs env es ts = ⟨es', .ok ()⟩ ↔ Infers env es es' ts := by
  induction es generalizing es' ts with
  | nil =>
      cases ts with
      | cons t ts => simp at hlen
      | nil =>
          simp only [inferArgs, Outcome.done_eq_ok, and_true]
          constructor
          · rintro rfl; exact .nil
          · intro h; cases h; rfl
  | cons e es ih =>
      cases ts with
      | nil => simp at hlen
      | cons t ts =>
          have hrest : ∀ {es'}, inferArgs env es ts = ⟨es', .ok ()⟩ ↔ Infers env es es' ts :=
            ih (by simpa using hlen)
          rw [inferArgs, Outcome.andThen_eq_ok]
          constructor
          · rintro ⟨e', s, he, h⟩
            -- the argument has the type that is derived for it, and it is the parameter's
            cases hr : e'.require t with
            | error err => rw [hr] at h; simp at h
            | ok u =>
                rw [hr] at h
                rw [require_eq_ok, type?_of_infer he] at hr
                obtain ⟨es'', hes, rfl⟩ := Outcome.map_eq_ok.mp h
                have hst : s = t := hr
                exact .cons (hst ▸ he) (hrest.mp hes)
          · intro h
            cases h with
            | @cons _ e' _ _ es'' _ he hes =>
                have hr : e'.require t = .ok () := require_eq_ok.mpr (by rw [type?_of_infer he]; rfl)
                refine ⟨e', t, he, ?_⟩
                rw [hr]
                exact Outcome.map_eq_ok.mpr ⟨es'', hrest.mpr hes, rfl⟩

theorem infer_call_eq_ok {name : String} {args : List Expr} {k : Option Nat} :
    (call n name args k).infer env = ⟨x, .ok t⟩ ↔
      ∃ no f args', env.function? name = some (no, f) ∧
        Infers env args args' (f.params.map (·.type.valueType)) ∧ f.result.valueType = t ∧
        call (n.typed t) name args' (some no) = x := by
  rw [infer_call_iff_inferArgs]
  constructor
  · rintro ⟨no, f, args', hf, hlen, hargs, ht, hx⟩
    exact ⟨no, f, args', hf, (inferArgs_eq_ok hlen).mp hargs, ht, hx⟩
  · rintro ⟨no, f, args', hf, hargs, ht, hx⟩
    exact ⟨no, f, args', hf, hargs.length_eq, (inferArgs_eq_ok hargs.length_eq).mpr hargs, ht, hx⟩

end Expr

end Jaf
