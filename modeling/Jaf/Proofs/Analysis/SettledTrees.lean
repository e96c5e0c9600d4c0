import Jaf.Proofs.Analysis.FoldShapes
import Jaf.Proofs.Analysis.TypeDerivations

/-!
# Trees that carry their types

A successful derivation leaves a tree in which every node has its type, every name its binding, every
call the number of its function and every member access its position. `Expr.Fits` says of a single node
that these notes are the right ones, given the notes of the nodes just below it, and a tree is settled
if all of its nodes fit. Three facts make this the notion to work with:

* what a derivation leaves is settled, and has the derived type at its root (`infer_settled`);
* deriving the types of a settled tree changes nothing in it (`infer_of_settled`);
* folding keeps a tree settled, and keeps the type at its root (`fold_settled`).

The last one is where folding, which never looks at types, meets the table of operand types: the value
that an operator makes of two literals must have the type which the table gives for theirs.
-/

namespace Jaf

/-- The type of the literals that write a value. -/
def Value.type : Value → ValueType
  | int _ => .int
  | float _ => .float
  | string _ => .string

namespace Expr

/-- The type of a comma list: that of its last item, and void if there is none. -/
def lastType (es : List Expr) : ValueType := (es.getLast?.bind type?).getD .void

/-- The notes of a node are right, given those of the nodes just below it. -/
def Fits (env : Lookup) : Expr → Prop
  | int n _ => n.type = some .int
  | float n _ => n.type = some .float
  | string n _ => n.type = some .string
  | ident n name b => ∃ ref t, env.var? name = some (ref, t) ∧ b = some ref ∧ n.type = some t
  | unary n op e => ∃ t, e.type? = some t ∧ op.accepts e.isPlace t = true ∧ n.type = some t
  | binary n op l r =>
    ∃ lt rt t, l.type? = some lt ∧ r.type? = some rt ∧ op.type? lt rt = some t ∧ n.type = some t
  | assign n op target value =>
    target.isPlace = true ∧ ∃ t s, target.type? = some t ∧ value.type? = some s ∧
      op.type? t s = some t ∧ n.type = some t
  | ternary n c y o =>
    c.type? = some .int ∧ ∃ t, y.type? = some t ∧ o.type? = some t ∧ n.type = some t
  | call n name args k =>
    ∃ no f, env.function? name = some (no, f) ∧ k = some no ∧
      args.map type? = f.params.map (fun v => some v.type.valueType) ∧
      n.type = some f.result.valueType
  | cast n target e =>
    ∃ s t, e.type? = some s ∧ s.isNumeric = true ∧ target.castType? = some t ∧ n.type = some t
  | member n o field p =>
    ∃ k s i m, o.type? = some (.struct k) ∧ env.struct? k = some s ∧ s.member? field = some (i, m) ∧
      p = some i ∧ n.type = some m.type.valueType
  | comma n es => n.type = some (lastType es)

/-- Every node fits. -/
def Settled (env : Lookup) (e : Expr) : Prop := e.Each (Fits env)

/-- A node that fits has a type. -/
theorem Fits.typed {env : Lookup} {e : Expr} (h : e.Fits env) : ∃ t, e.type? = some t := by
  cases e with
  | int | float | string | comma => exact ⟨_, h⟩
  | ident => obtain ⟨_, t, _, _, ht⟩ := h; exact ⟨t, ht⟩
  | unary => obtain ⟨t, _, _, ht⟩ := h; exact ⟨t, ht⟩
  | binary => obtain ⟨_, _, t, _, _, _, ht⟩ := h; exact ⟨t, ht⟩
  | assign => obtain ⟨_, t, _, _, _, _, ht⟩ := h; exact ⟨t, ht⟩
  | ternary => obtain ⟨_, t, _, _, ht⟩ := h; exact ⟨t, ht⟩
  | call => obtain ⟨_, _, _, _, _, ht⟩ := h; exact ⟨_, ht⟩
  | cast => obtain ⟨_, t, _, _, _, ht⟩ := h; exact ⟨t, ht⟩
  | member => obtain ⟨_, _, _, _, _, _, _, _, ht⟩ := h; exact ⟨_, ht⟩

/-! ## What a derivation leaves is settled -/

/-- What a derivation of one expression promises. -/
def Derives (env : Lookup) (e : Expr) : Prop :=
  ∀ {e' : Expr} {t : ValueType}, e.infer env = ⟨e', .ok t⟩ → e'.Settled env ∧ e'.type? = some t

theorem Infers.settled {env : Lookup} {es es' : List Expr} {ts : List ValueType}
    (h : Infers env es es' ts) (hes : ∀ e ∈ es, e.Derives env) :
    (∀ e ∈ es', e.Settled env) ∧ es'.map type? = ts.map some := by
  induction h with
  | nil => simp
  | @cons e e' t es es' ts he _ ih =>
      obtain ⟨hset, htype⟩ := hes e List.mem_cons_self he
      obtain ⟨hall, hmap⟩ := ih fun a ha => hes a (List.mem_cons_of_mem _ ha)
      exact ⟨List.forall_mem_cons.mpr ⟨hset, hall⟩, by simp [htype, hmap]⟩

/-- If the items have the given types, the type of the list is the last of these. -/
theorem lastType_eq {es : List Expr} {ts : List ValueType} (h : es.map type? = ts.map some) :
    lastType es = ts.getLast?.getD .void := by
  have hlast : es.getLast?.bind type? = ts.getLast? := by
    have := congrArg List.getLast? h
    rw [List.getLast?_map, List.getLast?_map] at this
    cases he : es.getLast? <;> cases ht : ts.getLast? <;> simp_all
  rw [lastType, hlast]

/-- **A derivation settles a tree.** Every node it leaves fits, and the root has the derived type. -/
theorem infer_settled {env : Lookup} (e : Expr) : e.Derives env := by
  induction e using induct with
  | int n v | float n v | string n v =>
      intro e' t h
      rw [infer, Outcome.done_eq_ok] at h
      obtain ⟨rfl, rfl⟩ := h
      exact ⟨by simp [Settled, Fits, Note.typed], rfl⟩
  | ident n name b =>
      intro e' t h
      obtain ⟨ref, hv, rfl⟩ := infer_ident_eq_ok.mp h
      refine ⟨?_, rfl⟩
      rw [Settled, each_ident]
      exact ⟨ref, t, hv, rfl, rfl⟩
  | unary n op e ih =>
      intro e' t h
      obtain ⟨x, hx, hop, rfl⟩ := infer_unary_eq_ok.mp h
      obtain ⟨hset, htype⟩ := ih hx
      refine ⟨?_, rfl⟩
      rw [Settled, each_unary]
      exact ⟨⟨t, htype, hop, rfl⟩, hset⟩
  | binary n op l r ihl ihr =>
      intro e' t h
      obtain ⟨l', lt, r', rt, hl, hr, hop, rfl⟩ := infer_binary_eq_ok.mp h
      obtain ⟨hlset, hltype⟩ := ihl hl
      obtain ⟨hrset, hrtype⟩ := ihr hr
      refine ⟨?_, rfl⟩
      rw [Settled, each_binary]
      exact ⟨⟨lt, rt, t, hltype, hrtype, hop, rfl⟩, hlset, hrset⟩
  | assign n op target value iht ihv =>
      intro e' t h
      obtain ⟨x, y, s, hx, hp, hy, hop, rfl⟩ := infer_assign_eq_ok.mp h
      obtain ⟨hxset, hxtype⟩ := iht hx
      obtain ⟨hyset, hytype⟩ := ihv hy
      refine ⟨?_, rfl⟩
      rw [Settled, each_assign]
      exact ⟨⟨hp, t, s, hxtype, hytype, hop, rfl⟩, hxset, hyset⟩
  | ternary n c y o ihc ihy iho =>
      intro e' t h
      obtain ⟨c', y', o', hc, hy, ho, rfl⟩ := infer_ternary_eq_ok.mp h
      obtain ⟨hcset, hctype⟩ := ihc hc
      obtain ⟨hyset, hytype⟩ := ihy hy
      obtain ⟨hoset, hotype⟩ := iho ho
      refine ⟨?_, rfl⟩
      rw [Settled, each_ternary]
      exact ⟨⟨hctype, t, hytype, hotype, rfl⟩, hcset, hyset, hoset⟩
  | call n name args k ih =>
      intro e' t h
      obtain ⟨no, f, args', hf, hargs, rfl, rfl⟩ := infer_call_eq_ok.mp h
      obtain ⟨hall, hmap⟩ := hargs.settled fun a ha => ih a ha
      refine ⟨?_, rfl⟩
      rw [Settled, each_call]
      refine ⟨⟨no, f, hf, rfl, ?_, rfl⟩, hall⟩
      rw [hmap, List.map_map]; rfl
  | cast n target e ih =>
      intro e' t h
      obtain ⟨x, s, hx, hnum, hcast, rfl⟩ := infer_cast_eq_ok.mp h
      obtain ⟨hset, htype⟩ := ih hx
      refine ⟨?_, rfl⟩
      rw [Settled, each_cast]
      exact ⟨⟨s, t, htype, hnum, hcast, rfl⟩, hset⟩
  | member n o field p ih =>
      intro e' t h
      obtain ⟨x, k, st, i, m, hx, hst, hm, rfl, rfl⟩ := infer_member_eq_ok.mp h
      obtain ⟨hset, htype⟩ := ih hx
      refine ⟨?_, rfl⟩
      rw [Settled, each_member]
      exact ⟨⟨k, st, i, m, htype, hst, hm, rfl, rfl⟩, hset⟩
  | comma n es ih =>
      intro e' t h
      obtain ⟨xs, ts, hxs, hlast, rfl⟩ := infer_comma_eq_ok.mp h
      obtain ⟨hall, hmap⟩ := hxs.settled fun a ha => ih a ha
      refine ⟨?_, rfl⟩
      rw [Settled, each_comma]
      exact ⟨congrArg some (hlast.symm.trans (lastType_eq hmap).symm), hall⟩

/-! ## A derivation changes nothing in a settled tree -/

theorem typed_of_type {n : Note} {t : ValueType} (h : n.type = some t) : n.typed t = n := by
  rw [Note.typed, ← h]

/-- Deriving the type of an expression gives the type it carries and leaves it as it is. -/
def Stable (env : Lookup) (e : Expr) : Prop :=
  ∀ {t : ValueType}, e.Settled env → e.type? = some t → e.infer env = ⟨e, .ok t⟩

theorem infers_of_settled {env : Lookup} :
    ∀ {es : List Expr} {ts : List ValueType}, (∀ e ∈ es, e.Stable env) →
      (∀ e ∈ es, e.Settled env) → es.map type? = ts.map some → Infers env es es ts := by
  intro es
  induction es with
  | nil =>
      intro ts _ _ hmap
      obtain rfl : ts = [] := by simpa using hmap.symm
      exact .nil
  | cons e es ih =>
      intro ts he hset hmap
      cases ts with
      | nil => simp at hmap
      | cons t ts =>
          simp only [List.map_cons, List.cons.injEq] at hmap
          exact .cons (he e List.mem_cons_self (hset e List.mem_cons_self) hmap.1)
            (ih (fun a ha => he a (List.mem_cons_of_mem _ ha))
              (fun a ha => hset a (List.mem_cons_of_mem _ ha)) hmap.2)

/-- The items of a settled list have types. -/
theorem types_of_settled {env : Lookup} {es : List Expr} (h : ∀ e ∈ es, e.Settled env) :
    ∃ ts : List ValueType, es.map type? = ts.map some := by
  induction es with
  | nil => exact ⟨[], rfl⟩
  | cons e es ih =>
      obtain ⟨t, ht⟩ := (h e List.mem_cons_self).self.typed
      obtain ⟨ts, hts⟩ := ih fun a ha => h a (List.mem_cons_of_mem _ ha)
      exact ⟨t :: ts, by simp [ht, hts]⟩

/-- **Deriving again changes nothing.** The derivation of a settled tree succeeds and returns it. -/
theorem infer_of_settled {env : Lookup} (e : Expr) : e.Stable env := by
  induction e using induct with
  | int n v | float n v | string n v =>
      intro t hs ht
      have hn : n.type = some _ := hs.self
      have heq : t = _ := Option.some.inj (ht.symm.trans hn)
      rw [infer, typed_of_type hn, heq]; rfl
  | ident n name b =>
      intro t hs ht
      obtain ⟨ref, s, hv, rfl, hn⟩ := hs.self
      cases hn.symm.trans ht
      exact infer_ident_eq_ok.mpr ⟨ref, hv, by rw [typed_of_type hn]⟩
  | unary n op e ih =>
      intro t hs ht
      rw [Settled, each_unary] at hs
      obtain ⟨⟨s, he, hop, hn⟩, hset⟩ := hs
      cases hn.symm.trans ht
      exact infer_unary_eq_ok.mpr ⟨e, ih hset he, hop, by rw [typed_of_type hn]⟩
  | binary n op l r ihl ihr =>
      intro t hs ht
      rw [Settled, each_binary] at hs
      obtain ⟨⟨lt, rt, s, hl, hr, hop, hn⟩, hlset, hrset⟩ := hs
      cases hn.symm.trans ht
      exact infer_binary_eq_ok.mpr
        ⟨l, lt, r, rt, ihl hlset hl, ihr hrset hr, hop, by rw [typed_of_type hn]⟩
  | assign n op target value iht ihv =>
      intro t hs ht
      rw [Settled, each_assign] at hs
      obtain ⟨⟨hp, s, s', htt, htv, hop, hn⟩, htset, hvset⟩ := hs
      cases hn.symm.trans ht
      exact infer_assign_eq_ok.mpr
        ⟨target, value, s', iht htset htt, hp, ihv hvset htv, hop, by rw [typed_of_type hn]⟩
  | ternary n c y o ihc ihy iho =>
      intro t hs ht
      rw [Settled, each_ternary] at hs
      obtain ⟨⟨hc, s, hy, ho, hn⟩, hcset, hyset, hoset⟩ := hs
      cases hn.symm.trans ht
      exact infer_ternary_eq_ok.mpr
        ⟨c, y, o, ihc hcset hc, ihy hyset hy, iho hoset ho, by rw [typed_of_type hn]⟩
  | call n name args k ih =>
      intro t hs ht
      rw [Settled, each_call] at hs
      obtain ⟨⟨no, f, hf, rfl, hargs, hn⟩, hset⟩ := hs
      cases hn.symm.trans ht
      have hmap : args.map type? = (f.params.map (·.type.valueType)).map some := by
        rw [hargs, List.map_map]; rfl
      exact infer_call_eq_ok.mpr ⟨no, f, args, hf,
        infers_of_settled (fun a ha => ih a ha) hset hmap, rfl, by rw [typed_of_type hn]⟩
  | cast n target e ih =>
      intro t hs ht
      rw [Settled, each_cast] at hs
      obtain ⟨⟨s, s', he, hnum, hcast, hn⟩, hset⟩ := hs
      cases hn.symm.trans ht
      exact infer_cast_eq_ok.mpr ⟨e, s, ih hset he, hnum, hcast, by rw [typed_of_type hn]⟩
  | member n o field p ih =>
      intro t hs ht
      rw [Settled, each_member] at hs
      obtain ⟨⟨k, st, i, m, ho, hst, hm, rfl, hn⟩, hset⟩ := hs
      cases hn.symm.trans ht
      exact infer_member_eq_ok.mpr
        ⟨o, k, st, i, m, ih hset ho, hst, hm, rfl, by rw [typed_of_type hn]⟩
  | comma n es ih =>
      intro t hs ht
      rw [Settled, each_comma] at hs
      obtain ⟨hn, hset⟩ := hs
      cases Option.some.inj (Eq.trans (Eq.symm hn) ht)
      obtain ⟨ts, hmap⟩ := types_of_settled hset
      exact infer_comma_eq_ok.mpr ⟨es, ts, infers_of_settled (fun a ha => ih a ha) hset hmap,
        (lastType_eq hmap).symm, by rw [typed_of_type hn]⟩

end Expr

/-! ## Folding agrees with the table of operand types -/

theorem UnaryOp.fold?_type {op : UnaryOp} {v w : Value} (h : op.fold? v = some w) :
    w.type = v.type := by
  cases op <;> cases v <;> simp only [fold?, Option.some.injEq, reduceCtorEq] at h <;> rw [← h] <;> rfl

theorem TypeKind.fold?_type {k : TypeKind} {v w : Value} (h : k.fold? v = some w) :
    k.castType? = some w.type := by
  cases k <;> cases v <;> simp only [fold?, Option.some.injEq, reduceCtorEq] at h <;> rw [← h] <;> rfl

namespace BinaryOp

theorem type?_int (op : BinaryOp) : op.type? .int .int = some .int := by cases op <;> rfl

/-- With a float among two numbers, the other one might as well be a float. -/
theorem type?_float {op : BinaryOp} {l r : ValueType} (hl : l.isNumeric = true)
    (hr : r.isNumeric = true) (h : l = .float ∨ r = .float) :
    op.type? l r = op.type? .float .float := by
  cases l <;> cases r <;> simp_all [ValueType.isNumeric] <;> cases op <;> rfl

theorem foldInt?_type {op : BinaryOp} {a b : Int32} {w : Value} (h : op.foldInt? a b = some w) :
    w.type = .int := by
  cases op <;> grind [foldInt?, Value.type, Value.ofBool]

theorem foldString?_type {op : BinaryOp} {a b : String} {w : Value}
    (h : op.foldString? a b = some w) : op.type? .string .string = some w.type := by
  cases op with
  | add | eq | ne | lt | le | gt | ge => cases h; rfl
  | _ => cases h

theorem foldFloat?_type {op : BinaryOp} {a b : Float32} {w : Value}
    (h : op.foldFloat? a b = some w) : op.type? .float .float = some w.type := by
  cases op with
  | add | sub | mul => cases h; rfl
  | div =>
      simp only [foldFloat?] at h
      split at h
      · cases h
      · cases h; rfl
  | eq | ne | lt | le | gt | ge =>
      obtain ⟨o, _, rfl⟩ := Option.map_eq_some_iff.mp h
      rfl
  | mod | bitAnd | bitOr | bitXor | shl | shr | logAnd | logOr => cases h

/-- The value that an operator makes of two literals has the type which the table gives for theirs. -/
theorem fold?_type {op : BinaryOp} {a b w : Value} (h : op.fold? a b = some w) :
    op.type? a.type b.type = some w.type := by
  cases a with
  | int a =>
      cases b with
      | int b => rw [foldInt?_type h]; exact op.type?_int
      | float b => rw [← foldFloat?_type h]; exact type?_float rfl rfl (.inr rfl)
      | string b => simp [fold?, Value.float?] at h
  | float a =>
      cases b with
      | int b => rw [← foldFloat?_type h]; exact type?_float rfl rfl (.inl rfl)
      | float b => exact foldFloat?_type h
      | string b => simp [fold?, Value.float?] at h
  | string a =>
      cases b with
      | int b | float b => simp [fold?, Value.float?] at h
      | string b => exact foldString?_type h

end BinaryOp

namespace Expr

/-! ## Folding keeps a tree settled -/

theorem settled_toExpr {env : Lookup} {n : Note} {v : Value} :
    (v.toExpr n).Settled env ↔ n.type = some v.type := by
  cases v <;> simp [Settled, Value.toExpr, Fits, Value.type]

/-- A settled literal has the type of its value. -/
theorem type_of_literal {env : Lookup} {e : Expr} {v : Value} (hs : e.Settled env)
    (h : e.literal? = some v) : e.type? = some v.type := by
  rw [eq_toExpr h] at hs
  exact settled_toExpr.mp hs

/-- An operator that is replaced by a value of its type, or else stays, is settled. -/
theorem settled_orKeep {env : Lookup} {n : Note} {value : Option Value} {kept : Expr}
    (hvalue : ∀ w, value = some w → n.type = some w.type) (hkept : kept.Settled env)
    (htype : kept.type? = n.type) :
    (orKeep n value kept).Settled env ∧ (orKeep n value kept).type? = n.type := by
  refine orKeep_cases (P := fun x => x.Settled env ∧ x.type? = n.type) (fun w hw => ?_)
    ⟨hkept, htype⟩
  exact ⟨settled_toExpr.mpr (hvalue w hw), type?_toExpr n w⟩

theorem accepts_fold {op : UnaryOp} {e : Expr} {t : ValueType}
    (h : op.accepts e.isPlace t = true) : op.accepts e.fold.isPlace t = true := by
  by_cases hp : e.isPlace = true
  · rw [isPlace_fold hp]; rwa [hp] at h
  · rw [Bool.not_eq_true] at hp
    rw [hp] at h
    cases op with
    | neg | not | bitNot => exact h
    | preInc | preDec | postInc | postDec => simp [UnaryOp.accepts] at h

/-- **Folding keeps types.** A folded tree is settled again, with the type it had at its root. -/
theorem fold_settled {env : Lookup} {e : Expr} (h : e.Settled env) :
    e.fold.Settled env ∧ e.fold.type? = e.type? := by
  induction e using induct with
  | int n v | float n v | string n v | ident n name b => rw [fold]; exact ⟨h, rfl⟩
  | unary n op e ih =>
      rw [Settled, each_unary] at h
      obtain ⟨⟨t, he, hop, hn⟩, hset⟩ := h
      obtain ⟨hfold, htype⟩ := ih hset
      rw [fold]
      refine settled_orKeep (fun w hw => ?_) ?_ rfl
      · obtain ⟨v, hv, hvw⟩ := Option.bind_eq_some_iff.mp hw
        have ht : v.type = t :=
          Option.some.inj ((type_of_literal hfold hv).symm.trans (htype.trans he))
        rw [UnaryOp.fold?_type hvw, ht]
        exact hn
      · rw [Settled, each_unary]
        exact ⟨⟨t, htype.trans he, accepts_fold hop, hn⟩, hfold⟩
  | binary n op l r ihl ihr =>
      rw [Settled, each_binary] at h
      obtain ⟨⟨lt, rt, t, hl, hr, hop, hn⟩, hlset, hrset⟩ := h
      obtain ⟨hlfold, hltype⟩ := ihl hlset
      obtain ⟨hrfold, hrtype⟩ := ihr hrset
      rw [fold]
      refine settled_orKeep (fun w hw => ?_) ?_ rfl
      · obtain ⟨a, ha, hw⟩ := Option.bind_eq_some_iff.mp hw
        obtain ⟨b, hb, hw⟩ := Option.bind_eq_some_iff.mp hw
        have hlt : a.type = lt :=
          Option.some.inj ((type_of_literal hlfold ha).symm.trans (hltype.trans hl))
        have hrt : b.type = rt :=
          Option.some.inj ((type_of_literal hrfold hb).symm.trans (hrtype.trans hr))
        have hwt : w.type = t := by
          have := BinaryOp.fold?_type hw
          rw [hlt, hrt, hop] at this
          exact (Option.some.inj this).symm
        rw [hwt]
        exact hn
      · rw [Settled, each_binary]
        exact ⟨⟨lt, rt, t, hltype.trans hl, hrtype.trans hr, hop, hn⟩, hlfold, hrfold⟩
  | assign n op target value iht ihv =>
      rw [Settled, each_assign] at h
      obtain ⟨⟨hp, t, s, htt, htv, hop, hn⟩, htset, hvset⟩ := h
      obtain ⟨htfold, httype⟩ := iht htset
      obtain ⟨hvfold, hvtype⟩ := ihv hvset
      rw [fold, Settled, each_assign]
      exact ⟨⟨⟨isPlace_fold hp, t, s, httype.trans htt, hvtype.trans htv, hop, hn⟩, htfold, hvfold⟩,
        rfl⟩
  | ternary n c y o ihc ihy iho =>
      rw [Settled, each_ternary] at h
      obtain ⟨⟨hc, t, hy, ho, hn⟩, hcset, hyset, hoset⟩ := h
      obtain ⟨hcfold, hctype⟩ := ihc hcset
      obtain ⟨hyfold, hytype⟩ := ihy hyset
      obtain ⟨hofold, hotype⟩ := iho hoset
      have hroot : (ternary n c y o).type? = some t := hn
      rcases fold_ternary (n := n) (c := c) (y := y) (o := o) with ⟨m, v, _, hf⟩ | hf
      · -- both branches have the type of the conditional, so either may take its place
        rw [hf, hroot]
        split
        · exact ⟨hofold, hotype.trans ho⟩
        · exact ⟨hyfold, hytype.trans hy⟩
      · rw [hf, Settled, each_ternary]
        exact ⟨⟨⟨hctype.trans hc, t, hytype.trans hy, hotype.trans ho, hn⟩, hcfold, hyfold, hofold⟩,
          rfl⟩
  | call n name args k ih =>
      rw [Settled, each_call] at h
      obtain ⟨⟨no, f, hf, hk, hargs, hn⟩, hset⟩ := h
      have hmap : (args.map fold).map type? = args.map type? := by
        rw [List.map_map]
        exact List.map_congr_left fun a ha => (ih a ha (hset a ha)).2
      rw [fold, foldList_eq_map, Settled, each_call]
      refine ⟨⟨⟨no, f, hf, hk, hmap.trans hargs, hn⟩, ?_⟩, rfl⟩
      intro x hx
      obtain ⟨a, ha, rfl⟩ := List.mem_map.mp hx
      exact (ih a ha (hset a ha)).1
  | cast n target e ih =>
      rw [Settled, each_cast] at h
      obtain ⟨⟨s, t, he, hnum, hcast, hn⟩, hset⟩ := h
      obtain ⟨hfold, htype⟩ := ih hset
      rw [fold]
      refine settled_orKeep (fun w hw => ?_) ?_ rfl
      · obtain ⟨v, _, hvw⟩ := Option.bind_eq_some_iff.mp hw
        -- the target of a cast alone decides the type
        have hwt : w.type = t :=
          Option.some.inj ((TypeKind.fold?_type hvw).symm.trans hcast)
        rw [hwt]
        exact hn
      · rw [Settled, each_cast]
        exact ⟨⟨s, t, htype.trans he, hnum, hcast, hn⟩, hfold⟩
  | member n o field p ih =>
      rw [Settled, each_member] at h
      obtain ⟨⟨k, st, i, m, ho, hst, hm, hp, hn⟩, hset⟩ := h
      obtain ⟨hfold, htype⟩ := ih hset
      rw [fold, Settled, each_member]
      exact ⟨⟨⟨k, st, i, m, htype.trans ho, hst, hm, hp, hn⟩, hfold⟩, rfl⟩
  | comma n es ih =>
      rw [Settled, each_comma] at h
      obtain ⟨hn, hset⟩ := h
      have hall : ∀ x ∈ effective (es.map fold), x.Settled env := by
        intro x hx
        obtain ⟨a, ha, rfl⟩ := List.mem_map.mp ((effective_sublist _).subset hx)
        exact (ih a ha (hset a ha)).1
      -- the last item decides the type, and it is still there with the type it had
      have hlast : lastType (effective (es.map fold)) = lastType es := by
        unfold lastType
        rw [getLast?_effective, List.getLast?_map]
        cases hl : es.getLast? with
        | none => rfl
        | some z =>
            have hz : z ∈ es := List.mem_of_getLast? hl
            simp [(ih z hz (hset z hz)).2]
      rw [fold, foldList_eq_map]
      rcases ofItems_cases n (effective (es.map fold)) with ⟨x, hx, hf⟩ | hf
      · rw [hf]
        rw [hx] at hall hlast
        obtain ⟨t, ht⟩ := (hall x (by simp)).self.typed
        have : lastType es = t := by rw [← hlast]; simp [lastType, ht]
        refine ⟨hall x (by simp), ?_⟩
        rw [ht, ← this]
        exact hn.symm
      · rw [hf, Settled, each_comma]
        exact ⟨⟨by rw [Fits, hlast]; exact hn, hall⟩, rfl⟩

/--
**Folding keeps typing.** Once a derivation has succeeded with type `t`, the folded tree has type `t`,
its literals are of the kind that their types say, and deriving it again gives `t` and changes nothing:
no type, no binding, no number.
-/
theorem fold_keeps_typing (env : Lookup) (e e' : Expr) (t : ValueType)
    (h : e.infer env = ⟨e', .ok t⟩) :
    e'.fold.type? = some t ∧
      (∀ x ∈ e'.fold.nodes, ∀ v, x.literal? = some v → x.type? = some v.type) ∧
      e'.fold.infer env = ⟨e'.fold, .ok t⟩ := by
  obtain ⟨hset, htype⟩ := infer_settled e h
  obtain ⟨hfold, hkeep⟩ := fold_settled hset
  have hroot : e'.fold.type? = some t := hkeep.trans htype
  refine ⟨hroot, ?_, infer_of_settled e'.fold hfold hroot⟩
  intro x hx v hv
  have hfits : x.Fits env := hfold x hx
  rw [eq_toExpr hv] at hfits ⊢
  rw [type?_toExpr]
  cases v <;> exact hfits

/-- At `x += (7, 1 ? 2 * 3 : x)`, which folds to `x += 6`: a comma list and a conditional are gone. -/
theorem fold_keeps_typing_sum :
    let env : Lookup := ⟨fun _ => some (.local 0, .int), fun _ => none, fun _ => none⟩
    let n := Note.ofSpan (.point 0)
    let x := ident n "x" none
    let e := assign n .add x
      (comma n [int n 7, ternary n (int n 1) (binary n .mul (int n 2) (int n 3)) x])
    let e' := (e.infer env).tree
    let m := n.typed .int
    e.infer env = ⟨e', .ok .int⟩ ∧
      e'.fold = assign m .add (ident m "x" (some (.local 0))) (int m 6) ∧
      e'.fold.type? = some .int ∧
      (∀ x ∈ e'.fold.nodes, ∀ v, x.literal? = some v → x.type? = some v.type) ∧
      e'.fold.infer env = ⟨e'.fold, .ok .int⟩ := by
  intro env n x e e' m
  have h : e.infer env = ⟨e', .ok .int⟩ := rfl
  exact ⟨h, rfl, fold_keeps_typing env e e' .int h⟩

end Expr

end Jaf
