import Jaf.Proofs.Analysis.SettledTrees
import Mathlib.Data.List.Forall2

/-!
# The rules of typing

The rules that give types to expressions, as a relation. `Expr.HasType` has a rule for each form that an
expression can have, and says nothing of the order in which parts are looked at, of messages, or of
notes: it reads the words of an expression and what the names in it mean. The main result is that
deriving types decides this relation. A derivation succeeds with a type exactly if the rules give the
expression that type, whatever notes it carries to begin with, and the tree it leaves is the only tree
with the same words whose notes say what the rules say.

Derivations overwrite notes and never read them, so they do not see whether notes have been erased
(`infer_erase`). Everything else is put together from this and from the two directions `hasType_of_infer`
and `infer_of_hasType`, one step of a derivation at a time.
-/

namespace Jaf

/-! ## Rules for operators and members -/

/-- The types that binary operators take, and the type of the result. -/
inductive BinaryOp.Joins : BinaryOp → ValueType → ValueType → ValueType → Prop
  | ints {op : BinaryOp} (hop : op ∈ [.add, .sub, .mul, .div]) : Joins op .int .int .int
  | floats {op : BinaryOp} {l r : ValueType} (hop : op ∈ [.add, .sub, .mul, .div])
      (hl : l.isNumeric = true) (hr : r.isNumeric = true) (h : l = .float ∨ r = .float) :
      Joins op l r .float
  | strings : Joins .add .string .string .string
  | compareNumbers {op : BinaryOp} {l r : ValueType} (hop : op ∈ [.eq, .ne, .lt, .le, .gt, .ge])
      (hl : l.isNumeric = true) (hr : r.isNumeric = true) : Joins op l r .int
  | compareStrings {op : BinaryOp} (hop : op ∈ [.eq, .ne, .lt, .le, .gt, .ge]) :
      Joins op .string .string .int
  | integral {op : BinaryOp}
      (hop : op ∈ [.mod, .bitAnd, .bitOr, .bitXor, .shl, .shr, .logAnd, .logOr]) :
      Joins op .int .int .int

/-- The member of a given name stands at a position; it is the first one of that name. -/
structure Struct.HasMember (s : Struct) (field : String) (i : Nat) (m : Variable) : Prop where
  entry : s.members[i]? = some m
  name : m.name = field
  first : ∀ (j : Nat) (m' : Variable), j < i → s.members[j]? = some m' → m'.name ≠ field

/-! ## Rules for expressions -/

/-- The type of an expression, given what the names in it mean. -/
inductive Expr.HasType (env : Lookup) : Expr → ValueType → Prop
  -- literals and variables
  | int {n : Note} {v : Int32} : HasType env (.int n v) .int
  | float {n : Note} {v : Float32} : HasType env (.float n v) .float
  | string {n : Note} {v : String} : HasType env (.string n v) .string
  | ident {n : Note} {name : String} {b : Option VarRef} {ref : VarRef} {t : ValueType}
      (h : env.var? name = some (ref, t)) : HasType env (.ident n name b) t
  -- operators
  | neg {n : Note} {e : Expr} {t : ValueType} (he : HasType env e t) (ht : t.isNumeric = true) :
      HasType env (.unary n .neg e) t
  | invert {n : Note} {op : UnaryOp} {e : Expr} (hop : op ∈ [.not, .bitNot])
      (he : HasType env e .int) : HasType env (.unary n op e) .int
  | step {n : Note} {op : UnaryOp} {e : Expr} (hop : op ∈ [.preInc, .preDec, .postInc, .postDec])
      (hp : e.isPlace = true) (he : HasType env e .int) : HasType env (.unary n op e) .int
  | binary {n : Note} {op : BinaryOp} {l r : Expr} {lt rt t : ValueType} (hl : HasType env l lt)
      (hr : HasType env r rt) (hop : op.Joins lt rt t) : HasType env (.binary n op l r) t
  -- an assignment has the type of its target, and so has what is stored
  | set {n : Note} {target value : Expr} {t : ValueType} (hp : target.isPlace = true)
      (ht : HasType env target t) (hv : HasType env value t) : HasType env (.assign n .set target value) t
  | update {n : Note} {op : AssignOp} {b : BinaryOp} {target value : Expr} {t s : ValueType}
      (hb : op.binary? = some b) (hp : target.isPlace = true) (ht : HasType env target t)
      (hv : HasType env value s) (hop : b.Joins t s t) : HasType env (.assign n op target value) t
  -- conditionals, calls, casts, members and lists
  | ternary {n : Note} {c y o : Expr} {t : ValueType} (hc : HasType env c .int)
      (hy : HasType env y t) (ho : HasType env o t) : HasType env (.ternary n c y o) t
  | call {n : Note} {name : String} {args : List Expr} {k : Option Nat} {no : Nat} {f : Function}
      (hf : env.function? name = some (no, f))
      (hargs : List.Forall₂ (HasType env) args (f.params.map (·.type.valueType))) :
      HasType env (.call n name args k) f.result.valueType
  | castInt {n : Note} {e : Expr} {s : ValueType} (he : HasType env e s) (hs : s.isNumeric = true) :
      HasType env (.cast n .int e) .int
  | castFloat {n : Note} {e : Expr} {s : ValueType} (he : HasType env e s) (hs : s.isNumeric = true) :
      HasType env (.cast n .float e) .float
  | member {n : Note} {o : Expr} {field : String} {p : Option Nat} {k : Nat} {s : Struct} {i : Nat}
      {m : Variable} (ho : HasType env o (.struct k)) (hs : env.struct? k = some s)
      (hm : s.HasMember field i m) : HasType env (.member n o field p) m.type.valueType
  -- the last item decides; the parser makes no list without items, and such a list would be void
  | comma {n : Note} {es : List Expr} {ts : List ValueType} (hes : List.Forall₂ (HasType env) es ts) :
      HasType env (.comma n es) (ts.getLast?.getD .void)

/-! ## Erasing notes -/

/-- The note with nothing but the place. -/
def Note.erase (n : Note) : Note := .ofSpan n.span

mutual

/-- The expression as it was written: without types, bindings, function numbers and positions. -/
def Expr.erase : Expr → Expr
  | .int n v => .int n.erase v
  | .float n v => .float n.erase v
  | .string n v => .string n.erase v
  | .ident n name _ => .ident n.erase name none
  | .unary n op e => .unary n.erase op e.erase
  | .binary n op l r => .binary n.erase op l.erase r.erase
  | .assign n op target value => .assign n.erase op target.erase value.erase
  | .ternary n c y o => .ternary n.erase c.erase y.erase o.erase
  | .call n name args _ => .call n.erase name (Expr.eraseAll args) none
  | .cast n target e => .cast n.erase target e.erase
  | .member n o field _ => .member n.erase o.erase field none
  | .comma n es => .comma n.erase (Expr.eraseAll es)

/-- The expressions of a list as they were written. -/
def Expr.eraseAll : List Expr → List Expr
  | [] => []
  | e :: es => e.erase :: Expr.eraseAll es

end

/-- The notes of a node say what the rules say: its type, and what its name means. -/
def Expr.Noted (env : Lookup) (e : Expr) : Prop :=
  (∃ t, e.type? = some t ∧ HasType env e.erase t) ∧
    match e with
    | .ident _ name b => ∃ ref t, env.var? name = some (ref, t) ∧ b = some ref
    | .call _ name _ k => ∃ no f, env.function? name = some (no, f) ∧ k = some no
    | .member _ o field p =>
      ∃ k s i m, HasType env o.erase (.struct k) ∧ env.struct? k = some s ∧ s.HasMember field i m ∧
        p = some i
    | _ => True

/-! ## The tables of operators and members follow the rules -/

theorem BinaryOp.isArithmetic_iff {op : BinaryOp} :
    op.isArithmetic = true ↔ op ∈ [BinaryOp.add, .sub, .mul, .div] := by
  cases op <;> decide

theorem BinaryOp.isComparison_iff {op : BinaryOp} :
    op.isComparison = true ↔ op ∈ [BinaryOp.eq, .ne, .lt, .le, .gt, .ge] := by
  cases op <;> decide

/-- The operators of neither class are for integers alone. -/
theorem BinaryOp.integral_iff {op : BinaryOp} :
    op ∈ [BinaryOp.mod, .bitAnd, .bitOr, .bitXor, .shl, .shr, .logAnd, .logOr] ↔
      op.isArithmetic = false ∧ op.isComparison = false := by
  cases op <;> decide

theorem BinaryOp.joins_of_type? {op : BinaryOp} {l r t : ValueType} (h : op.type? l r = some t) :
    op.Joins l r t := by
  unfold type? at h
  dsimp only at h
  split at h
  next hop =>
    rw [isArithmetic_iff] at hop
    split at h
    next hnum =>
      obtain ⟨hl, hr⟩ := Bool.and_eq_true_iff.mp hnum
      cases h
      split
      next hfloat => exact .floats hop hl hr hfloat
      next hfloat =>
        -- two numbers without a float among them are integers
        cases l <;> cases r <;> simp_all [ValueType.isNumeric]
        exact .ints (by simpa using hop)
    next =>
      split at h
      next hadd =>
        cases h
        simp only [Bool.and_eq_true, decide_eq_true_eq] at hadd
        obtain ⟨⟨rfl, rfl⟩, rfl⟩ := hadd
        exact .strings
      next => cases h
  next hop =>
    split at h
    next hcmp =>
      rw [isComparison_iff] at hcmp
      split at h
      next hboth =>
        cases h
        rcases Bool.or_eq_true_iff.mp hboth with hnum | hstr
        · obtain ⟨hl, hr⟩ := Bool.and_eq_true_iff.mp hnum
          exact .compareNumbers hcmp hl hr
        · simp only [Bool.and_eq_true, decide_eq_true_eq] at hstr
          obtain ⟨rfl, rfl⟩ := hstr
          exact .compareStrings hcmp
      next => cases h
    next hcmp =>
      split at h
      next hints =>
        cases h
        obtain ⟨rfl, rfl⟩ := hints
        exact .integral (integral_iff.mpr ⟨by simpa using hop, by simpa using hcmp⟩)
      next => cases h

theorem BinaryOp.Joins.type?_eq {op : BinaryOp} {l r t : ValueType} (h : op.Joins l r t) :
    op.type? l r = some t := by
  cases h with
  | ints => exact op.type?_int
  | floats hop hl hr h =>
      rw [type?_float hl hr h]
      have harith := isArithmetic_iff.mpr hop
      simp [type?, harith, ValueType.isNumeric]
  | strings => rfl
  | compareNumbers hop hl hr =>
      have hcmp := isComparison_iff.mpr hop
      have harith : op.isArithmetic = false := by cases op <;> first | rfl | cases hcmp
      simp [type?, harith, hcmp, hl, hr]
  | compareStrings hop =>
      have hcmp := isComparison_iff.mpr hop
      have harith : op.isArithmetic = false := by cases op <;> first | rfl | cases hcmp
      simp [type?, harith, hcmp]
  | integral => exact op.type?_int

theorem Struct.member?_iff {s : Struct} {field : String} {i : Nat} {m : Variable} :
    s.member? field = some (i, m) ↔ s.HasMember field i m := by
  unfold Struct.member?
  rw [Option.map_eq_some_iff]
  constructor
  · rintro ⟨⟨m', i'⟩, hfind, heq⟩
    cases heq
    obtain ⟨hname, k, hk, hat, hbefore⟩ := List.find?_eq_some_iff_getElem.mp hfind
    simp only [List.getElem_zipIdx, Nat.zero_add, Prod.mk.injEq] at hat
    obtain ⟨rfl, rfl⟩ := hat
    rw [List.length_zipIdx] at hk
    refine ⟨List.getElem?_eq_getElem hk, by simpa using hname, fun j m' hj hm' => ?_⟩
    obtain ⟨hj', rfl⟩ := List.getElem?_eq_some_iff.mp hm'
    simpa using hbefore j hj
  · rintro ⟨hentry, hname, hfirst⟩
    obtain ⟨hi, rfl⟩ := List.getElem?_eq_some_iff.mp hentry
    refine ⟨(s.members[i], i), List.find?_eq_some_iff_getElem.mpr ⟨by simpa using hname, i, ?_⟩, rfl⟩
    refine ⟨by simpa using hi, by simp, fun j hj => ?_⟩
    simpa using hfirst j s.members[j] hj (List.getElem?_eq_getElem _)

namespace Expr

variable {env : Lookup}

@[simp] theorem isPlace_erase (e : Expr) : e.erase.isPlace = e.isPlace := by cases e <;> rfl

@[simp] theorem typed_erase (n : Note) (t : ValueType) : n.erase.typed t = n.typed t := rfl

@[simp] theorem erase_typed (n : Note) (t : ValueType) : (n.typed t).erase = n.erase := rfl

/-! ## Derivations do not see notes -/

theorem Infers.erase_iff {es es' : List Expr} {ts : List ValueType}
    (h : ∀ e ∈ es, ∀ {x t}, e.erase.infer env = ⟨x, .ok t⟩ ↔ e.infer env = ⟨x, .ok t⟩) :
    Infers env (eraseAll es) es' ts ↔ Infers env es es' ts := by
  induction es generalizing es' ts with
  | nil => rfl
  | cons e es ih =>
      have hhead : ∀ {x t}, e.erase.infer env = ⟨x, .ok t⟩ ↔ e.infer env = ⟨x, .ok t⟩ :=
        h e List.mem_cons_self
      have htail : ∀ {xs ts}, Infers env (eraseAll es) xs ts ↔ Infers env es xs ts :=
        ih fun a ha => h a (List.mem_cons_of_mem _ ha)
      rw [eraseAll]
      constructor
      · intro hes
        cases hes with
        | cons he hes => exact .cons (hhead.mp he) (htail.mp hes)
      · intro hes
        cases hes with
        | cons he hes => exact .cons (hhead.mpr he) (htail.mpr hes)

/-- A derivation overwrites the notes of an expression, and does the same if there are none. -/
theorem infer_erase {e : Expr} {x : Expr} {t : ValueType} :
    e.erase.infer env = ⟨x, .ok t⟩ ↔ e.infer env = ⟨x, .ok t⟩ := by
  induction e using induct generalizing x t with
  | int | float | string => rfl
  | ident => simp only [erase, infer_ident_eq_ok, typed_erase]
  | unary n op e ih => simp only [erase, infer_unary_eq_ok, typed_erase, ih]
  | binary n op l r ihl ihr => simp only [erase, infer_binary_eq_ok, typed_erase, ihl, ihr]
  | assign n op a v iha ihv => simp only [erase, infer_assign_eq_ok, typed_erase, iha, ihv]
  | ternary n c y o ihc ihy iho =>
      simp only [erase, infer_ternary_eq_ok, typed_erase, ihc, ihy, iho]
  | call n name args k ih =>
      simp only [erase, infer_call_eq_ok, typed_erase, Infers.erase_iff fun a ha => ih a ha]
  | cast n target e ih => simp only [erase, infer_cast_eq_ok, typed_erase, ih]
  | member n o field p ih => simp only [erase, infer_member_eq_ok, typed_erase, ih]
  | comma n es ih =>
      simp only [erase, infer_comma_eq_ok, typed_erase, Infers.erase_iff fun a ha => ih a ha]

theorem Infers.eraseAll_eq {es es' : List Expr} {ts : List ValueType} (h : Infers env es es' ts)
    (hes : ∀ e ∈ es, ∀ {x t}, e.infer env = ⟨x, .ok t⟩ → x.erase = e.erase) :
    eraseAll es' = eraseAll es := by
  induction h with
  | nil => rfl
  | cons he _ ih =>
      rw [eraseAll, eraseAll, hes _ List.mem_cons_self he,
        ih fun a ha => hes a (List.mem_cons_of_mem _ ha)]

/-- A derivation keeps the words of an expression. -/
theorem erase_of_infer {e : Expr} {x : Expr} {t : ValueType} (h : e.infer env = ⟨x, .ok t⟩) :
    x.erase = e.erase := by
  induction e using induct generalizing x t with
  | int | float | string =>
      rw [infer, Outcome.done_eq_ok] at h
      obtain ⟨rfl, _⟩ := h
      rfl
  | ident => obtain ⟨_, _, rfl⟩ := infer_ident_eq_ok.mp h; rfl
  | unary n op e ih =>
      obtain ⟨e', he, _, rfl⟩ := infer_unary_eq_ok.mp h
      simp only [erase, erase_typed, ih he]
  | binary n op l r ihl ihr =>
      obtain ⟨l', _, r', _, hl, hr, _, rfl⟩ := infer_binary_eq_ok.mp h
      simp only [erase, erase_typed, ihl hl, ihr hr]
  | assign n op a v iha ihv =>
      obtain ⟨a', v', _, ha, _, hv, _, rfl⟩ := infer_assign_eq_ok.mp h
      simp only [erase, erase_typed, iha ha, ihv hv]
  | ternary n c y o ihc ihy iho =>
      obtain ⟨c', y', o', hc, hy, ho, rfl⟩ := infer_ternary_eq_ok.mp h
      simp only [erase, erase_typed, ihc hc, ihy hy, iho ho]
  | call n name args k ih =>
      obtain ⟨_, _, args', _, hargs, _, rfl⟩ := infer_call_eq_ok.mp h
      simp only [erase, erase_typed, hargs.eraseAll_eq fun a ha => ih a ha]
  | cast n target e ih =>
      obtain ⟨e', _, he, _, _, rfl⟩ := infer_cast_eq_ok.mp h
      simp only [erase, erase_typed, ih he]
  | member n o field p ih =>
      obtain ⟨o', _, _, _, _, ho, _, _, _, rfl⟩ := infer_member_eq_ok.mp h
      simp only [erase, erase_typed, ih ho]
  | comma n es ih =>
      obtain ⟨es', _, hes, _, rfl⟩ := infer_comma_eq_ok.mp h
      simp only [erase, erase_typed, hes.eraseAll_eq fun a ha => ih a ha]

theorem isPlace_of_infer {e x : Expr} {t : ValueType} (h : e.infer env = ⟨x, .ok t⟩) :
    x.isPlace = e.isPlace := by
  rw [← isPlace_erase x, erase_of_infer h, isPlace_erase]

/-! ## A derivation that succeeds follows the rules -/

theorem HasType.of_accepts {n : Note} {op : UnaryOp} {e : Expr} {t : ValueType}
    (he : HasType env e t) (hop : op.accepts e.isPlace t = true) : HasType env (.unary n op e) t := by
  cases op with
  | neg => exact .neg he hop
  | not | bitNot =>
      have ht : t = .int := of_decide_eq_true hop
      subst ht
      exact .invert (by decide) he
  | preInc | preDec | postInc | postDec =>
      obtain ⟨hp, ht⟩ := Bool.and_eq_true_iff.mp hop
      have ht : t = .int := of_decide_eq_true ht
      subst ht
      exact .step (by decide) hp he

theorem HasType.of_type? {n : Note} {op : AssignOp} {a v : Expr} {t s : ValueType}
    (hp : a.isPlace = true) (ha : HasType env a t) (hv : HasType env v s)
    (hop : op.type? t s = some t) : HasType env (.assign n op a v) t := by
  unfold AssignOp.type? at hop
  cases hb : op.binary? with
  | some b =>
      rw [hb] at hop
      exact .update hb hp ha hv (BinaryOp.joins_of_type? hop)
  | none =>
      rw [hb] at hop
      cases hop
      obtain rfl : op = .set := by cases op <;> first | rfl | cases hb
      exact .set hp ha hv

theorem Infers.hasType {es es' : List Expr} {ts : List ValueType} (h : Infers env es es' ts)
    (hes : ∀ e ∈ es, ∀ {x t}, e.infer env = ⟨x, .ok t⟩ → HasType env e t) :
    List.Forall₂ (HasType env) es ts := by
  induction h with
  | nil => exact .nil
  | cons he _ ih =>
      exact .cons (hes _ List.mem_cons_self he) (ih fun a ha => hes a (List.mem_cons_of_mem _ ha))

/-- **Derivations are sound.** -/
theorem hasType_of_infer {e : Expr} {x : Expr} {t : ValueType} (h : e.infer env = ⟨x, .ok t⟩) :
    HasType env e t := by
  induction e using induct generalizing x t with
  | int | float | string =>
      rw [infer, Outcome.done_eq_ok] at h
      obtain ⟨_, rfl⟩ := h
      constructor
  | ident => obtain ⟨_, hv, _⟩ := infer_ident_eq_ok.mp h; exact .ident hv
  | unary n op e ih =>
      obtain ⟨e', he, hop, _⟩ := infer_unary_eq_ok.mp h
      rw [isPlace_of_infer he] at hop
      exact .of_accepts (ih he) hop
  | binary n op l r ihl ihr =>
      obtain ⟨_, lt, _, rt, hl, hr, hop, _⟩ := infer_binary_eq_ok.mp h
      exact .binary (ihl hl) (ihr hr) (BinaryOp.joins_of_type? hop)
  | assign n op a v iha ihv =>
      obtain ⟨a', v', s, ha, hp, hv, hop, _⟩ := infer_assign_eq_ok.mp h
      rw [isPlace_of_infer ha] at hp
      exact .of_type? hp (iha ha) (ihv hv) hop
  | ternary n c y o ihc ihy iho =>
      obtain ⟨_, _, _, hc, hy, ho, _⟩ := infer_ternary_eq_ok.mp h
      exact .ternary (ihc hc) (ihy hy) (iho ho)
  | call n name args k ih =>
      obtain ⟨no, f, _, hf, hargs, rfl, _⟩ := infer_call_eq_ok.mp h
      exact .call hf (hargs.hasType fun a ha => ih a ha)
  | cast n target e ih =>
      obtain ⟨_, s, he, hs, hcast, _⟩ := infer_cast_eq_ok.mp h
      cases target with
      | int => cases hcast; exact .castInt (ih he) hs
      | float => cases hcast; exact .castFloat (ih he) hs
      | void | string | struct | enum | typedef => cases hcast
  | member n o field p ih =>
      obtain ⟨_, k, s, i, m, ho, hs, hm, rfl, _⟩ := infer_member_eq_ok.mp h
      exact .member (ih ho) hs (Struct.member?_iff.mp hm)
  | comma n es ih =>
      obtain ⟨_, ts, hes, rfl, _⟩ := infer_comma_eq_ok.mp h
      exact .comma (hes.hasType fun a ha => ih a ha)

/-! ## What the rules allow can be derived -/

theorem infers_of_hasType {es : List Expr} {ts : List ValueType}
    (h : List.Forall₂ (HasType env) es ts)
    (hes : ∀ e ∈ es, ∀ {t}, HasType env e t → ∃ x, e.infer env = ⟨x, .ok t⟩) :
    ∃ es', Infers env es es' ts := by
  induction es generalizing ts with
  | nil => cases h; exact ⟨[], .nil⟩
  | cons e es ih =>
      obtain ⟨t, ts', he, hrest, rfl⟩ := List.forall₂_cons_left_iff.mp h
      obtain ⟨x, hx⟩ := hes e List.mem_cons_self he
      obtain ⟨xs, hxs⟩ := ih hrest fun a ha => hes a (List.mem_cons_of_mem _ ha)
      exact ⟨x :: xs, .cons hx hxs⟩

/-- **Derivations are complete.** No expression that the rules give a type is refused. -/
theorem infer_of_hasType {e : Expr} {t : ValueType} (h : HasType env e t) :
    ∃ x, e.infer env = ⟨x, .ok t⟩ := by
  induction e using induct generalizing t with
  | int | float | string =>
      cases h
      exact ⟨_, rfl⟩
  | ident n name b =>
      cases h with
      | ident hv => exact ⟨_, infer_ident_eq_ok.mpr ⟨_, hv, rfl⟩⟩
  | unary n op e ih =>
      -- whatever the operator is, it takes the type of its operand
      have hop : HasType env e t ∧ op.accepts e.isPlace t = true := by
        cases h with
        | neg he ht => exact ⟨he, ht⟩
        | invert hop he =>
            refine ⟨he, ?_⟩
            simp only [List.mem_cons, List.not_mem_nil, or_false] at hop
            rcases hop with rfl | rfl <;> rfl
        | step hop hp he =>
            refine ⟨he, ?_⟩
            simp only [List.mem_cons, List.not_mem_nil, or_false] at hop
            rcases hop with rfl | rfl | rfl | rfl <;> simp [UnaryOp.accepts, hp]
      obtain ⟨x, hx⟩ := ih hop.1
      exact ⟨_, infer_unary_eq_ok.mpr ⟨x, hx, by rw [isPlace_of_infer hx]; exact hop.2, rfl⟩⟩
  | binary n op l r ihl ihr =>
      cases h with
      | binary hl hr hop =>
          obtain ⟨l', hl'⟩ := ihl hl
          obtain ⟨r', hr'⟩ := ihr hr
          exact ⟨_, infer_binary_eq_ok.mpr ⟨l', _, r', _, hl', hr', hop.type?_eq, rfl⟩⟩
  | assign n op a v iha ihv =>
      cases h with
      | set hp ha hv =>
          obtain ⟨a', ha'⟩ := iha ha
          obtain ⟨v', hv'⟩ := ihv hv
          rw [← isPlace_of_infer ha'] at hp
          exact ⟨_, infer_assign_eq_ok.mpr ⟨a', v', t, ha', hp, hv', rfl, rfl⟩⟩
      | @update _ _ b _ _ _ s hb hp ha hv hop =>
          obtain ⟨a', ha'⟩ := iha ha
          obtain ⟨v', hv'⟩ := ihv hv
          rw [← isPlace_of_infer ha'] at hp
          have hstored : op.type? t s = some t := by
            unfold AssignOp.type?
            rw [hb]
            exact hop.type?_eq
          exact ⟨_, infer_assign_eq_ok.mpr ⟨a', v', s, ha', hp, hv', hstored, rfl⟩⟩
  | ternary n c y o ihc ihy iho =>
      cases h with
      | ternary hc hy ho =>
          obtain ⟨c', hc'⟩ := ihc hc
          obtain ⟨y', hy'⟩ := ihy hy
          obtain ⟨o', ho'⟩ := iho ho
          exact ⟨_, infer_ternary_eq_ok.mpr ⟨c', y', o', hc', hy', ho', rfl⟩⟩
  | call n name args k ih =>
      cases h with
      | @call _ _ _ _ no f hf hargs =>
          obtain ⟨args', hargs'⟩ := infers_of_hasType hargs fun a ha => ih a ha
          exact ⟨_, infer_call_eq_ok.mpr ⟨no, f, args', hf, hargs', rfl, rfl⟩⟩
  | cast n target e ih =>
      cases h with
      | castInt he hs | castFloat he hs =>
          obtain ⟨x, hx⟩ := ih he
          exact ⟨_, infer_cast_eq_ok.mpr ⟨x, _, hx, hs, rfl, rfl⟩⟩
  | member n o field p ih =>
      cases h with
      | @member _ _ _ _ k s i m ho hs hm =>
          obtain ⟨x, hx⟩ := ih ho
          exact ⟨_, infer_member_eq_ok.mpr
            ⟨x, k, s, i, m, hx, hs, Struct.member?_iff.mpr hm, rfl, rfl⟩⟩
  | comma n es ih =>
      cases h with
      | @comma _ _ ts hes =>
          obtain ⟨es', hes'⟩ := infers_of_hasType hes fun a ha => ih a ha
          exact ⟨_, infer_comma_eq_ok.mpr ⟨es', ts, hes', rfl, rfl⟩⟩

theorem hasType_iff {e : Expr} {t : ValueType} :
    HasType env e t ↔ ∃ x, e.infer env = ⟨x, .ok t⟩ :=
  ⟨infer_of_hasType, fun ⟨_, h⟩ => hasType_of_infer h⟩

/-- The rules do not depend on notes. -/
theorem hasType_erase {e : Expr} {t : ValueType} : HasType env e.erase t ↔ HasType env e t := by
  simp only [hasType_iff, infer_erase]

/-- The rules give an expression at most one type. -/
theorem HasType.unique {e : Expr} {t t' : ValueType} (h : HasType env e t) (h' : HasType env e t') :
    t = t' := by
  obtain ⟨x, hx⟩ := infer_of_hasType h
  obtain ⟨x', hx'⟩ := infer_of_hasType h'
  rw [hx] at hx'
  cases hx'
  rfl

/-! ## The notes that a derivation leaves -/

/-- The notes of a settled tree say what the rules say. -/
theorem Settled.noted {e : Expr} (h : e.Settled env) {x : Expr} (hx : x ∈ e.nodes) : x.Noted env := by
  have hsettled : x.Settled env := h.node hx
  have hfits : x.Fits env := hsettled.self
  have htyped : ∀ {y : Expr} {s : ValueType}, y.Settled env → y.type? = some s →
      HasType env y.erase s :=
    fun hy hs => hasType_erase.mpr (hasType_of_infer (infer_of_settled _ hy hs))
  obtain ⟨t, ht⟩ := hfits.typed
  refine ⟨⟨t, ht, htyped hsettled ht⟩, ?_⟩
  cases x with
  | ident n name b =>
      obtain ⟨ref, s, hv, hb, _⟩ := hfits
      exact ⟨ref, s, hv, hb⟩
  | call n name args k =>
      obtain ⟨no, f, hf, hk, _⟩ := hfits
      exact ⟨no, f, hf, hk⟩
  | member n o field p =>
      obtain ⟨k, s, i, m, ho, hs, hm, hp, _⟩ := hfits
      rw [Settled, each_member] at hsettled
      exact ⟨k, s, i, m, htyped hsettled.2 ho, hs, Struct.member?_iff.mp hm, hp⟩
  | _ => trivial

/-- A node whose note says what the rules say carries the type that is derived for it. -/
theorem Noted.type?_eq {e x : Expr} {t : ValueType} (h : e.Noted env)
    (he : e.infer env = ⟨x, .ok t⟩) : e.type? = some t := by
  obtain ⟨⟨s, hs, hrule⟩, _⟩ := h
  rw [hs, (hasType_erase.mp hrule).unique (hasType_of_infer he)]

theorem Infers.map_type?_eq {es es' : List Expr} {ts : List ValueType} (h : Infers env es es' ts)
    (hes : ∀ e ∈ es, e.Noted env) : es.map type? = ts.map some := by
  induction h with
  | nil => rfl
  | cons he _ ih =>
      rw [List.map_cons, List.map_cons, (hes _ List.mem_cons_self).type?_eq he,
        ih fun a ha => hes a (List.mem_cons_of_mem _ ha)]

/-- If all notes of an expression say what the rules say, the notes of its root fit those below. -/
theorem fits_of_noted {e : Expr} (h : e.Each (Noted env)) : e.Fits env := by
  obtain ⟨⟨t, ht, hrule⟩, hnote⟩ := h.self
  -- the derivation of the type tells what has to be known of the parts
  obtain ⟨x, hx⟩ := infer_of_hasType (hasType_erase.mp hrule)
  cases e with
  | int | float | string =>
      rw [infer, Outcome.done_eq_ok] at hx
      obtain ⟨_, rfl⟩ := hx
      exact ht
  | ident n name b =>
      obtain ⟨ref, hv, _⟩ := infer_ident_eq_ok.mp hx
      obtain ⟨ref', t', hv', hb⟩ := hnote
      rw [hv] at hv'
      cases hv'
      exact ⟨ref, t, hv, hb, ht⟩
  | unary n op e =>
      obtain ⟨e', he, hop, _⟩ := infer_unary_eq_ok.mp hx
      rw [each_unary] at h
      exact ⟨t, h.2.self.type?_eq he, by rw [← isPlace_of_infer he]; exact hop, ht⟩
  | binary n op l r =>
      obtain ⟨l', lt, r', rt, hl, hr, hop, _⟩ := infer_binary_eq_ok.mp hx
      rw [each_binary] at h
      exact ⟨lt, rt, t, h.2.1.self.type?_eq hl, h.2.2.self.type?_eq hr, hop, ht⟩
  | assign n op a v =>
      obtain ⟨a', v', s, ha, hp, hv, hop, _⟩ := infer_assign_eq_ok.mp hx
      rw [each_assign] at h
      rw [isPlace_of_infer ha] at hp
      exact ⟨hp, t, s, h.2.1.self.type?_eq ha, h.2.2.self.type?_eq hv, hop, ht⟩
  | ternary n c y o =>
      obtain ⟨c', y', o', hc, hy, ho, _⟩ := infer_ternary_eq_ok.mp hx
      rw [each_ternary] at h
      exact ⟨h.2.1.self.type?_eq hc, t, h.2.2.1.self.type?_eq hy, h.2.2.2.self.type?_eq ho, ht⟩
  | call n name args k =>
      obtain ⟨no, f, args', hf, hargs, rfl, _⟩ := infer_call_eq_ok.mp hx
      obtain ⟨no', f', hf', hk⟩ := hnote
      rw [hf] at hf'
      cases hf'
      rw [each_call] at h
      refine ⟨no, f, hf, hk, ?_, ht⟩
      rw [hargs.map_type?_eq fun a ha => (h.2 a ha).self, List.map_map]
      rfl
  | cast n target e =>
      obtain ⟨e', s, he, hs, hcast, _⟩ := infer_cast_eq_ok.mp hx
      rw [each_cast] at h
      exact ⟨s, t, h.2.self.type?_eq he, hs, hcast, ht⟩
  | member n o field p =>
      obtain ⟨o', k, s, i, m, ho, hs, hm, rfl, _⟩ := infer_member_eq_ok.mp hx
      obtain ⟨k', s', i', m', ho', hs', hm', hp⟩ := hnote
      rw [each_member] at h
      -- the object has one type, which leads to one struct and one member
      cases (hasType_erase.mp ho').unique (hasType_of_infer ho)
      rw [hs] at hs'
      cases hs'
      rw [← Struct.member?_iff, hm] at hm'
      cases hm'
      exact ⟨k, s, i, m, h.2.self.type?_eq ho, hs, hm, hp, ht⟩
  | comma n es =>
      obtain ⟨es', ts, hes, rfl, _⟩ := infer_comma_eq_ok.mp hx
      rw [each_comma] at h
      have hlast := lastType_eq (hes.map_type?_eq fun a ha => (h.2 a ha).self)
      exact ht.trans (congrArg some hlast.symm)

/--
**Deriving types decides the rules.** A derivation succeeds with a type exactly if the rules give the
expression, whatever notes it carries, that type. The tree that it leaves is then the only one with the
words of the expression and notes that say what the rules say.
-/
theorem infer_iff_hasType (env : Lookup) (e : Expr) :
    (∀ t, (e.infer env).result = .ok t ↔ HasType env e.erase t) ∧
      ∀ t x, e.infer env = ⟨x, .ok t⟩ ↔
        HasType env e.erase t ∧ x.erase = e.erase ∧ ∀ y ∈ x.nodes, y.Noted env := by
  refine ⟨fun t => ?_, fun t x => ⟨fun h => ?_, ?_⟩⟩
  · rw [hasType_erase, hasType_iff]
    constructor
    · intro h
      exact ⟨(e.infer env).tree, by rw [← h]⟩
    · rintro ⟨x, h⟩
      rw [h]
  · refine ⟨hasType_erase.mpr (hasType_of_infer h), erase_of_infer h, ?_⟩
    exact fun y hy => (infer_settled e h).1.noted hy
  · rintro ⟨hrule, hwords, hnotes⟩
    have hnoted : x.Each (Noted env) := hnotes
    have hsettled : x.Settled env := fun y hy => fits_of_noted (hnoted.node hy)
    -- a tree that is settled is left as it is, and only its words count
    obtain ⟨x', hx'⟩ : ∃ x', x.infer env = ⟨x', .ok t⟩ := by
      rw [← hasType_iff, ← hasType_erase, hwords]
      exact hrule
    have hstable := infer_of_settled x hsettled (hnoted.self.type?_eq hx')
    rwa [← infer_erase, hwords, infer_erase] at hstable

end Expr

end Jaf
