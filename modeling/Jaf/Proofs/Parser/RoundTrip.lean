import Jaf.Proofs.Parser.GrammarLayers

/-!
# Parsing undoes rendering

The tokens of an expression are parsed back into that expression, whatever stands behind them, as long as
it does not continue an expression. The induction is on the expression. Inside of it only expressions in
parentheses occur, and these are operands, so they are read by every layer; what is left is the layer that
makes the node itself, one case for each sort of expression. From there the layers above pass it on.

The parsers are cut off at a number of levels, and every level but the first is entered behind a token: as
many levels as there are tokens are enough.
-/

namespace Jaf

/-! ## Expressions in parentheses -/

open Jaf.Parser Token.Kind

namespace Expr

/-- What is rendered begins with no type, so a parenthesis in front of it opens no cast. -/
theorem render_head {e : Expr} (h : e.Writable) :
    ∃ k ks, e.render = k :: ks ∧ ExprParsers.castTarget? k = none := by
  cases e with
  | float => exact h.elim
  | int n v =>
      rw [render, ofInt]
      split
      · exact ⟨_, _, rfl, rfl⟩
      · exact ⟨_, _, rfl, rfl⟩
  | unary n op e => cases op <;> exact ⟨_, _, rfl, rfl⟩
  | comma n es =>
      rcases es with _ | ⟨e, _ | ⟨e', es⟩⟩
      · cases h
      · simp [Writable] at h
      · exact ⟨_, _, rfl, rfl⟩
  | _ => exact ⟨_, _, rfl, rfl⟩

/-- The tokens of an expression are parsed back, with no more levels than there are tokens. -/
structure Rereads (e : Expr) : Prop where
  plain : ExprParsers.Plain (enclose e.render)
  expression : ∀ n, e.render.length ≤ n →
    Reads (exprParsers n).expression e.render (·.continues = false) e.Like

namespace Rereads

open ExprParsers

variable {e : Expr} {n : Nat} {stop : Token.Kind → Prop}

theorem primary (h : e.Rereads) (hn : e.render.length ≤ n) :
    Reads (primary (exprParsers n)) (enclose e.render) stop e.Like := by
  refine .span_bind fun start => .kind_bind fun _ _ => .advance_bind ?_
  refine (h.expression n hn).bind (fun e' he' => ?_) fun _ _ => rfl
  refine .expect_bind (.previous_bind fun _ => .pure ?_)
  rw [Like, bare_moveTo]
  exact he'

theorem unaryLayer (h : e.Rereads) (hn : e.render.length ≤ n)
    (hstop : ∀ k, stop k → k.isSuffix = false) :
    Reads (unaryLayer (exprParsers n)) (enclose e.render) stop e.Like :=
  unary_of_primary (h.primary hn) h.plain hstop

theorem binaryLayer (h : e.Rereads) (hn : e.render.length ≤ n)
    (hstop : ∀ k, stop k → k.isSuffix = false ∧ k.binary? = none) (least : Nat) :
    Reads (binaryLayer (exprParsers n) least) (enclose e.render) stop e.Like :=
  binary_of_unary (h.unaryLayer hn fun k hk => (hstop k hk).1) (fun k hk => (hstop k hk).2) least

theorem conditionalLayer (h : e.Rereads) (hn : e.render.length ≤ n)
    (hstop : ∀ k, stop k → k.isSuffix = false ∧ k.binary? = none ∧ k ≠ symbol .question) :
    Reads (conditionalLayer (exprParsers n)) (enclose e.render) stop e.Like := by
  refine conditional_of_binary (h.binaryLayer hn (fun k hk => ?_) 1) fun k hk => (hstop k hk).2.2
  exact ⟨(hstop k hk).1, (hstop k hk).2.1⟩

theorem assignmentLayer (h : e.Rereads) (hn : e.render.length ≤ n) :
    Reads (assignmentLayer (exprParsers n)) (enclose e.render) (·.continuesItem = false) e.Like := by
  refine assignment_of_conditional (h.conditionalLayer hn fun k hk => ?_) fun k hk => ?_
  · obtain ⟨hsuffix, hbinary, _, hquestion⟩ := of_not_continuesItem hk
    exact ⟨hsuffix, hbinary, hquestion⟩
  · exact (of_not_continuesItem hk).2.2.1

/-! One level further in, after a token has been consumed. -/

theorem unary (h : e.Rereads) (hn : e.render.length < n) :
    Reads (exprParsers n).unary (enclose e.render) (·.continuesItem = false) e.Like := by
  cases n with
  | zero => cases hn
  | succ n => exact h.unaryLayer (Nat.le_of_lt_succ hn) fun _ hk => (of_not_continuesItem hk).1

theorem binary (h : e.Rereads) (hn : e.render.length < n) (least : Nat) :
    Reads ((exprParsers n).binary least) (enclose e.render) (·.continuesItem = false) e.Like := by
  cases n with
  | zero => cases hn
  | succ n =>
      refine h.binaryLayer (Nat.le_of_lt_succ hn) (fun _ hk => ?_) least
      exact ⟨(of_not_continuesItem hk).1, (of_not_continuesItem hk).2.1⟩

theorem conditional (h : e.Rereads) (hn : e.render.length < n) :
    Reads (exprParsers n).conditional (enclose e.render) (·.continuesItem = false) e.Like := by
  cases n with
  | zero => cases hn
  | succ n =>
      refine h.conditionalLayer (Nat.le_of_lt_succ hn) fun _ hk => ?_
      obtain ⟨hsuffix, hbinary, _, hquestion⟩ := of_not_continuesItem hk
      exact ⟨hsuffix, hbinary, hquestion⟩

theorem assignment (h : e.Rereads) (hn : e.render.length < n) :
    Reads (exprParsers n).assignment (enclose e.render) (·.continuesItem = false) e.Like := by
  cases n with
  | zero => cases hn
  | succ n => exact h.assignmentLayer (Nat.le_of_lt_succ hn)

theorem enclosed (h : e.Rereads) (hn : e.render.length < n) :
    Reads (exprParsers n).expression (enclose e.render) (·.continues = false) e.Like := by
  cases n with
  | zero => cases hn
  | succ n =>
      have hitem := (h.assignmentLayer (Nat.le_of_lt_succ hn)).mono fun _ hk => (of_not_continues hk).1
      exact expression_of_assignment hitem fun _ hk => (of_not_continues hk).2

end Rereads

/-! ## One case for each sort of expression -/

section Cases

open ExprParsers

variable {n : Nat} {note : Note}

theorem primary_int (inner : ExprParsers Reader) (v : Int32) (stop : Token.Kind → Prop) :
    Reads (primary inner) [ofInt v] stop (int note v).Like := by
  unfold ofInt
  split
  · refine .span_bind fun start => .kind_bind fun _ _ => .advance_bind ?_
    exact reads_numeric (hexLiteral?_toDigits v) rfl
  · refine .span_bind fun start => .kind_bind fun _ _ => .advance_bind ?_
    exact reads_numeric (intLiteral?_toDigits ‹_›) rfl

theorem primary_string (inner : ExprParsers Reader) (text : String) (stop : Token.Kind → Prop) :
    Reads (primary inner) [ofText text] stop (string note text).Like := by
  refine .span_bind fun start => .kind_bind fun _ _ => .advance_bind ?_
  refine reads_literal (e := string (.ofSpan start) text) ?_ rfl
  rw [stringLiteral_escape]
  rfl

theorem primary_ident (inner : ExprParsers Reader) (text : String) (b : Option VarRef) :
    Reads (primary inner) [name text] (·.continuesItem = false) (ident note text b).Like := by
  refine .span_bind fun start => .kind_bind fun _ _ => .advance_bind (.accept_else (.pure rfl) ?_)
  rintro k hk rfl
  cases hk

/-- After a sign comes a parenthesis, so the literal that takes its sign along is not there. -/
theorem operand_enclose {e : Expr} (h : e.Rereads) (hn : e.render.length < n) (start : Span)
    (op : UnaryOp) :
    Reads (operand (exprParsers n) start op) (enclose e.render) (·.continuesItem = false)
      (unary note op e).Like := by
  refine .span_bind fun here => .kind_bind fun _ _ => ?_
  rw [if_neg (by rintro ⟨_, heq⟩; cases heq)]
  refine (h.unary hn).bind_nil fun e' he' => .pure ?_
  rw [Like] at he' ⊢
  simp only [bare, he']

theorem unaryLayer_suffixed {e e' : Expr} {ks : List Token.Kind} (h : e.Rereads) (hn : e.render.length ≤ n)
    (hsuffix : Suffixed e ks e') :
    Reads (unaryLayer (exprParsers n)) (enclose e.render ++ ks) (·.continuesItem = false) e'.Like := by
  have hprimary : Reads (primary (exprParsers n)) (enclose e.render) (fun _ => True) e.Like := h.primary hn
  refine unary_of_suffixes hprimary h.plain (fun e₀ he₀ => ?_) fun _ _ => trivial
  exact reads_suffixes hsuffix he₀ fun _ hk => (of_not_continuesItem hk).1

theorem unaryLayer_unary {e : Expr} (op : UnaryOp) (h : e.Rereads) (hn : e.render.length < n) :
    Reads (unaryLayer (exprParsers n)) (op.render (enclose e.render)) (·.continuesItem = false)
      (unary note op e).Like := by
  cases op with
  | postInc => exact unaryLayer_suffixed h (Nat.le_of_lt hn) (.inc note)
  | postDec => exact unaryLayer_suffixed h (Nat.le_of_lt hn) (.dec note)
  | _ =>
      refine .span_bind fun start => .kind_bind fun _ _ => .advance_bind ?_
      exact operand_enclose h hn start _

theorem unaryLayer_cast {e : Expr} {t : TypeKind} (ht : t = .int ∨ t = .float) (h : e.Rereads)
    (hn : e.render.length < n) :
    Reads (unaryLayer (exprParsers n)) (enclose [ofType t] ++ enclose e.render) (·.continuesItem = false)
      (cast note t e).Like := by
  have htarget : castTarget? (ofType t) = some t := by rcases ht with rfl | rfl <;> rfl
  -- the type behind the parenthesis is seen before the parenthesis is consumed
  refine .span_bind fun start => .kind_bind fun _ _ => .lookahead_bind ?_
  rw [htarget]
  refine .advance_bind (.advance_bind (.expect_bind ?_))
  refine (h.unary hn).bind_nil fun e' he' => .pure ?_
  rw [Like] at he' ⊢
  simp only [bare, he']

theorem binaryLayer_binary {l r : Expr} (op : BinaryOp) (hl : l.Rereads) (hr : r.Rereads)
    (hln : l.render.length ≤ n) (hrn : r.render.length < n) :
    Reads (binaryLayer (exprParsers n) 1) (enclose l.render ++ symbol op.symbol :: enclose r.render)
      (·.continuesItem = false) (binary note op l r).Like := by
  have hop : (symbol op.symbol).binary? = some op := by cases op <;> rfl
  have hprec : ¬ op.precedence < 1 := by cases op <;> decide
  have hleft : Reads (unaryLayer (exprParsers n)) (enclose l.render) (· = symbol op.symbol) l.Like := by
    refine hl.unaryLayer hln ?_
    rintro k rfl
    cases op <;> rfl
  refine hleft.bind (fun l' hl' => ?_) fun _ _ => rfl
  -- one turn for the operator and what is on its right, and one that finds no operator
  refine Rounds.once ?_ (List.cons_ne_nil _ _) fun e' he' => ?_
  · refine .kind_bind fun _ _ => ?_
    simp only [List.headD_cons, hop]
    rw [if_neg hprec]
    refine .advance_bind ((hr.binary hrn _).bind_nil fun r' hr' => .pure ?_)
    rw [Like] at hl' hr'
    simp only [Turn.Goes, Like, bare, hl', hr']
  · refine .kind_bind fun k hk => ?_
    rw [List.headD_nil, (of_not_continuesItem hk).2.1]
    exact .pure he'

theorem conditionalLayer_ternary {c y o : Expr} (hc : c.Rereads) (hy : y.Rereads) (ho : o.Rereads)
    (hcn : c.render.length ≤ n) (hyn : y.render.length < n) (hon : o.render.length < n) :
    Reads (conditionalLayer (exprParsers n))
      (enclose c.render ++ symbol .question :: (enclose y.render ++ symbol .colon :: enclose o.render))
      (·.continuesItem = false) (ternary note c y o).Like := by
  have hcondition : Reads (binaryLayer (exprParsers n) 1) (enclose c.render) (· = symbol .question) c.Like := by
    refine hc.binaryLayer hcn ?_ 1
    rintro k rfl
    exact ⟨rfl, rfl⟩
  refine hcondition.bind (fun c' hc' => .accept_then ?_) fun _ _ => rfl
  refine (hy.enclosed hyn).bind (fun y' hy' => .expect_bind ?_) fun _ _ => rfl
  refine (ho.conditional hon).bind_nil fun o' ho' => .pure ?_
  rw [Like] at hc' hy' ho' ⊢
  simp only [bare, hc', hy', ho']

theorem assignmentLayer_assign {t v : Expr} (op : AssignOp) (ht : t.Rereads) (hv : v.Rereads)
    (htn : t.render.length ≤ n) (hvn : v.render.length < n) :
    Reads (assignmentLayer (exprParsers n)) (enclose t.render ++ symbol op.symbol :: enclose v.render)
      (·.continuesItem = false) (assign note op t v).Like := by
  have hop : (symbol op.symbol).assign? = some op := by cases op <;> rfl
  have htarget : Reads (conditionalLayer (exprParsers n)) (enclose t.render) (· = symbol op.symbol) t.Like := by
    refine ht.conditionalLayer htn ?_
    rintro k rfl
    cases op <;> exact ⟨rfl, rfl, nofun⟩
  refine htarget.bind (fun t' ht' => .kind_bind fun _ _ => ?_) fun _ _ => rfl
  rw [List.headD_cons, hop]
  refine .advance_bind ((hv.assignment hvn).bind_nil fun v' hv' => .pure ?_)
  rw [Like] at ht' hv' ⊢
  simp only [bare, ht', hv']

end Cases

/-! ## Lists of expressions -/

/-- The expressions of a list are the same, apart from places and annotations. -/
def LikeAll (es es' : List Expr) : Prop := bareAll es' = bareAll es

theorem LikeAll.concat {es es' : List Expr} {e e' : Expr} (hes : LikeAll es es') (he : e.Like e') :
    LikeAll (es ++ [e]) (es' ++ [e']) := by
  rw [LikeAll, Like, bareAll_eq_map, bareAll_eq_map] at *
  rw [List.map_append, List.map_append, hes, List.map_singleton, he, List.map_singleton]

theorem renderAll_cons (e : Expr) (es : List Expr) :
    renderAll (e :: es) = enclose e.render ++ es.flatMap fun e => symbol .comma :: enclose e.render := by
  induction es generalizing e with
  | nil => simp [renderAll]
  | cons e' es ih => rw [renderAll, ih, List.flatMap_cons, List.cons_append]

theorem length_lt_renderAll {e : Expr} {es : List Expr} (h : e ∈ es) :
    e.render.length < (renderAll es).length := by
  induction es with
  | nil => cases h
  | cons e' es ih =>
      rw [renderAll_cons, List.length_append, length_enclose]
      rcases List.mem_cons.mp h with rfl | h
      · omega
      · have hrest := ih h
        cases es with
        | nil => cases h
        | cons e'' es =>
            rw [renderAll_cons] at hrest
            simp only [List.flatMap_cons, List.cons_append, List.length_cons, List.length_append] at hrest ⊢
            omega

section Lists

open ExprParsers

variable {turn : List Expr → Parser Reader (Turn (List Expr) (List Expr))} {P : Expr → Prop}

/-- A loop that reads an expression on each turn, and goes round again after a comma. -/
theorem rounds_renderAll
    (hlast : ∀ e es es', P e → LikeAll es es' → Reads (turn es') (enclose e.render)
      (· = symbol .rightParen) (Turn.Leaves (LikeAll (es ++ [e]))))
    (hmore : ∀ e es es', P e → LikeAll es es' → Reads (turn es') (enclose e.render ++ [symbol .comma])
      (fun _ => True) (Turn.Goes (LikeAll (es ++ [e]))))
    {e : Expr} {rest es es' : List Expr} (hP : ∀ x ∈ e :: rest, P x) (hes : LikeAll es es') :
    Rounds turn es' (renderAll (e :: rest)) (· = symbol .rightParen) (LikeAll (es ++ e :: rest)) := by
  induction rest generalizing e es es' with
  | nil => exact .done (hlast e es es' (hP e (List.mem_singleton_self e)) hes)
  | cons e' rest ih =>
      obtain ⟨he, hrest⟩ := List.forall_mem_cons.mp hP
      rw [renderAll, List.append_cons, List.append_cons es]
      exact .again (hmore e es es' he hes) (by simp) (fun es' hes' => ih hrest hes') fun _ _ => trivial

/-- A loop that reads a comma and an expression on each turn, as long as there is a comma. -/
theorem rounds_flatMap
    (hdone : ∀ es es', LikeAll es es' →
      Reads (turn es') [] (·.continues = false) (Turn.Leaves (LikeAll es)))
    (hmore : ∀ e es es', P e → LikeAll es es' → Reads (turn es') (symbol .comma :: enclose e.render)
      (·.continuesItem = false) (Turn.Goes (LikeAll (es ++ [e]))))
    {rest es es' : List Expr} (hP : ∀ x ∈ rest, P x) (hes : LikeAll es es') :
    Rounds turn es' (rest.flatMap fun e => symbol .comma :: enclose e.render) (·.continues = false)
      (LikeAll (es ++ rest)) := by
  induction rest generalizing es es' with
  | nil =>
      rw [List.append_nil]
      exact .done (hdone es es' hes)
  | cons e rest ih =>
      obtain ⟨he, hrest⟩ := List.forall_mem_cons.mp hP
      rw [List.flatMap_cons, List.append_cons es]
      refine .again (hmore e es es' he hes) (List.cons_ne_nil _ _) (fun es' hes' => ih hrest hes') ?_
      intro k hk
      cases rest with
      | nil => exact (of_not_continues hk).1
      | cons e' rest => rfl

variable {n : Nat} {note : Note}

theorem arguments_renderAll {args : List Expr} (h : ∀ a ∈ args, a.Rereads)
    (hn : (renderAll args).length ≤ n) (stop : Token.Kind → Prop) :
    Reads (arguments (exprParsers n)) (renderAll args ++ [symbol .rightParen]) stop (LikeAll args) := by
  cases args with
  | nil => exact .accept_then (.pure rfl)
  | cons a args =>
      have hargs : ∀ x ∈ a :: args, x.Rereads ∧ x.render.length < n :=
        fun x hx => ⟨h x hx, Nat.lt_of_lt_of_le (length_lt_renderAll hx) hn⟩
      refine .accept_else ?_ ?_
      · have hnone : LikeAll [] [] := rfl
        refine (rounds_renderAll ?_ ?_ hargs hnone).loop.bind (fun args' hargs' => ?_) fun _ _ => rfl
        · intro e es es' he hes
          have hitem := (he.1.assignment he.2).mono (fun k (hk : k = symbol .rightParen) => by rw [hk]; rfl)
          refine hitem.bind_nil fun e' he' => .accept_else (.pure (hes.concat he')) ?_
          rintro k rfl
          nofun
        · intro e es es' he hes
          exact (he.1.assignment he.2).bind (fun e' he' => .accept_then (.pure (hes.concat he'))) fun _ _ => rfl
        · exact .expect_bind (.pure hargs')
      · rw [renderAll_cons]
        nofun

theorem primary_call {args : List Expr} (h : ∀ a ∈ args, a.Rereads) (hn : (renderAll args).length ≤ n)
    (text : String) (number : Option Nat) :
    Reads (primary (exprParsers n)) (name text :: enclose (renderAll args)) (·.continuesItem = false)
      (call note text args number).Like := by
  refine .span_bind fun start => .kind_bind fun _ _ => .advance_bind (.accept_then ?_)
  refine (arguments_renderAll h hn _).bind_nil fun args' hargs' => .previous_bind fun _ => .pure ?_
  rw [LikeAll] at hargs'
  simp only [Like, bare, hargs']

theorem expressionLayer_comma {e e' : Expr} {es : List Expr} (h : ∀ x ∈ e :: e' :: es, x.Rereads)
    (hn : (renderAll (e :: e' :: es)).length ≤ n + 1) :
    Reads (expressionLayer (exprParsers n)) (renderAll (e :: e' :: es)) (·.continues = false)
      (comma note (e :: e' :: es)).Like := by
  obtain ⟨he, hrest⟩ := List.forall_mem_cons.mp h
  rw [renderAll, List.length_append, List.length_cons] at hn
  have hitems : ∀ x ∈ e' :: es, x.Rereads ∧ x.render.length < n := by
    intro x hx
    have hlt := length_lt_renderAll hx
    exact ⟨hrest x hx, by omega⟩
  have hen : e.render.length ≤ n := by
    rw [length_enclose] at hn
    omega
  rw [renderAll_cons]
  refine (he.assignmentLayer hen).bind (fun e₀ he₀ => .at_then ?_) fun _ _ => rfl
  have hfirst : LikeAll [e] [e₀] := congrArg ([·]) he₀
  show Reads _ ((e' :: es).flatMap fun e => symbol .comma :: enclose e.render) _ _
  refine (rounds_flatMap ?_ ?_ hitems hfirst).loop.bind_nil fun items hitems => ?_
  · intro es es' hes
    exact .accept_else (.pure hes) fun _ hk => (of_not_continues hk).2
  · intro e es es' he hes
    exact .accept_then ((he.1.assignment he.2).bind_nil fun e' he' => .pure (hes.concat he'))
  · refine .previous_bind fun _ => .pure ?_
    exact congrArg (Expr.comma .blank) hitems

end Lists

/-! ## All expressions -/

namespace Rereads

open ExprParsers

variable {e : Expr}

theorem of_expressionLayer (hw : e.Writable) (h : ∀ n, e.render.length ≤ n + 1 →
    Reads (ExprParsers.expressionLayer (exprParsers n)) e.render (·.continues = false) e.Like) : e.Rereads := by
  obtain ⟨k, ks, hrender, hk⟩ := render_head hw
  refine ⟨?_, fun n hn => ?_⟩
  · rw [hrender]
    exact .paren hk
  · cases n with
    | zero => rw [hrender] at hn; cases hn
    | succ n => exact h n hn

theorem of_assignmentLayer (hw : e.Writable) (h : ∀ n, e.render.length ≤ n + 1 →
    Reads (ExprParsers.assignmentLayer (exprParsers n)) e.render (·.continuesItem = false) e.Like) :
    e.Rereads := by
  refine of_expressionLayer hw fun n hn => ?_
  have hitem := (h n hn).mono fun _ hk => (of_not_continues hk).1
  exact expression_of_assignment hitem fun _ hk => (of_not_continues hk).2

theorem of_conditionalLayer (hw : e.Writable) (h : ∀ n, e.render.length ≤ n + 1 →
    Reads (ExprParsers.conditionalLayer (exprParsers n)) e.render (·.continuesItem = false) e.Like) :
    e.Rereads :=
  of_assignmentLayer hw fun n hn =>
    assignment_of_conditional (h n hn) fun _ hk => (of_not_continuesItem hk).2.2.1

theorem of_binaryLayer (hw : e.Writable) (h : ∀ n, e.render.length ≤ n + 1 →
    Reads (ExprParsers.binaryLayer (exprParsers n) 1) e.render (·.continuesItem = false) e.Like) :
    e.Rereads :=
  of_conditionalLayer hw fun n hn =>
    conditional_of_binary (h n hn) fun _ hk => (of_not_continuesItem hk).2.2.2

theorem of_unaryLayer (hw : e.Writable) (h : ∀ n, e.render.length ≤ n + 1 →
    Reads (ExprParsers.unaryLayer (exprParsers n)) e.render (·.continuesItem = false) e.Like) :
    e.Rereads :=
  of_binaryLayer hw fun n hn => binary_of_unary (h n hn) (fun _ hk => (of_not_continuesItem hk).2.1) 1

theorem of_primary (hw : e.Writable) (hplain : Plain e.render) (h : ∀ n, e.render.length ≤ n + 1 →
    Reads (ExprParsers.primary (exprParsers n)) e.render (·.continuesItem = false) e.Like) :
    e.Rereads :=
  of_unaryLayer hw fun n hn =>
    unary_of_primary (h n hn) hplain fun _ hk => (of_not_continuesItem hk).1

end Rereads

/-- Every expression that can be written is parsed back. -/
theorem rereads {e : Expr} (h : e.Each Writable) : e.Rereads := by
  -- in each case: the layer that makes the node, and levels enough for the expressions inside of it
  have hw := h.self
  induction e using induct with
  | int _ v =>
      refine .of_primary hw (.word ?_) fun n _ => primary_int _ v _
      intro s
      unfold ofInt
      split <;> nofun
  | float => exact hw.elim
  | string _ text => exact .of_primary hw (.word nofun) fun n _ => primary_string _ text _
  | ident _ text b => exact .of_primary hw (.word nofun) fun n _ => primary_ident _ text b
  | unary _ op e ih =>
      obtain ⟨_, he⟩ := each_unary.mp h
      refine .of_unaryLayer hw fun n hn => unaryLayer_unary op (ih he he.self) ?_
      rw [render, UnaryOp.length_render, length_enclose] at hn
      omega
  | binary _ op l r ihl ihr =>
      obtain ⟨_, hl, hr⟩ := each_binary.mp h
      refine .of_binaryLayer hw fun n hn => ?_
      simp only [render, List.length_append, List.length_cons, length_enclose] at hn
      exact binaryLayer_binary op (ihl hl hl.self) (ihr hr hr.self) (by omega) (by omega)
  | assign _ op t v iht ihv =>
      obtain ⟨_, ht, hv⟩ := each_assign.mp h
      refine .of_assignmentLayer hw fun n hn => ?_
      simp only [render, List.length_append, List.length_cons, length_enclose] at hn
      exact assignmentLayer_assign op (iht ht ht.self) (ihv hv hv.self) (by omega) (by omega)
  | ternary _ c y o ihc ihy iho =>
      obtain ⟨_, hc, hy, ho⟩ := each_ternary.mp h
      refine .of_conditionalLayer hw fun n hn => ?_
      simp only [render, List.length_append, List.length_cons, length_enclose] at hn
      exact conditionalLayer_ternary (ihc hc hc.self) (ihy hy hy.self) (iho ho ho.self) (by omega)
        (by omega) (by omega)
  | call _ text args number ih =>
      obtain ⟨_, hargs⟩ := each_call.mp h
      refine .of_primary hw (.word nofun) fun n hn => ?_
      rw [render, List.length_cons, length_enclose] at hn
      exact primary_call (fun a ha => ih a ha (hargs a ha) (hargs a ha).self) (by omega) text number
  | cast _ t e ih =>
      obtain ⟨ht, he⟩ := each_cast.mp h
      refine .of_unaryLayer hw fun n hn => unaryLayer_cast ht (ih he he.self) ?_
      rw [render, List.length_append, length_enclose, length_enclose] at hn
      omega
  | member _ o field p ih =>
      obtain ⟨_, ho⟩ := each_member.mp h
      refine .of_unaryLayer hw fun n hn => unaryLayer_suffixed (ih ho ho.self) ?_ (.member _ field p)
      rw [render, List.length_append, length_enclose] at hn
      omega
  | comma _ es ih =>
      obtain ⟨hlength, hes⟩ := each_comma.mp h
      rcases es with _ | ⟨e, _ | ⟨e', es⟩⟩
      · cases hlength
      · simp [Writable] at hlength
      · refine .of_expressionLayer hw fun n hn => ?_
        exact expressionLayer_comma (fun x hx => ih x hx (hes x hx) (hes x hx).self) hn

end Expr

/-! ## Parsing undoes rendering -/

/-- A reader hands out the tokens that it has to scan, whatever else it has to scan. -/
theorem Reader.hands_tokens (us : List Token) (xs : List Lexeme) (last : Token) :
    Hands ⟨us.map .ok ++ xs, none, last⟩ us ⟨xs, none, last⟩ := by
  induction us with
  | nil => exact .nil _
  | cons u us ih => exact .cons rfl ih

/-- Running a parser on a reader whose first tokens are known. -/
theorem Parser.run_of_hands {α : Type} {feed r : Reader} {ts : List Token} (p : Parser Reader α)
    (h : feed.Hands ts r) (hne : ts ≠ []) (hlast : feed.last.kind = .eof) :
    ∃ s : Stream Reader, p.run feed = (p s).map (·.1) ∧ s.Has ts r := by
  cases h with
  | nil => exact absurd rfl hne
  | @cons _ feed' _ t ts hnext h =>
      refine ⟨⟨t, feed', .point 0, []⟩, ?_, .mk ?_ h⟩
      · have hfeed : Feed.next feed = (.ok t, feed') := hnext
        simp only [Parser.run, hfeed]
      · rw [(Reader.next_ok hnext).2, hlast]

/-- The end of file has no spelling. -/
theorem Token.Kind.ne_eof_of_spelled {us : List Token}
    (h : ∀ k ∈ us.map Token.kind, k.Spelled k.spelling.toList) : ∀ u ∈ us, u.kind ≠ .eof := by
  intro u hu heof
  have hspelled := h u.kind (List.mem_map_of_mem hu)
  rw [heof] at hspelled
  exact hspelled.pattern

/-- A parser that reads tokens up to the end of file reads the text of these tokens. -/
theorem Parser.Reads.run_written {α : Type} {p : Parser Reader α} {ks : List Token.Kind}
    {stop : Token.Kind → Prop} {good : α → Prop} (h : Reads p ks stop good) (hstop : stop .eof)
    (hks : ∀ k ∈ ks, k.Spelled k.spelling.toList) :
    ∃ v, p.run (Reader.ofSource (written ks)) = .ok v ∧ good v := by
  obtain ⟨us, hscan, hkinds⟩ := Lexeme.scanFrom_written hks 0 (Nat.le_refl _)
  have hus := ne_eof_of_spelled (hkinds ▸ hks)
  have hhands := Reader.hands_tokens us [] (Lexeme.last (written ks))
  rw [List.append_nil, ← hscan] at hhands
  -- the end of file comes behind, and is what the reader has left
  have hend := hhands.append (.cons rfl (.nil _))
  obtain ⟨s, hrun, hs⟩ := run_of_hands p hend (by simp) rfl
  obtain ⟨v, hv, hgood⟩ := h s us _ _ hkinds hus hstop hs
  refine ⟨v, ?_, hgood⟩
  rw [Reader.ofSource, Lexeme.scan, hrun, hv]
  rfl

namespace Expr

/-- An expression is parsed back from its tokens, with parentheses around them or without. -/
theorem reads_expression {e : Expr} (h : e.Each Writable) {ks : List Token.Kind}
    (hks : ks = e.render ∨ ks = enclose e.render) :
    Reads Parser.expression ks (·.continues = false) e.Like := by
  have hlevels : ∀ n, ks.length < n → Reads (exprParsers n).expression ks (·.continues = false) e.Like := by
    intro n hn
    rcases hks with rfl | rfl
    · exact (rereads h).expression n (Nat.le_of_lt hn)
    · rw [length_enclose] at hn
      exact (rereads h).enclosed (by omega)
  exact Reads.at_depth hlevels

/--
**Every expression has a source form.** The tokens of an expression can be spelled, and the text of them
is parsed back into the expression. So are the tokens alone, wherever they stand and whatever comes behind
them, as long as it does not continue an expression: exactly these tokens are consumed.
-/
theorem expression_render (e : Expr) (h : e.Each Writable) (ks : List Token.Kind)
    (hks : ks = e.render ∨ ks = enclose e.render) :
    (∀ k ∈ ks, k.Spelled k.spelling.toList) ∧
      (∃ e', Parser.expression.run (Reader.ofSource (written ks)) = .ok e' ∧ e'.bare = e.bare) ∧
      ∀ (s : Stream Reader) (us : List Token) (t : Token) (r : Reader), us.map Token.kind = ks →
        s.Has (us ++ [t]) r → t.kind.continues = false →
          ∃ e', Parser.expression s = .ok (e', s.behind us t r) ∧ e'.bare = e.bare := by
  have hspelled : ∀ k ∈ ks, k.Spelled k.spelling.toList := by
    rcases hks with rfl | rfl
    · exact spelled_render h
    · exact spelled_enclose (spelled_render h)
  have hreads := reads_expression h hks
  refine ⟨hspelled, hreads.run_written rfl hspelled, ?_⟩
  intro s us t r hkinds hs ht
  exact hreads s us t r hkinds (ne_eof_of_spelled (hkinds ▸ hspelled)) ht hs

/-- An expression in which every sign and parenthesis could be misread. -/
def intricate : Expr :=
  .assign .blank .add (.member .blank (.ident .blank "s" none) "n" none)
    (.ternary .blank (.cast .blank .int (.ident .blank "t" none))
      (.call .blank "f" [.int .blank (-1), .string .blank "a\"\n"] none)
      (.comma .blank [.unary .blank .postInc (.ident .blank "i" none),
        .unary .blank .neg (.int .blank 2147483647)]))

theorem expression_render_intricate : intricate.Each Writable ∧
    (∃ e', Parser.expression.run (Reader.ofSource ("( ( s ) . n ) += ( ( ( int ) ( t ) ) ? " ++
      "( f ( ( 0xffffffff ) , ( \"a\\\"\\n\" ) ) ) : ( ( ( i ) ++ ) , ( - ( 2147483647 ) ) ) )")) = .ok e' ∧
        e'.bare = intricate.bare) ∧
    ∃ (s : Stream Reader) (us : List Token) (t : Token) (bad : BadText) (last : Token),
      us.map Token.kind = intricate.render ∧ t.kind = .symbol .semicolon ∧
        s.Has (us ++ [t]) ⟨[.error bad], none, last⟩ ∧
        ∃ e', Parser.expression s = .ok (e', s.behind us t ⟨[.error bad], none, last⟩) ∧
          e'.bare = intricate.bare := by
  have hwritable : ∀ x ∈ intricate.nodes, x.Writable := by decide +kernel
  obtain ⟨_, hparse, hreads⟩ := expression_render intricate hwritable intricate.render (.inl rfl)
  have hwritten : written intricate.render = "( ( s ) . n ) += ( ( ( int ) ( t ) ) ? " ++
      "( f ( ( 0xffffffff ) , ( \"a\\\"\\n\" ) ) ) : ( ( ( i ) ++ ) , ( - ( 2147483647 ) ) ) )" := by
    decide +kernel
  rw [hwritten] at hparse
  refine ⟨hwritable, hparse, ?_⟩
  -- a semicolon comes behind, and then text that is no token
  have hhands := Reader.hands_tokens (intricate.render.map (⟨·, .point 0⟩) ++ [⟨.symbol .semicolon, .point 0⟩])
    [.error ⟨.point 0, "@"⟩] ⟨.eof, .point 0⟩
  obtain ⟨s, _, hs⟩ := Parser.run_of_hands Parser.expression hhands (by simp) rfl
  have hkinds : (intricate.render.map fun k => (⟨k, .point 0⟩ : Token)).map Token.kind = intricate.render := by
    rw [List.map_map]
    exact List.map_id _
  exact ⟨s, _, _, _, _, hkinds, rfl, hs, hreads s _ _ _ hkinds hs rfl⟩

end Expr

end Jaf
