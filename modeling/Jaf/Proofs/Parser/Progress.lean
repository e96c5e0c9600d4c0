import Jaf.Proofs.Parser.RecursionBounds
import Jaf.Proofs.Parser.StatementForms

/-!
# Every parser of the grammar consumes tokens

The parsers of the grammar are gone through one by one with the rules of `Pacing`. What comes out is that
every parser for something that can be written, from a literal to a declaration, consumes a token when it
succeeds, that none consumes the end of file, and that none reaches its bound as long as the bound is greater
than the number of tokens left. The parsers of a level are over those one level further in, and come to them
only after a token, so the levels go down with the tokens.
-/

namespace Jaf

variable {φ ψ : Type} [Feed φ] [Feed ψ] {P : Pacing φ ψ} {b : Nat}

/-! ## Expressions -/

theorem error_of_map {ε α β : Type} {r : Except ε α} {f : α → β} {e : ε}
    (h : r.map f = .error e) : r = .error e := by
  cases r with
  | error e' => cases h; rfl
  | ok a => cases h

/-- What is wrong with a string literal is one of its escapes. -/
theorem unescape_error {cs : List Char} {cause : SyntaxCause} (h : unescape cs = .error cause) :
    cause ≠ .tooDeep := by
  fun_induction unescape cs with
  | case1 => cases h
  | case2 => cases h; simp
  | case3 c cs d hd ih => exact ih (error_of_map h)
  | case4 c cs hc => cases h; simp
  | case5 c cs _ _ ih => exact ih (error_of_map h)

theorem Token.Kind.ne_eof_of_binary? {k : Token.Kind} {op : BinaryOp} (h : k.binary? = some op) : k ≠ .eof := by
  rintro rfl
  cases h

namespace ExprParsers

open Jaf.Parser Pacing

/-- The expression parsers of one level pace those of another, and consume tokens. -/
structure Pace (P : Pacing φ ψ) (b : Nat) (inner : ExprParsers φ) (inner' : ExprParsers ψ) : Prop where
  expression : P.Takes b inner.expression inner'.expression
  assignment : P.Takes b inner.assignment inner'.assignment
  conditional : P.Takes b inner.conditional inner'.conditional
  binary (least : Nat) : P.Takes b (inner.binary least) (inner'.binary least)
  unary : P.Takes b inner.unary inner'.unary

variable {inner : ExprParsers φ} {inner' : ExprParsers ψ}

theorem keeps_literal {place : Span} {make : Note → Except SyntaxCause Expr}
    (h : ∀ n cause, make n = .error cause → cause ≠ .tooDeep) :
    P.Keeps b (literal place make) (literal place make) := by
  unfold literal
  split
  next => exact paces_pure rfl
  next cause hcause => exact paces_failAt (h _ _ hcause)

theorem keeps_numeric {α : Type} {place : Span} {cause : SyntaxCause} {make : Note → α → Expr}
    {value : Option α} (h : cause ≠ .tooDeep) :
    P.Keeps b (literal place (numeric cause make value)) (literal place (numeric cause make value)) := by
  refine keeps_literal fun n cause' hcause => ?_
  cases value with
  | some v => cases hcause
  | none => cases hcause; exact h

theorem keeps_arguments (h : Pace P b inner inner') : P.Keeps b (arguments inner) (arguments inner') := by
  refine accept_bind (by simp) (paces_pure rfl) ?_
  refine (keeps_loop (fun args => ?_) _).bind fun args => (takes_expect (by simp)).bind fun _ => paces_pure rfl
  exact h.assignment.bind fun e => accept_bind (by simp) (paces_pure rfl) (paces_pure rfl)

theorem takes_primary (h : Pace P b inner inner') :
    P.Takes (b + 1) (primary inner) (primary inner') := by
  refine looks_span.then fun start => kind_bind fun k => ?_
  split
  -- literals
  · exact advance_descend (by simp) (keeps_numeric (by simp))
  · exact advance_descend (by simp) (keeps_numeric (by simp))
  · exact advance_descend (by simp) (keeps_numeric (by simp))
  · refine advance_descend (by simp) (keeps_literal fun n cause hcause => ?_)
    exact unescape_error (error_of_map (error_of_map hcause))
  -- a name or a call
  · refine advance_descend (by simp) (accept_bind (by simp) ?_ (paces_pure rfl))
    exact (keeps_arguments h).bind fun args => looks_previous.ends
  -- parentheses
  · refine advance_descend (by simp) (h.expression.bind fun e => (takes_expect (by simp)).bind fun _ => ?_)
    exact looks_previous.ends
  · exact paces_unexpected

theorem keeps_suffixes (e : Expr) : P.Keeps b (suffixes e) (suffixes e) := by
  refine keeps_loop (fun e => kind_bind fun k => ?_) e
  split
  · exact advance_at (by simp) (takes_name.bind fun field => looks_previous.ends)
  · exact advance_at (by simp) looks_previous.ends
  · exact advance_at (by simp) looks_previous.ends
  · exact looks_span.then fun p => paces_failAt (by simp)
  · exact paces_pure rfl

/-- An operand with nothing in front of it. -/
theorem takes_suffixed (h : Pace P b inner inner') :
    P.Takes (b + 1) (primary inner >>= suffixes) (primary inner' >>= suffixes) :=
  (takes_primary h).bind fun e => keeps_suffixes e

theorem keeps_operand (h : Pace P b inner inner') (start : Span) (op : UnaryOp) :
    P.Keeps b (operand inner start op) (operand inner' start op) := by
  refine looks_span.then fun here => kind_bind fun k => ?_
  split
  next hleast =>
    have hk : k ≠ .eof := by rw [hleast.2]; simp
    exact advance_at hk (paces_pure rfl)
  next => exact h.unary.bind fun e => paces_pure rfl

theorem keeps_castTail (h : Pace P b inner inner') (start : Span) (target : TypeKind) {k : Token.Kind}
    (hk : k ≠ .eof) :
    P.PacesFrom (At k) b (fun _ => false) (castTail inner start target) (castTail inner' start target) :=
  advance_at hk ((takes_expect (by simp)).bind fun _ => h.unary.bind fun e => paces_pure rfl)

theorem takes_unaryLayer (h : Pace P b inner inner') :
    P.Takes (b + 1) (unaryLayer inner) (unaryLayer inner') := by
  refine looks_span.then fun start => kind_bind fun k => ?_
  split
  · exact advance_descend (by simp) h.unary.relax
  -- a parenthesis: a look at the token behind it tells a cast
  · refine lookahead_bind (by simp) fun k' => ?_
    split
    next target htarget =>
      have hk' : k' ≠ .eof := by rintro rfl; cases htarget
      exact advance_then (by simp) (keeps_castTail h start target hk')
    next => exact (takes_suffixed h).from
  · split
    next op hop =>
      refine advance_descend ?_ (keeps_operand h start op)
      rintro rfl
      cases hop
    next => exact (takes_suffixed h).from

/-- One turn of climbing: an operator that binds tightly enough, with its right operand. -/
def climb (inner : ExprParsers φ) (least : Nat) (left : Expr) : Parser φ (Turn Expr Expr) := do
  match (← kind).binary? with
  | some op =>
    if op.precedence < least then
      return .done left
    else
      advance
      let right ← inner.binary (op.precedence + 1)
      return .again (.binary (.ofSpan (left.span.merge right.span)) op left right)
  | none => return .done left

theorem binaryLayer_eq (inner : ExprParsers φ) (least : Nat) :
    binaryLayer inner least = unaryLayer inner >>= loop (climb inner least) := rfl

theorem paces_climb (h : Pace P b inner inner') (least : Nat) (left : Expr) :
    P.Paces b Turn.goesOn (climb inner least left) (climb inner' least left) := by
  refine kind_bind fun k => ?_
  split
  next op hop =>
    refine .ite (paces_pure rfl) (advance_at (Token.Kind.ne_eof_of_binary? hop) ?_)
    exact (h.binary _).bind fun right => paces_pure rfl
  next => exact paces_pure rfl

theorem takes_binaryLayer (h : Pace P b inner inner') (least : Nat) :
    P.Takes (b + 1) (binaryLayer inner least) (binaryLayer inner' least) := by
  rw [binaryLayer_eq, binaryLayer_eq]
  exact (takes_unaryLayer h).descend (keeps_loop (paces_climb h least))

theorem takes_conditionalLayer (h : Pace P b inner inner') :
    P.Takes (b + 1) (conditionalLayer inner) (conditionalLayer inner') := by
  refine (takes_binaryLayer h 1).descend fun test => accept_bind (by simp) ?_ (paces_pure rfl)
  exact h.expression.bind fun yes => (takes_expect (by simp)).bind fun _ =>
    h.conditional.bind fun no => paces_pure rfl

theorem takes_assignmentLayer (h : Pace P b inner inner') :
    P.Takes (b + 1) (assignmentLayer inner) (assignmentLayer inner') := by
  refine (takes_conditionalLayer h).descend fun target => kind_bind fun k => ?_
  split
  next op hop =>
    have hk : k ≠ .eof := by rintro rfl; cases hop
    exact advance_at hk (h.assignment.bind fun value => paces_pure rfl)
  next => exact paces_pure rfl

theorem takes_expressionLayer (h : Pace P b inner inner') :
    P.Takes (b + 1) (expressionLayer inner) (expressionLayer inner') := by
  refine (takes_assignmentLayer h).descend fun first => (looks_at _).then fun more => .ite ?_ (paces_pure rfl)
  refine (keeps_loop (fun items => ?_) _).bind fun items => looks_previous.ends
  exact accept_bind (by simp) (h.assignment.bind fun e => paces_pure rfl) (paces_pure rfl)

/-- The levels may differ, if both are enough for the tokens left. -/
theorem pace_exprParsers {n n' : Nat} (hn : b ≤ n) (hn' : b ≤ n') :
    Pace P b (exprParsers n) (exprParsers n') := by
  induction b generalizing n n' with
  | zero =>
      have hnone : ∀ {p : Parser φ Expr} {q : Parser ψ Expr}, P.Takes 0 p q :=
        fun _ _ _ _ hb => absurd hb (Nat.not_lt_zero _)
      exact ⟨hnone, hnone, hnone, fun _ => hnone, hnone⟩
  | succ b ih =>
      obtain ⟨n, rfl⟩ := Nat.exists_eq_add_one_of_ne_zero (Nat.ne_zero_of_lt hn)
      obtain ⟨n', rfl⟩ := Nat.exists_eq_add_one_of_ne_zero (Nat.ne_zero_of_lt hn')
      have h := ih (Nat.le_of_succ_le_succ hn) (Nat.le_of_succ_le_succ hn')
      exact ⟨takes_expressionLayer h, takes_assignmentLayer h, takes_conditionalLayer h,
        takes_binaryLayer h, takes_unaryLayer h⟩

end ExprParsers

namespace Pacing

open Jaf.Parser ExprParsers

theorem takes_expression : P.Takes b expression expression :=
  paces_depth fun _ _ _ hn hn' => (pace_exprParsers hn hn').expression

theorem takes_assignment : P.Takes b assignment assignment :=
  paces_depth fun _ _ _ hn hn' => (pace_exprParsers hn hn').assignment

theorem takes_conditional : P.Takes b conditional conditional :=
  paces_depth fun _ _ _ hn hn' => (pace_exprParsers hn hn').conditional

theorem takes_condition : P.Takes b condition condition :=
  (takes_expect (by simp)).bind fun _ => takes_expression.bind fun _ =>
    (takes_expect (by simp)).bind fun _ => paces_pure rfl

/-! ## Types and parameters -/

section
variable {inner : Parser φ TypeSpec} {inner' : Parser ψ TypeSpec}

theorem takes_members (h : P.Takes b inner inner') : P.Takes b (members inner) (members inner') := by
  refine looks_span.then fun start => h.bind fun type => accept_bind (by simp) ?_ ?_
  · exact looks_previous.ends
  · refine (keeps_loop (fun r => ?_) _).bind fun ds => (takes_expect (by simp)).bind fun _ => paces_pure rfl
    refine takes_name.bind fun field => looks_previous.then fun p => ?_
    exact accept_bind (by simp) (paces_pure rfl) (paces_pure rfl)

theorem keeps_structTail (h : P.Takes b inner inner') (start : Span) :
    P.Keeps b (structTail inner start) (structTail inner' start) := by
  refine keeps_name?.bind fun tag => ?_
  -- what follows the tag is the same whether the tag makes a type name or not
  extract_lets rest rest'
  have hrest : ∀ u, P.Keeps b (rest u) (rest' u) := by
    intro u
    refine accept_bind (by simp) ?_ ?_
    · refine (keeps_loop (fun ds => looks_kind.then fun k => ?_) _).bind fun ds =>
        (takes_expect (by simp)).bind fun _ => looks_previous.ends
      split
      · exact paces_pure rfl
      · exact paces_failAt (by simp)
      · exact (takes_members h).bind fun more => paces_pure rfl
    · split
      · exact looks_previous.ends
      · exact paces_unexpected
  split
  · exact (keeps_addTypeName _).bind hrest
  · exact hrest ()

theorem keeps_enumerators : P.Keeps b enumerators enumerators := by
  refine keeps_loop (fun _ => (looks_at _).then fun closed => .ite (paces_pure rfl) ?_) _
  refine takes_name.bind fun label => ?_
  refine (keeps_accept (by simp)).bind fun valued => ?_
  extract_lets rest rest'
  have hrest : ∀ u, P.Keeps b (rest u) (rest' u) := fun u =>
    accept_bind (by simp) (paces_pure rfl) (paces_pure rfl)
  exact .ite (takes_conditional.bind fun _ => hrest ()) (hrest ())

theorem keeps_enumTail (start : Span) : P.Keeps b (enumTail start) (enumTail start) := by
  refine keeps_name?.bind fun tag => ?_
  refine (keeps_accept (by simp)).bind fun braced => ?_
  extract_lets rest rest'
  have hrest : ∀ u, P.Keeps b (rest u) (rest' u) := fun u => looks_previous.ends
  exact .ite (keeps_enumerators.bind fun _ => (takes_expect (by simp)).bind hrest) (hrest ())

theorem takes_typeLayer (h : P.Takes b inner inner') :
    P.Takes (b + 1) (typeLayer inner) (typeLayer inner') := by
  refine looks_span.then fun start => ?_
  extract_lets word word'
  have hword : ∀ {k : Token.Kind} (kind : TypeKind), k ≠ .eof →
      P.PacesFrom (At k) (b + 1) (fun _ => true) (word kind) (word' kind) :=
    fun _ hk => advance_at hk (paces_pure rfl)
  refine kind_bind fun k => ?_
  split
  · exact hword _ (by simp)
  · exact hword _ (by simp)
  · exact hword _ (by simp)
  · exact hword _ (by simp)
  · exact advance_descend (by simp) (keeps_structTail h start)
  · exact advance_descend (by simp) (keeps_enumTail start)
  · refine (looks_isTypeName _).then fun known => .ite ?_ paces_unexpected
    exact advance_at (by simp) (paces_pure rfl)
  · exact paces_unexpected

theorem takes_typeSpecN {n n' : Nat} (hn : b ≤ n) (hn' : b ≤ n') :
    P.Takes b (typeSpecN n) (typeSpecN n') := by
  induction b generalizing n n' with
  | zero => exact fun _ _ _ _ hb => absurd hb (Nat.not_lt_zero _)
  | succ b ih =>
      obtain ⟨n, rfl⟩ := Nat.exists_eq_add_one_of_ne_zero (Nat.ne_zero_of_lt hn)
      obtain ⟨n', rfl⟩ := Nat.exists_eq_add_one_of_ne_zero (Nat.ne_zero_of_lt hn')
      exact takes_typeLayer (ih (Nat.le_of_succ_le_succ hn) (Nat.le_of_succ_le_succ hn'))

end

theorem takes_typeSpec : P.Takes b typeSpec typeSpec := paces_depth fun _ _ _ hn hn' => takes_typeSpecN hn hn'

/-- Where the token after a `void` closes the list, both are consumed. -/
theorem atLoneVoid_bind {α : Type} {p p' : Parser φ α} {q q' : Parser ψ α} (h : P.Keeps b p q)
    (h' : P.Keeps b p' q') :
    P.Keeps b (do if ← atLoneVoid then advance; advance; p else p')
      (do if ← atLoneVoid then advance; advance; q else q') := by
  simp only [atLoneVoid, at?, bind_assoc, pure_bind]
  refine kind_bind fun k => ?_
  by_cases hk : k = .keyword .kwVoid
  · simp only [hk, decide_true, if_true, bind_assoc, pure_bind]
    refine lookahead_bind (by simp) fun k' => ?_
    by_cases hk' : k' = .symbol .rightParen
    · simp only [hk', decide_true, if_true]
      exact advance_then (by simp) (advance_at (by simp) (h.mono (Nat.sub_le b 1)))
    · simp only [hk', decide_false, Bool.false_eq_true, if_false]
      exact h'.from
  · simp only [hk, decide_false, Bool.false_eq_true, if_false, pure_bind]
    exact h'.from

theorem takes_parameters : P.Takes b parameters parameters := by
  refine (takes_expect (by simp)).bind fun _ => accept_bind (by simp) (paces_pure rfl) ?_
  refine atLoneVoid_bind (paces_pure rfl) ?_
  refine (keeps_loop (fun params => ?_) _).bind fun params => (takes_expect (by simp)).bind fun _ => paces_pure rfl
  refine looks_span.then fun start => takes_typeSpec.bind fun type => keeps_name?.bind fun label => ?_
  exact looks_previous.then fun p => accept_bind (by simp) (paces_pure rfl) (paces_pure rfl)

end Pacing

/-! ## Declarations and statements -/

namespace BlockParsers

open Jaf.Parser Pacing

/-- The statement parsers of one level pace those of another, and consume tokens. -/
structure Pace (P : Pacing φ ψ) (b : Nat) (inner : BlockParsers φ) (inner' : BlockParsers ψ) : Prop where
  item : P.Takes b inner.item inner'.item
  stmt : P.Takes b inner.stmt inner'.stmt

variable {inner : BlockParsers φ} {inner' : BlockParsers ψ}

theorem takes_block (h : Pace P b inner inner') : P.Takes (b + 1) inner.block inner'.block := by
  refine looks_span.then fun start => (takes_expect (by simp)).descend fun _ => ?_
  refine (keeps_loop (fun items => looks_kind.then fun k => ?_) _).bind fun items =>
    (takes_expect (by simp)).bind fun _ => looks_previous.ends
  split
  · exact paces_pure rfl
  · exact paces_failAt (by simp)
  · exact h.item.bind fun more => paces_pure rfl

theorem keeps_declarators (start : Span) (type : TypeSpec) (first : String) :
    P.Keeps b (declarators start type first) (declarators start type first) := by
  refine (keeps_loop (fun r => ?_) _).bind fun items => (takes_expect (by simp)).bind fun _ => paces_pure rfl
  refine (keeps_accept (by simp)).bind fun initialised => ?_
  extract_lets rest rest'
  have hrest : ∀ init, P.Paces b Turn.goesOn (rest init) (rest' init) := fun init =>
    looks_previous.then fun p => accept_bind (by simp) (takes_name.bind fun label => paces_pure rfl) (paces_pure rfl)
  exact .ite (Keeps.bind takes_assignment.map hrest) (hrest none)

theorem takes_declaration (h : Pace P b inner inner') :
    P.Takes (b + 1) inner.declaration inner'.declaration := by
  refine looks_span.then fun start => takes_typeSpec.bind fun type => accept_bind (by simp) ?_ ?_
  · exact looks_previous.ends
  · refine takes_name.bind fun label => (looks_at _).then fun isFunction => .ite ?_ (keeps_declarators start type label)
    exact takes_parameters.bind fun params => (takes_block h).bind fun body => paces_pure rfl

theorem keeps_forInit (h : Pace P b inner inner') : P.Keeps (b + 1) inner.forInit inner'.forInit := by
  refine looks_span.then fun start => looks_startsType.then fun typed => ?_
  extract_lets rest rest'
  have hrest : ∀ items, P.Keeps (b + 1) (rest items) (rest' items) := fun items => looks_previous.ends
  refine .ite ((takes_declaration h).bind hrest) (accept_bind (by simp) (hrest []) ?_)
  exact takes_expression.bind fun e => (takes_expect (by simp)).bind fun _ => hrest _

theorem keeps_exprBefore (stop : Symbol) : P.Keeps b (exprBefore stop) (exprBefore stop) :=
  (looks_at _).then fun _ => .ite (paces_pure rfl) (takes_expression.bind fun _ => paces_pure rfl)

theorem takes_rule (rule : ExprRule) : P.Takes b rule.parser rule.parser := by
  cases rule with
  | expression => exact takes_expression
  | conditional => exact takes_conditional
  | condition => exact takes_condition

theorem keeps_tail (h : Pace P b inner inner') {finish : Parser φ Span} {finish' : Parser ψ Span}
    (hfinish : P.Looks finish finish') {ns : List Node} (t : StmtTail ns) :
    P.Keeps b (t.parser inner finish) (t.parser inner' finish') := by
  induction t with
  | done make _ _ => exact hfinish.ends
  | expect k next ne ih => exact (takes_expect ne).bind fun _ => ih
  | name next ih => exact takes_name.bind ih
  | expr rule next ih => exact (takes_rule rule).bind ih
  | option stop next ih => exact (keeps_exprBefore stop).bind fun e => (takes_expect (by simp)).bind fun _ => ih e
  | block next ih => exact Takes.bind ((takes_block h).mono (Nat.le_succ b)) ih
  | init next ih => exact Keeps.bind ((keeps_forInit h).mono (Nat.le_succ b)) ih
  | stmt next ih => exact h.stmt.bind ih
  | ifNext k yes no ne ihyes ihno => exact accept_bind ne ihyes ihno

theorem takes_stmtLayer (h : Pace P b inner inner') :
    P.Takes (b + 1) inner.stmtLayer inner'.stmtLayer := by
  rw [stmtLayer_eq, stmtLayer_eq]
  refine looks_span.then fun start => ?_
  extract_lets finish finish'
  have hfinish : P.Looks finish finish' := looks_previous.bind fun p => looks_pure
  have hexpr : P.Takes (b + 1) (StmtTail.expression.parser inner finish) (StmtTail.expression.parser inner' finish') :=
    takes_expression.descend fun e => keeps_tail h hfinish _
  refine kind_bind fun k => ?_
  cases hk : StmtStart.of k with
  | word t => exact advance_descend (StmtStart.ne_eof (by simp [hk])) (keeps_tail h hfinish t)
  | block => exact (takes_block h).descend fun body => keeps_tail h hfinish _
  | expr => exact hexpr.from
  | name text =>
      -- a look at the token behind a name tells a label
      refine lookahead_bind (StmtStart.ne_eof (by simp [hk])) fun k' => ?_
      split
      next hcolon =>
        refine advance_then (StmtStart.ne_eof (by simp [hk])) (advance_at ?_ (keeps_tail h hfinish _))
        rw [hcolon]
        simp
      next => exact hexpr.from

theorem takes_itemLayer (h : Pace P b inner inner') :
    P.Takes (b + 1) inner.itemLayer inner'.itemLayer :=
  looks_startsType.then fun _ =>
    .ite (takes_declaration h) ((takes_stmtLayer h).bind fun _ => paces_pure rfl)

theorem pace_blockParsers {n n' : Nat} (hn : b ≤ n) (hn' : b ≤ n') :
    Pace P b (blockParsers n) (blockParsers n') := by
  induction b generalizing n n' with
  | zero => exact ⟨fun _ _ _ _ hb => absurd hb (Nat.not_lt_zero _), fun _ _ _ _ hb => absurd hb (Nat.not_lt_zero _)⟩
  | succ b ih =>
      obtain ⟨n, rfl⟩ := Nat.exists_eq_add_one_of_ne_zero (Nat.ne_zero_of_lt hn)
      obtain ⟨n', rfl⟩ := Nat.exists_eq_add_one_of_ne_zero (Nat.ne_zero_of_lt hn')
      have h := ih (Nat.le_of_succ_le_succ hn) (Nat.le_of_succ_le_succ hn')
      exact ⟨takes_itemLayer h, takes_stmtLayer h⟩

end BlockParsers

namespace Pacing

open Jaf.Parser BlockParsers

theorem takes_declaration : P.Takes b declaration declaration :=
  paces_depth fun b _ _ hn hn' =>
    (BlockParsers.takes_declaration (pace_blockParsers hn hn')).mono (Nat.le_succ b)

theorem keeps_script : P.Keeps b script script := by
  refine looks_span.then fun start => ?_
  refine (keeps_loop (fun items => ?_) _).bind fun items => looks_previous.ends
  refine (looks_at _).then fun ended => .ite (paces_pure rfl) (looks_startsType.then fun typed => ?_)
  exact .ite (takes_declaration.bind fun more => paces_pure rfl) paces_unexpected

end Pacing

end Jaf
