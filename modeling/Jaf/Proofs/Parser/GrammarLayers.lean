import Jaf.Proofs.Parser.ConsumedTokens
import Jaf.Proofs.Parser.SourceForms

/-!
# The layers of the grammar

Every layer of the expression grammar first reads with the layer below, then looks whether the token
behind makes it go on. So what one layer reads, the next one reads as well, if the token behind is none
that it goes on with. These are the steps by which something that is read as an operand is also read as an
expression; the only layer that looks at what comes first is the one of the operators and casts in front.
-/

namespace Jaf

/-! ## Tokens that continue an expression -/

namespace Token.Kind

/-- The tokens that an operand goes on with; a parenthesis there would make it a call. -/
def isSuffix (k : Token.Kind) : Bool :=
  k ∈ [symbol .dot, symbol .plusPlus, symbol .minusMinus, symbol .leftParen]

/-- The tokens that an expression without a comma at the top goes on with. -/
def continuesItem (k : Token.Kind) : Bool :=
  k.isSuffix || k.binary?.isSome || k.assign?.isSome || k = symbol .question

/-- The tokens that an expression goes on with. -/
def continues (k : Token.Kind) : Bool := k.continuesItem || k = symbol .comma

theorem of_not_continuesItem {k : Token.Kind} (h : k.continuesItem = false) :
    k.isSuffix = false ∧ k.binary? = none ∧ k.assign? = none ∧ k ≠ symbol .question := by
  simpa [continuesItem, and_assoc] using h

theorem of_not_continues {k : Token.Kind} (h : k.continues = false) :
    k.continuesItem = false ∧ k ≠ symbol .comma := by
  simpa [continues] using h

end Token.Kind

namespace Expr

theorem bareAll_eq_map (es : List Expr) : bareAll es = es.map bare := by
  induction es with
  | nil => rfl
  | cons e es ih => rw [bareAll, ih, List.map_cons]

theorem bare_moveTo (place : Span) (e : Expr) : (e.moveTo place).bare = e.bare := by cases e <;> rfl

/-- The other expression is the same, apart from places and annotations. -/
def Like (e e' : Expr) : Prop := e'.bare = e.bare

end Expr

/-! ## From one layer to the next -/

namespace ExprParsers

open Jaf.Parser

variable {inner : ExprParsers Reader} {ks ks' : List Token.Kind} {stop stop' : Token.Kind → Prop}
  {good : Expr → Prop}

/-- Tokens with no operator or cast in front. -/
inductive Plain : List Token.Kind → Prop
  | word {k : Token.Kind} {ks : List Token.Kind} : (∀ s, k ≠ .symbol s) → Plain (k :: ks)
  | paren {k : Token.Kind} {ks : List Token.Kind} : castTarget? k = none →
      Plain (.symbol .leftParen :: k :: ks)

theorem reads_literal {place : Span} {make : Note → Except SyntaxCause Expr} {e : Expr}
    (h : make (.ofSpan place) = .ok e) (he : good e) : Reads (literal place make) [] stop good := by
  rw [literal, h]
  exact .pure he

theorem reads_numeric {α : Type} {place : Span} {cause : SyntaxCause} {make : Note → α → Expr}
    {value : Option α} {v : α} (h : value = some v) (hv : good (make (.ofSpan place) v)) :
    Reads (literal place (numeric cause make value)) [] stop good := by
  subst h
  exact reads_literal rfl hv

/-- What an operand becomes by the tokens behind it. -/
inductive Suffixed (e : Expr) : List Token.Kind → Expr → Prop
  | member (n : Note) (field : String) (p : Option Nat) :
      Suffixed e [.symbol .dot, .name field] (.member n e field p)
  | inc (n : Note) : Suffixed e [.symbol .plusPlus] (.unary n .postInc e)
  | dec (n : Note) : Suffixed e [.symbol .minusMinus] (.unary n .postDec e)

/-- One turn of the loop over the suffixes of an operand takes one suffix, or leaves where there is none. -/
theorem suffixes_turn : ∃ turn : Expr → Parser Reader (Turn Expr Expr),
    (∀ e, suffixes e = loop turn e) ∧
    (∀ e stop good, good e → (∀ k, stop k → k.isSuffix = false) →
      Reads (turn e) [] stop (Turn.Leaves good)) ∧
    ∀ e ks e' e₀ stop, Suffixed e ks e' → e.Like e₀ → Reads (turn e₀) ks stop (Turn.Goes e'.Like) := by
  refine ⟨_, fun _ => rfl, ?_, ?_⟩
  · intro e stop good he hstop
    refine .kind_bind fun k hk => ?_
    have hsuffix := hstop k hk
    rw [List.headD_nil]
    split
    · cases hsuffix
    · cases hsuffix
    · cases hsuffix
    · cases hsuffix
    · exact .pure he
  · intro e ks e' e₀ stop h he
    rw [Expr.Like] at he
    cases h with
    | member n field p =>
        refine .kind_bind fun _ _ => .advance_bind (.name_bind (.previous_bind fun _ => .pure ?_))
        simp only [Turn.Goes, Expr.Like, Expr.bare, he]
    | inc n | dec n =>
        refine .kind_bind fun _ _ => .advance_bind (.previous_bind fun _ => .pure ?_)
        simp only [Turn.Goes, Expr.Like, Expr.bare, he]

theorem reads_suffixes_nil {e : Expr} (he : good e) (hstop : ∀ k, stop k → k.isSuffix = false) :
    Reads (suffixes e) [] stop good := by
  obtain ⟨turn, hloop, hdone, _⟩ := suffixes_turn
  rw [hloop]
  exact (Rounds.done (hdone e stop good he hstop)).loop

theorem reads_suffixes {e e₀ e' : Expr} (h : Suffixed e ks e') (he : e.Like e₀)
    (hstop : ∀ k, stop k → k.isSuffix = false) : Reads (suffixes e₀) ks stop e'.Like := by
  obtain ⟨turn, hloop, hdone, hagain⟩ := suffixes_turn
  have hks : ks ≠ [] := by cases h <;> exact List.cons_ne_nil _ _
  rw [hloop]
  exact Rounds.once (hagain e ks e' e₀ stop h he) hks fun e he => hdone e stop _ he hstop

theorem unary_of_suffixes (h : Reads (primary inner) ks stop good) (hks : Plain ks)
    {good' : Expr → Prop} (hsuffixes : ∀ e, good e → Reads (suffixes e) ks' stop' good')
    (hstop : ∀ k, stop' k → stop (ks'.headD k)) : Reads (unaryLayer inner) (ks ++ ks') stop' good' := by
  cases hks with
  | @word k ks hk =>
      refine .span_bind fun start => .kind_bind fun _ _ => ?_
      cases k with
      | symbol s => exact absurd rfl (hk s)
      | _ => exact h.bind hsuffixes hstop
  | @paren k ks hk =>
      refine .span_bind fun start => .kind_bind fun _ _ => .lookahead_bind ?_
      rw [hk]
      exact h.bind hsuffixes hstop

theorem unary_of_primary (h : Reads (primary inner) ks stop good) (hks : Plain ks)
    (hstop : ∀ k, stop k → k.isSuffix = false) : Reads (unaryLayer inner) ks stop good := by
  rw [← List.append_nil ks]
  exact unary_of_suffixes h hks (fun _ he => reads_suffixes_nil he hstop) fun _ hk => hk

theorem binary_of_unary (h : Reads (unaryLayer inner) ks stop good)
    (hstop : ∀ k, stop k → k.binary? = none) (least : Nat) : Reads (binaryLayer inner least) ks stop good := by
  refine h.bind_nil fun e he => (Rounds.done (.kind_bind fun k hk => ?_)).loop
  rw [List.headD_nil, hstop k hk]
  exact .pure he

theorem conditional_of_binary (h : Reads (binaryLayer inner 1) ks stop good)
    (hstop : ∀ k, stop k → k ≠ .symbol .question) : Reads (conditionalLayer inner) ks stop good :=
  h.bind_nil fun _ he => .accept_else (.pure he) hstop

theorem assignment_of_conditional (h : Reads (conditionalLayer inner) ks stop good)
    (hstop : ∀ k, stop k → k.assign? = none) : Reads (assignmentLayer inner) ks stop good := by
  refine h.bind_nil fun e he => .kind_bind fun k hk => ?_
  rw [List.headD_nil, hstop k hk]
  exact .pure he

theorem expression_of_assignment (h : Reads (assignmentLayer inner) ks stop good)
    (hstop : ∀ k, stop k → k ≠ .symbol .comma) : Reads (expressionLayer inner) ks stop good :=
  h.bind_nil fun _ he => .at_else (.pure he) hstop

end ExprParsers

end Jaf
