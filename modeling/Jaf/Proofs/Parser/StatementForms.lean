import Jaf.Parser.Block
import Jaf.Proofs.Tree.NestedPlaces

/-!
# The forms of statements

The parser of statements tells them apart by their first tokens and reads each form with a few steps of its
own. Here the forms are data. A `StmtTail` is what is left to read of a statement of which some nodes have
been read, and it ends with the statement made of them. Its type carries what such a statement is: the
children are the nodes that were read, in this order, and the place is the one it is given.

`BlockParsers.stmtLayer_eq` says that statements are read along these data. What holds of all statements that
are read is then shown by induction over a tail, with a case for each thing that can come next, and not form
by form.
-/

namespace Jaf

open Jaf.Parser

/-- The expressions that have a parser of their own in a statement. -/
inductive ExprRule where
  | expression
  | conditional
  /-- An expression in parentheses. -/
  | condition

/-- What is left to read of a statement after the given nodes. -/
inductive StmtTail : List Node → Type where
  /-- Nothing is left; the statement has the place that it is given. -/
  | done {ns : List Node} (make : Span → Stmt) (span : ∀ p, (make p).span = p := by exact fun _ => rfl)
      (children : ∀ p, (make p).children = ns := by exact fun _ => rfl) : StmtTail ns
  | expect {ns : List Node} (k : Token.Kind) (next : StmtTail ns) (ne : k ≠ .eof := by simp) : StmtTail ns
  | name {ns : List Node} (next : String → StmtTail ns) : StmtTail ns
  | expr {ns : List Node} (rule : ExprRule) (next : ∀ e, StmtTail (ns ++ [.expr e])) : StmtTail ns
  /-- An expression that need not be there, and the symbol behind it. -/
  | option {ns : List Node} (stop : Symbol) (next : ∀ e, StmtTail (ns ++ Node.ofOption e)) : StmtTail ns
  | block {ns : List Node} (next : ∀ b, StmtTail (ns ++ [.block b])) : StmtTail ns
  /-- The first clause of a `for` loop. -/
  | init {ns : List Node} (next : ∀ b, StmtTail (ns ++ [.block b])) : StmtTail ns
  | stmt {ns : List Node} (next : ∀ x, StmtTail (ns ++ [.stmt x])) : StmtTail ns
  /-- Two ways to go on, told by the next token, which belongs to the first of them. -/
  | ifNext {ns : List Node} (k : Token.Kind) (yes no : StmtTail ns) (ne : k ≠ .eof := by simp) : StmtTail ns

namespace StmtTail

/-- A statement that is a block. -/
def compound : StmtTail [] := .block fun b => .done (.compound · b)

/-- A statement that is an expression. -/
def expression : StmtTail [] :=
  .expr .expression fun e => .expect (.symbol .semicolon) (.done (.expr · e))

/-- The statement behind a name and a colon. -/
def label (text : String) : StmtTail [] := .stmt fun x => .done (.label · text x)

/-- An `if` after its keyword. -/
def ifTail : StmtTail [] :=
  .expr .condition fun e => .stmt fun x => .ifNext (.keyword .kwElse)
    (.stmt fun y => .done (.ifElse · e x y)) (.done (.ifThen · e x))

/-- A `for` loop after its keyword. -/
def forTail : StmtTail [] :=
  .expect (.symbol .leftParen) (.init fun i => .option .semicolon fun e => .option .rightParen fun u =>
    .stmt fun x => .done (.forLoop · i e u x) (fun _ => rfl) fun _ => by simp [Stmt.children])

end StmtTail

/-- What the first token of a statement tells about it. -/
inductive StmtStart where
  /-- The token is consumed, and tells the form. -/
  | word (tail : StmtTail [])
  | block
  | expr
  /-- The token behind a name tells a label from an expression. -/
  | name (text : String)

def StmtStart.of : Token.Kind → StmtStart
  | .symbol .leftBrace => .block
  | .symbol .semicolon => .word (.done .empty)
  | .keyword .kwIf => .word .ifTail
  | .keyword .kwWhile => .word (.expr .condition fun e => .stmt fun x => .done (.whileLoop · e x))
  | .keyword .kwDo => .word (.stmt fun x => .expect (.keyword .kwWhile) (.expr .condition fun e =>
      .expect (.symbol .semicolon) (.done (.doLoop · x e))))
  | .keyword .kwFor => .word .forTail
  | .keyword .kwSwitch => .word (.expr .condition fun e => .block fun b => .done (.switch · e b))
  | .keyword .kwCase => .word (.expr .conditional fun e => .expect (.symbol .colon) (.stmt fun x =>
      .done (.caseLabel · e x)))
  | .keyword .kwDefault => .word (.expect (.symbol .colon) (.stmt fun x => .done (.defaultLabel · x)))
  | .keyword .kwBreak => .word (.expect (.symbol .semicolon) (.done .breakOut))
  | .keyword .kwContinue => .word (.expect (.symbol .semicolon) (.done .continueOn))
  | .keyword .kwReturn => .word (.option .semicolon fun e => .done (.returnFrom · e))
  | .keyword .kwGoto => .word (.name fun text => .expect (.symbol .semicolon) (.done (.goto · text)))
  | .name text => .name text
  | _ => .expr

/-- Only an expression can be looked for at the end of file. -/
theorem StmtStart.ne_eof {k : Token.Kind} (h : StmtStart.of k ≠ .expr) : k ≠ .eof := by
  rintro rfl
  exact h rfl

theorem StmtStart.eq_name {k : Token.Kind} {text : String} (h : StmtStart.of k = .name text) : k = .name text := by
  unfold StmtStart.of at h
  split at h <;> cases h
  rfl

/-! Properties of the nodes read so far, with one more node. -/

section Nodes

variable {P : Node → Prop} {ns : List Node}

theorem Node.forall_mem_concat {n : Node} (hns : ∀ c ∈ ns, P c) (hn : P n) : ∀ c ∈ ns ++ [n], P c :=
  List.forall_mem_append.mpr ⟨hns, List.forall_mem_singleton.mpr hn⟩

theorem Node.forall_mem_option {e : Option Expr} (hns : ∀ c ∈ ns, P c) (he : ∀ x, e = some x → P (.expr x)) :
    ∀ c ∈ ns ++ ofOption e, P c := by
  cases e with
  | none => exact List.forall_mem_append.mpr ⟨hns, fun _ hc => absurd hc List.not_mem_nil⟩
  | some x => exact forall_mem_concat hns (he x rfl)

end Nodes

/-! ## Reading along the forms -/

section Parsers

variable {φ : Type} [Feed φ]

def ExprRule.parser : ExprRule → Parser φ Expr
  | expression => Parser.expression
  | conditional => Parser.conditional
  | condition => Parser.condition

/-- Reads what is left of a statement. -/
def StmtTail.parser (inner : BlockParsers φ) (finish : Parser φ Span) {ns : List Node} :
    StmtTail ns → Parser φ Stmt
  | done make _ _ => do return make (← finish)
  | expect k next _ => do
    Parser.expect k
    next.parser inner finish
  | name next => do (next (← Parser.name)).parser inner finish
  | expr rule next => do (next (← rule.parser)).parser inner finish
  | option stop next => do
    let e ← BlockParsers.exprBefore stop
    Parser.expect (.symbol stop)
    (next e).parser inner finish
  | block next => do (next (← inner.block)).parser inner finish
  | init next => do (next (← inner.forInit)).parser inner finish
  | stmt next => do (next (← inner.stmt)).parser inner finish
  | ifNext k yes no _ => do
    if ← accept k then yes.parser inner finish else no.parser inner finish

/-- Reads a statement from its first token on. -/
def StmtStart.parser (inner : BlockParsers φ) (finish : Parser φ Span) : StmtStart → Parser φ Stmt
  | word tail => do
    advance
    tail.parser inner finish
  | block => StmtTail.compound.parser inner finish
  | expr => StmtTail.expression.parser inner finish
  | name text => do
    if (← lookahead) = .symbol .colon then
      advance
      advance
      (StmtTail.label text).parser inner finish
    else
      StmtTail.expression.parser inner finish

/-- **Statements are read along the data of their forms.** -/
theorem BlockParsers.stmtLayer_eq (inner : BlockParsers φ) : inner.stmtLayer = (do
    let start ← span
    let finish : Parser φ Span := do return start.merge (← previous)
    (StmtStart.of (← kind)).parser inner finish) := by
  unfold stmtLayer
  congr 1
  funext start
  dsimp only
  congr 1
  funext k
  cases k with
  | symbol s => cases s <;> rfl
  | keyword w => cases w <;> rfl
  | _ => rfl

end Parsers

end Jaf
