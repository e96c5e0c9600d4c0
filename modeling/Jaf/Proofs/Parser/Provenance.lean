import Jaf.Proofs.Analysis.ProgramParts
import Jaf.Proofs.Parser.TokenFeed

/-!
# What programs are made of

A parser makes up neither places nor names. Every place in a tree is that of a token, or the least place
that covers two others, and every name is the text of a name token. A `Stock` is a set of places, closed
under covering, and a set of names. A parser draws from it if, reading lexemes out of the stock, it builds
its tree out of the stock and blames a place in it when it fails (`Parser.Draws`).

The rules for putting parsers together are those of `Parser.Gives`, with the stream as a further thing to
keep track of: each primitive says what it takes from the stream, and every sequence hands a good stream on.
Going through the grammar with them shows that all of it draws from any stock its lexemes come from. What a
stock holds is never looked at, so the same walk serves whatever is to be known of places and names.
-/

namespace Jaf

/-- Places that may stand in a program, and names that may. -/
structure Stock where
  span : Span → Prop
  name : String → Prop
  merge : ∀ {a b : Span}, span a → span b → span (a.merge b)

/-! ## Lexemes and trees out of a stock -/

/-- The name that a kind of token spells, if any, is in the stock. -/
def Token.Kind.From (m : Stock) (k : Token.Kind) : Prop := ∀ text, k = .name text → m.name text

/-- A token out of the stock. -/
structure Token.From (m : Stock) (t : Token) : Prop where
  kind : t.kind.From m
  span : m.span t.span

/-- A lexeme out of the stock. -/
structure Lexeme.From (m : Stock) (x : Lexeme) : Prop where
  span : m.span x.span
  kind : ∀ t, x = .ok t → t.kind.From m

/-- A reader whose lexemes all come out of the stock. -/
structure Reader.From (m : Stock) (r : Reader) : Prop where
  pending : ∀ x ∈ r.pending, Lexeme.From m x
  ahead : ∀ t ∈ r.ahead, t.From m
  last : r.last.From m

/-- A stream whose tokens all come out of the stock. -/
structure Stream.From (m : Stock) (s : Stream Reader) : Prop where
  current : s.current.From m
  previous : m.span s.previous
  feed : s.feed.From m

/-- The place that an error of parsing blames. -/
def ParseError.span : ParseError → Span
  | badText b => b.span
  | grammar p _ => p

/-- All places in an expression are in the stock. -/
def Expr.From (m : Stock) (e : Expr) : Prop := e.Each fun x => m.span x.span

/-- The place, the name and the initializer of a declaration come out of the stock. -/
structure VarDecl.Drawn (m : Stock) (d : VarDecl) : Prop where
  span : m.span d.span
  name : ∀ name, d.name = some name → m.name name
  init : ∀ e, d.init = some e → e.From m

/-- A type out of the stock, with all that is declared in its body. -/
inductive TypeSpec.From (m : Stock) : TypeSpec → Prop
  | intro {t : TypeSpec} : m.span t.span → (∀ name, t.name = some name → m.name name) →
      (∀ ds, t.members = some ds → ∀ d ∈ ds, d.Drawn m) →
      (∀ ds, t.members = some ds → ∀ d ∈ ds, d.type.From m) → TypeSpec.From m t

/-- A declaration out of the stock. -/
structure VarDecl.From (m : Stock) (d : VarDecl) : Prop extends d.Drawn m where
  type : d.type.From m

/-- A function out of the stock, but for its body. -/
structure FuncHead.From (m : Stock) (h : FuncHead) : Prop where
  span : m.span h.span
  name : m.name h.name
  result : h.result.From m
  params : ∀ d ∈ h.params, d.From m

/-- A part of a program out of the stock. -/
def Part.From (m : Stock) : Part → Prop
  | .var d => d.From m
  | .head h => h.From m
  | .value e => e.From m
  | .result p e => m.span p ∧ ∀ x, e = some x → x.From m
  | .enter | .leave => True

/-- Items all of whose parts come out of the stock. -/
def Item.AllFrom (m : Stock) (is : List Item) : Prop := ∀ p ∈ Item.partsOf is, p.From m

/-- A statement all of whose parts come out of the stock. -/
def Stmt.From (m : Stock) (x : Stmt) : Prop := ∀ p ∈ x.parts, p.From m

/-- A block whose place and parts come out of the stock. -/
structure Block.From (m : Stock) (b : Block) : Prop where
  span : m.span b.span
  parts : ∀ p ∈ b.parts, p.From m

variable {m : Stock}

/-! ## Small facts about trees -/

theorem Expr.From.span {e : Expr} (h : e.From m) : m.span e.span := h.self

/-- An expression may be moved to another place of the stock. -/
theorem Expr.From.moveTo {e : Expr} {p : Span} (h : e.From m) (hp : m.span p) : (e.moveTo p).From m := by
  unfold Expr.From at h ⊢
  cases e <;> simp_all [Expr.moveTo, Expr.withNote, Expr.span, Expr.note]

namespace TypeSpec.From

variable {t : TypeSpec}

theorem span (h : t.From m) : m.span t.span := by cases h; assumption

theorem name (h : t.From m) : ∀ name, t.name = some name → m.name name := by cases h; assumption

theorem members (h : t.From m) : ∀ ds, t.members = some ds → ∀ d ∈ ds, d.From m := by
  cases h with
  | intro _ _ hdrawn htype => exact fun ds hds d hd => ⟨hdrawn ds hds d hd, htype ds hds d hd⟩

theorem mk (hspan : m.span t.span) (hname : ∀ name, t.name = some name → m.name name)
    (hmembers : ∀ ds, t.members = some ds → ∀ d ∈ ds, d.From m) : t.From m :=
  .intro hspan hname (fun ds hds d hd => (hmembers ds hds d hd).toDrawn)
    fun ds hds d hd => (hmembers ds hds d hd).type

/-- A type without a body. -/
theorem plain {kind : TypeKind} {tag : Option String} {number : Option Nat} {p : Span} (hp : m.span p)
    (htag : ∀ name, tag = some name → m.name name) : TypeSpec.From m ⟨kind, tag, number, none, p⟩ :=
  mk hp htag fun _ h => nomatch h

theorem forNext (h : t.From m) : t.forNext.From m := by
  unfold TypeSpec.forNext
  split
  next _ name _ htag => exact plain h.span (htag ▸ h.name)
  next => exact h

end TypeSpec.From

theorem VarDecl.From.plain {name : Option String} {t : TypeSpec} {p : Span}
    (hname : ∀ text, name = some text → m.name text) (ht : t.From m) (hp : m.span p) :
    (VarDecl.plain name t p).From m :=
  ⟨⟨hp, hname, fun _ h => nomatch h⟩, ht⟩

theorem Item.AllFrom.nil : Item.AllFrom m [] := fun _ h => absurd h List.not_mem_nil

theorem Item.AllFrom.append {is js : List Item} (h : Item.AllFrom m is) (h' : Item.AllFrom m js) :
    Item.AllFrom m (is ++ js) := by
  unfold Item.AllFrom at *
  rw [Item.partsOf_eq_flatMap] at *
  rw [List.flatMap_append]
  exact List.forall_mem_append.mpr ⟨h, h'⟩

theorem Item.AllFrom.var {d : VarDecl} (h : d.From m) : Item.AllFrom m [.var d] := by
  intro p hp
  obtain rfl : p = .var d := by simpa using hp
  exact h

theorem Part.from_within {ps : List Part} : (∀ p ∈ Part.within ps, p.From m) ↔ ∀ p ∈ ps, p.From m := by
  rw [Part.within, List.forall_mem_append, List.forall_mem_append]
  refine ⟨fun h => h.2.1, fun h => ⟨?_, h, ?_⟩⟩
  · exact List.forall_mem_singleton.mpr trivial
  · exact List.forall_mem_singleton.mpr trivial

theorem Part.from_option {e : Option Expr} (h : ∀ x, e = some x → x.From m) :
    ∀ p ∈ Part.option e, p.From m := by
  cases e with
  | none => exact fun p hp => absurd hp List.not_mem_nil
  | some x => exact List.forall_mem_singleton.mpr (h x rfl)

/-! ## Readers -/

theorem Lexeme.From.token {t : Token} (h : Lexeme.From m (.ok t)) : t.From m := ⟨h.kind t rfl, h.span⟩

theorem Token.From.lexeme {t : Token} (h : t.From m) : Lexeme.From m (.ok t) :=
  ⟨h.span, fun t' ht => by cases ht; exact h.kind⟩

theorem Reader.From.next {r : Reader} (h : r.From m) :
    Lexeme.From m r.next.1 ∧ r.next.2.From m := by
  obtain ⟨pending, ahead, last⟩ := r
  cases ahead with
  | some t => exact ⟨(h.ahead t rfl).lexeme, h.pending, fun _ ht => (nomatch ht), h.last⟩
  | none =>
      cases pending with
      | nil => exact ⟨h.last.lexeme, h.pending, h.ahead, h.last⟩
      | cons x xs =>
          obtain ⟨hx, hxs⟩ := List.forall_mem_cons.mp h.pending
          exact ⟨hx, hxs, h.ahead, h.last⟩

theorem Reader.From.peek {r : Reader} (h : r.From m) :
    Lexeme.From m r.peek.1 ∧ r.peek.2.From m := by
  obtain ⟨hx, hr⟩ := h.next
  unfold Reader.peek
  generalize r.next = next at hx hr
  obtain ⟨x, r'⟩ := next
  cases x with
  | error b => exact ⟨hx, hr⟩
  | ok t =>
      refine ⟨hx, hr.pending, fun t' ht => ?_, hr.last⟩
      cases ht
      exact hx.token

namespace Parser

variable {α β : Type}

/-! ## Parsers that draw from a stock -/

/--
Out of a stream from the stock, the parser builds something with the property `Q` and leaves a stream from
the stock, or fails at a place in it.
-/
structure Draws (m : Stock) (p : Parser Reader α) (Q : α → Prop) : Prop where
  ok : ∀ {s a s'}, s.From m → p s = .ok (a, s') → Q a ∧ s'.From m
  error : ∀ {s e}, s.From m → p s = .error e → m.span e.span

theorem Draws.pure {Q : α → Prop} {a : α} (h : Q a) : (Pure.pure a : Parser Reader α).Draws m Q where
  ok hs ha := by cases ha; exact ⟨h, hs⟩
  error _ he := nomatch he

/-- A sequence: what the first parser builds is known to the second. -/
theorem Draws.bind {p : Parser Reader α} {f : α → Parser Reader β} {P : α → Prop} {Q : β → Prop}
    (hp : p.Draws m P) (hf : ∀ a, P a → (f a).Draws m Q) : Draws m (p >>= f) Q := by
  constructor
  · intro s b s' hs hb
    cases hrun : p s with
    | error e =>
        simp only [Bind.bind, StateT.bind, hrun, Except.bind] at hb
        cases hb
    | ok r =>
        obtain ⟨a, t⟩ := r
        simp only [Bind.bind, StateT.bind, hrun, Except.bind] at hb
        obtain ⟨ha, ht⟩ := hp.ok hs hrun
        exact (hf a ha).ok ht hb
  · intro s e hs he
    cases hrun : p s with
    | error e' =>
        simp only [Bind.bind, StateT.bind, hrun, Except.bind] at he
        cases he
        exact hp.error hs hrun
    | ok r =>
        obtain ⟨a, t⟩ := r
        simp only [Bind.bind, StateT.bind, hrun, Except.bind] at he
        obtain ⟨ha, ht⟩ := hp.ok hs hrun
        exact (hf a ha).error ht he

theorem Draws.ite {c : Prop} [Decidable c] {p q : Parser Reader α} {Q : α → Prop} (hp : p.Draws m Q)
    (hq : q.Draws m Q) : Draws m (if c then p else q) Q := by
  split
  · exact hp
  · exact hq

/-! ## What the primitives take -/

theorem draws_span : (span : Parser Reader Span).Draws m m.span where
  ok hs ha := by cases ha; exact ⟨hs.current.span, hs⟩
  error _ he := nomatch he

theorem draws_previous : (previous : Parser Reader Span).Draws m m.span where
  ok hs ha := by cases ha; exact ⟨hs.previous, hs⟩
  error _ he := nomatch he

theorem draws_kind : (kind : Parser Reader Token.Kind).Draws m (·.From m) where
  ok hs ha := by cases ha; exact ⟨hs.current.kind, hs⟩
  error _ he := nomatch he

theorem draws_failAt {p : Span} {c : SyntaxCause} {Q : α → Prop} (h : m.span p) :
    (failAt p c : Parser Reader α).Draws m Q where
  ok _ ha := nomatch ha
  error _ he := by cases he; exact h

theorem draws_unexpected {what : Expected} {Q : α → Prop} :
    (unexpected what : Parser Reader α).Draws m Q where
  ok _ ha := nomatch ha
  error hs he := by cases he; exact hs.current.span

theorem draws_giveUp {Q : α → Prop} : (giveUp : Parser Reader α).Draws m Q where
  ok _ ha := nomatch ha
  error hs he := by cases he; exact hs.current.span

theorem draws_isTypeName (text : String) :
    (isTypeName text : Parser Reader Bool).Draws m fun _ => True where
  ok hs ha := by cases ha; exact ⟨trivial, hs⟩
  error _ he := nomatch he

theorem draws_addTypeName (text : String) :
    (addTypeName text : Parser Reader Unit).Draws m fun _ => True where
  ok hs ha := by cases ha; exact ⟨trivial, hs.current, hs.previous, hs.feed⟩
  error _ he := nomatch he

theorem draws_advance : (advance : Parser Reader Unit).Draws m fun _ => True := by
  constructor
  · intro s a s' hs ha
    obtain ⟨hx, hr⟩ := hs.feed.next
    unfold advance at ha
    split at ha
    next t r hnext =>
      have hnext : s.feed.next = (.ok t, r) := hnext
      rw [hnext] at hx hr
      cases ha
      exact ⟨trivial, hx.token, hs.current.span, hr⟩
    next => cases ha
  · intro s e hs he
    have hx := hs.feed.next.1
    unfold advance at he
    split at he
    next => cases he
    next b r hnext =>
      have hnext : s.feed.next = (.error b, r) := hnext
      rw [hnext] at hx
      cases he
      exact hx.span

theorem draws_lookahead : (lookahead : Parser Reader Token.Kind).Draws m fun _ => True := by
  constructor
  · intro s a s' hs ha
    have hr := hs.feed.peek.2
    unfold lookahead at ha
    split at ha
    next t r hpeek =>
      have hpeek : s.feed.peek = (.ok t, r) := hpeek
      rw [hpeek] at hr
      cases ha
      exact ⟨trivial, hs.current, hs.previous, hr⟩
    next => cases ha
  · intro s e hs he
    have hx := hs.feed.peek.1
    unfold lookahead at he
    split at he
    next => cases he
    next b r hpeek =>
      have hpeek : s.feed.peek = (.error b, r) := hpeek
      rw [hpeek] at hx
      cases he
      exact hx.span

theorem draws_at (k : Token.Kind) : (at? k : Parser Reader Bool).Draws m fun _ => True :=
  draws_kind.bind fun _ _ => .pure trivial

theorem draws_startsType : (startsType : Parser Reader Bool).Draws m fun _ => True := by
  refine draws_kind.bind fun k _ => ?_
  split
  · exact draws_isTypeName _
  · exact .pure trivial

theorem draws_accept (k : Token.Kind) : (accept k : Parser Reader Bool).Draws m fun _ => True :=
  draws_kind.bind fun _ _ => .ite (draws_advance.bind fun _ _ => .pure trivial) (.pure trivial)

theorem draws_expect (k : Token.Kind) : (expect k : Parser Reader Unit).Draws m fun _ => True :=
  draws_kind.bind fun _ _ => .ite draws_advance draws_unexpected

theorem draws_name? : (name? : Parser Reader (Option String)).Draws m
    fun tag => ∀ text, tag = some text → m.name text := by
  refine draws_kind.bind fun k hk => ?_
  split
  next text =>
    refine draws_advance.bind fun _ _ => .pure fun text' ht => ?_
    cases ht
    exact hk text rfl
  next => exact .pure fun _ ht => nomatch ht

theorem draws_name : (name : Parser Reader String).Draws m m.name := by
  refine draws_name?.bind fun tag htag => ?_
  split
  next text => exact .pure (htag text rfl)
  next => exact draws_unexpected

/-- The place from `start` to the token consumed last. -/
theorem draws_finish {start : Span} (h : m.span start) :
    (do return start.merge (← previous) : Parser Reader Span).Draws m m.span :=
  draws_previous.bind fun _ hp => .pure (m.merge h hp)

theorem draws_loopN {turn : α → Parser Reader (Turn α β)} {I : α → Prop} {Q : β → Prop}
    (hturn : ∀ a, I a → (turn a).Draws m (Turn.Keeps I Q)) :
    ∀ (n : Nat) {a : α}, I a → (loopN turn n a).Draws m Q := by
  intro n
  induction n with
  | zero => intro a _; exact draws_giveUp
  | succ n ih =>
      intro a ha
      refine (hturn a ha).bind fun t ht => ?_
      cases t with
      | again a' => exact ih ht
      | done b => exact .pure ht

/-- A parser that looks at the stream before it starts draws as all it may start as do. -/
theorem Draws.atDepth {p : Nat → Parser Reader α} {Q : α → Prop} (h : ∀ n, (p n).Draws m Q) :
    Draws m (fun s => p (depth s) s) Q :=
  ⟨fun hs ha => (h _).ok hs ha, fun hs he => (h _).error hs he⟩

/-- A loop: every turn keeps the invariant, and the last one gives the result. -/
theorem draws_loop {turn : α → Parser Reader (Turn α β)} {I : α → Prop} {Q : β → Prop}
    (hturn : ∀ a, I a → (turn a).Draws m (Turn.Keeps I Q)) {a : α} (ha : I a) :
    (loop turn a).Draws m Q :=
  .atDepth fun n => draws_loopN hturn n ha

end Parser

/-! ## Expressions -/

namespace ExprParsers

open Jaf.Parser

/-- The parsers that the layers of the grammar come back to draw from the stock. -/
structure Draw (m : Stock) (inner : ExprParsers Reader) : Prop where
  expression : inner.expression.Draws m (·.From m)
  assignment : inner.assignment.Draws m (·.From m)
  conditional : inner.conditional.Draws m (·.From m)
  binary : ∀ least, (inner.binary least).Draws m (·.From m)
  unary : inner.unary.Draws m (·.From m)

theorem draws_literal {p : Span} {make : Note → Except SyntaxCause Expr} (hp : m.span p)
    (h : ∀ e, make (.ofSpan p) = .ok e → e.From m) :
    (literal p make : Parser Reader Expr).Draws m (·.From m) := by
  unfold literal
  split
  next e he => exact .pure (h e he)
  next => exact draws_failAt hp

/-- A numeric literal is a leaf at its place. -/
theorem draws_numeric {α : Type} {p : Span} {cause : SyntaxCause} {make : Note → α → Expr}
    {value : Option α} (hp : m.span p) (h : ∀ v, (make (.ofSpan p) v).From m) :
    (literal p (numeric cause make value) : Parser Reader Expr).Draws m (·.From m) := by
  refine draws_literal hp fun e he => ?_
  cases value with
  | none => cases he
  | some v =>
      cases he
      exact h v

variable {inner : ExprParsers Reader}

theorem draws_arguments (h : inner.Draw m) :
    inner.arguments.Draws m fun args => ∀ a ∈ args, a.From m := by
  refine (draws_accept _).bind fun _ _ => .ite (.pure fun _ ha => absurd ha List.not_mem_nil) ?_
  refine Draws.bind (P := fun args => ∀ a ∈ args, a.From m) ?_ fun args hargs =>
    (draws_expect _).bind fun _ _ => .pure hargs
  refine draws_loop (I := fun args => ∀ a ∈ args, a.From m) (fun args hargs => ?_)
    fun _ ha => absurd ha List.not_mem_nil
  refine h.assignment.bind fun e he => (draws_accept _).bind fun _ _ => ?_
  have hadd : ∀ a ∈ args ++ [e], a.From m :=
    List.forall_mem_append.mpr ⟨hargs, List.forall_mem_singleton.mpr he⟩
  exact .ite (.pure hadd) (.pure hadd)

theorem draws_primary (h : inner.Draw m) : inner.primary.Draws m (·.From m) := by
  refine draws_span.bind fun start hstart => draws_kind.bind fun k _ => ?_
  split
  -- numbers and strings
  · exact draws_advance.bind fun _ _ => draws_numeric hstart fun v => Expr.each_int.mpr hstart
  · exact draws_advance.bind fun _ _ => draws_numeric hstart fun v => Expr.each_int.mpr hstart
  · exact draws_advance.bind fun _ _ => draws_numeric hstart fun v => Expr.each_float.mpr hstart
  next text _ =>
    refine draws_advance.bind fun _ _ => draws_literal hstart fun e he => ?_
    cases hv : stringLiteral text with
    | error c => rw [hv] at he; cases he
    | ok v =>
        rw [hv] at he
        cases he
        exact Expr.each_string.mpr hstart
  -- names and calls
  · refine draws_advance.bind fun _ _ => (draws_accept _).bind fun _ _ => .ite ?_ ?_
    · exact (draws_arguments h).bind fun args hargs => draws_previous.bind fun p hp =>
        .pure (Expr.each_call.mpr ⟨m.merge hstart hp, hargs⟩)
    · exact .pure (Expr.each_ident.mpr hstart)
  -- parentheses
  · exact draws_advance.bind fun _ _ => h.expression.bind fun e he =>
      (draws_expect _).bind fun _ _ => draws_previous.bind fun p hp =>
        .pure (he.moveTo (m.merge hstart hp))
  · exact draws_unexpected

theorem draws_suffixes {e : Expr} (he : e.From m) : (suffixes e : Parser Reader Expr).Draws m (·.From m) := by
  refine draws_loop (I := (·.From m)) (fun e he => draws_kind.bind fun k _ => ?_) he
  split
  · exact draws_advance.bind fun _ _ => draws_name.bind fun field _ => draws_previous.bind fun p hp =>
      .pure (Expr.each_member.mpr ⟨m.merge he.span hp, he⟩)
  · exact draws_advance.bind fun _ _ => draws_previous.bind fun p hp =>
      .pure (Expr.each_unary.mpr ⟨m.merge he.span hp, he⟩)
  · exact draws_advance.bind fun _ _ => draws_previous.bind fun p hp =>
      .pure (Expr.each_unary.mpr ⟨m.merge he.span hp, he⟩)
  · exact draws_span.bind fun p hp => draws_failAt hp
  · exact .pure he

theorem draws_operand (h : inner.Draw m) {start : Span} (hstart : m.span start) (op : UnaryOp) :
    (inner.operand start op).Draws m (·.From m) := by
  refine draws_span.bind fun p hp => draws_kind.bind fun k _ => .ite ?_ ?_
  · exact draws_advance.bind fun _ _ => .pure (Expr.each_int.mpr (m.merge hstart hp))
  · exact h.unary.bind fun e he => .pure (Expr.each_unary.mpr ⟨m.merge hstart he.span, he⟩)

theorem draws_castTail (h : inner.Draw m) {start : Span} (hstart : m.span start) (target : TypeKind) :
    (inner.castTail start target).Draws m (·.From m) :=
  draws_advance.bind fun _ _ => (draws_expect _).bind fun _ _ => h.unary.bind fun _ he =>
    .pure (Expr.each_cast.mpr ⟨m.merge hstart he.span, he⟩)

theorem draws_unaryLayer (h : inner.Draw m) : inner.unaryLayer.Draws m (·.From m) := by
  have hprimary : (inner.primary >>= suffixes).Draws m (·.From m) :=
    (draws_primary h).bind fun e he => draws_suffixes he
  refine draws_span.bind fun start hstart => draws_kind.bind fun k _ => ?_
  split
  · exact draws_advance.bind fun _ _ => h.unary
  · refine draws_lookahead.bind fun next _ => ?_
    split
    · exact draws_advance.bind fun _ _ => draws_castTail h hstart _
    · exact hprimary
  · split
    · exact draws_advance.bind fun _ _ => draws_operand h hstart _
    · exact hprimary

theorem draws_binaryLayer (h : inner.Draw m) (least : Nat) :
    (inner.binaryLayer least).Draws m (·.From m) := by
  refine (draws_unaryLayer h).bind fun first hfirst => ?_
  refine draws_loop (I := (·.From m)) (fun left hleft => draws_kind.bind fun k _ => ?_) hfirst
  split
  · refine .ite (.pure hleft) (draws_advance.bind fun _ _ => ?_)
    exact (h.binary _).bind fun right hright =>
      .pure (Expr.each_binary.mpr ⟨m.merge hleft.span hright.span, hleft, hright⟩)
  · exact .pure hleft

theorem draws_conditionalLayer (h : inner.Draw m) : inner.conditionalLayer.Draws m (·.From m) := by
  refine (draws_binaryLayer h 1).bind fun c hc => (draws_accept _).bind fun _ _ => .ite ?_ (.pure hc)
  exact h.expression.bind fun yes hyes => (draws_expect _).bind fun _ _ => h.conditional.bind fun no hno =>
    .pure (Expr.each_ternary.mpr ⟨m.merge hc.span hno.span, hc, hyes, hno⟩)

theorem draws_assignmentLayer (h : inner.Draw m) : inner.assignmentLayer.Draws m (·.From m) := by
  refine (draws_conditionalLayer h).bind fun target htarget => draws_kind.bind fun k _ => ?_
  split
  · exact draws_advance.bind fun _ _ => h.assignment.bind fun value hvalue =>
      .pure (Expr.each_assign.mpr ⟨m.merge htarget.span hvalue.span, htarget, hvalue⟩)
  · exact .pure htarget

theorem draws_expressionLayer (h : inner.Draw m) : inner.expressionLayer.Draws m (·.From m) := by
  refine (draws_assignmentLayer h).bind fun first hfirst => (draws_at _).bind fun _ _ =>
    .ite ?_ (.pure hfirst)
  refine Draws.bind (P := fun es => ∀ e ∈ es, e.From m) ?_ fun es hes => draws_previous.bind fun p hp =>
    .pure (Expr.each_comma.mpr ⟨m.merge hfirst.span hp, hes⟩)
  refine draws_loop (I := fun es => ∀ e ∈ es, e.From m) (fun es hes => ?_) (by simpa using hfirst)
  refine (draws_accept _).bind fun _ _ => .ite ?_ (.pure hes)
  exact h.assignment.bind fun e he =>
    .pure (List.forall_mem_append.mpr ⟨hes, List.forall_mem_singleton.mpr he⟩)

end ExprParsers

theorem draw_exprParsers : ∀ n : Nat, (exprParsers n : ExprParsers Reader).Draw m := by
  intro n
  induction n with
  | zero =>
      exact ⟨Parser.draws_giveUp, Parser.draws_giveUp, Parser.draws_giveUp, fun _ => Parser.draws_giveUp,
        Parser.draws_giveUp⟩
  | succ n ih =>
      exact ⟨ExprParsers.draws_expressionLayer ih, ExprParsers.draws_assignmentLayer ih,
        ExprParsers.draws_conditionalLayer ih, ExprParsers.draws_binaryLayer ih,
        ExprParsers.draws_unaryLayer ih⟩

namespace Parser

theorem draws_expression : (expression : Parser Reader Expr).Draws m (·.From m) :=
  .atDepth fun n => (draw_exprParsers n).expression

theorem draws_assignment : (assignment : Parser Reader Expr).Draws m (·.From m) :=
  .atDepth fun n => (draw_exprParsers n).assignment

theorem draws_conditional : (conditional : Parser Reader Expr).Draws m (·.From m) :=
  .atDepth fun n => (draw_exprParsers n).conditional

theorem draws_condition : (condition : Parser Reader Expr).Draws m (·.From m) :=
  (draws_expect _).bind fun _ _ => draws_expression.bind fun _ he => (draws_expect _).bind fun _ _ => .pure he

end Parser

end Jaf
